import ChessEgt.Library.Multichoose
import ChessEgt.Library.OrderedSet
import ChessEgt.TableId

/-!
# Table selection

* `TableId.cmp` — the order of table identities;
* `fileCombinations`, `pawnOrderCombinations`, `materialNames` — the enumerations;
* `OrientedMaterial`, `SelectorPrefix` — material names and hierarchy prefixes;
* `TableSelector.parse`, `TableSelector.resolve` — selectors and the tables they select.
-/

namespace ChessEgt

/-! ### The order of identities -/

/-- The bytes of a name that its order is by: pieces in the order KQRBNP, without markers. -/
def nameKey (name : List Char) : List ℕ :=
  (name.filter (· ≠ 'o')).map fun c =>
    match c with
    | 'K' => 0
    | 'Q' => 1
    | 'R' => 2
    | 'B' => 3
    | 'N' => 4
    | 'P' => 5
    | c => c.toNat

/-- Pieces, then pawns, then names; markers decide last. -/
def TableId.cmp (self other : TableId) : Run Ordering := do
  match ((compare self.nPieces other.nPieces).then (compare self.nPawns other.nPawns)).then
      (List.compareLex compare (nameKey self.name) (nameKey other.name)) with
  | .eq =>
    if self = other then pure .eq
    else do
      let a ← self.parsedElements
      let b ← other.parsedElements
      pure (List.compareLex EgtElement.cmp a b)
  | ordering => pure ordering

/-- Oriented material, retaining the side to move on the left. -/
def TableId.material (id : TableId) : List Char := id.name.filter fun c => !('a' ≤ c && c ≤ 'z')

/-! ### Pawn layouts -/

/-- The ascending lists of `k` files. -/
def fileCombinations (k : ℕ) : List (List File) := Multichoose.selections k (List.finRange 8)

/-- Coarse filter for sorted file lists; color-word ties are resolved by `PawnKey`. -/
def isCanonical (stm sntm : List File) : Bool := compareFileReflection stm sntm ≠ .gt

/-- The layouts with the pawns of one more file in every order. -/
def extendLayouts (layouts : List (List EgtElement)) (file : File) (nStm nSntm : ℕ)
    (h : nStm + nSntm ≤ 6) : List (List EgtElement) :=
  if nStm + nSntm = 0 then layouts
  else ((List.range (1 <<< (nStm + nSntm))).filter (countOnes · = nSntm)).flatMap fun mask =>
    layouts.map (· ++ [.pawnGroup file ⟨(List.range (nStm + nSntm)).map (wordSide mask),
      by rw [List.length_map, List.length_range]; exact h⟩])

/-- Enumerates rank color words for fixed pawn-file multisets. -/
def pawnOrderCombinations (stm sntm : List File) : List (List EgtElement) :=
  if h : ∀ file, stm.count file + sntm.count file ≤ 6 then
    (List.finRange 8).foldl (fun layouts file =>
      extendLayouts layouts file (stm.count file) (sntm.count file) (h file)) [[]]
  else []

/-! ### Material names -/

/-- The role of an uppercase letter. -/
def upperRole (c : Char) : Option Role :=
  match c with
  | 'P' => some .pawn
  | c => pieceRole c

/-- The letters of one side in the order KQRBNP. -/
def roleText (roles : Role → ℕ) : List Char :=
  Role.all.reverse.flatMap fun role => List.replicate (roles role) role.upperChar

/-- The parts of a text before and after the first separator. -/
def splitOnce (c : Char) (text : List Char) : Option (List Char × List Char) :=
  if c ∈ text then some (text.take (text.idxOf c), text.drop (text.idxOf c + 1)) else none

structure OrientedMaterial where
  stmPawns : ℕ
  sntmPawns : ℕ
  pieces : List EgtElement
  sideCounts : ℕ × ℕ

def invalidName {α : Type} (name : List Char) (reason : String) : Run α :=
  .error (.error (.invalidEndgameName name reason))

namespace OrientedMaterial

/-- Counts one letter. -/
def countLetter (name : List Char) (roles : Role → ℕ) (c : Char) : Run (Role → ℕ) :=
  match upperRole c with
  | none => invalidName name "material must contain only uppercase KQRBNP"
  | some role => pure (Function.update roles role (roles role + 1))

/-- Counts the letters of one side. -/
def parseSide (name text : List Char) : Run (Role → ℕ) := do
  let roles ← text.foldlM (countLetter name) (fun _ => 0)
  if roles .king ≠ 1 then
    invalidName name "each side must have exactly one king"
  else if roleText roles ≠ text then
    invalidName name "noncanonical material order; expected KQRBNP"
  else pure roles

/-- The piece groups of one side other than pawns. -/
def pieceGroups (roles : Role → ℕ) (side : EgtSide) : List EgtElement :=
  (Role.all.reverse.filter fun role => role ≠ .pawn ∧ roles role ≠ 0).map
    fun role => .pieceGroup role side (roles role)

def parse (name : List Char) : Run OrientedMaterial := do
  match splitOnce '_' name with
  | none => invalidName name "missing '_' separator"
  | some (stm, sntm) => do
    let stmRoles ← parseSide name stm
    let sntmRoles ← parseSide name sntm
    if ¬ (2 ≤ stm.length + sntm.length ∧ stm.length + sntm.length ≤ maxPieces) then
      invalidName name "piece count must be between two and eight"
    else pure {
      stmPawns := stmRoles .pawn
      sntmPawns := sntmRoles .pawn
      pieces := pieceGroups stmRoles .sideToMove ++ pieceGroups sntmRoles .sideNotToMove
      sideCounts := (stm.length, sntm.length) }

end OrientedMaterial

/-! ### Hierarchy prefixes -/

/-- The components of a hierarchy prefix that are given. -/
structure SelectorPrefix where
  n : Option ℕ
  split : Option (ℕ × ℕ)
  opposing : Option ℕ
  pawns : Option ℕ

namespace SelectorPrefix

/-- No component is given. -/
def empty : SelectorPrefix := ⟨none, none, none, none⟩

/-- Whether tables of a material may match. -/
def matchesMaterial (self : SelectorPrefix) (material : OrientedMaterial) : Bool :=
  let (a, b) := material.sideCounts
  self.n.all (· = a + b) && self.split.all (· = (max a b, min a b)) &&
    self.pawns.all (· = material.stmPawns + material.sntmPawns) &&
    self.opposing.all (· ≤ min material.stmPawns material.sntmPawns)

def matchesTable (self : SelectorPrefix) (table : TableId) : Run Bool := do
  let (a, b) ← table.sidePieceCounts
  let op ← table.opposingPairs
  pure (self.n.all (· = table.nPieces) && self.split.all (· = (max a b, min a b)) &&
    self.opposing.all (· = op) && self.pawns.all (· = table.nPawns))

end SelectorPrefix

/-- The table of a pawn layout, if it is canonical and matches. -/
def OrientedMaterial.tableOf (self : OrientedMaterial) (pre : SelectorPrefix)
    (layout : List EgtElement) : Run (Option TableId) := do
  let (_, reflected) ← (PawnKey.fromElements layout).canonicalized
  if reflected then pure none
  else do
    let table ← TableId.fromElements (layout ++ self.pieces)
    let found ← pre.matchesTable table
    pure (if found then some table else none)

/-- The tables of a material that match. -/
def OrientedMaterial.tables (self : OrientedMaterial) (pre : SelectorPrefix) :
    Run (List TableId) :=
  if !pre.matchesMaterial self then pure []
  else do
    let layouts := (fileCombinations self.stmPawns).flatMap fun a =>
      ((fileCombinations self.sntmPawns).filter fun b => isCanonical a b).flatMap fun b =>
        pawnOrderCombinations a b
    let found ← layouts.mapM (self.tableOf pre)
    pure found.reduceOption

/-- All oriented materials, including both sides of asymmetric pairs. -/
def materialNames (n : ℕ) : Run (List (List Char)) := do
  let rest ← Run.sub n 2
  pure ((List.range (rest + 1)).flatMap fun stm =>
    (Multichoose.selections stm ['Q', 'R', 'B', 'N', 'P']).flatMap fun a =>
      (Multichoose.selections (rest - stm) ['Q', 'R', 'B', 'N', 'P']).map fun b =>
        'K' :: a ++ '_' :: 'K' :: b)

/-! ### Selectors -/

/-- A number in decimal digits without leading zeros. -/
def decimal (text : List Char) : Option ℕ :=
  if text.isEmpty || !text.all Char.isDigit || (1 < text.length && text.head? = some '0') then none
  else if Nat.ofDigitChars 10 text 0 ≤ usizeMax then some (Nat.ofDigitChars 10 text 0)
  else none

/-- What a selector selects. -/
inductive Target where
  | hierarchy (pre : SelectorPrefix)
  | material (material : OrientedMaterial)
  | exactTable (table : TableId)

/-- A validated selector. -/
structure TableSelector where
  source : List Char
  target : Target

namespace SelectorPrefix

variable (self : SelectorPrefix) (selector : List Char)

/-- Reads the piece count. -/
def readCount : Option (List Char) → Run SelectorPrefix
  | none => pure self
  | some part => do
    match decimal part with
    | none => invalidName selector "expected piece count"
    | some n =>
      if ¬ (2 ≤ n ∧ n ≤ maxPieces) then
        invalidName selector "piece count must be between two and eight"
      else pure { self with n := some n }

/-- Reads the material split. -/
def readSplit : Option (List Char) → Run SelectorPrefix
  | none => pure self
  | some part => do
    match splitOnce 'v' part with
    | none => invalidName selector "expected maxvmin material split"
    | some (a, b) =>
      match decimal a with
      | none => invalidName selector "invalid material split"
      | some a =>
        match decimal b with
        | none => invalidName selector "invalid material split"
        | some b =>
          if b = 0 ∨ a < b ∨ (if a + b ≤ usizeMax then some (a + b) else none) ≠ self.n then
            invalidName selector "material split must be maxvmin and sum to piece count"
          else pure { self with split := some (a, b) }

/-- Reads the number of opposing pairs. -/
def readOpposing : Option (List Char) → Run SelectorPrefix
  | none => pure self
  | some part => do
    match (part.dropPrefix? "op".toList).bind decimal with
    | none => invalidName selector "expected opK opposing-pair count"
    | some opposing =>
      let split ← Run.expect self.split "called unwrap on a None value"
      let most ← Run.sub split.2 1
      if most < opposing then invalidName selector "too many opposing pawn pairs"
      else pure { self with opposing := some opposing }

/-- Reads the number of pawns. -/
def readPawns : Option (List Char) → Run SelectorPrefix
  | none => pure self
  | some part => do
    match (part.dropSuffix? "pawns".toList).bind decimal with
    | none => invalidName selector "expected Npawns pawn count"
    | some pawns =>
      let n ← Run.expect self.n "called unwrap on a None value"
      let most ← Run.sub n 2
      let opposing ← Run.expect self.opposing "called unwrap on a None value"
      if most < pawns ∨ pawns < 2 * opposing then
        invalidName selector "pawn count is inconsistent with piece/opposing-pair counts"
      else pure { self with pawns := some pawns }

end SelectorPrefix

namespace TableSelector

/-- The selector without an optional trailing slash. -/
def stripSlash (selector : List Char) : List Char :=
  if selector.getLast? = some '/' then selector.dropLast else selector

def parse (selector : List Char) : Run TableSelector :=
  let text := stripSlash selector
  if text = [] then invalidName selector "empty selector"
  else if '_' ∈ text then
    if '/' ∈ selector then
      invalidName selector "material and exact selectors must be bare names"
    else if text.any fun c => 'a' ≤ c && c ≤ 'z' then do
      let table ← TableId.parse text
      pure ⟨selector, .exactTable table⟩
    else do
      let material ← OrientedMaterial.parse text
      pure ⟨selector, .material material⟩
  else
    let parts := text.splitOn '/'
    if parts.any List.isEmpty then invalidName selector "empty selector component"
    else if 4 < parts.length then invalidName selector "too many hierarchy components"
    else do
      let pre ← SelectorPrefix.empty.readCount selector parts[0]?
      let pre ← pre.readSplit selector parts[1]?
      let pre ← pre.readOpposing selector parts[2]?
      let pre ← pre.readPawns selector parts[3]?
      pure ⟨selector, .hierarchy pre⟩

/-- The candidates of a selector, in the order of the enumeration. -/
def candidates (self : TableSelector) : Run (List TableId) :=
  match self.target with
  | .exactTable table => pure [table]
  | .material material => material.tables SelectorPrefix.empty
  | .hierarchy pre => do
    let n ← Run.expect pre.n "called unwrap on a None value"
    let names ← materialNames n
    let found ← names.mapM fun name => do
      let material ← OrientedMaterial.parse name
      material.tables pre
    pure found.flatten

/-- The identities in dependency order, with table names ordered by KQRBNP. -/
def resolve (self : TableSelector) : Run (List TableId) := do
  let tables ← self.candidates
  if tables = [] then invalidName self.source "selector contains no tables"
  else OrderedSet.collect TableId.cmp tables

end TableSelector

end ChessEgt
