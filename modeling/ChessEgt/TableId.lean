import ChessEgt.PieceSet
import ChessEgt.Chess.Rules

/-!
# Table names and position routing

* `PawnKey` — the pawn color words of the eight files, from material or from a position, with
  their reflection, twin and canonical orientation;
* `formatName`, `parseElements` — table names and the material they stand for;
* `TableId`, `positionTableName` — validated names, and the routing of positions.

Names are lists of characters.
-/

namespace ChessEgt

/-! ### Pawn color words -/

/-- The color word of a file: a leading one, then one bit a pawn, the lowest bit for the lowest
    normalized rank; a set bit is a pawn of the side not to move. -/
def fileWord (order : List EgtSide) : ℕ :=
  order.zipIdx.foldl (fun word x => if x.1 = .sideNotToMove then word ||| 1 <<< x.2 else word)
    (1 <<< order.length)

/-- The side of the pawn at a bit of a color word. -/
def wordSide (word i : ℕ) : EgtSide :=
  if word &&& 1 <<< i = 0 then .sideToMove else .sideNotToMove

/-- Pawn color words by file. -/
@[ext] structure PawnKey where
  files : File → ℕ

namespace PawnKey

instance : DecidableEq PawnKey := fun a b => decidable_of_iff (a.files = b.files) PawnKey.ext_iff.symm

def fromElements (elements : List EgtElement) : PawnKey where
  files := elements.foldl (fun files e => match e with
    | .pawnGroup file order => Function.update files file (fileWord order.val)
    | .pieceGroup _ _ _ => files) (fun _ => 1)

/-- The color word of a file of a position. -/
def positionWord (position : Chess) (file : File) : ℕ :=
  let enemy := position.board.byColor position.turn.other
  let pawns := (position.board.pawns.inter (Bitboard.fromFile file)).toList
  let pawns := if position.turn = .black then pawns.reverse else pawns
  pawns.zipIdx.foldl (fun word x => if enemy x.1 then word ||| 1 <<< x.2 else word)
    (1 <<< pawns.length)

def fromPosition (position : Chess) : PawnKey := ⟨positionWord position⟩

def reflected (key : PawnKey) : PawnKey := ⟨fun f => key.files f.rev⟩

def isSymmetric (key : PawnKey) : Bool := key = key.reflected

/-- The color word of a file seen from the other side. -/
def twinWord (word : ℕ) : ℕ :=
  (List.range word.log2).foldl (fun target i =>
    if word &&& 1 <<< i = 0 then target ||| 1 <<< (word.log2 - 1 - i) else target)
    (1 <<< word.log2)

def twin (key : PawnKey) : PawnKey := ⟨fun f => twinWord (key.files f)⟩

/-- The words of the files a to h. -/
def toList (key : PawnKey) : List ℕ := List.ofFn key.files

def cmp (a b : PawnKey) : Ordering := compareOfLessAndEq a.toList b.toList

/-- The files of the pawns of a side, in ascending order. -/
def pawnFiles (key : PawnKey) (side : EgtSide) : List File :=
  (List.finRange 8).flatMap fun file =>
    ((List.range (key.files file).log2).filter fun i => wordSide (key.files file) i = side).map
      fun _ => file

/-- The pawn groups of the files with pawns. -/
def elements (key : PawnKey) : Run (List EgtElement) :=
  ((List.finRange 8).filter fun file => (key.files file).log2 ≠ 0).mapM fun file =>
    let order := (List.range (key.files file).log2).map (wordSide (key.files file))
    if h : order.length ≤ 6 then .ok (.pawnGroup file ⟨order, h⟩)
    else .error (.panicked "ArrayVec: capacity exceeded")

end PawnKey

/-- Compares ascending files with their reflection. -/
def compareReflection (files : List File) : Ordering :=
  compareOfLessAndEq (files.map Fin.val) (files.reverse.map fun f => 7 - f.val)

/-- Compares the files of both sides with their reflections. -/
def compareFileReflection (stm sntm : List File) : Ordering :=
  (compareReflection stm).then (compareReflection sntm)

/-- The canonical horizontal orientation, and whether it is the reflected one. -/
def PawnKey.canonicalized (key : PawnKey) : Run (PawnKey × Bool) := do
  let stm := key.pawnFiles .sideToMove
  let sntm := key.pawnFiles .sideNotToMove
  Run.ensure (stm.length ≤ 6 ∧ sntm.length ≤ 6) "ArrayVec: capacity exceeded"
  let reflected := key.reflected
  if (compareFileReflection stm sntm).then (key.cmp reflected) ≠ .gt then
    pure (key, false)
  else
    pure (reflected, true)

/-! ### Names -/

def Role.upperChar : Role → Char
  | .pawn => 'P'
  | .knight => 'N'
  | .bishop => 'B'
  | .rook => 'R'
  | .queen => 'Q'
  | .king => 'K'

/-- The letter of a file. -/
def fileChar (file : File) : Char := Char.ofNat ('a'.toNat + file.val)

/-- The tokens of the pawns of a side on a file, in the direction in which the side moves. -/
def pawnTokens (file : File) (word : ℕ) (side : EgtSide) : List Char :=
  let len := word.log2
  (List.range len).flatMap fun slot =>
    let i := if side = .sideToMove then slot else len - 1 - slot
    if wordSide word i ≠ side then []
    else
      let opposed := if side = .sideToMove then decide (i + 1 < len) && word.testBit (i + 1)
        else decide (0 < i) && !word.testBit (i - 1)
      ['P', fileChar file] ++ if opposed then ['o'] else []

/-- The part of a name for one side: pieces, then pawns by file. -/
def sideName (key : PawnKey) (count : EgtSide → Role → ℕ) (side : EgtSide) : List Char :=
  ((Role.all.reverse.filter (· ≠ .pawn)).flatMap
    fun role => List.replicate (count side role) role.upperChar) ++
  (List.finRange 8).flatMap fun file => pawnTokens file (key.files file) side

/-- The capacity of a table name. -/
def tableNameCapacity : ℕ := 3 * maxPieces + 1

def formatName (key : PawnKey) (count : EgtSide → Role → ℕ) : Run (List Char) := do
  let name := sideName key count .sideToMove ++ ['_'] ++ sideName key count .sideNotToMove
  Run.ensure (name.length ≤ tableNameCapacity) "ArrayString: capacity exceeded"
  pure name

def computeTablename (elements : List EgtElement) : Run (List Char) :=
  formatName (PawnKey.fromElements elements) (pieceCount elements)

/-- The name of a position's table, and whether its identity requires file reflection. -/
def positionTableName (position : Chess) : Run (List Char × Bool) := do
  if !position.castlingRights.isEmpty then
    throw (.error (.unsupportedPosition "positions with castling rights are not supported"))
  if maxPieces < position.board.occupied.count then
    throw (.error (.unsupportedPosition "at most eight physical pieces are supported"))
  let (key, reflected) ← (PawnKey.fromPosition position).canonicalized
  let name ← formatName key fun side role =>
    ((position.board.byRole role).inter
      (position.board.byColor (side.color position.turn))).count
  pure (name, reflected)

/-! ### Parsing -/

/-- Whether each pawn of a side faces an enemy in the next occupied slot towards promotion, in
    that side's traversal order. -/
def pawnFlags (order : List EgtSide) (side : EgtSide) : List Bool :=
  let flags := (List.range order.length).filterMap fun i =>
    if order[i]? = some side then
      let neighbor := match side with
        | .sideToMove => order[i + 1]?
        | .sideNotToMove => if i = 0 then none else order[i - 1]?
      some (neighbor.any (· ≠ side))
    else none
  if side = .sideNotToMove then flags.reverse else flags

/-- What the tokens of one side say: piece counts, and the opposed flags of its pawns. -/
structure SideTokens where
  counts : Role → ℕ
  flags : File → List Bool

/-- The role of a piece letter other than the pawn's. -/
def pieceRole (c : Char) : Option Role :=
  match c with
  | 'K' => some .king
  | 'Q' => some .queen
  | 'R' => some .rook
  | 'B' => some .bishop
  | 'N' => some .knight
  | _ => none

/-- The file of a letter. -/
def charFile (c : Char) : Option File :=
  if h : 'a'.toNat ≤ c.toNat ∧ c.toNat ≤ 'h'.toNat then
    some ⟨c.toNat - 'a'.toNat, by
      have h₁ : c.toNat ≤ 104 := h.2
      have h₂ : 'a'.toNat = 97 := rfl
      omega⟩
  else none

/-- Reads the tokens of one side. -/
def parseSide (tokens : SideTokens) : List Char → Except String SideTokens
  | [] => .ok tokens
  | 'P' :: c :: rest =>
    match charFile c with
    | none => .error "invalid pawn file specifier"
    | some file =>
      match rest with
      | 'o' :: rest =>
        parseSide { tokens with
          flags := Function.update tokens.flags file (tokens.flags file ++ [true]) } rest
      | rest =>
        parseSide { tokens with
          flags := Function.update tokens.flags file (tokens.flags file ++ [false]) } rest
  | ['P'] => .error "invalid pawn file specifier"
  | c :: rest =>
    match pieceRole c with
    | none => .error "invalid piece character"
    | some role =>
      parseSide { tokens with
        counts := Function.update tokens.counts role (tokens.counts role + 1) } rest

/-- The piece groups of one side. -/
def sideElements (counts : Role → ℕ) (side : EgtSide) : List EgtElement :=
  (Role.all.reverse.filter fun role => counts role ≠ 0).map
    fun role => .pieceGroup role side (counts role)

/-- The number of set bits. -/
def countOnes (word : ℕ) : ℕ := ((List.range (word.log2 + 1)).filter word.testBit).length

/-- The pawn group of a file from the opposed flags of both sides. -/
def parseFile (file : File) (stmFlags sntmFlags : List Bool) :
    Except String (Option EgtElement) :=
  let len := stmFlags.length + sntmFlags.length
  if len = 0 then .ok none
  else if h : 6 < len then .error "at most six pawns may occupy a file"
  else
    let order := (List.range (1 <<< len)).findSome? fun word =>
      if countOnes word ≠ sntmFlags.length then none
      else
        let order := (List.range len).map (wordSide word)
        if pawnFlags order .sideToMove = stmFlags ∧ pawnFlags order .sideNotToMove = sntmFlags then
          some (⟨order, by simp only [order, List.length_map, List.length_range]; omega⟩ : PawnOrder)
        else none
    match order with
    | none => .error "inconsistent opposed-pawn flags"
    | some order => .ok (some (.pawnGroup file order))

/-- Parses and validates a name. -/
def parseElements (tablename : List Char) : Run (List EgtElement) := do
  let invalid {α : Type} (x : Except String α) : Run α := match x with
    | .ok a => .ok a
    | .error reason => .error (.error (.invalidEndgameName tablename reason))
  let i := tablename.idxOf '_'
  if i = tablename.length then
    throw (.error (.invalidEndgameName tablename "missing '_' separator"))
  let (stm, sntm) := (tablename.take i, tablename.drop (i + 1))
  let empty : SideTokens := ⟨fun _ => 0, fun _ => []⟩
  let stmTokens ← invalid (parseSide empty stm)
  if stmTokens.counts .king ≠ 1 then
    throw (.error (.invalidEndgameName tablename "each side must have exactly one king"))
  let sntmTokens ← invalid (parseSide empty sntm)
  if sntmTokens.counts .king ≠ 1 then
    throw (.error (.invalidEndgameName tablename "each side must have exactly one king"))
  let pawns ← (List.finRange 8).mapM fun file =>
    invalid (parseFile file (stmTokens.flags file) (sntmTokens.flags file))
  let elements := sortElements (sideElements stmTokens.counts .sideToMove ++
    sideElements sntmTokens.counts .sideNotToMove ++ pawns.reduceOption)
  match validateElements elements with
  | .ok () => pure ()
  | .error (.unsupportedPosition reason) =>
    throw (.error (.invalidEndgameName tablename reason))
  | .error e => throw (.error e)
  if (← computeTablename elements) ≠ tablename then
    throw (.error (.invalidEndgameName tablename
      "noncanonical piece order; expected KQRBN then pawns by file"))
  pure elements

/-! ### Validated names -/

/-- The decimal digits of a number. -/
def decimalDigits (n : ℕ) : List Char := (toString n).toList

/-- A validated exact table name. -/
structure TableId where
  name : List Char
  deriving DecidableEq, Repr

namespace TableId

/-- Rejects malformed names and noncanonical horizontal orientations. -/
def parse (name : List Char) : Run TableId := do
  let elements ← parseElements name
  let (_, reflected) ← (PawnKey.fromElements elements).canonicalized
  if reflected then
    throw (.error (.invalidEndgameName name "noncanonical horizontal pawn-file orientation"))
  pure ⟨name⟩

def fromPosition (position : Chess) : Run (TableId × Bool) := do
  let (name, reflected) ← positionTableName position
  pure (⟨name⟩, reflected)

def fromElements (elements : List EgtElement) : Run TableId := do
  Run.ofExcept (validateElements elements)
  let (_, reflected) ← (PawnKey.fromElements elements).canonicalized
  if reflected then
    throw (.error (.unsupportedPosition "noncanonical horizontal pawn-file orientation"))
  let name ← computeTablename elements
  pure ⟨name⟩

/-- The material of a validated name. -/
def parsedElements (id : TableId) : Run (List EgtElement) := parseElements id.name

/-- The piece groups with their sides exchanged. -/
def reversePieces (elements : List EgtElement) : List EgtElement :=
  elements.filterMap fun e => match e with
    | .pieceGroup role side multiplicity => some (.pieceGroup role side.reverse multiplicity)
    | .pawnGroup _ _ => none

/-- The table of the positions after a quiet move, and whether they have to be reflected. -/
def twin (id : TableId) : Run (TableId × Bool) := do
  let elements ← id.parsedElements
  let (key, reflected) ← (PawnKey.fromElements elements).twin.canonicalized
  let pawns ← key.elements
  let twin ← fromElements (pawns ++ reversePieces elements)
  pure (twin, reflected)

def nPieces (id : TableId) : ℕ := id.name.countP fun c => 'A' ≤ c && c ≤ 'Z'

def nPawns (id : TableId) : ℕ := id.name.count 'P'

/-- The parts of the name before and after the separator. -/
def sideNames (id : TableId) : Run (List Char × List Char) :=
  let i := id.name.idxOf '_'
  if i = id.name.length then .error (.panicked "called unwrap on a None value")
  else .ok (id.name.take i, id.name.drop (i + 1))

/-- Each mutually opposing pair has exactly one opposed pawn of the side to move. -/
def opposingPairs (id : TableId) : Run ℕ := do
  let (stm, _) ← id.sideNames
  pure (stm.count 'o')

def sidePieceCounts (id : TableId) : Run (ℕ × ℕ) := do
  let (a, b) ← id.sideNames
  pure (a.countP fun c => 'A' ≤ c && c ≤ 'Z', b.countP fun c => 'A' ≤ c && c ≤ 'Z')

/-- The directories of a table: the number of pieces, the split, the opposing pairs and the
    number of pawns. -/
structure Directory where
  nPieces : ℕ
  split : ℕ × ℕ
  opposingPairs : ℕ
  nPawns : ℕ
  deriving DecidableEq, Repr

/-- The directory part of the relative path. -/
def directory (id : TableId) : Run Directory := do
  let (a, b) ← id.sidePieceCounts
  let op ← id.opposingPairs
  pure ⟨id.nPieces, (max a b, min a b), op, id.nPawns⟩

/-- The directories of a table, each followed by a slash. -/
def Directory.path (d : Directory) : List Char :=
  decimalDigits d.nPieces ++ '/' :: decimalDigits d.split.1 ++ 'v' :: decimalDigits d.split.2 ++
    "/op".toList ++ decimalDigits d.opposingPairs ++ '/' :: decimalDigits d.nPawns ++
    "pawns/".toList

/-- Portable relative path. -/
def relativePath (id : TableId) (extension : List Char) : Run (List Char) := do
  let d ← id.directory
  pure (d.path ++ id.name ++ '.' :: extension.dropWhile (· = '.'))

end TableId

end ChessEgt
