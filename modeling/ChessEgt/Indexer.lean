import ChessEgt.Library.Combinadics
import ChessEgt.Library.IndexTable
import ChessEgt.Position
import ChessEgt.TableId

/-!
# The indexer

Positions of a table against the numbers below its index range.

* `Indexer.fromElements` — the indexing plan of a material list;
* `Indexer.positionToIndex`, `Indexer.reflectedPositionToIndex` — encoding;
* `Indexer.setupFromIndex`, `Indexer.positionFromIndex` — decoding and validation;
* `Indexer.diagonalSymmetric` — the partner of an index whose kings stand on the diagonal.

The coordinate slots of the groups are adjacent, in the order pawns, non-pawns, so a group keeps
the number of its slots; buffers are lists over the slots.
-/

namespace ChessEgt

/-! ### Binomial coefficients -/

/-- The row of binomial coefficients after `row`. -/
def nextChooseRow (row : List ℕ) : List ℕ := row.dropLast.scanl (· + ·) 0

/-- `nChooseK[k][n]` for `n < 65` and `k ≤ maxPieces`. -/
def nChooseK : List (List ℕ) := (List.range (maxPieces + 1)).map fun k =>
  nextChooseRow^[k] (List.replicate 65 1)

/-- An entry of the table of binomial coefficients. -/
def lookupNChooseK (k n : ℕ) : Run ℕ := do
  let row ← Run.index nChooseK k
  Run.index row n

/-! ### King pairs of pawnless tables -/

def kingsAdjacentOrSame (a b : ℕ) : Bool :=
  (a / 8 - b / 8) + (b / 8 - a / 8) ≤ 1 && (a % 8 - b % 8) + (b % 8 - a % 8) ≤ 1

/-- The pair of king squares after the symmetries of pawnless tables. -/
def reduceKingPair (wk bk : ℕ) : ℕ × ℕ :=
  let w := (wk / 8, wk % 8)
  let b := (bk / 8, bk % 8)
  let (w, b) := if 3 < w.1 then ((7 - w.1, w.2), (7 - b.1, b.2)) else (w, b)
  let (w, b) := if 3 < w.2 then ((w.1, 7 - w.2), (b.1, 7 - b.2)) else (w, b)
  let (w, b) := if w.2 < w.1 ∨ (w.1 = w.2 ∧ b.2 < b.1) then ((w.2, w.1), (b.2, b.1)) else (w, b)
  (w.1 * 8 + w.2, b.1 * 8 + b.2)

/-- The number of canonical king pairs in a pawnless endgame. -/
def nKingPairs : ℕ := 462

/-- The canonical king pairs in ascending order. -/
def uniqueKingPairs : List (ℕ × ℕ) :=
  let pairs := (List.range 64).flatMap fun wk => (List.range 64).map fun bk => (wk, bk)
  let reduced := (pairs.filter fun p => !kingsAdjacentOrSame p.1 p.2).map
    fun p => reduceKingPair p.1 p.2
  pairs.filter fun p => reduced.contains p

/-- A canonical king pair with the square of the second king compacted. -/
def compactKingPair (p : ℕ × ℕ) : ℕ × ℕ := (p.1, if p.1 ≤ p.2 then p.2 - 1 else p.2)

/-- The key of a compacted king pair. -/
def kingPairKey (p : ℕ × ℕ) : ℕ := p.1 * 64 + p.2

/-- Numbers canonical king pairs; keys of other pairs are left unmapped. -/
def kingsMap : IndexTable (ℕ × ℕ) :=
  IndexTable.empty.insertAll kingPairKey (uniqueKingPairs.map compactKingPair)

/-- Whether both kings of a canonical king pair stand on the a1-h8 diagonal. -/
def kingsOnDiagonal : List Bool :=
  uniqueKingPairs.map fun p => p.1 / 8 = p.1 % 8 && p.2 / 8 = p.2 % 8

/-! ### The indexing plan -/

inductive IndexerPieceKind where
  | pieces (role : Role) (side : EgtSide)
  | kingPair
  deriving DecidableEq, Repr

/-- A non-pawn group together with its derived indexing metadata. -/
structure IndexerPieceGroup where
  kind : IndexerPieceKind
  nSquares : ℕ
  combinations : ℕ
  size : ℕ
  deriving DecidableEq, Repr

/-- A pawn group. -/
structure IndexerPawnGroup where
  file : File
  order : List EgtSide
  deriving DecidableEq, Repr

namespace IndexerPawnGroup

def size (g : IndexerPawnGroup) : ℕ := g.order.length

end IndexerPawnGroup

/-- Pawn ranks, by group in descending order, and the file of an en passant square. -/
abbrev PawnRanks := List ℕ × Option File

/-- Pawn configurations and their numbers. -/
structure PawnMap where
  /-- The length of the array of numbers by key. -/
  capacity : ℕ
  table : IndexTable PawnRanks

namespace PawnMap

/-- Base-six pawn ranks followed by an en passant selector. -/
def key (c : PawnRanks) : ℕ :=
  c.1.foldl (fun key rank => key * 6 + rank - 1) 0 * 9 + c.2.elim 0 fun file => file.val + 1

/-- The choices of `k` descending ranks. -/
def rankChoices (k : ℕ) : List (List ℕ) :=
  ((List.range 64).map fun mask =>
    [6, 5, 4, 3, 2, 1].filter fun rank => mask.testBit (rank - 1)).filter (·.length = k)

/-- The ranks of each group. -/
def groupRanks (groups : List IndexerPawnGroup) (ranks : List ℕ) :
    List (IndexerPawnGroup × List ℕ) :=
  groups.zip ((groups.map (·.size)).splitLengths ranks)

/-- Whether some pawn of the side to move stands on the fifth rank next to the file. -/
def hasCapturer (ranked : List (IndexerPawnGroup × List ℕ)) (file : File) : Bool :=
  ranked.any fun (neighbor, ranks) =>
    (file.val - neighbor.file.val) + (neighbor.file.val - file.val) = 1 &&
      (ranks.zip neighbor.order.reverse).any fun (rank, side) => rank = 4 && side = .sideToMove

/-- The en passant victims of a rank choice. -/
def victims (groups : List IndexerPawnGroup) (ranks : List ℕ) : List File :=
  let ranked := groupRanks groups ranks
  (ranked.filter fun (victim, vranks) =>
    vranks.head? = some 4 && victim.order.getLast? = some .sideNotToMove &&
      hasCapturer ranked victim.file).map (·.1.file)

/-- Inserts the configurations that extend `ranks` over the remaining groups. -/
def enumerate (groups : List IndexerPawnGroup) (ranks : List ℕ) (table : IndexTable PawnRanks) :
    List IndexerPawnGroup → IndexTable PawnRanks
  | [] => ((victims groups ranks).map fun file => (ranks, some file)).foldl
      (IndexTable.insert key) (table.insert key (ranks, none))
  | g :: rest => (rankChoices g.size).foldl
      (fun table choice => enumerate groups (ranks ++ choice) table rest) table

def new (groups : List IndexerPawnGroup) : PawnMap where
  capacity := 9 * 6 ^ (groups.map (·.size)).sum
  table := enumerate groups [] IndexTable.empty groups

/-- The number of a configuration. -/
def index (map : PawnMap) (c : PawnRanks) : Run ℕ := do
  Run.ensure (∀ rank ∈ c.1, 1 ≤ rank) "attempt to subtract with overflow"
  Run.ensure (key c < map.capacity) "index out of bounds"
  Run.expect (map.table.toIndex (key c)) "pawn configuration does not match the piece set"

end PawnMap

/-- The indexing plan of a table. -/
structure Indexer where
  nPieces : ℕ
  nPawns : ℕ
  indexRange : ℕ
  /-- Pawnful tables whose complete pawn key is invariant under file reflection. -/
  symmetricPawns : Bool
  /-- Coordinate slots in normalized colors: White denotes the side to move. -/
  piecesIfWhiteIsStm : List Piece
  pawns : List IndexerPawnGroup
  nonpawns : List IndexerPieceGroup
  pawnMap : Option PawnMap
  nonpawnCombinations : ℕ
  /-- For pawnless endgames, the number of combinations of all pieces after the kings. -/
  nonkingCombinations : ℕ

namespace Indexer

/-- The slots of an element. -/
def elementPieces : EgtElement → List Piece
  | .pawnGroup _ order => order.val.reverse.map fun side => ⟨side.color .white, .pawn⟩
  | .pieceGroup role side multiplicity => List.replicate multiplicity ⟨side.color .white, role⟩

/-- The pawn group of an element. -/
def pawnGroup? : EgtElement → Option IndexerPawnGroup
  | .pawnGroup file order => some ⟨file, order.val⟩
  | .pieceGroup _ _ _ => none

/-- The non-pawn group of an element, before its squares are computed. -/
def pieceGroup? : EgtElement → Option IndexerPieceGroup
  | .pawnGroup _ _ => none
  | .pieceGroup role side multiplicity => some ⟨.pieces role side, 0, 0, multiplicity⟩

/-- Replaces the two king groups by their pair. -/
def pairKings : List IndexerPieceGroup → List IndexerPieceGroup
  | stm :: sntm :: rest => { stm with kind := .kingPair, size := stm.size + sntm.size } :: rest
  | groups => groups

/-- The squares left to each group and the combinations they give. -/
def computePieceSquares (availableSquares : ℕ) :
    List IndexerPieceGroup → Run (List IndexerPieceGroup)
  | [] => .ok []
  | g :: groups => do
    let combinations ← lookupNChooseK g.size availableSquares
    let left ← Run.sub availableSquares g.size
    let groups ← computePieceSquares left groups
    pure ({ g with nSquares := availableSquares, combinations := combinations } :: groups)

/-- In pawnless tables the first group is looked up. -/
def lookUpKings : List IndexerPieceGroup → List IndexerPieceGroup
  | kings :: rest => { kings with nSquares := nKingPairs, combinations := nKingPairs } :: rest
  | [] => []

/-- Builds the indexing plan in canonical order: pawn files, kings, then other groups. -/
def fromElements (elements : List EgtElement) : Run Indexer := do
  Run.ofExcept (validateElements elements)
  let elements := sortElements elements
  let nPieces := (elements.map EgtElement.multiplicity).sum
  let pawns := elements.filterMap pawnGroup?
  let nPawns := (pawns.map IndexerPawnGroup.size).sum
  let symmetricPawns := decide (0 < nPawns) && (PawnKey.fromElements elements).isSymmetric
  let pawnMap := if 0 < nPawns then some (PawnMap.new pawns) else none
  let groups := elements.filterMap pieceGroup?
  let groups := if nPawns = 0 || symmetricPawns then pairKings groups else groups
  let available ← Run.sub 64 nPawns
  let nonpawns ← computePieceSquares available groups
  let nonpawns := if nPawns = 0 then lookUpKings nonpawns else nonpawns
  let nonpawnCombinations := (nonpawns.map (·.combinations)).prod
  pure {
    nPieces := nPieces
    nPawns := nPawns
    indexRange := (pawnMap.elim 1 fun map => map.table.fromIndex.length) * nonpawnCombinations
    symmetricPawns := symmetricPawns
    piecesIfWhiteIsStm := elements.flatMap elementPieces
    pawns := pawns
    nonpawns := nonpawns
    pawnMap := pawnMap
    nonpawnCombinations := nonpawnCombinations
    nonkingCombinations :=
      if nPawns = 0 then ((nonpawns.drop 1).map (·.combinations)).prod else 0 }

variable (self : Indexer)

/-! ### Squares -/

/-- The number of a square. In symmetric pawn tables horizontal reflection sends `i` to
    `63 - i`. -/
def squareIndex (s : Square) : ℕ :=
  if self.symmetricPawns then
    s.file.val * 8 + if s.file.val < 4 then s.rank.val else 7 - s.rank.val
  else s.rank.val * 8 + s.file.val

/-- The square of coordinates. -/
def toSquare (rank file : ℕ) : Run Square :=
  if h : rank < 8 ∧ file < 8 then .ok ⟨⟨rank, h.1⟩, ⟨file, h.2⟩⟩
  else .error (.panicked "coordinate out of range")

/-- The square of a number. -/
def squareCoord (index : ℕ) : Run Square :=
  if self.symmetricPawns then do
    let file := index / 8
    let rank := index % 8
    toSquare (if file < 4 then rank else 7 - rank) file
  else toSquare (index / 8) (index % 8)

/-- The rank seen by the side to move, which only matters to pawns. -/
def normalizedSquare (turn : Color) (s : Square) : Square :=
  ⟨if 0 < self.nPawns then turn.relativeRank s.rank else s.rank, s.file⟩

/-! ### Positions to coordinates -/

/-- The coordinates of the pawns of a group, from the highest normalized rank. -/
def pawnCoords (position : Chess) (file : File) :
    List EgtSide → List Square → Run (List Square)
  | [], _ => .ok []
  | _ :: _, [] => .error (.panicked "called unwrap on a None value")
  | side :: sides, square :: squares => do
    Run.ensure (position.board.byColor position.turn square = decide (side = .sideToMove))
      "pawn color order does not match the piece set"
    let coords ← pawnCoords position file sides squares
    pure (⟨position.turn.relativeRank square.rank, file⟩ :: coords)

/-- The coordinates of a pawn group. -/
def pawnGroupCoords (reflected : Bool) (position : Chess) (group : IndexerPawnGroup) :
    Run (List Square) := do
  let sourceFile := if reflected then group.file.rev else group.file
  let bb := position.board.pawns.inter (Bitboard.fromFile sourceFile)
  Run.ensure (bb.count = group.order.length) "pawn file does not match the piece set"
  let squares := if position.turn = .black then bb.toList else bb.toList.reverse
  pawnCoords position group.file group.order.reverse squares

/-- The coordinates of a non-pawn group. -/
def pieceGroupCoords (reflected : Bool) (position : Chess) (group : IndexerPieceGroup) :
    Run (List Square) :=
  let coord (square : Square) : Square :=
    self.normalizedSquare position.turn (if reflected then square.flipHorizontal else square)
  match group.kind with
  | .pieces role side => do
    let bb := (position.board.byRole role).inter
      (position.board.byColor (side.color position.turn))
    Run.ensure (bb.count = group.size)
      "position_to_coord() called with a position that does not match the piece set"
    pure (bb.toList.map coord)
  | .kingPair => [position.turn, position.turn.other].mapM fun color => do
    let square ← Run.expect (position.board.kingOf color) "called unwrap on a None value"
    pure (coord square)

/-- Extracts the coordinates of the pieces from the position. -/
def positionToCoord (reflected : Bool) (position : Chess) : Run (List Square) := do
  Run.ensure (position.board.occupied.count = self.nPieces)
    "position_to_coord() called with a position that does not match the piece set"
  let pawns ← self.pawns.mapM (pawnGroupCoords reflected position)
  let pieces ← self.nonpawns.mapM (self.pieceGroupCoords reflected position)
  pure (pawns.flatten ++ pieces.flatten)

/-! ### Canonical coordinates -/

/-- Applies the symmetries of pawnless positions. -/
def reduceSymmetries (coord : List Square) : Run (List Square) := do
  let king ← Run.index coord 0
  let coord := if 3 < king.rank.val then coord.map fun s => ⟨s.rank.rev, s.file⟩ else coord
  let king ← Run.index coord 0
  let coord := if 3 < king.file.val then coord.map fun s => ⟨s.rank, s.file.rev⟩ else coord
  let king ← Run.index coord 0
  let other ← Run.index coord 1
  pure (if king.file < king.rank ∨ (king.rank = king.file ∧ other.file < other.rank) then
    coord.map fun s => ⟨s.file, s.rank⟩ else coord)

/-- Groups of repeated pieces are sorted. -/
def isRepeated (group : IndexerPieceGroup) : Bool :=
  1 < group.size && group.kind ≠ .kingPair

/-- Sorts squares from the highest number to the lowest. -/
def sortSquares (squares : List Square) : List Square :=
  squares.insertionSort fun a b => self.squareIndex b ≤ self.squareIndex a

/-- Sorts the slots of the repeated non-pawns. -/
def sortGroups : List IndexerPieceGroup → List Square → List Square
  | [], coord => coord
  | g :: groups, coord =>
    (if isRepeated g then self.sortSquares (coord.take g.size) else coord.take g.size) ++
      sortGroups groups (coord.drop g.size)

/-- Sorts repeated non-pawns from highest to lowest; pawns are already ordered. -/
def sortCoordRepeatedPieces (coord : List Square) : List Square :=
  coord.take self.nPawns ++ self.sortGroups self.nonpawns (coord.drop self.nPawns)

/-! ### Compact indices -/

/-- Converts the piece coordinates to indices in `0..64`. -/
def coordToPidx (coord : List Square) : List ℕ := coord.map self.squareIndex

/-- Converts indices in `0..64` to piece coordinates. -/
def pidxToCoord (pidx : List ℕ) : Run (List Square) := pidx.mapM self.squareCoord

/-- Compacts the indices of distinct squares. -/
def compactPidx (v : List ℕ) : Run (List ℕ) := do
  Run.ensure (0 < v.length) "attempt to subtract with overflow"
  pure (Compaction.compact v)

/-- Undoes `compactPidx`. -/
def uncompactCpidx (v : List ℕ) : Run (List ℕ) := do
  Run.ensure (0 < v.length) "attempt to subtract with overflow"
  pure (Compaction.uncompact v)

/-- Replaces the king squares by the number of their pair. -/
def mapKings (pidx : List ℕ) : Run (List ℕ) := do
  let stm ← Run.index pidx 0
  let sntm ← Run.index pidx 1
  Run.ensure (kingPairKey (stm, sntm) < 64 * 64) "index out of bounds"
  let pair ← Run.expect (kingsMap.toIndex (kingPairKey (stm, sntm)))
    "kings on an invalid pair of squares"
  pure (pair :: 0 :: pidx.drop 2)

/-- Replaces the number of a king pair by the squares. -/
def unmapKings (pidx : List ℕ) : Run (List ℕ) := do
  let pair ← Run.index pidx 0
  let kings ← Run.index kingsMap.fromIndex pair
  pure (kings.1 :: kings.2 :: pidx.drop 2)

/-! ### Indices within a slice -/

/-- The rank of the compact indices of a group. -/
def groupIndex (nSquares : ℕ) : List ℕ → Run ℕ
  | [] => .ok 0
  | [c] => do
    Run.ensure (c < nSquares) "invalid cpidx"
    pure c
  | c :: c' :: cs => do
    let index ← groupIndex nSquares (c' :: cs)
    Run.ensure (c < nSquares) "invalid cpidx"
    Run.ensure (c' < c) "decreasing cpidx"
    let combinations ← lookupNChooseK (cs.length + 2) c
    pure (index + combinations)

/-- Appends the ranks of the groups to the index. -/
def appendGroups : List IndexerPieceGroup → List ℕ → ℕ → Run ℕ
  | [], _, index => .ok index
  | g :: groups, cpidx, index => do
    let rank ← groupIndex g.nSquares (cpidx.take g.size)
    appendGroups groups (cpidx.drop g.size) (index * g.combinations + rank)

/-- Combines the compact non-pawn indices into the within-slice index. -/
def cpidxToIndex (cpidx : List ℕ) : Run ℕ :=
  if self.nPawns = 0 then do
    let pair ← Run.index cpidx 0
    appendGroups (self.nonpawns.drop 1) (cpidx.drop 2) pair
  else appendGroups self.nonpawns (cpidx.drop self.nPawns) 0

/-- The number of elements below a value not in the row, or the place of the value in it. -/
def binarySearch (row : List ℕ) (x : ℕ) : Except ℕ ℕ :=
  if x ∈ row then .ok (row.idxOf x) else .error (row.countP (· < x))

/-- The compact indices of a group of `k` pieces among `n` squares. -/
def groupCpidx : ℕ → ℕ → ℕ → Run (List ℕ)
  | 0, _, _ => .ok []
  | 1, _, x => .ok [x]
  | k + 2, n, x => do
    let row ← Run.index nChooseK (k + 2)
    Run.ensure (n ≤ row.length) "range end index out of range"
    let n ← match binarySearch (row.take n) (x + 1) with
      | .ok found => Run.sub found 1
      | .error insert => Run.sub insert 1
    let combinations ← Run.index row n
    let x ← Run.sub x combinations
    let rest ← groupCpidx (k + 1) n x
    pure (n :: rest)

/-- Splits off the ranks of the groups, from the last one to the first. -/
def splitGroups (index : ℕ) : List IndexerPieceGroup → Run (ℕ × List ℕ)
  | [] => .ok (index, [])
  | g :: groups => do
    let (v, cpidx) ← splitGroups index groups
    Run.ensure (g.combinations ≠ 0) "attempt to divide by zero"
    let group ← groupCpidx g.size g.nSquares (v % g.combinations)
    pure (v / g.combinations, group ++ cpidx)

/-- Decodes the within-slice index to the compact non-pawn indices. -/
def indexToCpidx (index : ℕ) : Run (List ℕ) :=
  if self.nPawns = 0 then do
    let (v, cpidx) ← splitGroups index (self.nonpawns.drop 1)
    Run.ensure (v < nKingPairs) "assertion failed: v < N_KING_PAIRS"
    pure (v :: 0 :: cpidx)
  else do
    let (v, cpidx) ← splitGroups index self.nonpawns
    Run.ensure (v = 0) "assertion failed: v == 0"
    pure cpidx

/-! ### Encoding -/

section Encoding

variable [Shakmaty]

/-- Encodes the position, or its horizontal reflection. -/
def encodePosition (reflected : Bool) (position : Chess) : Run ℕ := do
  let coord ← self.positionToCoord reflected position
  let pawnIndex ← match self.pawnMap with
    | none => pure 0
    | some pawnMap =>
      let ep := (Shakmaty.legalEpSquare position).map fun square =>
        (if reflected then square.flipHorizontal else square).file
      pawnMap.index ((coord.take self.nPawns).map fun s => s.rank.val, ep)
  let coord ← if self.nPawns = 0 then reduceSymmetries coord else pure coord
  let coord := self.sortCoordRepeatedPieces coord
  let pidx ← compactPidx (self.coordToPidx coord)
  let pidx ← if self.nPawns = 0 then mapKings pidx else pure pidx
  let index ← self.cpidxToIndex pidx
  pure (pawnIndex * self.nonpawnCombinations + index)

/-- Encodes a position; symmetric pawn tables order the kings by a reflection of their own. -/
def positionToIndexImpl (reflected : Bool) (position : Chess) : Run ℕ := do
  let reflected ← if self.symmetricPawns then do
      let stm ← Run.expect (position.board.kingOf position.turn) "called unwrap on a None value"
      let sntm ← Run.expect (position.board.kingOf position.turn.other)
        "called unwrap on a None value"
      let coord (s : Square) : Square := ⟨position.turn.relativeRank s.rank, s.file⟩
      pure (decide (self.squareIndex (coord stm) < self.squareIndex (coord sntm)))
    else pure reflected
  self.encodePosition reflected position

/-- Encodes the position into an index, which represents the position up to symmetries. -/
def positionToIndex (position : Chess) : Run ℕ := self.positionToIndexImpl false position

/-- Encodes the horizontal reflection of a position. -/
def reflectedPositionToIndex (position : Chess) : Run ℕ := self.positionToIndexImpl true position

end Encoding

/-! ### Decoding -/

/-- Places the pieces and restores the en passant square. -/
def coordToSetup (epFile : Option File) (coord : List Square) (sideToMove : Color) : Setup where
  board := (coord.zip self.piecesIfWhiteIsStm).foldl (fun board (s, piece) =>
    if sideToMove = .black then
      board.setPieceAt (if 0 < self.nPawns then ⟨s.rank.rev, s.file⟩ else s)
        ⟨piece.color.other, piece.role⟩
    else board.setPieceAt s piece) Setup.empty.board
  turn := sideToMove
  castlingRights := []
  epSquare := epFile.map fun file => ⟨match sideToMove with | .white => 5 | .black => 2, file⟩

/-- The coordinates of the pawns from their ranks. -/
def pawnSquares (ranks : List ℕ) : Run (List Square) :=
  ((PawnMap.groupRanks self.pawns ranks).flatMap fun (group, ranks) =>
    ranks.map fun rank => (rank, group.file)).mapM fun (rank, file) => toSquare rank file.val

/-- Decodes an index. -/
def setupFromIndex (index : ℕ) (sideToMove : Color) : Run Setup := do
  Run.ensure (index < self.indexRange) "assertion failed: index < self.index_range"
  match self.pawnMap with
  | some pawnMap =>
    Run.ensure (self.nonpawnCombinations ≠ 0) "attempt to divide by zero"
    let cpidx ← self.indexToCpidx (index % self.nonpawnCombinations)
    let (ranks, ep) ← Run.index pawnMap.table.fromIndex (index / self.nonpawnCombinations)
    let pawns ← self.pawnSquares ranks
    let pawnPidx ← compactPidx (self.coordToPidx pawns)
    let pidx ← uncompactCpidx (pawnPidx ++ cpidx)
    let pieces ← self.pidxToCoord (pidx.drop self.nPawns)
    pure (self.coordToSetup ep (pawns ++ pieces) sideToMove)
  | none =>
    let cpidx ← self.indexToCpidx index
    let cpidx ← unmapKings cpidx
    let pidx ← uncompactCpidx cpidx
    let coord ← self.pidxToCoord pidx
    pure (self.coordToSetup none coord sideToMove)

section Decoding

variable [Shakmaty]

/-- Decodes an index to a position, or tells why there is none. -/
def positionFromIndexWithReason (index : ℕ) (sideToMove : Color) :
    Run (Except InvalidPosition Chess) := do
  let setup ← self.setupFromIndex index sideToMove
  positionFromSetup setup

/-- Decodes an index, if it represents a valid position. -/
def positionFromIndex (index : ℕ) (sideToMove : Color) : Run (Option Chess) := do
  if self.indexRange ≤ index then
    return none
  let setup ← self.setupFromIndex index sideToMove
  match positionFromSetup setup with
  | .ok (.ok position) => pure (some position)
  | .ok (.error _) => pure none
  | .error (.error _) => .error (.panicked "invalid indexing invariant")
  | .error fault => .error fault

/-- Decodes an index already accepted by `positionFromIndex`. -/
def positionFromIndexUnchecked (index : ℕ) (sideToMove : Color) : Run Chess := do
  Run.ensure (index < self.indexRange) "position index out of range"
  let setup ← self.setupFromIndex index sideToMove
  pure (Shakmaty.fromSetupUnchecked setup)

end Decoding

/-! ### Diagonal partners -/

/-- The index of the diagonal reflection, if both kings stand on a long diagonal. -/
def diagonalSymmetric (index : ℕ) : Run (Option ℕ) := do
  if self.nPawns ≠ 0 then
    return none
  Run.ensure (self.nonkingCombinations ≠ 0) "attempt to divide by zero"
  if !(← Run.index kingsOnDiagonal (index / self.nonkingCombinations)) then
    return none
  let cpidx ← self.indexToCpidx index
  let cpidx ← unmapKings cpidx
  let pidx ← uncompactCpidx cpidx
  let coord ← self.pidxToCoord pidx
  let kingsOnDiagonal := (coord.take 2).all fun s => s.rank = s.file
  Run.ensure (kingsOnDiagonal = true) "the fast path must agree with the decoded position"
  if kingsOnDiagonal then
    let coord := coord.map fun s => ⟨s.file, s.rank⟩
    let coord := self.sortCoordRepeatedPieces coord
    let pidx ← compactPidx (self.coordToPidx coord)
    let pidx ← mapKings pidx
    let other ← self.cpidxToIndex pidx
    pure (some other)
  else
    pure none

end Indexer

end ChessEgt
