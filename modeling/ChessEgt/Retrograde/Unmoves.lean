import ChessEgt.Egt

/-!
# Quiet unmoves

The positions before a quiet move.

* `pawnlessQuietUnmoves`, `pawnfulQuietUnmoves` — quiet predecessors of a position, in the order
  in which they are emitted;
* `isMirrored`, `quietUnmoves` — the indices of the predecessors of an index.
-/

namespace ChessEgt

/-- The square with the number of `s` plus `delta`, if it is on the board. -/
def Square.offset (s : Square) (delta : Int) : Option Square :=
  let index : Int := s.rank.val * 8 + s.file.val + delta
  if h : 0 ≤ index ∧ index < 64 then
    some ⟨⟨index.toNat / 8, by omega⟩, ⟨index.toNat % 8, by omega⟩⟩
  else none

/-- Whether both kings stand on one of the two long diagonals. Kings on the h1-a8 diagonal end up
    on the a1-h8 diagonal after canonicalization, so both have to be checked. -/
def kingsOnLongDiagonal (kings : Bitboard) : Bool :=
  kings.toList.all (fun s => s.rank.val = s.file.val) ||
    kings.toList.all (fun s => s.rank.val = 7 - s.file.val)

def bothKingsOnDiagonal (position : Chess) : Bool :=
  kingsOnLongDiagonal (position.board.byRole .king)

/-- The reflection of the twin transformation. -/
def isMirrored (table twin : Egt) : Run Bool := do
  let (key, reflected) ← (PawnKey.fromElements table.elements).twin.canonicalized
  Run.ensure (key = PawnKey.fromElements twin.elements)
    "assertion failed: key == PawnKey::from_elements(&twin.elements)"
  pure reflected

section

variable [Shakmaty]

/-- The board before a relocation from `source` to `target`. -/
def takeBack (board : Board) (source target : Square) (piece : Piece) : Board :=
  (board.discardPieceAt target).setPieceAt source piece

/-- Quiet predecessors of a pawnless position, without castling rights. -/
def pawnlessQuietUnmoves (position : Chess) : Run (List Chess) := do
  Run.ensure (position.board.pawns.isEmpty = true) "assertion failed: pawns().is_empty()"
  Run.ensure (position.castlingRights = []) "assertion failed: castling_rights().is_empty()"
  let occupied := position.board.occupied
  let baseSetup : Setup := { position with turn := position.turn.other }
  let predecessors ← (position.board.byColor baseSetup.turn).toList.mapM fun target => do
    let piece ← Run.expect (position.board target) "occupied square must have a piece"
    let origins := (Shakmaty.attacks target piece occupied).inter occupied.compl
    origins.toList.mapM fun source => do
      let setup : Setup :=
        { baseSetup with board := takeBack baseSetup.board source target piece }
      -- Quiet relocation preserves material and kings; impossible checks remain accepted.
      if ← oppositeCheck setup.board setup.turn then pure []
      else pure [Shakmaty.fromSetupUnchecked setup]
  pure predecessors.flatten.flatten

/-- The predecessors on a board, one for each en passant state. -/
def emitPawnfulPredecessors (setup : Setup) : Run (List Chess) := do
  Run.ensure (setup.epSquare = none) "assertion failed: setup.ep_square.is_none()"
  if !(setup.board.pawns.inter Bitboard.backranks).isEmpty then
    return []
  if ← oppositeCheck setup.board setup.turn then
    return []
  let inactive := setup.turn.other
  let occupied := setup.board.occupied
  let capturers := setup.board.byPiece ⟨setup.turn, .pawn⟩
  let pushedPawns := (setup.board.byPiece ⟨inactive, .pawn⟩).inter
    (Bitboard.fromRank (inactive.relativeRank 3))
  pure (Shakmaty.fromSetupUnchecked setup :: pushedPawns.toList.filterMap fun pawn =>
    let ep : Square := ⟨inactive.relativeRank 2, pawn.file⟩
    let start : Square := ⟨inactive.relativeRank 1, pawn.file⟩
    if occupied ep || occupied start ||
        ((Shakmaty.pawnAttacks inactive ep).inter capturers).isEmpty then none
    else
      let predecessor := Shakmaty.fromSetupUnchecked { setup with epSquare := some ep }
      if Shakmaty.legalEpSquare predecessor = some ep then some predecessor else none)

/-- Quiet predecessors of a pawnful position, without castling rights. -/
def pawnfulQuietUnmoves (position : Chess) : Run (List Chess) := do
  Run.ensure (position.board.pawns.isEmpty = false) "assertion failed: pawns().any()"
  Run.ensure (position.castlingRights = []) "assertion failed: castling_rights().is_empty()"
  let occupied := position.board.occupied
  let us := position.turn.other
  let backward : Int := if us = .white then -8 else 8
  let baseSetup : Setup := { position with turn := us, epSquare := none }
  let emit (source target : Square) : Run (List Chess) := do
    let piece ← Run.expect (baseSetup.board target) "occupied square must have a piece"
    emitPawnfulPredecessors
      { baseSetup with board := takeBack baseSetup.board source target piece }
  match Shakmaty.legalEpSquare position with
  | some ep =>
    -- The previous move can only be a double push.
    let target ← Run.expect (ep.offset (-backward)) "EP pawn must be on the board"
    let source ← Run.expect (ep.offset backward) "EP origin must be on the board"
    if position.board target = some ⟨us, .pawn⟩ ∧ occupied source = false ∧
        occupied ep = false then
      emit source target
    else pure []
  | none =>
    let predecessors ← (position.board.byColor us).toList.mapM fun target => do
      let piece ← Run.expect (position.board target) "occupied square must have a piece"
      if piece.role ≠ .pawn then
        let origins := (Shakmaty.attacks target piece occupied).inter occupied.compl
        let emitted ← origins.toList.mapM fun source => emit source target
        pure emitted.flatten
      else
        match target.offset backward with
        | none => pure []
        | some source =>
          if occupied source then pure []
          else
            let single ← emit source target
            if target.rank = us.relativeRank 3 then
              -- A double push, as long as it does not create a legal en passant.
              let start ← Run.expect (source.offset backward)
                "double-push origin must be on the board"
              if occupied start then pure single
              else
                let successor := Shakmaty.fromSetupUnchecked
                  { baseSetup with turn := position.turn, epSquare := some source }
                if Shakmaty.legalEpSquare successor = none then
                  let double ← emit start target
                  pure (single ++ double)
                else pure single
            else pure single
    pure predecessors.flatten

/-- The predecessors of an index already validated for this table and White. -/
def quietUnmoves (table twin : Egt) (localIndex : ℕ) (mirrored : Bool) : Run (List ℕ) := do
  let position ← table.positionFromIndexUnchecked localIndex .white
  Run.ensure (.ok mirrored = isMirrored table twin)
    "assertion failed: mirrored == is_mirrored(table, twin)"
  -- Only pawnless tables are adjusted, and never for a source that is already on the diagonal.
  let useDiagonalSymmetry := twin.isPawnless && !bothKingsOnDiagonal position
  let predecessors ← if table.isPawnless then pawnlessQuietUnmoves position
    else pawnfulQuietUnmoves position
  let emitted ← predecessors.mapM fun predecessor => do
    let index ← if mirrored then twin.reflectedPositionToIndex predecessor
      else twin.positionToIndex predecessor
    if useDiagonalSymmetry then
      match ← twin.diagonalSymmetric index with
      | some reflectedIndex => pure [index, reflectedIndex]
      | none => pure [index]
    else pure [index]
  pure emitted.flatten

end

end ChessEgt
