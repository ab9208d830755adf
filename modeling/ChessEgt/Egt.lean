import ChessEgt.Indexer

/-!
# Tables

A table is its material, its indexing plan and its name.
-/

namespace ChessEgt

/-- A table. -/
structure Egt where
  /-- Canonically sorted pawn-file sequences and non-pawn material groups. -/
  elements : List EgtElement
  indexer : Indexer
  tablename : List Char

namespace Egt

/-- Builds a table from pawn-file sequences and non-pawn material counts. -/
def fromElements (elements : List EgtElement) : Run Egt := do
  let elements := sortElements elements
  let indexer ← Indexer.fromElements elements
  let tablename ← computeTablename elements
  pure ⟨elements, indexer, tablename⟩

/-- Builds the table of a name. -/
def fromTablename (tablename : List Char) : Run Egt := do
  let elements ← parseElements tablename
  fromElements elements

/-- Whether this is a pawnless endgame. -/
def isPawnless (self : Egt) : Bool := self.indexer.nPawns = 0

/-- The number of positions indexed in this table. -/
def indexRange (self : Egt) : ℕ := self.indexer.indexRange

def positionToIndex [Shakmaty] (self : Egt) (position : Chess) : Run ℕ :=
  self.indexer.positionToIndex position

def reflectedPositionToIndex [Shakmaty] (self : Egt) (position : Chess) : Run ℕ :=
  self.indexer.reflectedPositionToIndex position

def positionFromIndex [Shakmaty] (self : Egt) (index : ℕ) (sideToMove : Color) :
    Run (Option Chess) :=
  self.indexer.positionFromIndex index sideToMove

def positionFromIndexUnchecked [Shakmaty] (self : Egt) (index : ℕ) (sideToMove : Color) :
    Run Chess :=
  self.indexer.positionFromIndexUnchecked index sideToMove

def diagonalSymmetric (self : Egt) (index : ℕ) : Run (Option ℕ) :=
  self.indexer.diagonalSymmetric index

end Egt

end ChessEgt
