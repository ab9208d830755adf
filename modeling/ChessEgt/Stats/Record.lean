import ChessEgt.Egt
import ChessEgt.Library.Tally

/-!
# Statistics of a table

* `EgtStats` — the metadata of a complete table, and `EgtStats.validate`;
* `StatsRecord` — complete statistics, or the placeholder of a table without any;
* `validateOutcomes`, `validateDistribution` — the checks shared with aggregates.

Counts are machine words. Plies are the keys of the histograms.
-/

namespace ChessEgt

/-- The uncompressed bytes of a frame. -/
def frameSize : ℕ := 256 * 1024

/-- The counts of plies. -/
abbrev Histogram := Tally ℕ UInt64

structure LongestDtcPosition where
  epd : List Char
  ply : ℕ
  deriving DecidableEq, Repr

/-- Positions in the order of their texts, then of their plies. -/
instance : LinearOrder LongestDtcPosition :=
  LinearOrder.lift' (fun p => toLex (p.epd, p.ply)) fun p q h => by
    obtain ⟨h₁, h₂⟩ := Prod.mk.inj (toLex.injective h)
    cases p; cases q
    exact congrArg₂ _ h₁ h₂

structure EgtStats where
  tablename : List Char
  bytes : UInt64
  sha256 : List Char
  indexRange : UInt64
  frameSize : UInt64
  numFrames : UInt64
  uniquePositions : UInt64
  win : UInt64
  draw : UInt64
  loss : UInt64
  /-- Nonredundant indices where the side to move attacks the opposite king. -/
  invalidOppositeCheck : UInt64
  /-- En passant states with a capturer but an occupied target or double-push origin square. -/
  invalidEpSquaresOccupied : UInt64
  /-- Structurally valid en passant states with capturers, but no legal capture. -/
  invalidIllegalEpCapture : UInt64
  /-- Discarded diagonal-symmetric indices, counted before invalidity checks. -/
  redundant : UInt64
  histogramWin : Histogram
  histogramLoss : Histogram
  longestDtcWin : List LongestDtcPosition
  longestDtcLoss : List LongestDtcPosition
  deriving DecidableEq

/-- What is known of a table without statistics. -/
structure PlaceholderStats where
  tablename : List Char
  indexRange : UInt64
  deriving DecidableEq

inductive StatsRecord where
  | complete (stats : EgtStats)
  | missing (stats : PlaceholderStats)
  deriving DecidableEq

namespace StatsRecord

def indexRange : StatsRecord → UInt64
  | complete stats => stats.indexRange
  | missing stats => stats.indexRange

/-- The statistics of a complete record. -/
def complete? : StatsRecord → Option EgtStats
  | complete stats => some stats
  | missing _ => none

end StatsRecord

/-! ### Validation -/

def checkedAdd (a b : UInt64) : Option UInt64 :=
  if a.toNat + b.toNat < UInt64.size then some (a + b) else none

/-- The quotient, rounded up. -/
def divCeil (a b : UInt64) : UInt64 := if a % b = 0 then a / b else a / b + 1

def isAsciiHexdigit (c : Char) : Bool :=
  c.isDigit || ('a' ≤ c && c ≤ 'f') || ('A' ≤ c && c ≤ 'F')

/-- The characters that trimming removes. -/
def isWhitespace (c : Char) : Bool :=
  (0x9 ≤ c.toNat && c.toNat ≤ 0xd) || (0x2000 ≤ c.toNat && c.toNat ≤ 0x200a) ||
    [0x20, 0x85, 0xa0, 0x1680, 0x2028, 0x2029, 0x202f, 0x205f, 0x3000].contains c.toNat

def invalidData {α : Type} (reason : String) : Run α := .error (.error (.io reason))

def validateOutcomes (indexRange uniquePositions win draw loss : UInt64)
    (invalidAndRedundant : List UInt64) : Run Unit :=
  if ((checkedAdd win draw).bind fun n => checkedAdd n loss) ≠ some uniquePositions ∨
      invalidAndRedundant.foldlM checkedAdd uniquePositions ≠ some indexRange then
    invalidData "outcome counts do not match position and index totals"
  else pure ()

def validateDistribution (histogram : Histogram) (count : UInt64)
    (examples : List LongestDtcPosition) : Run Unit :=
  let maximum := histogram.maxKey?
  let values := histogram.toList.map (·.2)
  if values.any (· = 0) ∨ values.foldlM checkedAdd 0 ≠ some count ∨
      examples.any (fun position => position.epd.all isWhitespace || some position.ply ≠ maximum)
  then invalidData "histogram or longest-DTC examples do not match outcomes"
  else pure ()

def EgtStats.validate (self : EgtStats) (id : TableId) : Run Unit := do
  if self.tablename ≠ id.name ∨ self.sha256.length ≠ 64 ∨ ¬ self.sha256.all isAsciiHexdigit ∨
      self.bytes = 0 ∨ self.indexRange = 0 ∨
      self.frameSize ≠ UInt64.ofNat ChessEgt.frameSize ∨
      self.numFrames ≠ divCeil self.indexRange self.frameSize then
    invalidData "invalid table identity, SHA-256, or frame geometry"
  validateOutcomes self.indexRange self.uniquePositions self.win self.draw self.loss
    [self.invalidOppositeCheck, self.invalidEpSquaresOccupied, self.invalidIllegalEpCapture,
      self.redundant]
  validateDistribution self.histogramWin self.win self.longestDtcWin
  validateDistribution self.histogramLoss self.loss self.longestDtcLoss

end ChessEgt
