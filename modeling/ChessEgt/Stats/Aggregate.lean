import ChessEgt.Stats.Record

/-!
# Aggregates of statistics

* `AggregateStats` — the totals of a selection of tables, without the computed ones as soon as a
  table has none;
* `AggregateStats.addRecord`, `AggregateStats.merge` — one more record, or a disjoint selection;
* `AggregateStats.validate` — the checks of a stored aggregate.
-/

namespace ChessEgt

structure AggregateStats where
  selectedTables : UInt64
  availableTables : UInt64
  indexRange : UInt64
  bytes : Option UInt64
  numFrames : Option UInt64
  uniquePositions : Option UInt64
  win : Option UInt64
  draw : Option UInt64
  loss : Option UInt64
  invalidOppositeCheck : Option UInt64
  invalidEpSquaresOccupied : Option UInt64
  invalidIllegalEpCapture : Option UInt64
  redundant : Option UInt64
  histogramWin : Option Histogram
  histogramLoss : Option Histogram
  longestDtcWin : Option (List LongestDtcPosition)
  longestDtcLoss : Option (List LongestDtcPosition)
  deriving DecidableEq

namespace AggregateStats

/-- The aggregate of no table. -/
def default : AggregateStats where
  selectedTables := 0
  availableTables := 0
  indexRange := 0
  bytes := some 0
  numFrames := some 0
  uniquePositions := some 0
  win := some 0
  draw := some 0
  loss := some 0
  invalidOppositeCheck := some 0
  invalidEpSquaresOccupied := some 0
  invalidIllegalEpCapture := some 0
  redundant := some 0
  histogramWin := some 0
  histogramLoss := some 0
  longestDtcWin := some []
  longestDtcLoss := some []

def sum (a b : Option UInt64) : Option UInt64 := Option.map₂ (· + ·) a b

/-- Removes repetitions of the element before. -/
def dedup (examples : List LongestDtcPosition) : List LongestDtcPosition :=
  examples.destutter (· ≠ ·)

/-- The examples of both sides at the largest ply of both. -/
def mergeExamples (histogram : Histogram) (examples sourceExamples : List LongestDtcPosition) :
    List LongestDtcPosition :=
  let maximum := histogram.maxKey?
  dedup (((examples ++ sourceExamples).filter (some ·.ply = maximum)).mergeSort
    fun a b => decide (a ≤ b))

/-- Adds a histogram, and keeps the examples that are the longest of both. -/
def mergeDistribution (histogram source : Option Histogram)
    (examples sourceExamples : Option (List LongestDtcPosition)) :
    Option Histogram × Option (List LongestDtcPosition) :=
  match histogram, source, examples, sourceExamples with
  | some histogram, some source, some examples, some sourceExamples =>
    let histogram := histogram + source
    (some histogram, some (mergeExamples histogram examples sourceExamples))
  | _, _, _, _ => (none, none)

/-- Combines disjoint selections; missing metadata propagates through all totals. -/
def merge (self other : AggregateStats) : AggregateStats :=
  let wins := mergeDistribution self.histogramWin other.histogramWin
    self.longestDtcWin other.longestDtcWin
  let losses := mergeDistribution self.histogramLoss other.histogramLoss
    self.longestDtcLoss other.longestDtcLoss
  { selectedTables := self.selectedTables + other.selectedTables
    availableTables := self.availableTables + other.availableTables
    indexRange := self.indexRange + other.indexRange
    bytes := sum self.bytes other.bytes
    numFrames := sum self.numFrames other.numFrames
    uniquePositions := sum self.uniquePositions other.uniquePositions
    win := sum self.win other.win
    draw := sum self.draw other.draw
    loss := sum self.loss other.loss
    invalidOppositeCheck := sum self.invalidOppositeCheck other.invalidOppositeCheck
    invalidEpSquaresOccupied :=
      sum self.invalidEpSquaresOccupied other.invalidEpSquaresOccupied
    invalidIllegalEpCapture := sum self.invalidIllegalEpCapture other.invalidIllegalEpCapture
    redundant := sum self.redundant other.redundant
    histogramWin := wins.1
    histogramLoss := losses.1
    longestDtcWin := wins.2
    longestDtcLoss := losses.2 }

/-- One available table, leaving selection counting to the caller. -/
def ofStats (stats : EgtStats) : AggregateStats where
  selectedTables := 0
  availableTables := 1
  indexRange := stats.indexRange
  bytes := some stats.bytes
  numFrames := some stats.numFrames
  uniquePositions := some stats.uniquePositions
  win := some stats.win
  draw := some stats.draw
  loss := some stats.loss
  invalidOppositeCheck := some stats.invalidOppositeCheck
  invalidEpSquaresOccupied := some stats.invalidEpSquaresOccupied
  invalidIllegalEpCapture := some stats.invalidIllegalEpCapture
  redundant := some stats.redundant
  histogramWin := some stats.histogramWin
  histogramLoss := some stats.histogramLoss
  longestDtcWin := some stats.longestDtcWin
  longestDtcLoss := some stats.longestDtcLoss

/-- Adds one available table, leaving selection counting to the caller. -/
def add (self : AggregateStats) (stats : EgtStats) : AggregateStats := self.merge (ofStats stats)

def addRecord (self : AggregateStats) (record : StatsRecord) : AggregateStats :=
  let self := { self with selectedTables := self.selectedTables + 1 }
  match record with
  | .complete stats => self.add stats
  | .missing _ =>
    { selectedTables := self.selectedTables
      availableTables := self.availableTables
      indexRange := self.indexRange + record.indexRange
      bytes := none
      numFrames := none
      uniquePositions := none
      win := none
      draw := none
      loss := none
      invalidOppositeCheck := none
      invalidEpSquaresOccupied := none
      invalidIllegalEpCapture := none
      redundant := none
      histogramWin := none
      histogramLoss := none
      longestDtcWin := none
      longestDtcLoss := none }

/-- Which computed fields are present. -/
def fields (self : AggregateStats) : List Bool :=
  [self.bytes.isSome, self.numFrames.isSome, self.uniquePositions.isSome, self.win.isSome,
    self.draw.isSome, self.loss.isSome, self.invalidOppositeCheck.isSome,
    self.invalidEpSquaresOccupied.isSome, self.invalidIllegalEpCapture.isSome,
    self.redundant.isSome, self.histogramWin.isSome, self.histogramLoss.isSome,
    self.longestDtcWin.isSome, self.longestDtcLoss.isSome]

def unwrap {α : Type} (field : Option α) : Run α :=
  Run.expect field "called Option::unwrap() on a None value"

def validate (self : AggregateStats) : Run Unit := do
  let complete := decide (self.availableTables = self.selectedTables)
  if self.selectedTables < self.availableTables ∨
      decide (self.selectedTables = 0) ≠ decide (self.indexRange = 0) ∨
      self.indexRange < self.selectedTables ∨ self.fields.any (· ≠ complete) then
    invalidData "inconsistent aggregate counts or nullability"
  if !complete then
    return ()
  if self.selectedTables = 0 then
    if self = default then
      return ()
    else invalidData "nonzero metadata in an empty aggregate"
  if (← unwrap self.bytes) < self.availableTables ∨
      (← unwrap self.numFrames) < self.availableTables ∨
      self.indexRange < (← unwrap self.numFrames) then
    invalidData "inconsistent aggregate file totals"
  validateOutcomes self.indexRange (← unwrap self.uniquePositions) (← unwrap self.win)
    (← unwrap self.draw) (← unwrap self.loss)
    [← unwrap self.invalidOppositeCheck, ← unwrap self.invalidEpSquaresOccupied,
      ← unwrap self.invalidIllegalEpCapture, ← unwrap self.redundant]
  validateDistribution (← unwrap self.histogramWin) (← unwrap self.win)
    (← unwrap self.longestDtcWin)
  validateDistribution (← unwrap self.histogramLoss) (← unwrap self.loss)
    (← unwrap self.longestDtcLoss)

end AggregateStats

end ChessEgt
