import ChessEgt.Storage.Writer
import ChessEgt.Stats.Record

/-!
# Finalization

Unknown outcomes become draws, statistics are taken, and the table is compressed in batches.

* `TableStats`, `EgtStatsBuilder` — the statistics of a batch, and of a table;
* `finalizeBatch` — one batch of frames;
* `finalizeTable` — all batches, published in frame order.
-/

namespace ChessEgt

/-- Indices that represent no position, by reason. -/
structure InvalidCounts where
  oppositeCheck : ℕ
  epSquaresOccupied : ℕ
  illegalEpCapture : ℕ
  deriving DecidableEq, Repr

/-- Statistics for a contiguous batch; candidate indices are local to its table. -/
structure TableStats where
  win : ℕ
  draw : ℕ
  loss : ℕ
  redundant : ℕ
  histogramWin : Tally ℕ ℕ
  histogramLoss : Tally ℕ ℕ
  candidatesWin : List ℕ
  candidatesLoss : List ℕ

namespace TableStats

/-- The statistics of no index. -/
def default : TableStats := ⟨0, 0, 0, 0, 0, 0, [], []⟩

/-- Statistics exclude the redundant half of a diagonal orbit. -/
def recordOutcome (self : TableStats) (outcome : MaybeDtcOutcome) (localIdx : ℕ) (egt : Egt)
    (maxWin maxLoss : ℕ) : Run TableStats := do
  let other ← egt.diagonalSymmetric localIdx
  if other.any (· < localIdx) then
    return { self with redundant := self.redundant + 1 }
  let ply := (outcome.bits >>> 3).toNat
  if outcome.isWin then
    return { self with
      win := self.win + 1
      histogramWin := self.histogramWin.addEntry ply 1
      candidatesWin := if ply = maxWin ∧ 0 < maxWin then self.candidatesWin ++ [localIdx]
        else self.candidatesWin }
  else if outcome.isLoss then
    return { self with
      loss := self.loss + 1
      histogramLoss := self.histogramLoss.addEntry ply 1
      candidatesLoss := if ply = maxLoss then self.candidatesLoss ++ [localIdx]
        else self.candidatesLoss }
  else if outcome.isDraw then
    return { self with draw := self.draw + 1 }
  else return self

end TableStats

structure EgtStatsBuilder where
  totals : TableStats
  maxima : ℕ × ℕ
  invalid : InvalidCounts

namespace EgtStatsBuilder

def new (maxima : ℕ × ℕ) (invalid : InvalidCounts) : EgtStatsBuilder :=
  ⟨TableStats.default, maxima, invalid⟩

/-- One more batch, in visitation order. -/
def mergePart (totals part : TableStats) : TableStats where
  win := totals.win + part.win
  draw := totals.draw + part.draw
  loss := totals.loss + part.loss
  redundant := totals.redundant + part.redundant
  histogramWin := totals.histogramWin + part.histogramWin
  histogramLoss := totals.histogramLoss + part.histogramLoss
  candidatesWin := totals.candidatesWin ++ part.candidatesWin
  candidatesLoss := totals.candidatesLoss ++ part.candidatesLoss

def merge (self : EgtStatsBuilder) (parts : List TableStats) : EgtStatsBuilder :=
  { self with totals := parts.foldl mergePart self.totals }

/-- The counts of a histogram as machine words. -/
def toHistogram (tally : Tally ℕ ℕ) : Histogram :=
  tally.foldl (fun histogram ply count => histogram.insert ply (UInt64.ofNat count)) ∅

variable [Shakmaty] (epd : Chess → List Char)

/-- The positions of the candidates; `epd` is the text of a position. -/
def materialize (egt : Egt) (candidates : List ℕ) (ply : ℕ) : Run (List LongestDtcPosition) := do
  let positions ← candidates.mapM fun localIdx => egt.positionFromIndex localIdx .white
  pure (positions.filterMap fun position => position.map fun pos => ⟨epd pos, ply⟩)

def build (self : EgtStatsBuilder) (file : EgtFileReader) (bytes : ℕ) (sha256 : List Char) :
    Run EgtStats := do
  let totals := self.totals
  let longestDtcWin ← materialize epd file.egt totals.candidatesWin self.maxima.1
  let longestDtcLoss ← materialize epd file.egt totals.candidatesLoss self.maxima.2
  pure {
    tablename := file.id.name
    bytes := UInt64.ofNat bytes
    sha256 := sha256
    indexRange := UInt64.ofNat file.indexRange
    frameSize := UInt64.ofNat file.frameSize
    numFrames := UInt64.ofNat file.numFrames
    uniquePositions := UInt64.ofNat (totals.win + totals.draw + totals.loss)
    win := UInt64.ofNat totals.win
    draw := UInt64.ofNat totals.draw
    loss := UInt64.ofNat totals.loss
    invalidOppositeCheck := UInt64.ofNat self.invalid.oppositeCheck
    invalidEpSquaresOccupied := UInt64.ofNat self.invalid.epSquaresOccupied
    invalidIllegalEpCapture := UInt64.ofNat self.invalid.illegalEpCapture
    redundant := UInt64.ofNat totals.redundant
    histogramWin := toHistogram totals.histogramWin
    histogramLoss := toHistogram totals.histogramLoss
    longestDtcWin := longestDtcWin
    longestDtcLoss := longestDtcLoss }

end EgtStatsBuilder

/-- Unknown outcomes are draws. -/
def resolveUnknown (raw : MaybeDtcOutcome) : MaybeDtcOutcome :=
  if raw.isUnknown then .draw else raw

/-- The statistics of the outcomes from an index on. -/
def recordOutcomes (egt : Egt) (maxima : ℕ × ℕ) (stats : TableStats) (start : ℕ)
    (values : List MaybeDtcOutcome) : Run TableStats :=
  values.zipIdx.foldlM (fun stats (outcome, offset) =>
    stats.recordOutcome outcome (start + offset) egt maxima.1 maxima.2) stats

/-- One batch of frames: resolved, counted and compressed. -/
def finalizeBatch [Codec] (values : List MaybeDtcOutcome) (start : ℕ) (egt : Egt)
    (frameSize : ℕ) (maxima : ℕ × ℕ) : Run (CompressedSegment × TableStats) :=
  (Pieces.pieces frameSize values).zipIdx.foldlM (fun (encoder, stats) (chunk, frameIdx) => do
    let plain := chunk.map resolveUnknown
    let stats ← recordOutcomes egt maxima stats (start + frameIdx * frameSize) plain
    pure (encodeFrame encoder plain, stats)) (⟨[], []⟩, TableStats.default)

/-- The batches of a table, on some number of threads. Their results are collected in order. -/
def finalizeBatches [Codec] (file : EgtFileReader) (values : List MaybeDtcOutcome)
    (maxima : ℕ × ℕ) (threads : ℕ) : Run (List (CompressedSegment × TableStats)) :=
  let frames := Pieces.count file.frameSize values.length
  let batchSize := max (Pieces.count threads frames) 1 * file.frameSize
  (Pieces.pieces batchSize values).zipIdx.mapM fun (batch, idx) =>
    finalizeBatch batch (idx * batchSize) file.egt file.frameSize maxima

/-- Publishes a table and returns its statistics. -/
def finalizeTable [Codec] [Shakmaty] (epd : Chess → List Char) (store : Store)
    (file : EgtFileReader) (values : List MaybeDtcOutcome) (maxima : ℕ × ℕ)
    (invalid : InvalidCounts) (threads : ℕ) : Run (Store × EgtStats) := do
  if values.length ≠ file.egt.indexRange then
    throw (.error (.internal "completed table has wrong length"))
  let (store, writer) ← EgtFileWriter.new store file
  let batches ← finalizeBatches file values maxima threads
  let builder := (EgtStatsBuilder.new maxima invalid).merge (batches.map (·.2))
  let writer ← writer.writeSegments (batches.map (·.1))
  let writer ← writer.finish
  let (store, _, bytes, sha256) ← writer.publish store
  let stats ← builder.build epd file bytes sha256
  pure (store, stats)

end ChessEgt
