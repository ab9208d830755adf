import ChessEgt.Storage.Reader

/-!
# Table files, writing

Compressed batches are retained until they are published in frame order.

* `CompressedSegment`, `EgtFileWriter` — a batch, and the batches of a table;
* `EgtFileWriter.writeSegments`, `EgtFileWriter.finish`, `EgtFileWriter.publish` — the steps of a
  publication;
* `encodeFrame` — one more frame of an encoder.
-/

namespace ChessEgt

/-- A frame-aligned compressed batch, without a serialized seek-table footer. -/
structure CompressedSegment where
  data : Bytes
  seekTable : SeekTable
  deriving DecidableEq

structure EgtFileWriter where
  location : Location
  key : ObjectPath
  frameSize : ℕ
  length : ℕ
  segments : Option (List CompressedSegment)
  footer : Option Bytes
  published : Bool

/-- Publishes buffers in order. -/
def publishBuffers [Codec] (location : Location) (key : ObjectPath) (buffers : List Bytes)
    (store : Store) : Run (Store × ℕ × List Char) := do
  location.ensureWritable
  let bytes := buffers.flatten
  pure (store.put key bytes, bytes.length, Codec.sha256 bytes)

namespace EgtFileWriter

def new [Codec] (store : Store) (file : EgtFileReader) : Run (Store × EgtFileWriter) := do
  if file.frameSize = 0 ∨ (2 ^ 32 - 1) / 2 < file.frameSize then
    throw (.error (.internal "invalid writer frame size"))
  let store ← file.location.ensureFormat store
  pure (store, {
    location := file.location
    key := file.key
    frameSize := file.frameSize
    length := file.indexRange
    segments := none
    footer := none
    published := false })

variable (self : EgtFileWriter)

def writableTableLength : Run ℕ :=
  if self.footer.isSome ∨ self.published then
    .error (.error (.internal "writer is already finished"))
  else if self.segments.isSome then
    .error (.error (.internal "table has already been written"))
  else .ok self.length

/-- The frames and the indices left, and the compressed bytes of a segment so far. -/
structure Progress where
  frames : ℕ
  remaining : ℕ
  compressedLength : ℕ

/-- Checks one frame of a segment. -/
def checkFrame (table : SeekTable) (progress : Progress) (index : ℕ) : Run Progress := do
  let compressed ← table.frameSizeComp index
  let decompressed ← table.frameSizeDecomp index
  let frameLength := min progress.remaining self.frameSize
  if compressed = 0 ∨ frameLength = 0 ∨ decompressed ≠ frameLength * 2 then
    throw (.error (.internal "compressed segment has invalid frame lengths"))
  pure ⟨progress.frames + 1, progress.remaining - frameLength,
    progress.compressedLength + compressed⟩

/-- Checks one segment. -/
def checkSegment (segments : List CompressedSegment) (progress : Progress)
    (segment : CompressedSegment) : Run Progress := do
  let numFrames := segment.seekTable.length
  if numFrames = 0 ∧ ¬ (self.length = 0 ∧ segments.length = 1 ∧ segment.data = []) then
    throw (.error (.internal "compressed segment has no frames"))
  let progress ← (List.range numFrames).foldlM (self.checkFrame segment.seekTable)
    { progress with compressedLength := 0 }
  if progress.compressedLength ≠ segment.data.length then
    throw (.error (.internal "compressed segment has wrong data length"))
  pure progress

/-- Retains batches in frame order without concatenating them. -/
def writeSegments (segments : List CompressedSegment) : Run EgtFileWriter := do
  let length ← self.writableTableLength
  let expectedFrames := Pieces.count self.frameSize length
  let progress ← segments.foldlM (self.checkSegment segments) ⟨0, length, 0⟩
  if progress.frames ≠ expectedFrames ∨ progress.remaining ≠ 0 then
    throw (.error (.internal "compressed table has wrong frame count"))
  pure { self with segments := some segments }

/-- The seek table of all segments. -/
def collectSeekTable (segments : List CompressedSegment) : Run SeekTable :=
  segments.foldlM (fun table segment =>
    (List.range segment.seekTable.length).foldlM (fun table index => do
      let compressed ← segment.seekTable.frameSizeComp index
      let decompressed ← segment.seekTable.frameSizeDecomp index
      pure (table.logFrame (UInt32.ofNat compressed) (UInt32.ofNat decompressed))) table) []

/-- Prepares the seek table without publishing. -/
def finish [Codec] : Run EgtFileWriter := do
  if self.published then
    throw (.error (.internal "writer is already published"))
  if self.footer.isSome then
    return self
  match self.segments with
  | none => throw (.error (.internal "cannot finish with missing table"))
  | some segments =>
    let table ← collectSeekTable segments
    pure { self with footer := some (Codec.serialize table) }

/-- Publishes in frame order, then releases the compressed buffers. -/
def publish [Codec] (store : Store) : Run (Store × EgtFileWriter × ℕ × List Char) := do
  if self.published then
    throw (.error (.internal "writer is already published"))
  match self.footer with
  | none => throw (.error (.internal "writer must be finished before publication"))
  | some footer =>
    let buffers := (self.segments.getD []).map (·.data) ++ [footer]
    let (store, bytes, sha256) ← publishBuffers self.location self.key buffers store
    pure (store, { self with segments := none, footer := none, published := true }, bytes, sha256)

end EgtFileWriter

/-- An encoder adds a frame to its data and to its seek table. -/
def encodeFrame [Codec] (encoder : CompressedSegment) (values : List MaybeDtcOutcome) :
    CompressedSegment :=
  let transposed := transposeFrame values
  let compressed := Codec.compress transposed
  ⟨encoder.data ++ compressed, encoder.seekTable.logFrame
    (UInt32.ofNat compressed.length) (UInt32.ofNat transposed.length)⟩

end ChessEgt
