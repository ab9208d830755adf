import ChessEgt.Egt
import ChessEgt.Storage.Codec

/-!
# Table files, reading

* `EgtFileReader` — a table with its frames, cold or decompressed;
* `EgtFileReader.construct`, `EgtFileReader.openIn`, `EgtFileReader.loadSeekTable` — opening;
* `EgtFileReader.readFromIndex`, `EgtFileReader.frameChunk`,
  `EgtFileReader.ensureUncompressedFrames` — reading on demand.
-/

namespace ChessEgt

/-- A table and its frames. -/
structure EgtFileReader where
  egt : Egt
  id : TableId
  location : Location
  key : ObjectPath
  seekTable : Option SeekTable
  /-- A frame is cold, or decompressed. -/
  frames : List (Option (List MaybeDtcOutcome))
  frameLayout : List FrameDescriptor
  frameSize : ℕ
  indexRange : ℕ

/-- Decompresses a frame. -/
def decodeFrame [Codec] (compressed : Bytes) (len : ℕ) : Run (List MaybeDtcOutcome) :=
  match Codec.decompress (len * 2) compressed with
  | none => .error (.error (.io "invalid compressed tablebase frame"))
  | some transposed =>
    if transposed.length ≠ len * 2 then
      .error (.error (.io "decompressed tablebase frame has wrong length"))
    else detransposeFrame transposed len

namespace EgtFileReader

def construct (location : Location) (tablename : List Char) : Run EgtFileReader := do
  let id ← TableId.parse tablename
  let egt ← Egt.fromElements (← id.parsedElements)
  let layout := ChessEgt.frameLayout ChessEgt.frameSize egt.indexRange
  let path ← id.relativePath "ggegt".toList
  pure {
    egt := egt
    id := id
    location := location
    key := location.key path
    seekTable := none
    frames := List.replicate layout.length none
    frameLayout := layout
    frameSize := ChessEgt.frameSize
    indexRange := egt.indexRange }

def numFrames (self : EgtFileReader) : ℕ := self.frames.length

section Reading

variable [Codec] (store : Store) (self : EgtFileReader)

/-- Checks the sizes of a frame. -/
def checkDescriptor (table : SeekTable) (descriptor : FrameDescriptor × ℕ) : Run Unit := do
  if (← table.frameSizeDecomp descriptor.2) ≠ descriptor.1.len * 2 ∨
      (← table.frameSizeComp descriptor.2) = 0 then
    throw (.error (.internal "invalid tablebase frame length"))

/-- Reads and checks the seek table. -/
def loadSeekTable : Run EgtFileReader := do
  let tableSize := 17 + 8 * self.numFrames
  let (tableStart, bytes) ← store.getSuffix self.key tableSize
  if bytes.length ≠ tableSize then
    throw (.error (.internal "truncated tablebase seek table"))
  let count := fromLeBytes ((bytes.drop (bytes.length - 9)).take 4)
  if count ≠ self.numFrames then
    throw (.error (.internal "invalid tablebase frame count"))
  match Codec.parse bytes with
  | none => throw (.error (.io "invalid seek table"))
  | some table =>
    if table.sizeComp ≠ tableStart then
      throw (.error (.internal "invalid tablebase compressed length"))
    self.frameLayout.zipIdx.forM (checkDescriptor table)
    pure { self with seekTable := some table }

/-- Opens an existing table. -/
def openIn (location : Location) (tablename : List Char) : Run EgtFileReader := do
  let file ← construct location tablename
  location.validateFormat store
  let file ← file.loadSeekTable store
  pure { file with frames := List.replicate file.frames.length none }

/-- Whether a frame is decompressed, and its outcomes. -/
def resident (frameIdx : ℕ) : Run (Option (List MaybeDtcOutcome)) :=
  Run.index self.frames frameIdx

def setFrame (frameIdx : ℕ) (values : List MaybeDtcOutcome) : EgtFileReader :=
  { self with frames := self.frames.set frameIdx (some values) }

/-- Makes a frame decompressed. -/
def ensureUncompressed (frameIdx : ℕ) : Run EgtFileReader := do
  if (← self.resident frameIdx).isSome then
    return self
  let frame ← Run.index self.frameLayout frameIdx
  let uncompressed ← match self.seekTable with
    | some table => do
      let start ← table.frameStartComp frameIdx
      let stop ← table.frameEndComp frameIdx
      let compressed ← store.getRange self.key (start, stop)
      if compressed.length ≠ stop - start then
        throw (.error (.internal "truncated tablebase range"))
      decodeFrame compressed frame.len
    | none => pure (List.replicate frame.len MaybeDtcOutcome.invalid)
  pure (self.setFrame frameIdx uncompressed)

/-- The outcomes of a frame, made decompressed first. -/
def getFrameData (frameIdx : ℕ) : Run (EgtFileReader × List MaybeDtcOutcome) := do
  let self ← self.ensureUncompressed store frameIdx
  match ← self.resident frameIdx with
  | some data => pure (self, data)
  | none => throw (.error (.internal "expected resident frame after ensure_uncompressed"))

def checkIndex (index : ℕ) : Run Unit :=
  if self.indexRange ≤ index then .error (.error (.indexOutOfRange index self.indexRange))
  else .ok ()

/-- The outcome of an index, decompressing its frame if needed. -/
def readFromIndex (index : ℕ) : Run (EgtFileReader × MaybeDtcOutcome) := do
  self.checkIndex index
  let (frameIdx, offset) ← locateFrame self.frameLayout index
  let (self, data) ← self.getFrameData store frameIdx
  let outcome ← Run.index data offset
  pure (self, outcome)

/-- The outcome of an index, unless its frame is cold. -/
def readFromIndexCached (index : ℕ) : Run (Option MaybeDtcOutcome) := do
  self.checkIndex index
  let (frameIdx, offset) ← locateFrame self.frameLayout index
  match ← self.resident frameIdx with
  | some data => some <$> Run.index data offset
  | none => pure none

/-- The outcomes of several indices, unless a frame is cold. -/
def readIndicesCached (indices : List ℕ) : Run (Option (List MaybeDtcOutcome)) :=
  match indices with
  | [] => .ok (some [])
  | index :: indices => do
    match ← self.readFromIndexCached index with
    | none => pure none
    | some outcome => return (← readIndicesCached indices).map (outcome :: ·)

/-- The frame and the offset of a range of indices, which must not cross frames. -/
def locateChunk (start stop : ℕ) : Run (ℕ × ℕ) := do
  let (frameIdx, offset) ← locateFrame self.frameLayout start
  let frame ← Run.index self.frameLayout frameIdx
  let left ← Run.sub frame.len offset
  if left < stop - start then
    throw (.error (.internal "frame_chunk range crosses a frame boundary"))
  pure (frameIdx, offset)

def checkChunk (start stop : ℕ) : Run Unit :=
  if stop < start ∨ self.indexRange < stop then
    .error (.error (.indexOutOfRange stop self.indexRange))
  else .ok ()

/-- The outcomes of a range within one frame, decompressing the frame if needed. -/
def frameChunk (start stop : ℕ) : Run (EgtFileReader × List MaybeDtcOutcome) := do
  self.checkChunk start stop
  if start = stop then
    return (self, [])
  let (frameIdx, offset) ← self.locateChunk start stop
  let (self, data) ← self.getFrameData store frameIdx
  Run.ensure (offset + (stop - start) ≤ data.length) "range end index out of range"
  pure (self, (data.drop offset).take (stop - start))

/-- The outcomes of a range within one frame, unless the frame is cold. -/
def frameChunkCached (start stop : ℕ) : Run (Option (List MaybeDtcOutcome)) := do
  self.checkChunk start stop
  if start = stop then
    return some []
  let (frameIdx, offset) ← self.locateChunk start stop
  match ← self.resident frameIdx with
  | some data => do
    Run.ensure (offset + (stop - start) ≤ data.length) "range end index out of range"
    pure (some ((data.drop offset).take (stop - start)))
  | none => pure none

/-- Decodes loaded frames one after the other; those before a failure stay. -/
def installFrames : List (ℕ × (ℕ × ℕ) × Bytes) → EgtFileReader → EgtFileReader × Run Unit
  | [], self => (self, .ok ())
  | (frame, range, bytes) :: rest, self =>
    let decoded : Run (List MaybeDtcOutcome) := do
      if bytes.length ≠ range.2 - range.1 then
        throw (.error (.internal "truncated tablebase range"))
      let descriptor ← Run.index self.frameLayout frame
      decodeFrame bytes descriptor.len
    match decoded with
    | .ok values => installFrames rest (self.setFrame frame values)
    | .error fault => (self, .error fault)

/-- Frames of a new file, one after the other. -/
def allocateFrames : List ℕ → EgtFileReader → EgtFileReader × Run Unit
  | [], self => (self, .ok ())
  | frame :: rest, self =>
    match self.ensureUncompressed store frame with
    | .ok self => allocateFrames rest self
    | .error fault => (self, .error fault)

/-- The bytes of cold frames, read at once. -/
def loadFrames (table : SeekTable) (missing : List ℕ) : Run (List (ℕ × (ℕ × ℕ) × Bytes)) := do
  let ranges ← missing.mapM table.frameRange
  let compressed ← store.getRanges self.key ranges
  if compressed.length ≠ missing.length then
    throw (.error (.internal "invalid tablebase range count"))
  pure (missing.zip (ranges.zip compressed))

/-- Makes frames decompressed, with one read for all that are cold. -/
def ensureUncompressedFrames (frames : List ℕ) : EgtFileReader × Run Unit :=
  let missing := frames.filter fun frame => self.frames[frame]?.join.isNone
  if missing = [] then (self, .ok ())
  else match self.seekTable with
    | none => allocateFrames store missing self
    | some table =>
      match self.loadFrames store table missing with
      | .ok loaded => installFrames loaded self
      | .error fault => (self, .error fault)

end Reading

/-- The index of a position already routed to this table. -/
def mapRoutedPositionToIndex [Shakmaty] (self : EgtFileReader) (position : Chess)
    (reflected : Bool) : Run ℕ := do
  let index ← if reflected then self.egt.reflectedPositionToIndex position
    else self.egt.positionToIndex position
  self.checkIndex index
  pure index

end EgtFileReader

end ChessEgt
