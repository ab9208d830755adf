import ChessEgt.Cache.Memory
import ChessEgt.Library.Op
import ChessEgt.Storage.Reader

/-!
# Shared files

Files and their uncompressed frames for probing and verification, as one thread uses them.

* `SharedFileCache` — registered files, the readers behind them, and the recorded frames;
* `SharedFileCache.file`, `SharedFileCache.enforceLimit` — opening and evicting;
* `SharedFileCache.probeRouted`, `SharedFileCache.probeDirectOutcome` — one position;
* `SharedFileCache.probeDirectOutcomes` — several positions, by table;
* `SharedFileCache.readChunk`, `SharedFileCache.insert`, `SharedFileCache.remove`,
  `SharedFileCache.clear`.
-/

namespace ChessEgt

/-- Opens an existing table, first in the input and then in the base. -/
def loadExistingFile [Codec] (store : Store) (basePath : Location) (inputPath : Option Location)
    (endgame : List Char) : Run EgtFileReader :=
  match inputPath with
  | none => EgtFileReader.openIn store basePath endgame
  | some input =>
    match EgtFileReader.openIn store input endgame with
    | .ok file => .ok file
    | .error (.error (.fileNotFound _)) => EgtFileReader.openIn store basePath endgame
    | .error fault => .error fault

structure SharedFileCache where
  /-- The addresses of the registered files. -/
  files : List Char → Option ℕ
  /-- The files that are alive. -/
  readers : ℕ → Option EgtFileReader
  /-- No file has had this address, nor any above. -/
  nextFile : ℕ
  basePath : Location
  inputPath : Option Location
  cache : CacheMemory

namespace SharedFileCache

def new (basePath : Location) (inputPath : Option Location) (cacheSize : Option ℕ) :
    SharedFileCache :=
  ⟨fun _ => none, fun _ => none, 0, basePath, inputPath, CacheMemory.new cacheSize⟩

/-- An operation of one thread. -/
abbrev CacheOp := Op Fault SharedFileCache

/-- The file of an address that is held. -/
def readFile (file : ℕ) : CacheOp EgtFileReader := do
  let self ← get
  liftM (Run.expect (self.readers file) "dangling file")

def setReader (file : ℕ) (reader : EgtFileReader) : CacheOp PUnit :=
  modify fun self => { self with readers := Function.update self.readers file (some reader) }

/-- Registers a new file. -/
def register (self : SharedFileCache) (name : List Char) (reader : EgtFileReader) :
    SharedFileCache :=
  { self with
    files := Function.update self.files name (some self.nextFile)
    readers := Function.update self.readers self.nextFile (some reader)
    nextFile := self.nextFile + 1 }

/-- Records an access and tells whether the memory is over its limit. -/
def recordAccess (file frame bytes : ℕ) : CacheOp Bool := do
  modify fun self => { self with cache := self.cache.recordAccess file frame bytes }
  return (← get).cache.overLimit

/-- Evicts the frames whose last access is the oldest. Each round returns or drops one frame. -/
def enforceLimitLoop : ℕ → CacheOp PUnit
  | 0 => throw (.panicked "more rounds than frames")
  | rounds + 1 => do
    let self ← get
    if !self.cache.overLimit then
      return ⟨⟩
    match self.cache.victim with
    | none => throw (.error (.internal "cache accounting has no evictable frame"))
    | some (key, frame) =>
      if !self.cache.untouched key frame.lastUsed then
        enforceLimitLoop rounds
      else match self.readers frame.file with
        | none => do
          let cache ← liftM (self.cache.remove key)
          set { self with cache := cache }
          enforceLimitLoop rounds
        | some reader => do
          if reader.seekTable.isNone ∨ (← liftM (reader.resident key.frame)).isNone then
            throw (.error (.internal "cached frame is not disk-backed and resident"))
          let cache ← liftM (self.cache.remove key)
          set { self with
            readers := Function.update self.readers frame.file
              (some { reader with frames := reader.frames.set key.frame none })
            cache := cache }
          enforceLimitLoop rounds

def enforceLimit : CacheOp PUnit := do
  let self ← get
  enforceLimitLoop (self.cache.frames.length + 1)

def setCacheSize (assigned : ℕ) : CacheOp PUnit := do
  modify fun self => { self with cache := { self.cache with assigned := some assigned } }
  enforceLimit

/-- Drops a file that is no longer registered, with the records of its frames. -/
def forgetFile (file : ℕ) : CacheOp PUnit := do
  let self ← get
  let cache ← liftM (self.cache.forget file)
  set { self with readers := Function.update self.readers file none, cache := cache }

/-- Pins a freshly published file ahead of the input. -/
def insert (reader : EgtFileReader) : CacheOp PUnit := do
  let self ← get
  set (self.register reader.id.name reader)
  match self.files reader.id.name with
  | some old => forgetFile old
  | none => return ⟨⟩

/-- Releases files. -/
def remove (names : List (List Char)) : CacheOp PUnit :=
  names.forM fun name => do
    let self ← get
    set { self with files := Function.update self.files name none }
    match self.files name with
    | some file => forgetFile file
    | none => return ⟨⟩

/-- Releases all files. -/
def clear : CacheOp PUnit :=
  modify fun self => { self with
    files := fun _ => none
    readers := fun _ => none
    cache := { self.cache with resident := 0, frames := [] } }

def setInputPath (input : Option Location) : CacheOp PUnit := do
  clear
  modify fun self => { self with inputPath := input }

section Probing

variable [Codec] (store : Store)

/-- The address of a table, which is opened unless it is registered. -/
def file (endgame : List Char) : CacheOp ℕ := do
  let self ← get
  match self.files endgame with
  | some file => return file
  | none => do
    let reader ← liftM (loadExistingFile store self.basePath self.inputPath endgame)
    set (self.register endgame reader)
    return self.nextFile

/-- Copies the outcomes of a range within one frame. -/
def readChunk (endgame : List Char) (start stop : ℕ) : CacheOp (List MaybeDtcOutcome) := do
  let file ← file store endgame
  let reader ← readFile file
  liftM (reader.checkChunk start stop)
  if start = stop then
    return []
  let (frame, _) ← liftM (locateFrame reader.frameLayout start)
  let bytes ← liftM (frameBytes reader.frameLayout frame)
  let chunk ← match ← liftM (reader.frameChunkCached start stop) with
    | some chunk => pure chunk
    | none => do
      let (reader, chunk) ← liftM (reader.frameChunk store start stop)
      setReader file reader
      pure chunk
  if ← recordAccess file frame bytes then
    enforceLimit
  return chunk

variable [Shakmaty]

/-- The index and the outcome of a position in a table. -/
def probeRouted (position : Chess) (endgame : List Char) (reflected : Bool) :
    CacheOp (ℕ × MaybeDtcOutcome) := do
  let file ← file store endgame
  let reader ← readFile file
  let index ← liftM (reader.mapRoutedPositionToIndex position reflected)
  let (frame, _) ← liftM (locateFrame reader.frameLayout index)
  let bytes ← liftM (frameBytes reader.frameLayout frame)
  let outcome ← match ← liftM (reader.readFromIndexCached index) with
    | some outcome => pure outcome
    | none => do
      let (reader, outcome) ← liftM (reader.readFromIndex store index)
      setReader file reader
      pure outcome
  if ← recordAccess file frame bytes then
    enforceLimit
  return (index, outcome)

/-- Probes a primary table without wrapping a missing file as a dependency error. -/
def probeDirectOutcome (position : Chess) : CacheOp DtcOutcome := do
  let (name, reflected) ← liftM (positionTableName position)
  let (index, outcome) ← probeRouted store position name reflected
  liftM (outcome.toOutcomeAt index)

/-- A missing file is a missing dependency. -/
def wrapDependency (name : List Char) : Fault → Fault
  | .error (.fileNotFound path) => .error (.dependencyUnavailable name (.fileNotFound path))
  | fault => fault

def probeIndexed (position : Chess) : CacheOp (ℕ × MaybeDtcOutcome) := do
  let (name, reflected) ← liftM (positionTableName position)
  ExceptT.adapt (wrapDependency name) (probeRouted store position name reflected)

def probe (position : Chess) : CacheOp MaybeDtcOutcome := do
  let (_, outcome) ← probeIndexed store position
  return outcome

def probeOutcome (position : Chess) : CacheOp DtcOutcome := do
  let (index, outcome) ← probeIndexed store position
  liftM (outcome.toOutcomeAt index)

/-- The slot of a position in the results, and whether it is reflected. -/
abbrev Request := ℕ × Bool

/-- Adds a request to the group of its table. Groups are in the order of their names. -/
def pushRequest (name : List Char) (request : Request) :
    List (List Char × List Request) → List (List Char × List Request)
  | [] => [(name, [request])]
  | (name', requests) :: groups =>
    match compare name name' with
    | .lt => (name, [request]) :: (name', requests) :: groups
    | .eq => (name', requests ++ [request]) :: groups
    | .gt => (name', requests) :: pushRequest name request groups

/-- The requests by canonical table. -/
def groupPositions (positions : List Chess) : Run (List (List Char × List Request)) :=
  positions.zipIdx.foldlM (fun groups (position, slot) => do
    let (name, reflected) ← positionTableName position
    pure (pushRequest name (slot, reflected) groups)) []

/-- The frames of some indices, each once. -/
def framesOf (reader : EgtFileReader) (indices : List ℕ) : Run (List ℕ) := do
  let frames ← indices.mapM fun index => do
    let (frame, _) ← locateFrame reader.frameLayout index
    pure frame
  pure ((frames.mergeSort (· ≤ ·)).destutter (· ≠ ·))

/-- Records an access to a frame of a reader. -/
def recordFrame (file : ℕ) (reader : EgtFileReader) (frame : ℕ) : CacheOp PUnit := do
  let bytes ← liftM (frameBytes reader.frameLayout frame)
  let _ ← recordAccess file frame bytes

/-- Records accesses to the frames that are warm. -/
def recordWarmFrame (file : ℕ) (reader : EgtFileReader) (frame : ℕ) : CacheOp PUnit := do
  if (← liftM (reader.resident frame)).isSome then
    recordFrame file reader frame

/-- The outcomes of the indices of one table, or why a frame could not be loaded. -/
def readGroup (file : ℕ) (indices frames : List ℕ) : CacheOp (Run (List MaybeDtcOutcome)) := do
  let reader ← readFile file
  match ← liftM (reader.readIndicesCached indices) with
  | some values => do
    frames.forM (recordFrame file reader)
    return .ok values
  | none => do
    let (reader, loaded) := reader.ensureUncompressedFrames store frames
    setReader file reader
    -- A later decode can fail after earlier frames were installed.
    frames.forM (recordWarmFrame file reader)
    return do
      loaded
      match ← reader.readIndicesCached indices with
      | some values => pure values
      | none => throw (.error (.internal "expected resident frames after batch read"))

/-- Writes the outcomes of a group to their slots. -/
def storeOutcomes (outcomes : List DtcOutcome) (requests : List Request) (indices : List ℕ)
    (values : List MaybeDtcOutcome) : Run (List DtcOutcome) :=
  ((requests.zip indices).zip values).foldlM (fun outcomes ((request, index), value) => do
    let outcome ← value.toOutcomeAt index
    pure (outcomes.set request.1 outcome)) outcomes

/-- The index of a request. -/
def requestIndex (reader : EgtFileReader) (positions : List Chess) (request : Request) : Run ℕ := do
  let position ← Run.index positions request.1
  reader.mapRoutedPositionToIndex position request.2

/-- One group of a batch. -/
def probeGroup (positions : List Chess) (outcomes : List DtcOutcome)
    (group : List Char × List Request) : CacheOp (List DtcOutcome) := do
  let file ← file store group.1
  let reader ← readFile file
  let indices ← liftM (group.2.mapM (requestIndex reader positions))
  let frames ← liftM (framesOf reader indices)
  let values ← readGroup store file indices frames
  enforceLimit
  let values ← liftM values
  liftM (storeOutcomes outcomes group.2 indices values)

/-- Groups direct probes by canonical table, preserving the input order. -/
def probeDirectOutcomes (positions : List Chess) : CacheOp (List DtcOutcome) := do
  let groups ← liftM (groupPositions positions)
  groups.foldlM (probeGroup store positions) (List.replicate positions.length .draw)

end Probing

end SharedFileCache

end ChessEgt
