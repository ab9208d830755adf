import ChessEgt.Error
import ChessEgt.Storage.Frames

/-!
# Third-party formats

What the program uses of its compression, hashing and serialization libraries.

* `SeekTable` — the compressed and decompressed sizes of the frames of an object;
* `Codec` — compression, the serialized seek table, the hash and the format descriptor;
* `LawfulCodec` — what the program relies on: decompression undoes compression, and the serialized
  seek table has its documented layout and is parsed back.
-/

namespace ChessEgt

abbrev Bytes := List UInt8

/-- The compressed and the decompressed sizes of frames, in order. -/
abbrev SeekTable := List (UInt32 × UInt32)

namespace SeekTable

def frameSizeComp (table : SeekTable) (index : ℕ) : Run ℕ :=
  match table[index]? with
  | some (c, _) => .ok c.toNat
  | none => .error (.error (.io "frame index too large"))

def frameSizeDecomp (table : SeekTable) (index : ℕ) : Run ℕ :=
  match table[index]? with
  | some (_, d) => .ok d.toNat
  | none => .error (.error (.io "frame index too large"))

/-- The offset of a frame in the compressed data. -/
def frameStartComp (table : SeekTable) (index : ℕ) : Run ℕ :=
  if index < table.length then .ok ((table.take index).map (·.1.toNat)).sum
  else .error (.error (.io "frame index too large"))

def frameEndComp (table : SeekTable) (index : ℕ) : Run ℕ :=
  if index < table.length then .ok ((table.take (index + 1)).map (·.1.toNat)).sum
  else .error (.error (.io "frame index too large"))

/-- Where a frame stands in the compressed data. -/
def frameRange (table : SeekTable) (index : ℕ) : Run (ℕ × ℕ) := do
  let start ← table.frameStartComp index
  let stop ← table.frameEndComp index
  pure (start, stop)

/-- The size of the compressed data. -/
def sizeComp (table : SeekTable) : ℕ := (table.map (·.1.toNat)).sum

/-- One more frame. -/
def logFrame (table : SeekTable) (compressed decompressed : UInt32) : SeekTable :=
  table ++ [(compressed, decompressed)]

end SeekTable

/-- The number of little-endian bytes. -/
def fromLeBytes (bytes : Bytes) : ℕ := bytes.foldr (fun b n => b.toNat + 256 * n) 0

class Codec where
  /-- The compressed frame of some bytes. -/
  compress : Bytes → Bytes
  /-- Decompression into a buffer of the given size. -/
  decompress : ℕ → Bytes → Option Bytes
  serialize : SeekTable → Bytes
  parse : Bytes → Option SeekTable
  /-- The hexadecimal digest. -/
  sha256 : Bytes → List Char
  /-- The format descriptor of the program. -/
  formatJson : Bytes
  /-- The format that a descriptor names. -/
  parseFormat : Bytes → Option (List Char)

def tablebaseFormat : List Char := "ggegt-v0.11".toList

class LawfulCodec [Codec] : Prop where
  decompress_compress (b : Bytes) : Codec.decompress b.length (Codec.compress b) = some b
  compress_ne_nil (b : Bytes) : Codec.compress b ≠ []
  length_compress (b : Bytes) : b.length ≤ 2 ^ 20 → (Codec.compress b).length < 2 ^ 32
  /-- Eight bytes for each frame, and seventeen bytes of framing. -/
  length_serialize (t : SeekTable) : (Codec.serialize t).length = 17 + 8 * t.length
  /-- The number of frames stands in the footer. -/
  count_serialize (t : SeekTable) : t.length < 2 ^ 32 →
    fromLeBytes (((Codec.serialize t).drop (8 + 8 * t.length)).take 4) = t.length
  parse_serialize (t : SeekTable) : t.length < 2 ^ 32 → Codec.parse (Codec.serialize t) = some t
  parseFormat_formatJson : Codec.parseFormat Codec.formatJson = some tablebaseFormat

/-! ### Objects -/

/-- The path of an object. -/
abbrev ObjectPath := List Char

/-- The objects of a storage backend. -/
abbrev Store := ObjectPath → Option Bytes

namespace Store

def put (store : Store) (key : ObjectPath) (bytes : Bytes) : Store :=
  Function.update store key (some bytes)

def get (store : Store) (key : ObjectPath) : Run Bytes :=
  match store key with
  | some bytes => .ok bytes
  | none => .error (.error (.fileNotFound key))

/-- The bytes of a range, cut off at the end of the object. -/
def getRange (store : Store) (key : ObjectPath) (range : ℕ × ℕ) : Run Bytes := do
  let bytes ← store.get key
  if range.1 < range.2 ∧ range.1 < bytes.length then
    pure ((bytes.drop range.1).take (range.2 - range.1))
  else .error (.error (.storage "invalid range"))

/-- The bytes of several ranges. -/
def getRanges (store : Store) (key : ObjectPath) (ranges : List (ℕ × ℕ)) : Run (List Bytes) :=
  ranges.mapM (store.getRange key)

/-- The last bytes of an object, and where they start. -/
def getSuffix (store : Store) (key : ObjectPath) (n : ℕ) : Run (ℕ × Bytes) := do
  let bytes ← store.get key
  pure (bytes.length - n, bytes.drop (bytes.length - n))

end Store

/-- A root of tables in a backend. -/
structure Location where
  root : List Char
  writable : Bool
  deriving DecidableEq, Repr

namespace Location

def key (self : Location) (relative : List Char) : ObjectPath := self.root ++ '/' :: relative

def ensureWritable (self : Location) : Run Unit :=
  if self.writable then .ok ()
  else .error (.error (.invalidStorageLocation "HTTP storage is read-only"))

variable [Codec]

/-- Validates the descriptor of the root. -/
def validateFormat (self : Location) (store : Store) : Run Unit := do
  let bytes ← store.get (self.key "format.json".toList)
  match Codec.parseFormat bytes with
  | none => .error (.error (.json "invalid format descriptor"))
  | some actual =>
    if actual = tablebaseFormat then pure ()
    else .error (.error (.invalidStorageLocation "unsupported tablebase format"))

/-- Creates the descriptor of the root if there is none. -/
def ensureFormat (self : Location) (store : Store) : Run Store := do
  self.ensureWritable
  match self.validateFormat store with
  | .ok () => pure store
  | .error (.error (.fileNotFound _)) =>
    pure (store.put (self.key "format.json".toList) Codec.formatJson)
  | .error fault => .error fault

end Location

end ChessEgt
