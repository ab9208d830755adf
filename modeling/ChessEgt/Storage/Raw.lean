import ChessEgt.Storage.Codec

/-!
# Raw frames

A codec that keeps its frames as they are, in the layout of seekable objects: what the program
assumes of its libraries can be met.

* `leBytes`, `fromLeBytes_leBytes` — little-endian words;
* `rawSeekTable`, `parseRaw_rawSeekTable` — the serialized seek table, and back;
* `rawCodec`, `lawful_rawCodec`.
-/

namespace ChessEgt

/-- The little-endian bytes of a number. -/
def leBytes : ℕ → ℕ → Bytes
  | 0, _ => []
  | k + 1, n => UInt8.ofNat n :: leBytes k (n / 256)

@[simp] theorem length_leBytes (k n : ℕ) : (leBytes k n).length = k := by
  induction k generalizing n with
  | zero => rfl
  | succ k ih => rw [leBytes, List.length_cons, ih]

theorem fromLeBytes_leBytes {k n : ℕ} (h : n < 256 ^ k) : fromLeBytes (leBytes k n) = n := by
  induction k generalizing n with
  | zero =>
    rw [Nat.pow_zero] at h
    exact (Nat.lt_one_iff.mp h).symm
  | succ k ih =>
    have hdiv : n / 256 < 256 ^ k := Nat.div_lt_of_lt_mul (by rwa [Nat.pow_succ'] at h)
    have hrest := ih hdiv
    unfold fromLeBytes at hrest ⊢
    rw [leBytes, List.foldr_cons, hrest, UInt8.toNat_ofNat']
    exact Nat.mod_add_div n (2 ^ 8)

/-- The bytes of an entry. -/
def rawEntry (e : UInt32 × UInt32) : Bytes := leBytes 4 e.1.toNat ++ leBytes 4 e.2.toNat

/-- The frame header, the entries, and the footer. -/
def rawSeekTable (t : SeekTable) : Bytes :=
  [0x5E, 0x2A, 0x4D, 0x18] ++ leBytes 4 (8 * t.length + 9) ++ t.flatMap rawEntry ++
    leBytes 4 t.length ++ [0, 0xB1, 0xEA, 0x92, 0x8F]

/-- The entries of some bytes. -/
def parseEntries : ℕ → Bytes → SeekTable
  | 0, _ => []
  | n + 1, bytes => (UInt32.ofNat (fromLeBytes (bytes.take 4)),
      UInt32.ofNat (fromLeBytes ((bytes.drop 4).take 4))) :: parseEntries n (bytes.drop 8)

def parseRaw (bytes : Bytes) : Option SeekTable :=
  let n := fromLeBytes ((bytes.drop (bytes.length - 9)).take 4)
  if bytes.length = 17 + 8 * n then some (parseEntries n (bytes.drop 8)) else none

theorem length_entries (t : SeekTable) : (t.flatMap rawEntry).length = 8 * t.length := by
  induction t with
  | nil => rfl
  | cons e t ih =>
    rw [List.flatMap_cons, List.length_append, ih, rawEntry, List.length_append, length_leBytes,
      length_leBytes, List.length_cons]
    omega

theorem length_rawSeekTable (t : SeekTable) : (rawSeekTable t).length = 17 + 8 * t.length := by
  unfold rawSeekTable
  simp only [List.length_append, length_leBytes, length_entries, List.length_cons, List.length_nil]
  omega

/-- The footer starts after the entries. -/
theorem drop_rawSeekTable (t : SeekTable) : (rawSeekTable t).drop (8 + 8 * t.length)
    = leBytes 4 t.length ++ [0, 0xB1, 0xEA, 0x92, 0x8F] := by
  unfold rawSeekTable
  rw [List.append_assoc _ (leBytes 4 t.length), List.drop_left']
  simp only [List.length_append, length_leBytes, length_entries, List.length_cons, List.length_nil]

theorem parseEntries_append (t : SeekTable) (rest : Bytes) :
    parseEntries t.length (t.flatMap rawEntry ++ rest) = t := by
  induction t with
  | nil => rfl
  | cons e t ih =>
    have hword : ∀ w : UInt32, fromLeBytes (leBytes 4 w.toNat) = w.toNat :=
      fun w => fromLeBytes_leBytes w.toNat_lt
    have hsplit : (e :: t).flatMap rawEntry ++ rest
        = leBytes 4 e.1.toNat ++ (leBytes 4 e.2.toNat ++ (t.flatMap rawEntry ++ rest)) := by
      rw [List.flatMap_cons, rawEntry]
      simp only [List.append_assoc]
    rw [hsplit, List.length_cons, parseEntries, List.take_left' (length_leBytes 4 _),
      List.drop_left' (length_leBytes 4 _), List.take_left' (length_leBytes 4 _), hword, hword,
      UInt32.ofNat_toNat, UInt32.ofNat_toNat, show 8 = 4 + 4 from rfl, ← List.drop_drop,
      List.drop_left' (length_leBytes 4 _), List.drop_left' (length_leBytes 4 _), ih]

/-- The serialized seek table is parsed back. -/
theorem parseRaw_rawSeekTable {t : SeekTable} (h : t.length < 2 ^ 32) :
    parseRaw (rawSeekTable t) = some t := by
  have hcount : fromLeBytes (((rawSeekTable t).drop ((rawSeekTable t).length - 9)).take 4)
      = t.length := by
    rw [length_rawSeekTable, show 17 + 8 * t.length - 9 = 8 + 8 * t.length by omega,
      drop_rawSeekTable, List.take_left' (length_leBytes 4 _)]
    exact fromLeBytes_leBytes h
  unfold parseRaw
  rw [hcount]
  dsimp only
  rw [if_pos (length_rawSeekTable t)]
  unfold rawSeekTable
  rw [List.append_assoc, List.append_assoc, List.drop_left' (by simp), parseEntries_append]

/-- Frames are kept behind a byte, and the digest is left out. -/
@[reducible] def rawCodec : Codec where
  compress bytes := 0 :: bytes
  decompress _ bytes := bytes.tail?
  serialize := rawSeekTable
  parse := parseRaw
  sha256 _ := []
  formatJson := tablebaseFormat.map fun c => UInt8.ofNat c.toNat
  parseFormat bytes := some (bytes.map fun b => Char.ofNat b.toNat)

theorem lawful_rawCodec : @LawfulCodec rawCodec := by
  letI := rawCodec
  exact {
    decompress_compress := fun _ => rfl
    compress_ne_nil := fun _ => List.cons_ne_nil _ _
    length_compress := fun b hb => by
      show (0 :: b).length < _
      rw [List.length_cons]
      omega
    length_serialize := length_rawSeekTable
    count_serialize := fun t ht => by
      show fromLeBytes (((rawSeekTable t).drop _).take 4) = _
      rw [drop_rawSeekTable, List.take_left' (length_leBytes 4 _)]
      exact fromLeBytes_leBytes ht
    parse_serialize := fun _ => parseRaw_rawSeekTable
    parseFormat_formatJson := by decide }

end ChessEgt
