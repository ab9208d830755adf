import ChessEgt.Storage.Outcome
import ChessEgt.Stats.Record
import ChessEgt.Library.Pieces

/-!
# Frames

* `transposeFrame`, `detransposeFrame` — the bytes of a frame, low bytes first, and back;
* `frameLayout`, `locateFrame` — the extents of the frames of a table;
* `detransposeFrame_transposeFrame` — no storable word is changed;
* `locateFrame_eq` — an index lies at its own offset in its own frame.
-/

namespace ChessEgt

/-- Words that are stored as their low byte alone. -/
def isShort (value : MaybeDtcOutcome) : Bool := value.bits = 0b000 || value.bits = 0b001

def lowByte (value : MaybeDtcOutcome) : UInt8 := (value.bits &&& 0xFF).toUInt8

def highByte (value : MaybeDtcOutcome) : UInt8 := (value.bits >>> 8).toUInt8

/-- The low bytes of all words, then the high bytes of those that are not short, then zeros. -/
def transposeFrame (uncompressed : List MaybeDtcOutcome) : List UInt8 :=
  let high := (uncompressed.filter fun value => !isShort value).map highByte
  uncompressed.map lowByte ++ high ++ List.replicate (uncompressed.length - high.length) 0

/-- The word of two bytes. -/
def ofLeBytes (low high : UInt8) : MaybeDtcOutcome := ⟨low.toUInt16 ||| high.toUInt16 <<< 8⟩

/-- One word, and the place of the next high byte. -/
def detransposeStep (transposed : List UInt8) (state : ℕ × List MaybeDtcOutcome) (i : ℕ) :
    Run (ℕ × List MaybeDtcOutcome) := do
  let (j, output) := state
  let low ← Run.index transposed i
  if low = 0b000 ∨ low = 0b001 then
    pure (j, output ++ [⟨low.toUInt16⟩])
  else
    let high ← Run.index transposed j
    pure (j + 1, output ++ [ofLeBytes low high])

/-- Reverses `transposeFrame`. -/
def detransposeFrame (transposed : List UInt8) (n : ℕ) : Run (List MaybeDtcOutcome) := do
  let (_, output) ← (List.range n).foldlM (detransposeStep transposed) (n, [])
  pure output

/-- The extent of a frame. -/
structure FrameDescriptor where
  start : ℕ
  len : ℕ
  deriving DecidableEq, Repr

/-- The frames of a table. -/
def frameLayout (frameSize indexRange : ℕ) : List FrameDescriptor :=
  (List.range (Pieces.count frameSize indexRange)).map fun k =>
    ⟨k * frameSize, min frameSize (indexRange - k * frameSize)⟩

/-- The frame of an index, and the offset there. -/
def locateFrame (layout : List FrameDescriptor) (index : ℕ) : Run (ℕ × ℕ) := do
  let frameIdx ← Run.sub (layout.takeWhile (·.start ≤ index)).length 1
  let frame ← Run.index layout frameIdx
  let offset ← Run.sub index frame.start
  pure (frameIdx, offset)

/-- The bytes of a frame in memory. -/
def frameBytes (layout : List FrameDescriptor) (frameIdx : ℕ) : Run ℕ := do
  let frame ← Run.index layout frameIdx
  pure (frame.len * 2)

/-! ### Transposing and back -/

/-- The words that a frame can hold: the high byte is zero whenever the low byte says so. -/
def Storable (value : MaybeDtcOutcome) : Prop :=
  value.bits.toNat % 256 ≤ 1 → value.bits.toNat ≤ 1

theorem toNat_lowByte (value : MaybeDtcOutcome) :
    (lowByte value).toNat = value.bits.toNat % 256 := by
  unfold lowByte
  rw [UInt16.toNat_toUInt8, UInt16.toNat_and]
  have := Nat.and_two_pow_sub_one_eq_mod value.bits.toNat 8
  show (value.bits.toNat &&& 2 ^ 8 - 1) % 2 ^ 8 = _
  omega

theorem toNat_highByte (value : MaybeDtcOutcome) :
    (highByte value).toNat = value.bits.toNat / 256 := by
  unfold highByte
  rw [UInt16.toNat_toUInt8, UInt16.toNat_shiftRight]
  show (value.bits.toNat >>> 8) % 2 ^ 8 = _
  rw [Nat.shiftRight_eq_div_pow]
  have := value.bits.toNat_lt
  omega

theorem isShort_iff {value : MaybeDtcOutcome} : isShort value = true ↔ value.bits.toNat ≤ 1 := by
  unfold isShort
  rw [Bool.or_eq_true, decide_eq_true_eq, decide_eq_true_eq, ← UInt16.toNat_inj,
    ← UInt16.toNat_inj]
  show value.bits.toNat = 0 ∨ value.bits.toNat = 1 ↔ _
  omega

theorem toNat_ofLeBytes (low high : UInt8) :
    (ofLeBytes low high).bits.toNat = low.toNat + 256 * high.toNat := by
  have hl := low.toNat_lt
  have hh := high.toNat_lt
  unfold ofLeBytes
  rw [UInt16.toNat_or, UInt16.toNat_shiftLeft, UInt8.toNat_toUInt16, UInt8.toNat_toUInt16]
  show low.toNat ||| (high.toNat <<< 8) % 2 ^ 16 = _
  rw [Nat.mod_eq_of_lt (by rw [Nat.shiftLeft_eq]; omega), Nat.lor_comm,
    ← Nat.shiftLeft_add_eq_or_of_lt (by omega), Nat.shiftLeft_eq]
  omega

theorem ofLeBytes_bytes (value : MaybeDtcOutcome) :
    ofLeBytes (lowByte value) (highByte value) = value := by
  have h : (ofLeBytes (lowByte value) (highByte value)).bits.toNat = value.bits.toNat := by
    rw [toNat_ofLeBytes, toNat_lowByte, toNat_highByte]
    omega
  exact congrArg MaybeDtcOutcome.mk (UInt16.toNat_inj.mp h)

theorem low_iff {value : MaybeDtcOutcome} (hs : Storable value) :
    (lowByte value = 0b000 ∨ lowByte value = 0b001) ↔ isShort value = true := by
  rw [isShort_iff, ← UInt8.toNat_inj, ← UInt8.toNat_inj, toNat_lowByte]
  show value.bits.toNat % 256 = 0 ∨ value.bits.toNat % 256 = 1 ↔ _
  unfold Storable at hs
  omega

theorem ofLow_eq {value : MaybeDtcOutcome} (h : isShort value = true) :
    (⟨(lowByte value).toUInt16⟩ : MaybeDtcOutcome) = value := by
  have h := isShort_iff.mp h
  have : (lowByte value).toUInt16.toNat = value.bits.toNat := by
    rw [UInt8.toNat_toUInt16, toNat_lowByte]
    omega
  exact congrArg MaybeDtcOutcome.mk (UInt16.toNat_inj.mp this)

/-- The high bytes of the words in front of the `i`-th have been used up. -/
theorem detransposeStep_foldl {values : List MaybeDtcOutcome} (hs : ∀ v ∈ values, Storable v)
    {i : ℕ} (hi : i ≤ values.length) :
    (List.range i).foldlM (detransposeStep (transposeFrame values)) (values.length, [])
      = .ok (values.length + ((values.take i).filter fun v => !isShort v).length,
        values.take i) := by
  induction i with
  | zero => rfl
  | succ i ih =>
    have hget : values[i]? = some values[i] := List.getElem?_eq_getElem hi
    have htake : values.take (i + 1) = values.take i ++ [values[i]] :=
      List.take_succ_eq_append_getElem hi
    have hlow : Run.index (transposeFrame values) i = .ok (lowByte values[i]) := by
      refine Run.index_eq ?_
      unfold transposeFrame
      rw [List.append_assoc, List.getElem?_append_left (by rw [List.length_map]; exact hi),
        List.getElem?_map, hget]
      rfl
    rw [List.range_succ, List.foldlM_append, ih (by omega), Run.ok_bind]
    show detransposeStep _ _ i >>= _ = _
    unfold detransposeStep
    simp only [hlow, Run.ok_bind]
    by_cases hshort : isShort values[i] = true
    · rw [if_pos ((low_iff (hs _ (List.getElem_mem hi))).mpr hshort), ofLow_eq hshort, htake,
        List.filter_append, List.filter_cons_of_neg (by simp [hshort])]
      simp
    · -- The next high byte belongs to this word.
      have hhigh : Run.index (transposeFrame values)
          (values.length + ((values.take i).filter fun v => !isShort v).length)
          = .ok (highByte values[i]) := by
        refine Run.index_eq ?_
        have hsplit : (values.filter fun v => !isShort v)
            = ((values.take i).filter fun v => !isShort v) ++
              values[i] :: ((values.drop (i + 1)).filter fun v => !isShort v) := by
          conv_lhs => rw [← List.take_append_drop i values, List.drop_eq_getElem_cons hi]
          rw [List.filter_append, List.filter_cons_of_pos (by simp [hshort])]
        unfold transposeFrame
        rw [List.append_assoc,
          List.getElem?_append_right (by rw [List.length_map]; exact Nat.le_add_right _ _),
          show (values.map lowByte).length = values.length from List.length_map _,
          Nat.add_sub_cancel_left, hsplit, List.map_append, List.map_cons, List.append_assoc,
          List.getElem?_append_right (by rw [List.length_map]), List.length_map, Nat.sub_self]
        rfl
      rw [if_neg (fun h => hshort ((low_iff (hs _ (List.getElem_mem hi))).mp h)), hhigh,
        Run.ok_bind, ofLeBytes_bytes, htake, List.filter_append,
        List.filter_cons_of_pos (by simp [hshort])]
      simp [Nat.add_assoc]

theorem detransposeFrame_transposeFrame {values : List MaybeDtcOutcome}
    (hs : ∀ v ∈ values, Storable v) :
    detransposeFrame (transposeFrame values) values.length = .ok values := by
  unfold detransposeFrame
  rw [detransposeStep_foldl hs le_rfl, Run.ok_bind, List.take_length]
  rfl

theorem length_transposeFrame (values : List MaybeDtcOutcome) :
    (transposeFrame values).length = values.length * 2 := by
  have := List.length_filter_le (fun v => !isShort v) values
  unfold transposeFrame
  simp only [List.length_append, List.length_map, List.length_replicate]
  omega

/-! ### Locating an index -/

section Layout

variable {frameSize indexRange : ℕ}

theorem length_frameLayout :
    (frameLayout frameSize indexRange).length = Pieces.count frameSize indexRange := by
  rw [frameLayout, List.length_map, List.length_range]

theorem getElem?_frameLayout (hf : 0 < frameSize) {k : ℕ} (hk : k * frameSize < indexRange) :
    (frameLayout frameSize indexRange)[k]?
      = some ⟨k * frameSize, min frameSize (indexRange - k * frameSize)⟩ := by
  rw [frameLayout, List.getElem?_map, List.getElem?_range ((Pieces.lt_count hf).mpr hk)]
  rfl

/-- An index lies at its own offset in its own frame. -/
theorem locateFrame_eq (hf : 0 < frameSize) {index : ℕ} (hi : index < indexRange) :
    locateFrame (frameLayout frameSize indexRange) index
      = .ok (index / frameSize, index % frameSize) := by
  have hle : index / frameSize * frameSize ≤ index := Nat.div_mul_le_self _ _
  have hk : index / frameSize * frameSize < indexRange := hle.trans_lt hi
  have hlt : index / frameSize < Pieces.count frameSize indexRange := (Pieces.lt_count hf).mpr hk
  -- The frames that start at or before the index are the first ones.
  have hstarts : ((frameLayout frameSize indexRange).takeWhile (·.start ≤ index)).length
      = index / frameSize + 1 := by
    have hrange : ∀ m, index / frameSize < m →
        ((List.range m).takeWhile fun k => decide (k * frameSize ≤ index)).length
          = index / frameSize + 1 := by
      intro m hm
      have hsplit : List.range m = List.range (index / frameSize + 1) ++
          (List.range (m - (index / frameSize + 1))).map (index / frameSize + 1 + ·) := by
        rw [← List.range_add, Nat.add_sub_cancel' hm]
      have hall : ∀ k ∈ List.range (index / frameSize + 1), decide (k * frameSize ≤ index) := by
        intro k hk
        rw [decide_eq_true_eq, ← Nat.le_div_iff_mul_le hf]
        exact Nat.lt_succ_iff.mp (List.mem_range.mp hk)
      rw [hsplit, List.takeWhile_append_of_pos hall, List.length_append, List.length_range]
      have hnone : ((List.range (m - (index / frameSize + 1))).map
          (index / frameSize + 1 + ·)).takeWhile (fun k => decide (k * frameSize ≤ index)) = [] := by
        cases h : m - (index / frameSize + 1) with
        | zero => rfl
        | succ r =>
          rw [List.range_succ_eq_map, List.map_cons, List.takeWhile_cons_of_neg]
          rw [decide_eq_true_eq, ← Nat.le_div_iff_mul_le hf]
          omega
      rw [hnone]
      rfl
    rw [frameLayout, List.takeWhile_map, List.length_map]
    exact hrange _ hlt
  unfold locateFrame
  rw [hstarts, Run.sub_eq (Nat.le_add_left 1 _), Run.ok_bind, Nat.add_sub_cancel,
    Run.index_eq (getElem?_frameLayout hf hk), Run.ok_bind, Run.sub_eq hle, Run.ok_bind,
    Nat.mul_comm, ← Nat.mod_eq_sub_mul_div]
  rfl

end Layout

end ChessEgt
