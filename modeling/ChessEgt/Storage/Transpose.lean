import ChessEgt.Storage.Frames
import ChessEgt.Retrograde.Working

/-!
# Transposed frames

The encoder keeps a cursor for the high bytes that moves with the words above 1, the decoder one
that moves with the low bytes above 1.

* `transposeInPlace` — the encoder with its buffer and its cursor;
* `merge` — what the decoder makes of low bytes and high bytes;
* `detransposeFrame_eq` — the decoder stays within bounds and merges the two halves;
* `frame_transposition_lossless` — which frames survive, and what is left of other bytes.
-/

namespace ChessEgt

/-- One word: its low byte at its own place, its high byte at the cursor. -/
def transposeStep (uncompressed : List MaybeDtcOutcome) (state : ℕ × List UInt8) (i : ℕ) :
    Run (ℕ × List UInt8) := do
  let (j, output) := state
  let value ← Run.index uncompressed i
  if isShort value then
    let output ← Run.store output i value.bits.toUInt8
    pure (j, output)
  else
    let output ← Run.store output i (lowByte value)
    let output ← Run.store output j (highByte value)
    pure (j + 1, output)

/-- The transposed bytes of a frame, written one by one to a buffer of zeros. -/
def transposeInPlace (uncompressed : List MaybeDtcOutcome) : Run (List UInt8) := do
  let n := uncompressed.length
  let (_, output) ← (List.range n).foldlM (transposeStep uncompressed) (n, List.replicate (n * 2) 0)
  pure output

/-! ### The buffer of the encoder -/

theorem toUInt8_of_isShort {value : MaybeDtcOutcome} (h : isShort value = true) :
    value.bits.toUInt8 = lowByte value := by
  have h := isShort_iff.mp h
  rw [← UInt8.toNat_inj, toNat_lowByte, UInt16.toNat_toUInt8]

/-- The high bytes that a frame keeps. -/
def highBytes (values : List MaybeDtcOutcome) : List UInt8 :=
  (values.filter fun value => !isShort value).map highByte

theorem highBytes_append (values values' : List MaybeDtcOutcome) :
    highBytes (values ++ values') = highBytes values ++ highBytes values' := by
  rw [highBytes, List.filter_append, List.map_append]
  rfl

theorem length_highBytes_le (values : List MaybeDtcOutcome) :
    (highBytes values).length ≤ values.length := by
  rw [highBytes, List.length_map]
  exact List.length_filter_le _ _

/-- The buffer once the first `i` words are written. -/
def transposeBuffer (values : List MaybeDtcOutcome) (i : ℕ) : List UInt8 :=
  (values.take i).map lowByte ++ List.replicate (values.length - i) 0 ++
    (highBytes (values.take i) ++
      List.replicate (values.length - (highBytes (values.take i)).length) 0)

theorem length_transposeBuffer {values : List MaybeDtcOutcome} {i : ℕ} (hi : i ≤ values.length) :
    (transposeBuffer values i).length = values.length * 2 := by
  have h := length_highBytes_le (values.take i)
  rw [List.length_take] at h
  simp only [transposeBuffer, List.length_append, List.length_map, List.length_replicate,
    List.length_take]
  omega

/-- A write to the first place of a run of zeros. -/
theorem set_replicate (a : List UInt8) (n : ℕ) (b : List UInt8) (x : UInt8) :
    (a ++ (List.replicate (n + 1) 0 ++ b)).set a.length x
      = a ++ [x] ++ (List.replicate n 0 ++ b) := by
  rw [List.set_append_right _ _ le_rfl, Nat.sub_self, List.replicate_succ, List.cons_append,
    List.set_cons_zero, List.append_assoc]
  rfl

theorem transposeStep_foldl (values : List MaybeDtcOutcome) {i : ℕ} (hi : i ≤ values.length) :
    (List.range i).foldlM (transposeStep values)
        (values.length, List.replicate (values.length * 2) 0)
      = .ok (values.length + (highBytes (values.take i)).length, transposeBuffer values i) := by
  induction i with
  | zero =>
    have : transposeBuffer values 0 = List.replicate (values.length * 2) 0 := by
      unfold transposeBuffer
      simp [highBytes, ← List.replicate_add, Nat.mul_two]
    rw [this]
    rfl
  | succ i ih =>
    have hbuffer := length_transposeBuffer (show i ≤ values.length by omega)
    have hhigh := length_highBytes_le (values.take i)
    rw [List.length_take, min_eq_left (by omega)] at hhigh
    have htake : values.take (i + 1) = values.take i ++ [values[i]] :=
      List.take_succ_eq_append_getElem hi
    have hlen : ((values.take i).map lowByte).length = i := by
      rw [List.length_map, List.length_take]
      omega
    -- The low byte goes to the first free place of the first half.
    have hlow : (transposeBuffer values i).set i (lowByte values[i])
        = (values.take (i + 1)).map lowByte ++ List.replicate (values.length - (i + 1)) 0 ++
          (highBytes (values.take i) ++
            List.replicate (values.length - (highBytes (values.take i)).length) 0) := by
      have h := set_replicate ((values.take i).map lowByte) (values.length - (i + 1))
        (highBytes (values.take i) ++
          List.replicate (values.length - (highBytes (values.take i)).length) 0)
        (lowByte values[i])
      rw [hlen, show values.length - (i + 1) + 1 = values.length - i by omega] at h
      rw [transposeBuffer, List.append_assoc, h, htake, List.map_append]
      simp
    rw [List.range_succ, List.foldlM_append, ih (by omega), Run.ok_bind]
    show transposeStep _ _ i >>= _ = _
    unfold transposeStep
    simp only [Run.index_eq (List.getElem?_eq_getElem hi), Run.ok_bind]
    by_cases hshort : isShort values[i] = true
    · have hnone : highBytes (values.take (i + 1)) = highBytes (values.take i) := by
        rw [htake, highBytes_append]
        simp [highBytes, hshort]
      rw [if_pos hshort, toUInt8_of_isShort hshort, Run.store_eq (by omega), Run.ok_bind, hlow,
        hnone, transposeBuffer, hnone]
      rfl
    · have hsome : highBytes (values.take (i + 1))
          = highBytes (values.take i) ++ [highByte values[i]] := by
        rw [htake, highBytes_append]
        simp [highBytes, hshort]
      rw [if_neg hshort, Run.store_eq (by omega), Run.ok_bind, Run.store_eq (by
        rw [List.length_set]; omega), Run.ok_bind, hlow]
      -- The high byte goes to the first free place of the second half.
      have h := set_replicate ((values.take (i + 1)).map lowByte ++
          List.replicate (values.length - (i + 1)) 0 ++ highBytes (values.take i))
        (values.length - (highBytes (values.take i)).length - 1) [] (highByte values[i])
      have hplace : (List.map lowByte (values.take (i + 1)) ++
          List.replicate (values.length - (i + 1)) 0 ++ highBytes (values.take i)).length
          = values.length + (highBytes (values.take i)).length := by
        simp only [List.length_append, List.length_map, List.length_take, List.length_replicate]
        omega
      rw [hplace, show values.length - (highBytes (values.take i)).length - 1 + 1
        = values.length - (highBytes (values.take i)).length by omega] at h
      simp only [List.append_nil, List.append_assoc] at h ⊢
      rw [h, hsome, transposeBuffer, hsome, List.length_append]
      simp [Nat.add_assoc, Nat.sub_sub]

/-- The encoder writes the low bytes, the high bytes that are kept, and zeros. -/
theorem transposeInPlace_eq (values : List MaybeDtcOutcome) :
    transposeInPlace values = .ok (transposeFrame values) := by
  unfold transposeInPlace
  dsimp only
  rw [transposeStep_foldl values le_rfl, Run.ok_bind]
  show Except.ok (transposeBuffer values values.length) = _
  rw [transposeBuffer, List.take_length, Nat.sub_self, List.replicate_zero, List.append_nil,
    ← List.append_assoc]
  rfl

/-! ### Merging the two halves -/

/-- A low byte that takes no high byte. -/
def isShortByte (low : UInt8) : Bool := low = 0b000 || low = 0b001

/-- The words of low bytes, which take their high bytes in order. -/
def merge : List UInt8 → List UInt8 → List MaybeDtcOutcome
  | [], _ => []
  | low :: lows, highs =>
    if isShortByte low then ⟨low.toUInt16⟩ :: merge lows highs
    else match highs with
      | [] => []
      | high :: highs => ofLeBytes low high :: merge lows highs

theorem merge_cons_short {low : UInt8} (h : isShortByte low = true) (lows highs : List UInt8) :
    merge (low :: lows) highs = ⟨low.toUInt16⟩ :: merge lows highs := by
  rw [merge.eq_def]
  exact if_pos h

theorem merge_cons_long {low : UInt8} (h : ¬ isShortByte low = true) (lows : List UInt8)
    (high : UInt8) (highs : List UInt8) :
    merge (low :: lows) (high :: highs) = ofLeBytes low high :: merge lows highs := by
  rw [merge.eq_def]
  exact if_neg h

/-- The number of high bytes that low bytes take. -/
def consumed (lows : List UInt8) : ℕ := (lows.filter fun low => !isShortByte low).length

theorem consumed_append (lows lows' : List UInt8) :
    consumed (lows ++ lows') = consumed lows + consumed lows' := by
  rw [consumed, List.filter_append, List.length_append]
  rfl

theorem consumed_le (lows : List UInt8) : consumed lows ≤ lows.length :=
  List.length_filter_le _ _

/-- Merging goes on with the high bytes that are left. -/
theorem merge_append (lows lows' highs : List UInt8) (h : consumed lows ≤ highs.length) :
    merge (lows ++ lows') highs = merge lows highs ++ merge lows' (highs.drop (consumed lows)) := by
  induction lows generalizing highs with
  | nil => rfl
  | cons low lows ih =>
    rw [List.cons_append]
    by_cases hshort : isShortByte low = true
    · have hc : consumed (low :: lows) = consumed lows := by simp [consumed, hshort]
      rw [hc] at h
      rw [merge_cons_short hshort, merge_cons_short hshort, ih highs h, hc, List.cons_append]
    · have hc : consumed (low :: lows) = consumed lows + 1 := by simp [consumed, hshort]
      cases highs with
      | nil => simp [hc] at h
      | cons high highs =>
        rw [hc, List.length_cons] at h
        rw [merge_cons_long hshort, merge_cons_long hshort, hc, List.drop_succ_cons,
          ih highs (by omega), List.cons_append]

theorem length_merge (lows highs : List UInt8) (h : consumed lows ≤ highs.length) :
    (merge lows highs).length = lows.length := by
  induction lows generalizing highs with
  | nil => rfl
  | cons low lows ih =>
    by_cases hshort : isShortByte low = true
    · have hc : consumed (low :: lows) = consumed lows := by simp [consumed, hshort]
      rw [hc] at h
      rw [merge_cons_short hshort, List.length_cons, List.length_cons, ih highs h]
    · have hc : consumed (low :: lows) = consumed lows + 1 := by simp [consumed, hshort]
      cases highs with
      | nil => simp [hc] at h
      | cons high highs =>
        rw [hc, List.length_cons] at h
        rw [merge_cons_long hshort, List.length_cons, List.length_cons, ih highs (by omega)]

theorem isShortByte_iff {low : UInt8} : isShortByte low = true ↔ low.toNat ≤ 1 := by
  unfold isShortByte
  rw [Bool.or_eq_true, decide_eq_true_eq, decide_eq_true_eq, ← UInt8.toNat_inj,
    ← UInt8.toNat_inj]
  show low.toNat = 0 ∨ low.toNat = 1 ↔ _
  omega

/-- A word made of a single byte. -/
theorem short_word {low : UInt8} (h : isShortByte low = true) :
    lowByte ⟨low.toUInt16⟩ = low ∧ isShort ⟨low.toUInt16⟩ = true := by
  have h := isShortByte_iff.mp h
  have hn : (⟨low.toUInt16⟩ : MaybeDtcOutcome).bits.toNat = low.toNat := UInt8.toNat_toUInt16 _
  constructor
  · rw [← UInt8.toNat_inj, toNat_lowByte, hn]
    omega
  · rw [isShort_iff, hn]
    exact h

/-- A word made of two bytes. -/
theorem long_word {low : UInt8} (h : ¬ isShortByte low = true) (high : UInt8) :
    lowByte (ofLeBytes low high) = low ∧ highByte (ofLeBytes low high) = high ∧
      isShort (ofLeBytes low high) = false := by
  rw [isShortByte_iff] at h
  have hl := low.toNat_lt
  have hh := high.toNat_lt
  have hn := toNat_ofLeBytes low high
  refine ⟨?_, ?_, ?_⟩
  · rw [← UInt8.toNat_inj, toNat_lowByte, hn]
    omega
  · rw [← UInt8.toNat_inj, toNat_highByte, hn]
    omega
  · rw [← Bool.not_eq_true, isShort_iff, hn]
    omega

theorem storable_of_isShort {value : MaybeDtcOutcome} (h : isShort value = true) :
    Storable value := fun _ => isShort_iff.mp h

/-- Merged words have the low bytes merged, take the high bytes consumed, and can be stored. -/
theorem merge_spec (lows highs : List UInt8) (h : consumed lows ≤ highs.length) :
    (merge lows highs).map lowByte = lows ∧
      highBytes (merge lows highs) = highs.take (consumed lows) ∧
      ∀ v ∈ merge lows highs, Storable v := by
  induction lows generalizing highs with
  | nil => exact ⟨rfl, rfl, fun v hv => absurd hv List.not_mem_nil⟩
  | cons low lows ih =>
    by_cases hshort : isShortByte low = true
    · have hc : consumed (low :: lows) = consumed lows := by simp [consumed, hshort]
      rw [hc] at h
      obtain ⟨hlows, hhighs, hstorable⟩ := ih highs h
      obtain ⟨hlow, hword⟩ := short_word hshort
      rw [merge_cons_short hshort]
      refine ⟨by rw [List.map_cons, hlow, hlows], ?_, fun v hv => ?_⟩
      · rw [hc, ← hhighs, highBytes, List.filter_cons_of_neg (by simp [hword])]
        rfl
      · rcases List.mem_cons.mp hv with rfl | hv
        · exact storable_of_isShort hword
        · exact hstorable v hv
    · have hc : consumed (low :: lows) = consumed lows + 1 := by simp [consumed, hshort]
      cases highs with
      | nil => simp [hc] at h
      | cons high highs =>
        rw [hc, List.length_cons] at h
        obtain ⟨hlows, hhighs, hstorable⟩ := ih highs (by omega)
        obtain ⟨hlow, hhigh, hword⟩ := long_word hshort high
        rw [merge_cons_long hshort]
        refine ⟨by rw [List.map_cons, hlow, hlows], ?_, fun v hv => ?_⟩
        · rw [hc, List.take_succ_cons, ← hhighs, highBytes,
            List.filter_cons_of_pos (by simp [hword]), List.map_cons, hhigh]
          rfl
        · rcases List.mem_cons.mp hv with rfl | hv
          · intro hle
            rw [← toNat_lowByte, hlow, ← isShortByte_iff] at hle
            exact absurd hle hshort
          · exact hstorable v hv

/-! ### The decoder -/

theorem detranspose_foldl {n : ℕ} {lows highs : List UInt8} (hl : lows.length = n)
    (hh : highs.length = n) {i : ℕ} (hi : i ≤ n) :
    (List.range i).foldlM (detransposeStep (lows ++ highs)) (n, [])
      = .ok (n + consumed (lows.take i), merge (lows.take i) highs) := by
  induction i with
  | zero => rfl
  | succ i ih =>
    have hlt : i < lows.length := by omega
    have hcons := consumed_le (lows.take i)
    rw [List.length_take, min_eq_left (by omega)] at hcons
    have htake : lows.take (i + 1) = lows.take i ++ [lows[i]] := List.take_succ_eq_append_getElem hlt
    have hlow : Run.index (lows ++ highs) i = .ok lows[i] := by
      refine Run.index_eq ?_
      rw [List.getElem?_append_left hlt, List.getElem?_eq_getElem hlt]
    rw [List.range_succ, List.foldlM_append, ih (by omega), Run.ok_bind]
    show detransposeStep _ _ i >>= _ = _
    unfold detransposeStep
    simp only [hlow, Run.ok_bind]
    rw [htake, consumed_append, merge_append _ _ _ (by omega)]
    by_cases hshort : isShortByte lows[i] = true
    · have hcond : lows[i] = 0b000 ∨ lows[i] = 0b001 := by simpa [isShortByte] using hshort
      have hc : consumed [lows[i]] = 0 := by simp [consumed, hshort]
      rw [if_pos hcond, merge_cons_short hshort, hc]
      rfl
    · have hcond : ¬ (lows[i] = 0b000 ∨ lows[i] = 0b001) := by simpa [isShortByte] using hshort
      -- The cursor stands at the next high byte.
      have hget : consumed (lows.take i) < highs.length := by omega
      have hhigh : Run.index (lows ++ highs) (n + consumed (lows.take i))
          = .ok highs[consumed (lows.take i)] := by
        refine Run.index_eq ?_
        rw [List.getElem?_append_right (by omega), hl, Nat.add_sub_cancel_left,
          List.getElem?_eq_getElem hget]
      have hc : consumed [lows[i]] = 1 := by simp [consumed, hshort]
      rw [if_neg hcond, hhigh, Run.ok_bind, List.drop_eq_getElem_cons hget,
        merge_cons_long hshort, hc]
      rfl

/-- The decoder stays within the bytes of a frame, and merges its two halves. -/
theorem detransposeFrame_eq {n : ℕ} {bytes : List UInt8} (h : bytes.length = 2 * n) :
    detransposeFrame bytes n = .ok (merge (bytes.take n) (bytes.drop n)) := by
  have hl : (bytes.take n).length = n := by rw [List.length_take]; omega
  have hh : (bytes.drop n).length = n := by rw [List.length_drop]; omega
  have hfold := detranspose_foldl hl hh (le_refl n)
  rw [List.take_append_drop, List.take_of_length_le (le_of_eq hl)] at hfold
  unfold detransposeFrame
  rw [hfold, Run.ok_bind]
  rfl

/-! ### Which frames survive -/

theorem storable_iff {value : MaybeDtcOutcome} : Storable value ↔
    ¬ ((lowByte value = 0 ∨ lowByte value = 1) ∧ highByte value ≠ 0) := by
  have hlow := toNat_lowByte value
  have hhigh := toNat_highByte value
  rw [ne_eq, ← UInt8.toNat_inj, ← UInt8.toNat_inj, ← UInt8.toNat_inj, hlow, hhigh]
  show (_ → _) ↔ ¬ ((_ = 0 ∨ _ = 1) ∧ ¬ _ = 0)
  omega

theorem storable_of_tag {value : MaybeDtcOutcome} (h : 2 ≤ value.tag) : Storable value := by
  intro hle
  unfold MaybeDtcOutcome.tag at h
  omega

theorem storable_newWin (ct : ConversionType) (d : UInt16) : Storable (.newWin ct d) := by
  refine storable_of_tag ?_
  rw [MaybeDtcOutcome.tag_newWin]
  cases ct <;> decide

theorem storable_newLoss (ct : ConversionType) (d : UInt16) : Storable (.newLoss ct d) := by
  refine storable_of_tag ?_
  rw [MaybeDtcOutcome.tag_newLoss]
  cases ct <;> decide

theorem detransposeFrame_transposeFrame_iff (values : List MaybeDtcOutcome) :
    detransposeFrame (transposeFrame values) values.length = .ok values ↔
      ∀ v ∈ values, Storable v := by
  constructor
  · intro h v hv
    have hlen : (transposeFrame values).length = 2 * values.length := by
      rw [length_transposeFrame, Nat.mul_comm]
    rw [detransposeFrame_eq hlen, Except.ok.injEq] at h
    rw [← h] at hv
    -- Only storable words are ever decoded.
    have hbound : consumed ((transposeFrame values).take values.length)
        ≤ ((transposeFrame values).drop values.length).length := by
      have := consumed_le ((transposeFrame values).take values.length)
      rw [List.length_take] at this
      rw [List.length_drop]
      omega
    exact (merge_spec _ _ hbound).2.2 v hv
  · exact detransposeFrame_transposeFrame

/-- A frame survives transposition exactly if no word has a high byte behind a low byte of 0 or
    1; any bytes decode, and transpose back to their low bytes and the high bytes consumed. -/
theorem frame_transposition_lossless :
    (∀ f : List MaybeDtcOutcome, ∃ bytes, transposeInPlace f = .ok bytes ∧
      bytes.length = 2 * f.length ∧
      (detransposeFrame bytes f.length = .ok f ↔
        ∀ v ∈ f, ¬ ((lowByte v = 0 ∨ lowByte v = 1) ∧ highByte v ≠ 0)) ∧
      ((∀ v ∈ f, v = .invalid ∨ v = .draw ∨ (∃ ct d, v = .newWin ct d) ∨
        ∃ ct d, v = .newLoss ct d) → detransposeFrame bytes f.length = .ok f)) ∧
    ∀ (n : ℕ) (bytes : List UInt8), bytes.length = 2 * n →
      ∃ f, detransposeFrame bytes n = .ok f ∧ f.length = n ∧
        transposeInPlace f = .ok (bytes.take n ++
          (bytes.drop n).take (consumed (bytes.take n)) ++
          List.replicate (n - consumed (bytes.take n)) 0) := by
  refine ⟨fun f => ?_, fun n bytes h => ?_⟩
  · refine ⟨transposeFrame f, transposeInPlace_eq f, ?_, ?_, fun hall => ?_⟩
    · rw [length_transposeFrame, Nat.mul_comm]
    · simp only [← storable_iff]
      exact detransposeFrame_transposeFrame_iff f
    · refine detransposeFrame_transposeFrame fun v hv => ?_
      rcases hall v hv with rfl | rfl | ⟨ct, d, rfl⟩ | ⟨ct, d, rfl⟩
      · exact storable_of_isShort rfl
      · exact storable_of_isShort rfl
      · exact storable_newWin ct d
      · exact storable_newLoss ct d
  · have hl : (bytes.take n).length = n := by rw [List.length_take]; omega
    have hbound : consumed (bytes.take n) ≤ (bytes.drop n).length := by
      have := consumed_le (bytes.take n)
      rw [List.length_drop]
      omega
    have hlen := length_merge _ _ hbound
    rw [hl] at hlen
    obtain ⟨hlows, hhighs, -⟩ := merge_spec _ _ hbound
    refine ⟨_, detransposeFrame_eq h, hlen, ?_⟩
    rw [transposeInPlace_eq]
    have htaken : ((bytes.drop n).take (consumed (bytes.take n))).length
        = consumed (bytes.take n) := by
      rw [List.length_take]
      omega
    show Except.ok (_ ++ highBytes _ ++ List.replicate (_ - (highBytes _).length) 0) = _
    rw [hlows, hhighs, htaken, hlen]

/-- A frame of a short and a long word, and four bytes. -/
theorem frame_transposition_lossless_small :
    (detransposeFrame [1, 10, 1, 0] 2 = .ok [.draw, .newWin .checkmate 33]) ∧
    ∃ f, detransposeFrame [0, 2, 7, 9] 2 = .ok f ∧ f.length = 2 ∧
      transposeInPlace f = .ok [0, 2, 7, 0] :=
  ⟨by decide, frame_transposition_lossless.2 2 [0, 2, 7, 9] rfl⟩

end ChessEgt
