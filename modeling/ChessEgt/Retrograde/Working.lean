import ChessEgt.Library.Workers
import ChessEgt.Storage.Outcome

/-!
# Working values

The values of the tables that are being solved, and the updates of propagation.

* `WorkingPair` — the arrays of a pair of tables;
* `markWin`, `decrement` — what an update makes of a value;
* `eq_newWin`, `eq_newLoss` — a value is determined by its kind, its type and its ply.
-/

namespace ChessEgt

/-- The place of a table in its pair. -/
abbrev Slot := Fin 2

/-- Mutable values for only the current pair; a self-pair has one array, the other is empty. -/
structure WorkingPair where
  values : Slot → List MaybeDtcOutcome

namespace WorkingPair

def get (working : WorkingPair) (a : Slot × ℕ) : Option MaybeDtcOutcome :=
  (working.values a.1)[a.2]?

def set (working : WorkingPair) (a : Slot × ℕ) (v : MaybeDtcOutcome) : WorkingPair :=
  ⟨Function.update working.values a.1 ((working.values a.1).set a.2 v)⟩

theorem get_mk (values : Slot → List MaybeDtcOutcome) (slot : Slot) (idx : ℕ) :
    (WorkingPair.mk values).get (slot, idx) = (values slot)[idx]? := rfl

theorem values_set_self (working : WorkingPair) (slot : Slot) (idx : ℕ) (v : MaybeDtcOutcome) :
    (working.set (slot, idx) v).values slot = (working.values slot).set idx v :=
  Function.update_self _ _ _

theorem values_set_of_ne (working : WorkingPair) {slot slot' : Slot} (idx : ℕ)
    (v : MaybeDtcOutcome) (h : slot ≠ slot') :
    (working.set (slot, idx) v).values slot' = working.values slot' :=
  Function.update_of_ne (Ne.symm h) _ _

@[ext] theorem ext {w w' : WorkingPair} (h : ∀ slot, w.values slot = w'.values slot) : w = w' := by
  cases w
  cases w'
  exact congrArg WorkingPair.mk (funext h)

instance : SharedMemory WorkingPair (Slot × ℕ) MaybeDtcOutcome where
  get := get
  set := set
  get_set_self := by
    rintro w ⟨slot, idx⟩ v v' h
    obtain ⟨hlt, -⟩ := List.getElem?_eq_some_iff.mp h
    rw [get, values_set_self, List.getElem?_set_self hlt]
  get_set_of_ne := by
    rintro w ⟨slot, idx⟩ ⟨slot', idx'⟩ v h
    by_cases hs : slot = slot'
    · subst hs
      rw [get, values_set_self, List.getElem?_set_ne (fun hi => h (by rw [hi]))]
      rfl
    · rw [get, values_set_of_ne _ _ _ hs]
      rfl
  set_eq_self := by
    rintro w ⟨slot, idx⟩ v h
    refine ext fun slot' => ?_
    by_cases hs : slot = slot'
    · subst hs
      rw [values_set_self]
      refine List.ext_getElem? fun i => ?_
      rw [List.getElem?_set]
      split
      · next hi =>
        subst hi
        cases hv : (w.values slot)[idx]? with
        | none => rw [if_neg (by rw [List.getElem?_eq_none_iff] at hv; omega)]
        | some v' =>
          obtain ⟨hlt, -⟩ := List.getElem?_eq_some_iff.mp hv
          rw [if_pos hlt, ← h v' hv]
      · rfl
    · rw [values_set_of_ne _ _ _ hs]
  set_set := by
    rintro w ⟨slot, idx⟩ v v'
    refine ext fun slot' => ?_
    by_cases hs : slot = slot'
    · subst hs
      rw [values_set_self, values_set_self, values_set_self, List.set_set]
    · rw [values_set_of_ne _ _ _ hs, values_set_of_ne _ _ _ hs, values_set_of_ne _ _ _ hs]
  set_comm := by
    rintro w ⟨slot, idx⟩ ⟨slot', idx'⟩ v v' h
    refine ext fun slot'' => ?_
    by_cases hs : slot = slot'
    · subst hs
      have hne : idx ≠ idx' := fun hi => h (by rw [hi])
      by_cases hs' : slot = slot''
      · subst hs'
        simp only [values_set_self, List.set_comm _ _ hne]
      · simp only [values_set_of_ne _ _ _ hs']
    · by_cases hs' : slot = slot''
      · subst hs'
        rw [values_set_of_ne _ _ _ (Ne.symm hs), values_set_self, values_set_self,
          values_set_of_ne _ _ _ (Ne.symm hs)]
      · rw [values_set_of_ne _ _ _ hs']
        by_cases hs'' : slot' = slot''
        · subst hs''
          rw [values_set_self, values_set_self, values_set_of_ne _ _ _ hs]
        · simp only [values_set_of_ne _ _ _ hs', values_set_of_ne _ _ _ hs'']

end WorkingPair

inductive WinUpdate where
  | unchanged
  | newlyResolved
  | upgraded
  deriving DecidableEq, Repr

/-- Distance (ply) of a win or loss value. -/
def ply (v : MaybeDtcOutcome) : ℕ := (v.bits >>> 3).toNat

/-- Conversion type of a win or loss value. -/
def outcomeCt (v : MaybeDtcOutcome) : ConversionType :=
  match (v.bits &&& 0b110).toNat with
  | 0b010 => .checkmate
  | 0b100 => .capture
  | _ => .promotion

/-- What marking a value as a win exchanges it for, and how the update is reported. -/
def markWin (ct : ConversionType) (plies : ℕ) (v : MaybeDtcOutcome) :
    Option (MaybeDtcOutcome × WinUpdate) :=
  let newlyResolved := v.isUnknown
  if !newlyResolved && !(v.isWin && ply v = plies && outcomeCt v < ct) then none
  else some (.newWin ct (.ofNat plies), if newlyResolved then .newlyResolved else .upgraded)

/-- What decrementing a value exchanges it for, and whether that decides it. The counter of an
    unknown value is not zero. -/
def decrement (ct : ConversionType) (plies : ℕ) (v : MaybeDtcOutcome) :
    Option (MaybeDtcOutcome × Bool) :=
  if !v.isUnknown then none
  else
    let counter := v.getUnknownCounter
    let next := if counter = 1 then .newLoss ct (.ofNat plies) else .newUnknown (counter - 1)
    some (next, counter = 1)

/-- Preference among conversion types for a loss, the reverse of the one for a win. -/
def lossRank : ConversionType → ℕ
  | .checkmate => 0
  | .capture => 1
  | .promotion => 2

/-- The preferred conversion type for a loss among `a` (if any) and `b`. -/
def betterLossCt (a : Option ConversionType) (b : ConversionType) : ConversionType :=
  match a with
  | some a => if lossRank b ≤ lossRank a then a else b
  | none => b

/-! ### Words as values -/

namespace MaybeDtcOutcome

theorem ext_toNat {v w : MaybeDtcOutcome} (h : v.bits.toNat = w.bits.toNat) : v = w := by
  cases v
  cases w
  exact congrArg MaybeDtcOutcome.mk (UInt16.toNat_inj.mp h)

/-- The low bits of a word. -/
def tag (v : MaybeDtcOutcome) : ℕ := v.bits.toNat % 8

theorem ply_eq (v : MaybeDtcOutcome) : ply v = v.bits.toNat / 8 := toNat_shiftRight_three _

theorem ply_lt (v : MaybeDtcOutcome) : ply v < 8192 := by
  have := v.bits.toNat_lt
  rw [ply_eq]
  omega

/-- A word is its tag and its ply. -/
theorem eq_of_tag_ply {v w : MaybeDtcOutcome} (ht : v.tag = w.tag) (hp : ply v = ply w) :
    v = w := by
  refine ext_toNat ?_
  rw [ply_eq, ply_eq] at hp
  unfold tag at ht
  omega

theorem mod_seven_toNat (w : UInt16) : (w &&& 0b110).toNat = w.toNat % 8 / 2 * 2 := by
  rw [UInt16.toNat_and]
  show w.toNat &&& 6 = _
  have h : w.toNat &&& 6 = (w.toNat &&& 7) &&& 6 := by rw [Nat.and_assoc]; rfl
  have h7 : w.toNat &&& 7 = w.toNat % 8 := Nat.and_two_pow_sub_one_eq_mod w.toNat 3
  rw [h, h7]
  have hlt : w.toNat % 8 < 8 := Nat.mod_lt _ (by decide)
  generalize w.toNat % 8 = t at hlt
  interval_cases t <;> rfl

theorem tag_eq (v : MaybeDtcOutcome) : (v.bits &&& 0b111).toNat = v.tag := toNat_and_seven _

theorem tag_lt (v : MaybeDtcOutcome) : v.tag < 8 := Nat.mod_lt _ (by decide)

theorem tag_or_shiftLeft {t : UInt16} (ht : t.toNat < 8) (d : UInt16) :
    tag ⟨t ||| d <<< 3⟩ = t.toNat := by
  have hd : (d <<< 3).toNat % 2 ^ 3 = 0 := by
    rw [UInt16.toNat_shiftLeft]
    show d.toNat <<< 3 % 2 ^ 16 % 2 ^ 3 = 0
    rw [Nat.shiftLeft_eq]
    omega
  show (t ||| d <<< 3).toNat % 2 ^ 3 = _
  rw [UInt16.toNat_or, Nat.or_mod_two_pow, hd, Nat.or_zero]
  exact Nat.mod_eq_of_lt ht

theorem tag_newWin (ct : ConversionType) (d : UInt16) :
    (newWin ct d).tag = (winBits ct).toNat := tag_or_shiftLeft (winBits_lt ct) d

theorem tag_newLoss (ct : ConversionType) (d : UInt16) :
    (newLoss ct d).tag = (lossBits ct).toNat := tag_or_shiftLeft (lossBits_lt ct) d

theorem tag_newUnknown (c : UInt16) : (newUnknown c).tag = 0 := by
  have h := tag_or_shiftLeft (t := 0) (by decide) c
  rwa [UInt16.zero_or] at h

theorem ply_newWin (ct : ConversionType) {n : ℕ} (hn : n < 8192) :
    ply (newWin ct (.ofNat n)) = n := by
  have hd : (UInt16.ofNat n).toNat = n := UInt16.toNat_ofNat_of_lt' (by show n < 65536; omega)
  have := winBits_lt ct
  rw [ply_eq, toNat_newWin ct (by omega), hd]
  omega

theorem ply_newLoss (ct : ConversionType) {n : ℕ} (hn : n < 8192) :
    ply (newLoss ct (.ofNat n)) = n := by
  have hd : (UInt16.ofNat n).toNat = n := UInt16.toNat_ofNat_of_lt' (by show n < 65536; omega)
  have := lossBits_lt ct
  rw [ply_eq, toNat_newLoss ct (by omega), hd]
  omega

/-- A word is a win if its tag is the one of a win. -/
theorem isWin_iff_tag {v : MaybeDtcOutcome} : v.isWin = true ↔ ∃ ct, v.tag = (winBits ct).toNat := by
  have h : v.isWin = true ↔ v.tag = 2 ∨ v.tag = 4 ∨ v.tag = 6 := by
    simp only [isWin, List.contains_iff_mem, List.mem_cons, List.not_mem_nil, or_false,
      ← UInt16.toNat_inj, tag_eq]
    rfl
  rw [h]
  constructor
  · rintro (h | h | h)
    · exact ⟨.checkmate, h⟩
    · exact ⟨.capture, h⟩
    · exact ⟨.promotion, h⟩
  · rintro ⟨ct, h⟩
    cases ct
    · exact Or.inr (Or.inr h)
    · exact Or.inr (Or.inl h)
    · exact Or.inl h

theorem isLoss_iff_tag {v : MaybeDtcOutcome} :
    v.isLoss = true ↔ ∃ ct, v.tag = (lossBits ct).toNat := by
  have h : v.isLoss = true ↔ v.tag = 3 ∨ v.tag = 5 ∨ v.tag = 7 := by
    simp only [isLoss, List.contains_iff_mem, List.mem_cons, List.not_mem_nil, or_false,
      ← UInt16.toNat_inj, tag_eq]
    rfl
  rw [h]
  constructor
  · rintro (h | h | h)
    · exact ⟨.checkmate, h⟩
    · exact ⟨.capture, h⟩
    · exact ⟨.promotion, h⟩
  · rintro ⟨ct, h⟩
    cases ct
    · exact Or.inr (Or.inr h)
    · exact Or.inr (Or.inl h)
    · exact Or.inl h

theorem isUnknown_iff_tag {v : MaybeDtcOutcome} :
    v.isUnknown = true ↔ v.tag = 0 ∧ v.bits.toNat ≠ 0 := isUnknown_iff

theorem outcomeCt_of_win {v : MaybeDtcOutcome} {ct : ConversionType}
    (h : v.tag = (winBits ct).toNat) : outcomeCt v = ct := by
  unfold tag at h
  unfold outcomeCt
  rw [mod_seven_toNat, h]
  cases ct <;> rfl

theorem outcomeCt_of_loss {v : MaybeDtcOutcome} {ct : ConversionType}
    (h : v.tag = (lossBits ct).toNat) : outcomeCt v = ct := by
  unfold tag at h
  unfold outcomeCt
  rw [mod_seven_toNat, h]
  cases ct <;> rfl

@[simp] theorem outcomeCt_newWin (ct : ConversionType) (d : UInt16) :
    outcomeCt (newWin ct d) = ct := outcomeCt_of_win (tag_newWin ct d)

@[simp] theorem outcomeCt_newLoss (ct : ConversionType) (d : UInt16) :
    outcomeCt (newLoss ct d) = ct := outcomeCt_of_loss (tag_newLoss ct d)

@[simp] theorem isWin_newWin (ct : ConversionType) (d : UInt16) : (newWin ct d).isWin = true :=
  isWin_iff_tag.mpr ⟨ct, tag_newWin ct d⟩

@[simp] theorem isLoss_newLoss (ct : ConversionType) (d : UInt16) :
    (newLoss ct d).isLoss = true := isLoss_iff_tag.mpr ⟨ct, tag_newLoss ct d⟩

/-- The three kinds of words with an outcome or a counter exclude each other. -/
theorem not_isLoss_of_isWin {v : MaybeDtcOutcome} (h : v.isWin = true) : v.isLoss = false := by
  rw [← Bool.not_eq_true, isLoss_iff_tag]
  rintro ⟨ct', h'⟩
  obtain ⟨ct, h⟩ := isWin_iff_tag.mp h
  rw [h] at h'
  cases ct <;> cases ct' <;> exact absurd h' (by decide)

theorem not_isUnknown_of_isWin {v : MaybeDtcOutcome} (h : v.isWin = true) :
    v.isUnknown = false := by
  rw [← Bool.not_eq_true, isUnknown_iff_tag]
  rintro ⟨h', -⟩
  obtain ⟨ct, h⟩ := isWin_iff_tag.mp h
  rw [h] at h'
  cases ct <;> exact absurd h' (by decide)

theorem not_isUnknown_of_isLoss {v : MaybeDtcOutcome} (h : v.isLoss = true) :
    v.isUnknown = false := by
  rw [← Bool.not_eq_true, isUnknown_iff_tag]
  rintro ⟨h', -⟩
  obtain ⟨ct, h⟩ := isLoss_iff_tag.mp h
  rw [h] at h'
  cases ct <;> exact absurd h' (by decide)

theorem not_isWin_newLoss (ct : ConversionType) (d : UInt16) : (newLoss ct d).isWin = false := by
  rw [← Bool.not_eq_true]
  intro h
  have := not_isLoss_of_isWin h
  rw [isLoss_newLoss] at this
  cases this

theorem not_isWin_newUnknown (c : UInt16) : (newUnknown c).isWin = false := by
  rw [← Bool.not_eq_true, isWin_iff_tag]
  rintro ⟨ct, h⟩
  rw [tag_newUnknown] at h
  cases ct <;> exact absurd h (by decide)

theorem not_isLoss_newUnknown (c : UInt16) : (newUnknown c).isLoss = false := by
  rw [← Bool.not_eq_true, isLoss_iff_tag]
  rintro ⟨ct, h⟩
  rw [tag_newUnknown] at h
  cases ct <;> exact absurd h (by decide)

/-- A win is determined by its type and its ply. -/
theorem eq_newWin {v : MaybeDtcOutcome} (h : v.isWin = true) :
    v = newWin (outcomeCt v) (.ofNat (ply v)) := by
  obtain ⟨ct, ht⟩ := isWin_iff_tag.mp h
  refine eq_of_tag_ply ?_ ?_
  · rw [tag_newWin, outcomeCt_of_win ht, ht]
  · rw [ply_newWin _ (ply_lt v)]

/-- A loss is determined by its type and its ply. -/
theorem eq_newLoss {v : MaybeDtcOutcome} (h : v.isLoss = true) :
    v = newLoss (outcomeCt v) (.ofNat (ply v)) := by
  obtain ⟨ct, ht⟩ := isLoss_iff_tag.mp h
  refine eq_of_tag_ply ?_ ?_
  · rw [tag_newLoss, outcomeCt_of_loss ht, ht]
  · rw [ply_newLoss _ (ply_lt v)]

end MaybeDtcOutcome

end ChessEgt
