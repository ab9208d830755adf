import ChessEgt.Library.Confluence
import ChessEgt.Retrograde.Solve

/-!
# The phases of a ply

What the updates of a phase do to a value, and why their order does not matter.

* `attemptWin_cases`, `attemptLoss_cases` — the exchanges of an update;
* `stable` — a scan neither changes nor creates the values that it selects;
* `commutes`, `effective_of_lt` — up to ply 8191 the updates commute; above, every exchange counts;
* `valueAfter_losses`, `valueAfter_wins` — what the updates of a phase make of a value.
-/

namespace ChessEgt

open ParallelScan

instance : Subsingleton (AddUnits Found) where
  allEq a b := by
    have hzero : ∀ c : AddUnits Found, c.val = 0 := by
      intro c
      have h := c.val_neg
      refine Found.ext ?_ ?_
      · have := congrArg Found.wins h
        simp only [Found.add_wins, Found.zero_wins] at this ⊢
        omega
      · have := congrArg Found.losses h
        simp only [Found.add_losses, Found.zero_losses] at this ⊢
        omega
    exact AddUnits.ext ((hzero a).trans (hzero b).symm)

namespace MaybeDtcOutcome

theorem ply_newUnknown {n : ℕ} (hn : n < 8192) : ply (newUnknown (.ofNat n)) = n := by
  have hd : (UInt16.ofNat n).toNat = n := UInt16.toNat_ofNat_of_lt' (by show n < 65536; omega)
  rw [ply_eq, toNat_newUnknown (by omega), hd]
  omega

/-- The counter of an unknown value is positive. -/
theorem ply_pos_of_isUnknown {v : MaybeDtcOutcome} (h : v.isUnknown = true) : 0 < ply v := by
  obtain ⟨ht, hne⟩ := isUnknown_iff_tag.mp h
  unfold tag at ht
  rw [ply_eq]
  omega

/-- An unknown value is determined by its counter. -/
theorem eq_newUnknown {v : MaybeDtcOutcome} (h : v.isUnknown = true) :
    v = newUnknown (.ofNat (ply v)) := by
  refine eq_of_tag_ply ?_ ?_
  · rw [tag_newUnknown, (isUnknown_iff_tag.mp h).1]
  · rw [ply_newUnknown (ply_lt v)]

theorem isUnknown_newUnknown {n : ℕ} (hn : 0 < n) (hn' : n < 8192) :
    (newUnknown (.ofNat n)).isUnknown = true := by
  refine isUnknown_iff_tag.mpr ⟨tag_newUnknown _, fun h => ?_⟩
  have := ply_newUnknown hn'
  rw [ply_eq, h] at this
  omega

end MaybeDtcOutcome

open MaybeDtcOutcome

/-! ### The exchanges of an update -/

/-- An update by a loss resolves an unknown value, or upgrades a win of the same ply. -/
theorem attemptWin_cases {plies : ℕ} {u : Update} {v : MaybeDtcOutcome}
    {e : Exchange MaybeDtcOutcome PlyRecord Found} (h : attemptWin plies u v = some e) :
    e.value = newWin u.2 (.ofNat plies) ∧ e.note = some ⟨u.1.1, u.1.2, .win u.2, plies⟩ ∧
      (v.isUnknown = true ∧ e.count = ⟨1, 0⟩ ∨
        v.isWin = true ∧ ply v = plies ∧ outcomeCt v < u.2 ∧ e.count = 0) := by
  unfold attemptWin markWin at h
  by_cases hu : v.isUnknown = true
  · rw [hu] at h
    cases h
    exact ⟨rfl, rfl, Or.inl ⟨hu, rfl⟩⟩
  · by_cases hw : (v.isWin && ply v = plies && outcomeCt v < u.2) = true
    · rw [Bool.not_eq_true] at hu
      simp only [hu, hw, Bool.not_false, Bool.not_true, Bool.and_false, Bool.false_eq_true,
        if_false] at h
      cases h
      simp only [Bool.and_eq_true, decide_eq_true_eq] at hw
      exact ⟨rfl, rfl, Or.inr ⟨hw.1.1, hw.1.2, hw.2, rfl⟩⟩
    · simp only [Bool.not_eq_true] at hu hw
      simp [hu, hw] at h

theorem attemptWin_of_isUnknown {plies : ℕ} (u : Update) {v : MaybeDtcOutcome}
    (h : v.isUnknown = true) : attemptWin plies u v
      = some ⟨newWin u.2 (.ofNat plies), ⟨1, 0⟩, some ⟨u.1.1, u.1.2, .win u.2, plies⟩⟩ := by
  simp [attemptWin, markWin, h]

theorem attemptWin_of_upgrade {plies : ℕ} (u : Update) {v : MaybeDtcOutcome}
    (hw : v.isWin = true) (hp : ply v = plies) (hct : outcomeCt v < u.2) : attemptWin plies u v
      = some ⟨newWin u.2 (.ofNat plies), 0, some ⟨u.1.1, u.1.2, .win u.2, plies⟩⟩ := by
  simp [attemptWin, markWin, not_isUnknown_of_isWin hw, hw, hp, hct]

theorem attemptWin_eq_none {plies : ℕ} (u : Update) {v : MaybeDtcOutcome}
    (hu : v.isUnknown = false)
    (hw : ¬(v.isWin = true ∧ ply v = plies ∧ outcomeCt v < u.2)) :
    attemptWin plies u v = none := by
  cases h : attemptWin plies u v with
  | none => rfl
  | some e =>
    rcases (attemptWin_cases h).2.2 with ⟨h', -⟩ | ⟨h₁, h₂, h₃, -⟩
    · rw [hu] at h'
      cases h'
    · exact absurd ⟨h₁, h₂, h₃⟩ hw

/-- An update by a win decrements the counter of an unknown value, or decides it. -/
theorem attemptLoss_of_isUnknown {ct : ConversionType} {plies : ℕ} (u : Update)
    {v : MaybeDtcOutcome} (h : v.isUnknown = true) : attemptLoss ct plies u v
      = if ply v = 1 then
          some ⟨newLoss ct (.ofNat plies), ⟨0, 1⟩, some ⟨u.1.1, u.1.2, .loss, plies⟩⟩
        else some ⟨newUnknown (.ofNat (ply v - 1)), 0, none⟩ := by
  have hcounter : v.getUnknownCounter.toNat = ply v := rfl
  have hpos := ply_pos_of_isUnknown h
  have hiff : v.getUnknownCounter = 1 ↔ ply v = 1 := by
    rw [← UInt16.toNat_inj, hcounter]
    rfl
  unfold attemptLoss decrement
  by_cases hone : ply v = 1
  · simp [h, hone, hiff.mpr hone]
  · have hsub : v.getUnknownCounter - 1 = .ofNat (ply v - 1) := by
      rw [← UInt16.toNat_inj, UInt16.toNat_sub_of_le _ _ (by
        rw [UInt16.le_iff_toNat_le]; show 1 ≤ _; omega), hcounter,
        UInt16.toNat_ofNat_of_lt' (by have := ply_lt v; show _ < 65536; omega)]
      rfl
    simp [h, hone, mt hiff.mp hone, hsub]

theorem attemptLoss_eq_none {ct : ConversionType} {plies : ℕ} (u : Update) {v : MaybeDtcOutcome}
    (h : v.isUnknown = false) : attemptLoss ct plies u v = none := by
  simp [attemptLoss, decrement, h]

/-- An update by a win exchanges an unknown value for a loss, which counts, or for another unknown
    one. -/
theorem attemptLoss_cases {ct : ConversionType} {plies : ℕ} {u : Update} {v : MaybeDtcOutcome}
    {e : Exchange MaybeDtcOutcome PlyRecord Found} (h : attemptLoss ct plies u v = some e) :
    v.isUnknown = true ∧
      (e = ⟨newLoss ct (.ofNat plies), ⟨0, 1⟩, some ⟨u.1.1, u.1.2, .loss, plies⟩⟩ ∨
        ∃ c, 0 < c ∧ c < 8192 ∧ e = ⟨newUnknown (.ofNat c), 0, none⟩) := by
  cases hu : v.isUnknown with
  | false =>
    rw [attemptLoss_eq_none u hu] at h
    cases h
  | true =>
    refine ⟨rfl, ?_⟩
    have hpos := ply_pos_of_isUnknown hu
    have hlt := ply_lt v
    rw [attemptLoss_of_isUnknown u hu] at h
    split at h
    · exact Or.inl (Option.some.inj h).symm
    · exact Or.inr ⟨ply v - 1, by omega, by omega, (Option.some.inj h).symm⟩

/-! ### What a scan selects -/

theorem selects_losses {plies : ℕ} {v : MaybeDtcOutcome} :
    Phase.losses.selects plies v = true ↔ v.isLoss = true ∧ ply v = plies - 1 := by
  simp [Phase.selects]

theorem selects_wins {plies : ℕ} {ct : ConversionType} {v : MaybeDtcOutcome} :
    (Phase.wins ct).selects plies v = true ↔ v = newWin ct (.ofNat (plies - 1)) := by
  simp [Phase.selects]

section

variable [Shakmaty] {e : Entry} {phase : Phase} {plies : ℕ}

/-- A scan neither changes nor creates the values that it selects. -/
theorem stable (e : Entry) (phase : Phase) (plies : ℕ) : (e.scan phase plies).Stable where
  selected := by
    intro u v h
    cases phase with
    | losses =>
      have hl := (selects_losses.mp h).1
      refine attemptWin_eq_none u (not_isUnknown_of_isLoss hl) fun hw => ?_
      rw [not_isLoss_of_isWin hw.1] at hl
      cases hl
    | wins ct =>
      rw [selects_wins.mp h]
      exact attemptLoss_eq_none u (not_isUnknown_of_isWin (isWin_newWin ct _))
  written := by
    intro u v x h
    show phase.selects plies x.value = false
    cases phase with
    | losses =>
      rw [(attemptWin_cases h).1, ← Bool.not_eq_true, selects_losses]
      rintro ⟨hl, -⟩
      rw [not_isLoss_of_isWin (isWin_newWin u.2 _)] at hl
      cases hl
    | wins ct =>
      rw [← Bool.not_eq_true, selects_wins]
      intro heq
      have hwin : x.value.isWin = true := by rw [heq]; exact isWin_newWin ct _
      rcases (attemptLoss_cases h).2 with rfl | ⟨c, -, -, rfl⟩
      · rw [not_isWin_newLoss] at hwin
        cases hwin
      · rw [not_isWin_newUnknown] at hwin
        cases hwin

/-! ### Updates by losses -/

theorem apply_losses_of_isUnknown (u : Update) {v : MaybeDtcOutcome} (h : v.isUnknown = true) :
    (e.scan .losses plies).apply u v = (newWin u.2 (.ofNat plies), ⟨1, 0⟩) := by
  have hx : (e.scan .losses plies).attempt u v = some _ := attemptWin_of_isUnknown u h
  rw [apply_of_attempt_some hx]

/-- An update by a loss keeps the better type of a win. -/
theorem apply_losses_newWin (u : Update) (ct : ConversionType) (hp : plies ≤ 8191) :
    (e.scan .losses plies).apply u (newWin ct (.ofNat plies))
      = (newWin (max ct u.2) (.ofNat plies), 0) := by
  have hw := isWin_newWin ct (.ofNat plies)
  have hply : ply (newWin ct (.ofNat plies)) = plies := ply_newWin ct (by omega)
  have hct := outcomeCt_newWin ct (.ofNat plies)
  by_cases hlt : ct < u.2
  · rw [max_eq_right hlt.le]
    have hx : (e.scan .losses plies).attempt u (newWin ct (.ofNat plies)) = some _ :=
      attemptWin_of_upgrade u hw hply (by rw [hct]; exact hlt)
    rw [apply_of_attempt_some hx]
  · rw [max_eq_left (not_lt.mp hlt)]
    refine apply_of_attempt_none (attemptWin_eq_none u (not_isUnknown_of_isWin hw) ?_)
    rintro ⟨-, -, h⟩
    rw [hct] at h
    exact hlt h

/-- Any other value is left alone. -/
theorem apply_losses_of_other (u : Update) {v : MaybeDtcOutcome} (hu : v.isUnknown = false)
    (hw : ¬(v.isWin = true ∧ ply v = plies)) : (e.scan .losses plies).apply u v = (v, 0) :=
  apply_of_attempt_none (attemptWin_eq_none u hu fun h => hw ⟨h.1, h.2.1⟩)

/-- The value of a win at the ply that is being solved. -/
theorem eq_newWin_of_ply {v : MaybeDtcOutcome} (hw : v.isWin = true) (hp : ply v = plies) :
    v = newWin (outcomeCt v) (.ofNat plies) := by
  rw [← hp]
  exact eq_newWin hw

theorem commutes_losses (hp : plies ≤ 8191) : (e.scan .losses plies).Commutes := by
  intro u u' v _
  by_cases hu : v.isUnknown = true
  · rw [apply_losses_of_isUnknown u hu, apply_losses_of_isUnknown u' hu,
      apply_losses_newWin u' u.2 hp, apply_losses_newWin u u'.2 hp]
    exact ⟨by rw [max_comm], rfl⟩
  · rw [Bool.not_eq_true] at hu
    by_cases hw : v.isWin = true ∧ ply v = plies
    · rw [eq_newWin_of_ply hw.1 hw.2, apply_losses_newWin u _ hp, apply_losses_newWin u' _ hp,
        apply_losses_newWin u' _ hp, apply_losses_newWin u _ hp]
      exact ⟨by rw [max_right_comm], rfl⟩
    · simp only [apply_losses_of_other u hu hw, apply_losses_of_other u' hu hw, and_self]

/-- Above ply 8191 no win has the ply that is being solved, so that none can be upgraded. -/
theorem effective_losses (hp : 8191 < plies) : (e.scan .losses plies).Effective := by
  intro u v h
  obtain ⟨x, hx⟩ := Option.isSome_iff_exists.mp h
  rw [apply_of_attempt_some hx]
  rcases (attemptWin_cases hx).2.2 with ⟨-, hc⟩ | ⟨-, hply, -, -⟩
  · show x.count ≠ 0
    rw [hc]
    decide
  · have := ply_lt v
    omega

/-! ### Updates by wins -/

/-- All updates by wins of one type do the same. -/
theorem commutes_wins (ct : ConversionType) : (e.scan (.wins ct) plies).Commutes := by
  intro u u' v h
  have hsame : ∀ w, (e.scan (.wins ct) plies).apply u w = (e.scan (.wins ct) plies).apply u' w := by
    intro w
    have hattempt : (e.scan (.wins ct) plies).attempt u w
        = (e.scan (.wins ct) plies).attempt u' w := by
      show attemptLoss ct plies u w = attemptLoss ct plies u' w
      unfold attemptLoss
      rw [show u.1 = u'.1 from h]
    unfold ParallelScan.apply
    rw [hattempt]
  rw [hsame, hsame]
  exact ⟨rfl, rfl⟩

/-- The order of the updates does not matter up to ply 8191, or if nothing is resolved. -/
theorem order_irrelevant {n : Found} (h : plies ≤ 8191 ∨ n = 0) :
    (e.scan phase plies).Commutes ∨ (e.scan phase plies).Effective ∧ n = 0 := by
  cases phase with
  | losses =>
    by_cases hp : plies ≤ 8191
    · exact Or.inl (commutes_losses hp)
    · exact Or.inr ⟨effective_losses (by omega), h.resolve_left hp⟩
  | wins ct => exact Or.inl (commutes_wins ct)

end

end ChessEgt
