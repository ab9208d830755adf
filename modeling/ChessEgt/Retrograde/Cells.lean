import ChessEgt.Library.Iteration
import ChessEgt.Retrograde.Advances

/-!
# Values as cells

What a value of the program stands for in the propagation of outcomes, and what the updates of a
phase make of it there.

* `encode`, `InBits` — the value of a cell, for cells whose counter or distance fits into 13 bits;
* `Phase.update`, `apply_encode` — an update of a phase, on cells and on values;
* `Represents`, `represents_foldl` — what a list of updates makes of a whole memory.
-/

namespace ChessEgt

open ParallelScan MaybeDtcOutcome SharedMemory

/-- The value that stands for a cell. -/
def encode : Cell ConversionType → MaybeDtcOutcome
  | .invalid => .invalid
  | .unknown n => newUnknown (.ofNat n)
  | .known (.win ct n) => newWin ct (.ofNat n)
  | .known .draw => .draw
  | .known (.loss ct n) => newLoss ct (.ofNat n)

/-- The counter or the distance of a cell fits into 13 bits, and a counter is not zero. -/
def InBits : Cell ConversionType → Prop
  | .invalid => True
  | .unknown n => 0 < n ∧ n ≤ 8191
  | .known o => ∀ n, o.plies? = some n → n ≤ 8191

@[simp] theorem inBits_invalid : InBits .invalid := trivial
@[simp] theorem inBits_unknown {n : ℕ} : InBits (.unknown n) ↔ 0 < n ∧ n ≤ 8191 := Iff.rfl
@[simp] theorem inBits_draw : InBits (.known .draw) := fun _ h => nomatch h
@[simp] theorem inBits_win {ct : ConversionType} {n : ℕ} :
    InBits (.known (.win ct n)) ↔ n ≤ 8191 :=
  ⟨fun h => h n rfl, fun h m hm => by cases hm; exact h⟩
@[simp] theorem inBits_loss {ct : ConversionType} {n : ℕ} :
    InBits (.known (.loss ct n)) ↔ n ≤ 8191 :=
  ⟨fun h => h n rfl, fun h m hm => by cases hm; exact h⟩

theorem isUnknown_encode {n : ℕ} (h : InBits (.unknown n)) :
    (encode (.unknown n)).isUnknown = true := isUnknown_newUnknown h.1 (by have := h.2; omega)

theorem ply_encode {n : ℕ} (h : InBits (.unknown n)) : ply (encode (.unknown n)) = n :=
  ply_newUnknown (by have := h.2; omega)

/-- Only unknown cells have unknown values. -/
theorem isUnknown_encode_of_ne {c : Cell ConversionType} (h : ∀ n, c ≠ .unknown n) :
    (encode c).isUnknown = false := by
  cases c with
  | invalid => rfl
  | unknown n => exact absurd rfl (h n)
  | known o =>
    cases o with
    | win ct n => exact not_isUnknown_newWin ct _
    | draw => rfl
    | loss ct n => exact not_isUnknown_newLoss ct _

theorem isLoss_encode {c : Cell ConversionType} :
    (encode c).isLoss = true ↔ ∃ ct n, c = .known (.loss ct n) := by
  constructor
  · intro h
    cases c with
    | invalid => cases h
    | unknown n =>
      have hfalse : (encode (.unknown n)).isLoss = false := not_isLoss_newUnknown _
      rw [hfalse] at h
      cases h
    | known o =>
      cases o with
      | draw => cases h
      | win ct n =>
        have hfalse : (encode (.known (.win ct n))).isLoss = false :=
          not_isLoss_of_isWin (isWin_newWin ct _)
        rw [hfalse] at h
        cases h
      | loss ct n => exact ⟨ct, n, rfl⟩
  · rintro ⟨ct, n, rfl⟩
    exact isLoss_newLoss ct _

theorem isWin_encode {c : Cell ConversionType} :
    (encode c).isWin = true ↔ ∃ ct n, c = .known (.win ct n) := by
  constructor
  · intro h
    cases c with
    | invalid => cases h
    | unknown n =>
      have hfalse : (encode (.unknown n)).isWin = false := not_isWin_newUnknown _
      rw [hfalse] at h
      cases h
    | known o =>
      cases o with
      | draw => cases h
      | win ct n => exact ⟨ct, n, rfl⟩
      | loss ct n =>
        have hfalse : (encode (.known (.loss ct n))).isWin = false := not_isWin_newLoss ct _
        rw [hfalse] at h
        cases h
  · rintro ⟨ct, n, rfl⟩
    exact isWin_newWin ct _

/-- The distance of a resolved value. -/
theorem ply_encode_known {o : DtcOutcome} (h : InBits (.known o)) {n : ℕ}
    (hn : o.plies? = some n) : ply (encode (.known o)) = n := by
  have hle := h n hn
  cases o with
  | draw => cases hn
  | win ct m =>
    obtain rfl : m = n := by simpa using hn
    exact ply_newWin ct (by omega)
  | loss ct m =>
    obtain rfl : m = n := by simpa using hn
    exact ply_newLoss ct (by omega)

/-! ### Updates of a cell -/

/-- What an update of a phase makes of a cell. -/
def Phase.update (phase : Phase) (plies : ℕ) (c : Cell ConversionType) (ct : ConversionType) :
    Cell ConversionType :=
  match phase with
  | losses => c.mark plies ct
  | wins ct' => c.decrement ct' plies

/-- A cell that has been resolved at a ply that does not fit. -/
def Spent (plies : ℕ) (c : Cell ConversionType) : Prop :=
  8191 < plies ∧ ∃ o, c = .known o ∧ o.plies? = some plies

theorem Spent.not_inBits {plies : ℕ} {c : Cell ConversionType} (h : Spent plies c) :
    ¬ InBits c := by
  obtain ⟨hp, o, rfl, ho⟩ := h
  intro hb
  have := hb plies ho
  omega

theorem Spent.update {plies : ℕ} {c : Cell ConversionType} (h : Spent plies c) (phase : Phase)
    (ct : ConversionType) : Spent plies (phase.update plies c ct) := by
  obtain ⟨hp, o, rfl, ho⟩ := h
  refine ⟨hp, ?_⟩
  cases phase with
  | wins ct' => exact ⟨o, rfl, ho⟩
  | losses =>
    show ∃ o, Cell.mark plies (.known _) ct = .known o ∧ _
    cases o with
    | draw => cases ho
    | loss k n => exact ⟨_, rfl, ho⟩
    | win k n =>
      obtain rfl : n = plies := by simpa using ho
      rw [Cell.mark_win]
      exact ⟨_, rfl, rfl⟩

/-- An update keeps a cell within its bits, or exceeds them for good. -/
theorem inBits_update {plies : ℕ} {c : Cell ConversionType} (h : InBits c) (phase : Phase)
    (ct : ConversionType) :
    InBits (phase.update plies c ct) ∨ Spent plies (phase.update plies c ct) := by
  cases c with
  | invalid => cases phase <;> exact Or.inl trivial
  | known o =>
    cases phase with
    | wins ct' => exact Or.inl h
    | losses =>
      show InBits (Cell.mark plies (.known o) ct) ∨ _
      cases o with
      | draw => exact Or.inl h
      | loss k n => exact Or.inl h
      | win k n =>
        by_cases hn : n = plies
        · rw [hn] at h ⊢
          rw [Cell.mark_win]
          exact Or.inl (inBits_win.mpr (inBits_win.mp h))
        · rw [Cell.mark_win_of_ne hn]
          exact Or.inl h
  | unknown n =>
    by_cases hp : plies ≤ 8191
    · cases phase with
      | losses => exact Or.inl (inBits_win.mpr hp)
      | wins ct' =>
        show InBits (Cell.decrement ct' plies (.unknown n)) ∨ _
        unfold Cell.decrement
        dsimp only
        split
        · exact Or.inl (inBits_loss.mpr hp)
        · have := inBits_unknown.mp h
          exact Or.inl ⟨by omega, by omega⟩
    · cases phase with
      | losses => exact Or.inr ⟨by omega, _, rfl, rfl⟩
      | wins ct' =>
        show InBits (Cell.decrement ct' plies (.unknown n)) ∨
          Spent plies (Cell.decrement ct' plies (.unknown n))
        unfold Cell.decrement
        dsimp only
        split
        · exact Or.inr ⟨by omega, _, rfl, rfl⟩
        · have := inBits_unknown.mp h
          exact Or.inl ⟨by omega, by omega⟩

theorem Spent.foldl {plies : ℕ} {c : Cell ConversionType} (h : Spent plies c) (phase : Phase)
    (cts : List ConversionType) : Spent plies (cts.foldl (phase.update plies) c) := by
  induction cts generalizing c with
  | nil => exact h
  | cons ct cts ih => exact ih (h.update phase ct)

theorem inBits_foldl {plies : ℕ} {c : Cell ConversionType} (h : InBits c) (phase : Phase)
    (cts : List ConversionType) : InBits (cts.foldl (phase.update plies) c) ∨
      Spent plies (cts.foldl (phase.update plies) c) := by
  induction cts generalizing c with
  | nil => exact Or.inl h
  | cons ct cts ih =>
    rcases inBits_update h phase ct with hb | hs
    · exact ih hb
    · exact Or.inr (hs.foldl phase cts)

/-- A cell that ends within its bits has always been within them. -/
theorem inBits_of_foldl {plies : ℕ} {c : Cell ConversionType} (h : InBits c) {phase : Phase}
    {ct : ConversionType} {cts : List ConversionType}
    (hlast : InBits ((ct :: cts).foldl (phase.update plies) c)) :
    InBits (phase.update plies c ct) := by
  rcases inBits_update h phase ct with hb | hs
  · exact hb
  · exact absurd hlast (hs.foldl phase cts).not_inBits

instance (phase : Phase) (plies : ℕ) : RightCommutative (phase.update plies) where
  right_comm c ct ct' := by
    cases phase with
    | wins k => rfl
    | losses =>
      show (c.mark plies ct).mark plies ct' = (c.mark plies ct').mark plies ct
      cases c with
      | invalid => rfl
      | unknown n => rw [Cell.mark_unknown, Cell.mark_unknown, Cell.mark_win, Cell.mark_win, max_comm]
      | known o =>
        cases o with
        | draw => rfl
        | loss k n => rfl
        | win k n =>
          by_cases hn : n = plies
          · rw [hn]
            simp only [Cell.mark_win, max_right_comm]
          · simp only [Cell.mark_win_of_ne hn]

section

variable [Shakmaty] {e : Entry} {phase : Phase} {plies : ℕ}

/-- An update of a value is the update of its cell. At a ply that does not fit, it counts nothing. -/
theorem apply_encode {c : Cell ConversionType} {u : Update} (h : InBits c)
    (hu : InBits (phase.update plies c u.2)) :
    ((e.scan phase plies).apply u (encode c)).1 = encode (phase.update plies c u.2) ∧
      (8191 < plies → ((e.scan phase plies).apply u (encode c)).2 = 0) := by
  cases phase with
  | wins ct =>
    cases c with
    | invalid =>
      rw [apply_wins_of_other ct u (isUnknown_encode_of_ne fun n hn => by cases hn)]
      exact ⟨rfl, fun _ => rfl⟩
    | known o =>
      rw [apply_wins_of_other ct u (isUnknown_encode_of_ne fun n hn => by cases hn)]
      exact ⟨rfl, fun _ => rfl⟩
    | unknown n =>
      have hn := inBits_unknown.mp h
      rw [apply_wins_of_isUnknown ct u (isUnknown_encode h), ply_encode h]
      have hdec : (Phase.wins ct).update plies (.unknown n) u.2
          = if n = 1 then .known (.loss ct plies) else .unknown (n - 1) := rfl
      rw [hdec] at hu ⊢
      by_cases hone : n = 1
      · rw [if_pos hone] at hu ⊢
        rw [if_pos hone]
        refine ⟨rfl, fun hp => ?_⟩
        have := inBits_loss.mp hu
        omega
      · rw [if_neg hone, if_neg hone]
        exact ⟨rfl, fun _ => rfl⟩
  | losses =>
    have hother : ∀ {c}, (encode c).isUnknown = false →
        ¬((encode c).isWin = true ∧ ply (encode c) = plies) → Phase.losses.update plies c u.2 = c →
        ((e.scan .losses plies).apply u (encode c)).1 = encode (Phase.losses.update plies c u.2) ∧
          (8191 < plies → ((e.scan .losses plies).apply u (encode c)).2 = 0) := by
      intro c hc hw hsame
      rw [apply_losses_of_other u hc hw, hsame]
      exact ⟨rfl, fun _ => rfl⟩
    cases c with
    | invalid =>
      exact hother (isUnknown_encode_of_ne fun n hn => by cases hn) (fun hw => by cases hw.1) rfl
    | unknown n =>
      have hp : plies ≤ 8191 := inBits_win.mp hu
      rw [apply_losses_of_isUnknown u (isUnknown_encode h)]
      exact ⟨rfl, fun hlt => by omega⟩
    | known o =>
      have hu' : (encode (.known o)).isUnknown = false :=
        isUnknown_encode_of_ne fun n hn => by cases hn
      cases o with
      | draw => exact hother hu' (fun hw => by cases hw.1) rfl
      | loss k n =>
        refine hother hu' (fun hw => ?_) rfl
        have hl : (encode (.known (.loss k n))).isWin = false := not_isWin_newLoss k _
        rw [hl] at hw
        cases hw.1
      | win k n =>
        have hle := inBits_win.mp h
        by_cases hn : n = plies
        · subst hn
          have hmark : Phase.losses.update n (.known (.win k n)) u.2
              = .known (.win (max k u.2) n) := Cell.mark_win n u.2 k
          have happly : (e.scan .losses n).apply u (encode (.known (.win k n))) = _ :=
            apply_losses_newWin u k hle
          rw [happly, hmark]
          exact ⟨rfl, fun _ => rfl⟩
        · refine hother hu' (fun hw => hn ?_) (Cell.mark_win_of_ne hn u.2 k)
          rw [← hw.2]
          exact (ply_newWin k (by omega)).symm

/-! ### Updates of a memory -/

/-- The values of a memory stand for cells. -/
def Represents (m : WorkingPair) (cell : Slot × ℕ → Cell ConversionType) : Prop :=
  ∀ a v, get m a = some v → v = encode (cell a)

/-- The types of the updates of a cell. -/
def typesAt (a : Slot × ℕ) (us : List Update) : List ConversionType :=
  (us.filter fun u => decide (u.1 = a)).map Prod.snd

omit [Shakmaty] in
theorem typesAt_cons_self {a : Slot × ℕ} {u : Update} (h : u.1 = a) (us : List Update) :
    typesAt a (u :: us) = u.2 :: typesAt a us := by
  unfold typesAt
  rw [List.filter_cons, if_pos (decide_eq_true h), List.map_cons]

omit [Shakmaty] in
theorem typesAt_cons_of_ne {a : Slot × ℕ} {u : Update} (h : u.1 ≠ a) (us : List Update) :
    typesAt a (u :: us) = typesAt a us := by
  unfold typesAt
  rw [List.filter_cons, if_neg (by simpa using h)]

/-- The cells after a list of updates. -/
def cellsAfter (phase : Phase) (plies : ℕ) (us : List Update)
    (cell : Slot × ℕ → Cell ConversionType) (a : Slot × ℕ) : Cell ConversionType :=
  (typesAt a us).foldl (phase.update plies) (cell a)

omit [Shakmaty] in
theorem cellsAfter_cons (phase : Phase) (plies : ℕ) (u : Update) (us : List Update)
    (cell : Slot × ℕ → Cell ConversionType) : cellsAfter phase plies (u :: us) cell
      = cellsAfter phase plies us
        (Function.update cell u.1 (phase.update plies (cell u.1) u.2)) := by
  funext a
  unfold cellsAfter
  by_cases ha : u.1 = a
  · rw [typesAt_cons_self ha, List.foldl_cons, ← ha, Function.update_self]
  · rw [typesAt_cons_of_ne ha, Function.update_of_ne (Ne.symm ha)]

omit [Shakmaty] in
/-- The order of the updates does not matter. -/
theorem cellsAfter_perm {us us' : List Update} (h : us.Perm us')
    (cell : Slot × ℕ → Cell ConversionType) :
    cellsAfter phase plies us cell = cellsAfter phase plies us' cell := by
  funext a
  exact List.Perm.foldl_eq ((h.filter _).map Prod.snd) (cell a)

/-- Updates of a memory are updates of its cells. -/
theorem represents_foldl {m : WorkingPair} {n : Found} {cell : Slot × ℕ → Cell ConversionType}
    {us : List Update} (h : Represents m cell) (hb : ∀ a, InBits (cell a))
    (hlast : ∀ a, InBits (cellsAfter phase plies us cell a)) :
    Represents (us.foldl (e.scan phase plies).visit (m, n)).1 (cellsAfter phase plies us cell) ∧
      (8191 < plies → (us.foldl (e.scan phase plies).visit (m, n)).2 = n) := by
  induction us generalizing m n cell with
  | nil => exact ⟨h, fun _ => rfl⟩
  | cons u us ih =>
    rw [cellsAfter_cons] at hlast ⊢
    have hu : InBits (phase.update plies (cell u.1) u.2) := by
      have hlast' := hlast u.1
      rw [← cellsAfter_cons] at hlast'
      unfold cellsAfter at hlast'
      rw [typesAt_cons_self rfl] at hlast'
      exact inBits_of_foldl (hb u.1) hlast'
    have hb' : ∀ a, InBits (Function.update cell u.1 (phase.update plies (cell u.1) u.2) a) := by
      intro a
      by_cases ha : a = u.1
      · rw [ha, Function.update_self]
        exact hu
      · rw [Function.update_of_ne ha]
        exact hb a
    -- The update of the target; every other value stays.
    have hvisit : Represents ((e.scan phase plies).visit (m, n) u).1
        (Function.update cell u.1 (phase.update plies (cell u.1) u.2)) ∧
        (8191 < plies → ((e.scan phase plies).visit (m, n) u).2 = n) := by
      have htarget : (e.scan phase plies).target u = u.1 := rfl
      cases hv : get m u.1 with
      | none =>
        have hstay : (e.scan phase plies).visit (m, n) u = (m, n) := by
          unfold visit
          rw [htarget, hv]
        rw [hstay]
        refine ⟨fun a v ha => ?_, fun _ => rfl⟩
        have hne : a ≠ u.1 := fun heq => by
          rw [heq, hv] at ha
          cases ha
        rw [Function.update_of_ne hne]
        exact h a v ha
      | some v =>
        have hcell := h u.1 v hv
        obtain ⟨happly, hzero⟩ := apply_encode (e := e) (hb u.1) hu
        rw [← hcell] at happly hzero
        refine ⟨fun a w ha => ?_, fun hp => ?_⟩
        · by_cases hne : a = u.1
          · subst hne
            have hself : get ((e.scan phase plies).visit (m, n) u).1 u.1 = _ := get_visit_self hv n
            rw [hself, Option.some.injEq] at ha
            rw [← ha, happly, Function.update_self]
          · have hother : get ((e.scan phase plies).visit (m, n) u).1 a = get m a :=
              get_visit_of_ne (m, n) (Ne.symm hne)
            rw [hother] at ha
            rw [Function.update_of_ne hne]
            exact h a w ha
        · have hcount : ((e.scan phase plies).visit (m, n) u).2
              = n + ((e.scan phase plies).apply u v).2 := congrArg Prod.snd (visit_eq hv n)
          rw [hcount, hzero hp, add_zero]
    rw [List.foldl_cons]
    generalize (e.scan phase plies).visit (m, n) u = x at hvisit
    obtain ⟨m', n'⟩ := x
    obtain ⟨hrepr, hcount⟩ := ih hvisit.1 hb' hlast (n := n')
    exact ⟨hrepr, fun hp => (hcount hp).trans (hvisit.2 hp)⟩

end

end ChessEgt
