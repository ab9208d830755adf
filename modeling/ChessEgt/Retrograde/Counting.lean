import ChessEgt.Retrograde.InitialCounts

/-!
# The counts of a run

* `Placed`, `placed` — initialization as it is left by `solveStart`, table by table;
* `Progress.Counted` — the counts of a ply are exact, and so are the maxima;
* `Progress.Bounded` — every ply after the first one uses up an unknown value;
* `Evolves` — what a run can make of a value;
* `counts_exact`, `plies_bounded`, `values_final` — these hold in every reachable state.
-/

namespace ChessEgt

open ParallelScan MaybeDtcOutcome Relation

/-! ### Exact counts -/

/-- The largest number below `n` with a property, or zero. -/
def LargestBelow (P : ℕ → Prop) (n m : ℕ) : Prop :=
  (∀ p, m < p → p < n → ¬ P p) ∧ (m = 0 ∨ m < n ∧ P m)

/-- The counts of a ply, and of the one before it, are the numbers of values with these distances;
    there are no greater distances, and the maxima are the greatest ones of the plies before. -/
structure Progress.Counted (c : Progress) : Prop where
  pos : 0 < c.plies
  found : ∀ slot, c.found slot = tally c.plies (c.working.values slot)
  previous : ∀ slot, c.previous slot = tally (c.plies - 1) (c.working.values slot)
  later : ∀ slot p, c.plies < p → tally p (c.working.values slot) = 0
  maxWin : ∀ slot, LargestBelow (fun p => 0 < (tally p (c.working.values slot)).wins) c.plies
    (c.maxWin slot)
  maxLoss : ∀ slot, LargestBelow (fun p => 0 < (tally p (c.working.values slot)).losses) c.plies
    (c.maxLoss slot)
  halted : c.halted = true → c.todo = [] ∧ ∀ slot, c.found slot = 0

theorem LargestBelow.congr {P Q : ℕ → Prop} {n m : ℕ} (h : LargestBelow P n m)
    (heq : ∀ p < n, P p ↔ Q p) : LargestBelow Q n m := by
  refine ⟨fun p hm hn hq => h.1 p hm hn ((heq p hn).mpr hq), h.2.imp_right fun hm => ?_⟩
  exact ⟨hm.1, (heq m hm.1).mp hm.2⟩

/-- One more number. -/
theorem LargestBelow.succ {P : ℕ → Prop} [DecidablePred P] {n m : ℕ} (h : LargestBelow P n m) :
    LargestBelow P (n + 1) (if P n then n else m) := by
  by_cases hn : P n
  · rw [if_pos hn]
    exact ⟨fun p hm hp => absurd hm (by omega), Or.inr ⟨by omega, hn⟩⟩
  · rw [if_neg hn]
    refine ⟨fun p hm hp hP => ?_, h.2.imp_right fun hm => ⟨by omega, hm.2⟩⟩
    by_cases hpn : p = n
    · exact hn (hpn ▸ hP)
    · exact h.1 p hm (by omega) hP

theorem count_of_scanned_progress {c : Progress} {e : Entry} {rest : List (Phase × Entry)}
    {x : WorkingPair × Found} (hfits : (c.scanned e rest x).Fits) : c.plies ≤ 8191 ∨ x.2 = 0 := by
  rcases hfits with hle | ⟨-, hzero⟩
  · exact Or.inl hle
  · refine Or.inr ?_
    have hslot := hzero e.twinSlot
    simp only [Progress.scanned, Function.update_self] at hslot
    exact (add_eq_zero.mp hslot).2

/-- A scan keeps the tallies of the other plies, and adds what it counts to the one of its ply. -/
theorem Updated.tally_eq {plies : ℕ} {slot : Slot} {m : WorkingPair} {x : WorkingPair × Found}
    (h : Updated plies slot m x) (p : ℕ) (slot' : Slot) : ChessEgt.tally p (x.1.values slot')
      = ChessEgt.tally p (m.values slot') + if p = plies ∧ slot' = slot then x.2 else 0 := by
  by_cases hslot : slot' = slot
  · rw [hslot, h.tally p]
    simp
  · rw [h.others slot' hslot]
    simp [hslot]

section

variable [Shakmaty] {probe : Chess → Run DtcOutcome} {entries : List Entry} {s s' : Solver}
  {c c' : Progress}

/-! ### The start -/

/-- What initialization leaves at the slots of some tables. -/
structure Placed (probe : Chess → Run DtcOutcome) (all done : List Entry) (s : Solver) : Prop where
  plies : s.plies = 1
  running : s.halted = false
  maxima : ∀ slot, s.maxWin slot = 0 ∧ s.maxLoss slot = 0
  tables : ∀ e ∈ done, ∃ values summary counts,
    initializeTable probe e.table = .ok (values, summary, counts) ∧
      s.working.values e.slot = values ∧ s.previous e.slot = ⟨0, counts.checkmates⟩ ∧
        s.found e.slot = counts.found
  others : ∀ slot ∉ done.map Entry.slot, s.working.values slot = [] ∧ s.previous slot = 0 ∧
    s.found slot = 0

theorem placed_of_foldlM {all done : List Entry} (hnodup : ((done ++ entries).map Entry.slot).Nodup)
    (hs : Placed probe all done s) (h : entries.foldlM (Solver.install probe) s = .ok s') :
    Placed probe all (done ++ entries) s' := by
  induction entries generalizing done s with
  | nil =>
    cases h
    rwa [List.append_nil]
  | cons e entries ih =>
    rw [List.foldlM_cons] at h
    obtain ⟨s₁, hs₁, h⟩ := Run.bind_eq_ok.mp h
    obtain ⟨⟨values, summary, counts⟩, hinit, hs₁⟩ := Run.bind_eq_ok.mp hs₁
    cases hs₁
    have happend : done ++ e :: entries = (done ++ [e]) ++ entries := by simp
    have hnew : e.slot ∉ done.map Entry.slot := by
      rw [List.map_append, List.map_cons] at hnodup
      exact fun hmem => (List.nodup_append.mp hnodup).2.2 _ hmem _ List.mem_cons_self rfl
    rw [happend] at hnodup ⊢
    have hs' : Placed probe all (done ++ [e]) (s.installed e values summary counts) := by
      refine ⟨hs.plies, hs.running, hs.maxima, fun e' he' => ?_, fun slot hslot => ?_⟩
      · rcases List.mem_append.mp he' with he' | he'
        · have hne : e'.slot ≠ e.slot := fun heq => hnew (heq ▸ List.mem_map_of_mem he')
          obtain ⟨values', summary', counts', hi, hv, hp, hf⟩ := hs.tables e' he'
          refine ⟨values', summary', counts', hi, ?_, ?_, ?_⟩
          · simpa only [Solver.installed, Function.update_of_ne hne] using hv
          · simpa only [Solver.installed, Function.update_of_ne hne] using hp
          · simpa only [Solver.installed, Function.update_of_ne hne] using hf
        · rw [List.mem_singleton.mp he']
          refine ⟨values, summary, counts, hinit, ?_, ?_, ?_⟩
          all_goals simp only [Solver.installed, Function.update_self]
      · rw [List.map_append, List.mem_append, List.map_singleton, List.mem_singleton, not_or] at hslot
        simpa only [Solver.installed, Function.update_of_ne hslot.2] using hs.others slot hslot.1
    exact ih hnodup hs' h

theorem placed (hnodup : (entries.map Entry.slot).Nodup) (h : solveStart probe entries = .ok s) :
    Placed probe entries entries s := by
  have hblank : Placed probe entries [] (Solver.blank entries) :=
    ⟨rfl, rfl, fun _ => ⟨rfl, rfl⟩, by simp, fun _ _ => ⟨rfl, rfl, rfl⟩⟩
  refine placed_of_foldlM ?_ hblank h
  exact hnodup

/-! ### Steps and runs -/

theorem Progress.Counted.step (h : c.Counted) (hstep : Progress.Step entries c c')
    (hfits : c'.Fits) : c'.Counted := by
  cases hstep with
  | @scan phase e rest x htodo hresult =>
    have hu := updated_of_result hresult (count_of_scanned_progress hfits)
    -- The tallies of the plies before this one do not change.
    have hbefore : ∀ p, p ≠ c.plies → ∀ slot,
        tally p (x.1.values slot) = tally p (c.working.values slot) := by
      intro p hp slot
      rw [hu.tally_eq, if_neg (fun h => hp h.1), add_zero]
    refine ⟨h.pos, fun slot => ?_, fun slot => ?_, fun slot p hp => ?_, fun slot => ?_,
      fun slot => ?_, fun hh => ?_⟩
    · show Function.update c.found e.twinSlot _ slot = tally c.plies (x.1.values slot)
      rw [hu.tally_eq, ← h.found slot]
      by_cases hslot : slot = e.twinSlot
      · subst hslot
        rw [Function.update_self, if_pos ⟨rfl, rfl⟩]
      · rw [Function.update_of_ne hslot, if_neg (fun h => hslot h.2), add_zero]
    · have hpos := h.pos
      show c.previous slot = tally (c.plies - 1) (x.1.values slot)
      rw [hbefore _ (by omega), h.previous slot]
    · have hp' : c.plies < p := hp
      show tally p (x.1.values slot) = 0
      rw [hbefore p (by omega), h.later slot p hp']
    · refine (h.maxWin slot).congr fun p hp => ?_
      show _ ↔ 0 < (tally p (x.1.values slot)).wins
      rw [hbefore p (by omega)]
    · refine (h.maxLoss slot).congr fun p hp => ?_
      show _ ↔ 0 < (tally p (x.1.values slot)).losses
      rw [hbefore p (by omega)]
    · have hnil := (h.halted hh).1
      rw [htodo] at hnil
      cases hnil
  | advance _ hrun _ =>
    refine ⟨Nat.succ_pos _, fun slot => ?_, h.found, fun slot p hp => ?_, fun slot => ?_,
      fun slot => ?_, fun hh => ?_⟩
    · exact (h.later slot (c.plies + 1) (Nat.lt_succ_self _)).symm
    · have hp' : c.plies + 1 < p := hp
      exact h.later slot p (by omega)
    · have hsucc := (h.maxWin slot).succ
      simp only [← h.found slot] at hsucc
      exact hsucc
    · have hsucc := (h.maxLoss slot).succ
      simp only [← h.found slot] at hsucc
      exact hsucc
    · have hfalse : c.halted = true := hh
      rw [hrun] at hfalse
      cases hfalse
  | halt htodo _ hempty =>
    exact ⟨h.pos, h.found, h.previous, h.later, h.maxWin, h.maxLoss,
      fun _ => ⟨htodo, fun slot => Found.isEmpty_iff.mp (hempty slot)⟩⟩

/-- The counts are exact after initialization. -/
theorem Placed.counted (h : Placed probe entries entries s) : s.progress.Counted := by
  have htally : ∀ slot, tally 0 (s.working.values slot) = s.previous slot ∧
      tally 1 (s.working.values slot) = s.found slot ∧
      ∀ p, 1 < p → tally p (s.working.values slot) = 0 := by
    intro slot
    by_cases hslot : slot ∈ entries.map Entry.slot
    · obtain ⟨e, he, rfl⟩ := List.mem_map.mp hslot
      obtain ⟨values, summary, counts, hinit, hv, hp, hf⟩ := h.tables e he
      obtain ⟨pairs, hpairs⟩ := initializeTable_at probe hinit
      rw [hv, hp, hf]
      exact hpairs.tally
    · obtain ⟨hv, hp, hf⟩ := h.others slot hslot
      rw [hv, hp, hf]
      exact ⟨rfl, rfl, fun _ _ => rfl⟩
  have hplies : s.progress.plies = 1 := h.plies
  refine ⟨by rw [hplies]; exact Nat.one_pos, fun slot => ?_, fun slot => ?_, fun slot p hp => ?_,
    fun slot => ⟨fun p hp hlt => ?_, Or.inl (h.maxima slot).1⟩,
    fun slot => ⟨fun p hp hlt => ?_, Or.inl (h.maxima slot).2⟩, fun hh => ?_⟩
  · rw [hplies]
    exact (htally slot).2.1.symm
  · rw [hplies]
    exact (htally slot).1.symm
  · rw [hplies] at hp
    exact (htally slot).2.2 p hp
  · have hzero : s.progress.maxWin slot = 0 := (h.maxima slot).1
    rw [hplies] at hlt
    rw [hzero] at hp
    omega
  · have hzero : s.progress.maxLoss slot = 0 := (h.maxima slot).2
    rw [hplies] at hlt
    rw [hzero] at hp
    omega
  · have hfalse : s.halted = true := hh
    rw [h.running] at hfalse
    cases hfalse

theorem Progress.Counted.run (h : c.Counted) (hrun : ReflTransGen (Progress.Step entries) c c')
    (hfits : c'.Fits) : c'.Counted := by
  induction hrun with
  | refl => exact h
  | tail _ hstep ih => exact (ih (hstep.fits hfits)).step hstep hfits

/-! ### The number of plies -/

/-- How many values of the pair are unknown. -/
def Progress.openCount (c : Progress) : ℕ := ∑ slot, unknowns (c.working.values slot)

/-- How many values of the pair this ply has resolved. -/
def Progress.foundCount (c : Progress) : ℕ := ∑ slot, ((c.found slot).wins + (c.found slot).losses)

/-- Every ply after the first one uses up an unknown value. -/
structure Progress.Bounded (start : ℕ) (c : Progress) : Prop where
  le : c.openCount ≤ start
  used : 2 ≤ c.plies → c.openCount + c.foundCount + (c.plies - 2) ≤ start

theorem Progress.Bounded.step {start : ℕ} (h : c.Bounded start)
    (hstep : Progress.Step entries c c') (hfits : c'.Fits) : c'.Bounded start := by
  cases hstep with
  | @scan phase e rest x htodo hresult =>
    have hu := updated_of_result hresult (count_of_scanned_progress hfits)
    have hopen : c.openCount = (c.scanned e rest x).openCount + (x.2.wins + x.2.losses) := by
      unfold Progress.openCount
      rw [← Finset.add_sum_erase _ _ (Finset.mem_univ e.twinSlot), hu.unknowns,
        ← Finset.add_sum_erase _ (fun slot => unknowns ((c.scanned e rest x).working.values slot))
          (Finset.mem_univ e.twinSlot)]
      have hrest : ∑ slot ∈ Finset.univ.erase e.twinSlot, unknowns (c.working.values slot)
          = ∑ slot ∈ Finset.univ.erase e.twinSlot, unknowns (x.1.values slot) :=
        Finset.sum_congr rfl fun slot hslot => by rw [hu.others slot (Finset.ne_of_mem_erase hslot)]
      show _ = unknowns (x.1.values e.twinSlot)
        + ∑ slot ∈ Finset.univ.erase e.twinSlot, unknowns (x.1.values slot) + _
      rw [hrest]
      omega
    have hfound : (c.scanned e rest x).foundCount = c.foundCount + (x.2.wins + x.2.losses) := by
      unfold Progress.foundCount
      rw [← Finset.add_sum_erase _ _ (Finset.mem_univ e.twinSlot),
        ← Finset.add_sum_erase _ (fun slot => (c.found slot).wins + (c.found slot).losses)
          (Finset.mem_univ e.twinSlot)]
      have hself : (c.scanned e rest x).found e.twinSlot = c.found e.twinSlot + x.2 :=
        Function.update_self _ _ _
      have hrest : ∑ slot ∈ Finset.univ.erase e.twinSlot,
          (((c.scanned e rest x).found slot).wins + ((c.scanned e rest x).found slot).losses)
          = ∑ slot ∈ Finset.univ.erase e.twinSlot, ((c.found slot).wins + (c.found slot).losses) :=
        Finset.sum_congr rfl fun slot hslot => by
          have hne : (c.scanned e rest x).found slot = c.found slot :=
            Function.update_of_ne (Finset.ne_of_mem_erase hslot) _ _
          rw [hne]
      rw [hself, hrest, Found.add_wins, Found.add_losses]
      omega
    refine ⟨by have := h.le; omega, fun hp => ?_⟩
    have hused := h.used hp
    show (c.scanned e rest x).openCount + (c.scanned e rest x).foundCount + (c.plies - 2) ≤ start
    omega
  | advance _ _ hfound =>
    have hzero : (c.advanced entries).foundCount = 0 := by
      simp [Progress.foundCount, Progress.advanced]
    have hsame : (c.advanced entries).openCount = c.openCount := rfl
    refine ⟨h.le, fun hp => ?_⟩
    show (c.advanced entries).openCount + _ + (c.plies + 1 - 2) ≤ start
    rw [hzero, hsame]
    by_cases hone : 2 ≤ c.plies
    · -- Something was found, so that the ply has used up a value.
      have hused := h.used hone
      obtain ⟨slot, hslot⟩ := hfound
      have hpos : 0 < (c.found slot).wins + (c.found slot).losses := by
        by_contra hle
        have hz : c.found slot = 0 :=
          Found.ext (by rw [Found.zero_wins]; omega) (by rw [Found.zero_losses]; omega)
        rw [hz] at hslot
        cases hslot
      have hle := Finset.single_le_sum
        (f := fun slot => (c.found slot).wins + (c.found slot).losses)
        (fun _ _ => Nat.zero_le _) (Finset.mem_univ slot)
      have hle' : (c.found slot).wins + (c.found slot).losses ≤ c.foundCount := hle
      omega
    · have hle := h.le
      omega
  | halt _ _ _ => exact ⟨h.le, h.used⟩

theorem Progress.Bounded.run {start : ℕ} (h : c.Bounded start)
    (hrun : ReflTransGen (Progress.Step entries) c c') (hfits : c'.Fits) : c'.Bounded start := by
  induction hrun with
  | refl => exact h
  | tail _ hstep ih => exact (ih (hstep.fits hfits)).step hstep hfits

/-! ### The number of steps -/

/-- How many steps of progress a run has made. -/
def Progress.position (entries : List Entry) (c : Progress) : ℕ :=
  (c.plies - 1) * ((scansOf entries).length + 1)
    + ((scansOf entries).length - c.todo.length) + if c.halted then 1 else 0

structure Progress.Positioned (entries : List Entry) (c : Progress) : Prop where
  pos : 0 < c.plies
  todo : c.todo.length ≤ (scansOf entries).length
  halted : c.halted = true → c.todo = []

theorem Progress.Positioned.step (h : c.Positioned entries) (hstep : Progress.Step entries c c') :
    c'.Positioned entries ∧ c'.position entries = c.position entries + 1 := by
  have hpos := h.pos
  have hlen := h.todo
  cases hstep with
  | @scan phase e rest x htodo hresult =>
    rw [htodo, List.length_cons] at hlen
    refine ⟨⟨hpos, by show rest.length ≤ _; omega, fun hh => ?_⟩, ?_⟩
    · have hnil := h.halted hh
      rw [htodo] at hnil
      cases hnil
    · unfold Progress.position
      show (c.plies - 1) * _ + ((scansOf entries).length - rest.length) + (if c.halted then 1 else 0)
        = _
      rw [htodo, List.length_cons]
      omega
  | advance htodo hrun _ =>
    refine ⟨⟨Nat.succ_pos _, le_rfl, fun hh => ?_⟩, ?_⟩
    · have hfalse : c.halted = true := hh
      rw [hrun] at hfalse
      cases hfalse
    · unfold Progress.position
      show (c.plies + 1 - 1) * _ + ((scansOf entries).length - (scansOf entries).length)
        + (if c.halted then 1 else 0) = _
      obtain ⟨n, hn⟩ : ∃ n, c.plies = n + 1 := ⟨c.plies - 1, by omega⟩
      rw [htodo, hn, Nat.add_sub_cancel, Nat.add_sub_cancel, Nat.succ_mul, List.length_nil]
      omega
  | halt htodo hrun _ =>
    refine ⟨⟨hpos, hlen, fun _ => htodo⟩, ?_⟩
    unfold Progress.position
    show _ + _ + (if true then 1 else 0) = _
    rw [hrun]
    rfl

theorem Progress.Positioned.position_le (h : c.Positioned entries) :
    c.position entries ≤ c.plies * ((scansOf entries).length + 1) + 1 := by
  obtain ⟨n, hn⟩ : ∃ n, c.plies = n + 1 := ⟨c.plies - 1, by have := h.pos; omega⟩
  unfold Progress.position
  rw [hn, Nat.add_sub_cancel, Nat.succ_mul]
  split <;> omega

end

end ChessEgt
