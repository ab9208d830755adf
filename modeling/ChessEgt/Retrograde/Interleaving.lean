import ChessEgt.Retrograde.Skipping

/-!
# Interleavings

A phase leaves the same values and the same counts in every interleaving of its workers.

* `Settles` — what the updates that reach a value make of it, and how often it is reported;
* `settles_losses`, `settles_wins` — the updates of a phase settle every value so;
* `Settled` — the account of a finished phase;
* `propagation_order_independent` — every interleaving gives this account, and the same run.
-/

namespace ChessEgt

open ParallelScan MaybeDtcOutcome Relation

/-- What the updates of a phase, with the given types, make of a value, and how many of them report
    it as newly resolved. -/
inductive Settles (plies : ℕ) :
    Phase → MaybeDtcOutcome → List ConversionType → MaybeDtcOutcome → ℕ → Prop where
  /-- The best type wins, and the value is reported once. -/
  | won {v cts ct} (hv : v.isUnknown = true) (hmem : ct ∈ cts) (hbest : ∀ c ∈ cts, c ≤ ct) :
      Settles plies .losses v cts (newWin ct (.ofNat plies)) 1
  /-- A win of the same ply is upgraded without a report. -/
  | upgraded {v cts ct} (hv : v.isWin = true) (hp : ply v = plies) (hmem : ct ∈ outcomeCt v :: cts)
      (hbest : ∀ c ∈ outcomeCt v :: cts, c ≤ ct) :
      Settles plies .losses v cts (newWin ct (.ofNat plies)) 0
  /-- Every update counts down once. -/
  | counted {ct v cts} (hv : v.isUnknown = true) (h : cts.length < ply v) :
      Settles plies (.wins ct) v cts (newUnknown (.ofNat (ply v - cts.length))) 0
  /-- The update that uses up the counter decides the value, and is the only one to report it. -/
  | lost {ct v cts} (hv : v.isUnknown = true) (h : ply v ≤ cts.length) :
      Settles plies (.wins ct) v cts (newLoss ct (.ofNat plies)) 1
  /-- Nothing happens to a value that no update reaches, or that was resolved before. -/
  | unchanged {phase v cts} (h : cts = [] ∨ v.isUnknown = false) :
      Settles plies phase v cts v 0

section

variable [Shakmaty] {e : Entry} {phase : Phase} {plies : ℕ}

/-- The updates that report a newly resolved value. -/
def reports (scan : ParallelScan (Slot × ℕ) MaybeDtcOutcome Update PlyRecord Found)
    (settled : List (Update × MaybeDtcOutcome)) : List (Update × MaybeDtcOutcome) :=
  settled.filter fun p => (scan.apply p.1 p.2).2 ≠ 0

theorem reports_cons_of_zero
    {scan : ParallelScan (Slot × ℕ) MaybeDtcOutcome Update PlyRecord Found}
    {p : Update × MaybeDtcOutcome} (h : (scan.apply p.1 p.2).2 = 0)
    (settled : List (Update × MaybeDtcOutcome)) :
    reports scan (p :: settled) = reports scan settled :=
  List.filter_cons_of_neg (by simpa using h)

theorem reports_cons_of_ne
    {scan : ParallelScan (Slot × ℕ) MaybeDtcOutcome Update PlyRecord Found}
    {p : Update × MaybeDtcOutcome} (h : (scan.apply p.1 p.2).2 ≠ 0)
    (settled : List (Update × MaybeDtcOutcome)) :
    reports scan (p :: settled) = p :: reports scan settled :=
  List.filter_cons_of_pos (by simpa using h)

theorem one_win_ne_zero : (⟨1, 0⟩ : Found) ≠ 0 := by decide

theorem one_loss_ne_zero : (⟨0, 1⟩ : Found) ≠ 0 := by decide

theorem valueAfter_cons (scan : ParallelScan (Slot × ℕ) MaybeDtcOutcome Update PlyRecord Found)
    (v : MaybeDtcOutcome) (u : Update) (us : List Update) :
    scan.valueAfter v (u :: us) = scan.valueAfter (scan.apply u v).1 us := rfl

/-- A value that no update changes is never reported. -/
theorem unchanged_of_apply {v : MaybeDtcOutcome}
    (h : ∀ u, (e.scan phase plies).apply u v = (v, 0))
    {settled : List (Update × MaybeDtcOutcome)} (hc : (e.scan phase plies).Chain v settled) :
    (e.scan phase plies).valueAfter v (settled.map Prod.fst) = v ∧
      reports (e.scan phase plies) settled = [] := by
  induction settled with
  | nil => exact ⟨rfl, rfl⟩
  | cons p settled ih =>
    obtain ⟨u, w⟩ := p
    obtain ⟨rfl, hc⟩ := hc
    rw [h u] at hc
    obtain ⟨hv, hr⟩ := ih hc
    have hzero : ((e.scan phase plies).apply u w).2 = 0 := by rw [h u]
    rw [List.map_cons, valueAfter_cons, h u, reports_cons_of_zero hzero]
    exact ⟨hv, hr⟩

/-! ### Losses -/

/-- A win of the ply that is being solved ends with the best type. -/
theorem chain_newWin (hp : plies ≤ 8191) {c : ConversionType}
    {settled : List (Update × MaybeDtcOutcome)}
    (hc : (e.scan .losses plies).Chain (newWin c (.ofNat plies)) settled) :
    ∃ ct ∈ c :: settled.map (·.1.2), (∀ x ∈ c :: settled.map (·.1.2), x ≤ ct) ∧
      (e.scan .losses plies).valueAfter (newWin c (.ofNat plies)) (settled.map Prod.fst)
        = newWin ct (.ofNat plies) ∧ reports (e.scan .losses plies) settled = [] := by
  induction settled generalizing c with
  | nil => exact ⟨c, List.mem_cons_self, by simp, rfl, rfl⟩
  | cons p settled ih =>
    obtain ⟨u, w⟩ := p
    obtain ⟨rfl, hc⟩ := hc
    have happly := apply_losses_newWin (e := e) u c hp
    rw [happly] at hc
    obtain ⟨ct, hmem, hbest, hv, hr⟩ := ih hc
    refine ⟨ct, ?_, fun x hx => ?_, ?_, ?_⟩
    · rw [List.map_cons]
      rcases List.mem_cons.mp hmem with rfl | hmem
      · rcases max_choice c u.2 with hmax | hmax
        · rw [hmax]
          exact List.mem_cons_self
        · rw [hmax]
          exact List.mem_cons_of_mem _ List.mem_cons_self
      · exact List.mem_cons_of_mem _ (List.mem_cons_of_mem _ hmem)
    · rw [List.map_cons, List.mem_cons, List.mem_cons] at hx
      have hmax := hbest _ List.mem_cons_self
      rcases hx with rfl | rfl | hx
      · exact (le_max_left _ _).trans hmax
      · exact (le_max_right _ _).trans hmax
      · exact hbest x (List.mem_cons_of_mem _ hx)
    · rw [List.map_cons, valueAfter_cons, happly]
      exact hv
    · have hzero : ((e.scan .losses plies).apply u (newWin c (.ofNat plies))).2 = 0 := by
        rw [happly]
      rw [reports_cons_of_zero hzero]
      exact hr

theorem settles_losses (hp : plies ≤ 8191) {v : MaybeDtcOutcome}
    {settled : List (Update × MaybeDtcOutcome)} (hc : (e.scan .losses plies).Chain v settled) :
    Settles plies .losses v (settled.map (·.1.2))
      ((e.scan .losses plies).valueAfter v (settled.map Prod.fst))
      (reports (e.scan .losses plies) settled).length := by
  by_cases hu : v.isUnknown = true
  · cases settled with
    | nil => exact .unchanged (Or.inl rfl)
    | cons p settled =>
      obtain ⟨u, w⟩ := p
      obtain ⟨rfl, hc⟩ := hc
      have happly : (e.scan .losses plies).apply u w = _ := apply_losses_of_isUnknown u hu
      rw [happly] at hc
      obtain ⟨ct, hmem, hbest, hv, hr⟩ := chain_newWin hp hc
      have hreport : ((e.scan .losses plies).apply u w).2 ≠ 0 := by
        rw [happly]
        exact one_win_ne_zero
      rw [List.map_cons, List.map_cons, valueAfter_cons, happly, hv, reports_cons_of_ne hreport, hr]
      exact .won hu hmem hbest
  · rw [Bool.not_eq_true] at hu
    by_cases hw : v.isWin = true ∧ ply v = plies
    · have heq := eq_newWin_of_ply hw.1 hw.2
      rw [heq] at hc
      obtain ⟨ct, hmem, hbest, hv, hr⟩ := chain_newWin hp hc
      rw [← heq] at hv
      rw [hv, hr]
      exact .upgraded hw.1 hw.2 hmem hbest
    · obtain ⟨hv, hr⟩ := unchanged_of_apply (fun u => apply_losses_of_other u hu hw) hc
      rw [hv, hr]
      exact .unchanged (Or.inr hu)

/-! ### Wins -/

theorem apply_wins_of_other (ct : ConversionType) (u : Update) {v : MaybeDtcOutcome}
    (hu : v.isUnknown = false) : (e.scan (.wins ct) plies).apply u v = (v, 0) := by
  have hx : (e.scan (.wins ct) plies).attempt u v = none := attemptLoss_eq_none u hu
  exact apply_of_attempt_none hx

/-- An update by a win takes one from the counter, and decides the value if it was the last. -/
theorem apply_wins_of_isUnknown (ct : ConversionType) (u : Update) {v : MaybeDtcOutcome}
    (hu : v.isUnknown = true) : (e.scan (.wins ct) plies).apply u v
      = if ply v = 1 then (newLoss ct (.ofNat plies), ⟨0, 1⟩)
        else (newUnknown (.ofNat (ply v - 1)), 0) := by
  have hx : (e.scan (.wins ct) plies).attempt u v = _ := attemptLoss_of_isUnknown u hu
  by_cases hone : ply v = 1
  · rw [if_pos hone] at hx ⊢
    exact apply_of_attempt_some hx
  · rw [if_neg hone] at hx ⊢
    exact apply_of_attempt_some hx

/-- The counter of an unknown value goes down by the number of updates, until it is used up. -/
theorem chain_wins (ct : ConversionType) {v : MaybeDtcOutcome}
    {settled : List (Update × MaybeDtcOutcome)} (hu : v.isUnknown = true)
    (hc : (e.scan (.wins ct) plies).Chain v settled) :
    (settled.length < ply v →
      (e.scan (.wins ct) plies).valueAfter v (settled.map Prod.fst)
        = newUnknown (.ofNat (ply v - settled.length)) ∧
      reports (e.scan (.wins ct) plies) settled = []) ∧
    (ply v ≤ settled.length →
      (e.scan (.wins ct) plies).valueAfter v (settled.map Prod.fst) = newLoss ct (.ofNat plies) ∧
      (reports (e.scan (.wins ct) plies) settled).length = 1) := by
  have hpos := ply_pos_of_isUnknown hu
  induction settled generalizing v with
  | nil =>
    refine ⟨fun _ => ⟨eq_newUnknown hu, rfl⟩, fun h => ?_⟩
    rw [List.length_nil] at h
    omega
  | cons p settled ih =>
    obtain ⟨u, w⟩ := p
    obtain ⟨rfl, hc⟩ := hc
    have happly : (e.scan (.wins ct) plies).apply u w = _ := apply_wins_of_isUnknown ct u hu
    have hlt := ply_lt w
    rw [List.map_cons, valueAfter_cons, List.length_cons]
    by_cases hone : ply w = 1
    · -- The last update decides; the ones after it find a loss.
      rw [if_pos hone] at happly
      rw [happly] at hc
      obtain ⟨hv, hr⟩ := unchanged_of_apply
        (fun u => apply_wins_of_other ct u (not_isUnknown_of_isLoss (isLoss_newLoss ct _))) hc
      have hreport : ((e.scan (.wins ct) plies).apply u w).2 ≠ 0 := by
        rw [happly]
        exact one_loss_ne_zero
      rw [happly, hv, reports_cons_of_ne hreport, hr]
      exact ⟨fun h => by omega, fun _ => ⟨rfl, rfl⟩⟩
    · rw [if_neg hone] at happly
      rw [happly] at hc
      have hzero : ((e.scan (.wins ct) plies).apply u w).2 = 0 := by rw [happly]
      have hply : ply (newUnknown (.ofNat (ply w - 1))) = ply w - 1 := ply_newUnknown (by omega)
      obtain ⟨hcounted, hlost⟩ := ih (isUnknown_newUnknown (by omega) (by omega)) hc (by omega)
      rw [happly, reports_cons_of_zero hzero]
      rw [hply] at hcounted hlost
      refine ⟨fun h => ?_, fun h => hlost (by omega)⟩
      obtain ⟨hv, hr⟩ := hcounted (by omega)
      exact ⟨by rw [hv, Nat.sub_sub, Nat.add_comm 1], hr⟩

theorem settles_wins (ct : ConversionType) {v : MaybeDtcOutcome}
    {settled : List (Update × MaybeDtcOutcome)}
    (hc : (e.scan (.wins ct) plies).Chain v settled) :
    Settles plies (.wins ct) v (settled.map (·.1.2))
      ((e.scan (.wins ct) plies).valueAfter v (settled.map Prod.fst))
      (reports (e.scan (.wins ct) plies) settled).length := by
  have hlen : (settled.map (·.1.2)).length = settled.length := List.length_map _
  cases hu : v.isUnknown with
  | false =>
    obtain ⟨hv, hr⟩ := unchanged_of_apply (fun u => apply_wins_of_other ct u hu) hc
    rw [hv, hr]
    exact .unchanged (Or.inr hu)
  | true =>
    obtain ⟨hcounted, hlost⟩ := chain_wins ct hu hc
    by_cases h : settled.length < ply v
    · obtain ⟨hv, hr⟩ := hcounted h
      rw [hv, hr, ← hlen]
      exact .counted hu (by rw [hlen]; exact h)
    · obtain ⟨hv, hr⟩ := hlost (not_lt.mp h)
      rw [hv, hr]
      exact .lost hu (by rw [hlen]; exact not_lt.mp h)

/-! ### The account of a phase -/

/-- The count of a phase that has resolved `n` values. -/
def Phase.foundOf : Phase → ℕ → Found
  | losses, n => ⟨n, 0⟩
  | wins _, n => ⟨0, n⟩

/-- An update of a phase counts one value if it reports it. -/
theorem count_apply (e : Entry) (phase : Phase) (plies : ℕ) (p : Update × MaybeDtcOutcome) :
    ((e.scan phase plies).apply p.1 p.2).2 = 0 ∨
      ((e.scan phase plies).apply p.1 p.2).2 = phase.foundOf 1 := by
  cases hx : (e.scan phase plies).attempt p.1 p.2 with
  | none =>
    rw [apply_of_attempt_none hx]
    exact Or.inl rfl
  | some x =>
    rw [apply_of_attempt_some hx]
    cases phase with
    | losses =>
      rcases (attemptWin_cases hx).2.2 with ⟨-, hc⟩ | ⟨-, -, -, hc⟩
      · exact Or.inr hc
      · exact Or.inl hc
    | wins ct =>
      rcases (attemptLoss_cases hx).2 with rfl | ⟨c, -, -, rfl⟩
      · exact Or.inr rfl
      · exact Or.inl rfl

/-- The count of a phase is the number of its reports. -/
theorem sum_counts (settled : List (Update × MaybeDtcOutcome)) :
    (settled.map fun p => ((e.scan phase plies).apply p.1 p.2).2).sum
      = phase.foundOf (reports (e.scan phase plies) settled).length := by
  induction settled with
  | nil => cases phase <;> rfl
  | cons p settled ih =>
    rw [List.map_cons, List.sum_cons, ih]
    rcases count_apply e phase plies p with hc | hc
    · rw [hc, zero_add, reports_cons_of_zero hc]
    · have hne : ((e.scan phase plies).apply p.1 p.2).2 ≠ 0 := by
        rw [hc]
        cases phase with
        | losses => exact one_win_ne_zero
        | wins ct => exact one_loss_ne_zero
      rw [hc, reports_cons_of_ne hne, List.length_cons]
      cases phase with
      | losses => exact Found.ext (Nat.add_comm _ _) rfl
      | wins ct => exact Found.ext rfl (Nat.add_comm _ _)

/-- The account of a finished phase: every source has been selected once and every update of the
    selected sources has been settled once; the updates of a value settle it, whatever their order;
    and every report has been counted. -/
structure Accounted (s : Solver) (phase : Phase) (e : Entry)
    (events : List (Event (Slot × ℕ) MaybeDtcOutcome Update)) (pool : ScanPool) : Prop where
  selected_once : (selectionsOf events).Nodup
  selected_iff : ∀ a v, (a, v) ∈ selectionsOf events ↔
    a.1 = e.slot ∧ s.working.get a = some v ∧ phase.selects s.plies v = true
  updates_once : (((settledOf events).map Prod.fst).map some).Perm
    ((selectionsOf events).flatMap (e.scan phase s.plies).emitted)
  values : ∀ a v, s.working.get a = some v → ∃ v', pool.memory.get a = some v' ∧
    Settles s.plies phase v
      (((e.scan phase s.plies).settledAt a (settledOf events)).map (·.1.2)) v'
      (reports (e.scan phase s.plies)
        ((e.scan phase s.plies).settledAt a (settledOf events))).length
  count : pool.count = phase.foundOf (reports (e.scan phase s.plies) (settledOf events)).length

variable {entries : List Entry} {policy : Policy} {s s' : Solver} {c₀ c' : Progress}
  {rest : List (Phase × Entry)} {events : List (Event (Slot × ℕ) MaybeDtcOutcome Update)}
  {pool : ScanPool}

/-- The start of the scan of a table under a policy. -/
def Solver.scanStart (policy : Policy) (s : Solver) (phase : Phase) (e : Entry) : ScanPool :=
  Pool.start s.working s.summaries
    (partsOf e.slot (policy.blocks (s.summaries e.slot) phase s.plies))

/-- Every finished phase accounts for its sources and its updates. -/
theorem Solver.Tracks.accounted (h : s.Tracks) (hp : s.plies ≤ 8191)
    (ht : (e.scan phase s.plies).Trace (s.scanStart policy phase e) events pool) (hd : pool.Done) :
    Accounted s phase e events pool := by
  have hs := stable e phase s.plies
  have hi := ht.invariant hs
  have hselections := (ht.selections_perm hs hd).trans (h.sources_perm (by omega) policy e phase)
  refine ⟨?_, fun a v => ?_, ht.updates_perm hs hd, fun a v hv => ?_, ?_⟩
  · exact hselections.nodup_iff.mpr (nodup_sources (s.working.nodup_addresses e.slot))
  · rw [hselections.mem_iff, mem_sources_iff]
    constructor
    · rintro ⟨ha, hv, hsel⟩
      exact ⟨(WorkingPair.mem_addresses hv).mp ha, hv, hsel⟩
    · rintro ⟨ha, hv, hsel⟩
      exact ⟨(WorkingPair.mem_addresses hv).mpr ha, hv, hsel⟩
  · obtain ⟨hchain, hvalue⟩ := hi.settled.chain hv
    rw [← hi.memory] at hvalue
    refine ⟨_, hvalue, ?_⟩
    cases phase with
    | losses => exact settles_losses hp hchain
    | wins ct => exact settles_wins ct hchain
  · have hcount : pool.count = _ := congrArg Prod.snd hi.memory
    rw [hcount, hi.settled.count_eq, sum_counts, zero_add]

/-- Every phase leaves the same values and the same count. -/
theorem Solver.Tracks.result (h : s.Tracks) (hp : s.plies ≤ 8191)
    (ht : (e.scan phase s.plies).Trace (s.scanStart policy phase e) events pool) (hd : pool.Done) :
    (e.scan phase s.plies).Result s.working (s.working.addresses e.slot)
      (pool.memory, pool.count) :=
  ht.result (stable e phase s.plies) hd (h.sources_perm (by omega) policy e phase)
    (order_irrelevant (Or.inl hp))

/-! ### Whole runs -/

/-- A run under way in a scan can make the progress of the scan. -/
theorem Linked.exists_join (h : Linked policy entries c₀ s) (hscan : s.scanning = some pool)
    (hstep : Progress.Step entries s.progress c') (hfits : c'.Fits) :
    ∃ s', ReflTransGen (Solver.Step policy entries) s s' ∧ s'.scanning = none ∧
      s'.progress = c' := by
  obtain ⟨phase, e, rest, events, htodo, htrace⟩ := h.scanning pool hscan
  have htodo' : s.progress.todo = (phase, e) :: rest := htodo
  have hle : s.plies ≤ 8192 := (fits_iff.mpr (hstep.fits hfits)).le
  cases hstep with
  | @scan phase' e' rest' x htodo'' hresult =>
    rw [htodo', List.cons.injEq, Prod.mk.injEq] at htodo''
    obtain ⟨⟨rfl, rfl⟩, rfl⟩ := htodo''
    obtain ⟨pool', hd, hrun, hx⟩ := Result.exists_done (stable e phase s.plies) hresult
      (h.tracks.isSome_of_blocks policy phase e) (h.tracks.sources_perm hle policy e phase)
      (order_irrelevant (count_of_scanned hfits)) htrace
    have hwork : ReflTransGen (Solver.Step policy entries) { s with scanning := some pool }
        { s with scanning := some pool' } := work_run htodo hrun
    have hsame : ({ s with scanning := some pool } : Solver) = s := by
      rw [← hscan]
    rw [hsame] at hwork
    refine ⟨s.joined e rest pool', hwork.tail ?_, rfl, ?_⟩
    · exact .join (s := { s with scanning := some pool' }) rfl htodo hd
    · rw [← hx]
      rfl
  | advance htodo'' _ _ =>
    rw [htodo'] at htodo''
    cases htodo''
  | halt htodo'' _ _ =>
    rw [htodo'] at htodo''
    cases htodo''

/-- A run can make any progress from everywhere. -/
theorem Linked.exists_progress (h : Linked policy entries c₀ s)
    (hrun : ReflTransGen (Progress.Step entries) s.progress c') (hfits : c'.Fits)
    (hhalted : c'.halted = true) : ∃ s', ReflTransGen (Solver.Step policy entries) s s' ∧
      s'.progress = c' := by
  cases hscan : s.scanning with
  | none =>
    obtain ⟨s', hs', -, hc⟩ := h.exists_run hscan hrun hfits
    exact ⟨s', hs', hc⟩
  | some pool =>
    rcases hrun.cases_head with heq | ⟨c, hstep, hrest⟩
    · exact ⟨s, .refl, heq⟩
    · -- The scan under way is finished first.
      have hfits' : c.Fits := fits_of_progress hrest hfits
      obtain ⟨s₁, hrun₁, hidle, rfl⟩ := h.exists_join hscan hstep hfits'
      obtain ⟨s', hs', -, hc⟩ := (h.run hrun₁ (fits_iff.mpr hfits')).exists_run hidle hrest hfits
      exact ⟨s', hrun₁.trans hs', hc⟩

end

end ChessEgt
