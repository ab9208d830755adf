import ChessEgt.Retrograde.Counting

/-!
# Whole runs

What holds in every reachable state of the propagation, and between any two of them.

* `Evolves` — what the plies of a run can make of a value;
* `counts_exact` — the counts and the maxima of every reachable state are exact;
* `plies_bounded` — the number of plies is bounded by the number of unknown values;
* `values_final` — what is resolved stays resolved.
-/

namespace ChessEgt

open ParallelScan MaybeDtcOutcome Relation

/-- What the plies from `p` to `p'` can make of a value: an unknown value is counted down or
    resolved, a win of the first ply can get a better type, and everything else stays. -/
inductive Evolves (p p' : ℕ) (v : MaybeDtcOutcome) : MaybeDtcOutcome → Prop where
  | same : Evolves p p' v v
  | counted {w} (hv : v.isUnknown = true) (hw : w.isUnknown = true) (hlt : ply w < ply v) :
      Evolves p p' v w
  | resolved {w} (hv : v.isUnknown = true) (hw : w.isWin = true ∨ w.isLoss = true)
      (hle : p ≤ ply w) (hle' : ply w ≤ p') : Evolves p p' v w
  | upgraded {w} (hv : v.isWin = true) (hw : w.isWin = true) (hp : ply v = p) (hply : ply w = ply v)
      (hct : outcomeCt v < outcomeCt w) : Evolves p p' v w

theorem Evolves.of_advances {plies : ℕ} {v w : MaybeDtcOutcome} (h : Advances plies v w) :
    Evolves plies plies v w := by
  cases h with
  | same => exact .same
  | counted hu hpos hlt =>
    have hlt' := ply_lt v
    refine .counted hu (isUnknown_newUnknown hpos (by omega)) ?_
    rw [ply_newUnknown (by omega)]
    exact hlt
  | @won ct hle hu =>
    have hply : ply (newWin ct (.ofNat plies)) = plies := ply_newWin ct (by omega)
    exact .resolved hu (Or.inl (isWin_newWin ct _)) hply.ge hply.le
  | @lost ct hle hu =>
    have hply : ply (newLoss ct (.ofNat plies)) = plies := ply_newLoss ct (by omega)
    exact .resolved hu (Or.inr (isLoss_newLoss ct _)) hply.ge hply.le
  | @upgraded ct hw hp hct =>
    have hlt := ply_lt v
    have hply : ply (newWin ct (.ofNat plies)) = plies := ply_newWin ct (by omega)
    exact .upgraded hw (isWin_newWin ct _) hp (hply.trans hp.symm)
      (by rw [outcomeCt_newWin]; exact hct)

theorem Evolves.mono {p p' q' : ℕ} {v w : MaybeDtcOutcome} (h : Evolves p p' v w) (hle : p' ≤ q') :
    Evolves p q' v w := by
  cases h with
  | same => exact .same
  | counted hv hw hlt => exact .counted hv hw hlt
  | resolved hv hw hp hp' => exact .resolved hv hw hp (hp'.trans hle)
  | upgraded hv hw hp hply hct => exact .upgraded hv hw hp hply hct

theorem Evolves.trans {p q r : ℕ} {v w x : MaybeDtcOutcome} (hpq : p ≤ q) (hqr : q ≤ r)
    (hfirst : v.isWin = true → ply v ≤ p) (h : Evolves p q v w) (h' : Evolves q r w x) :
    Evolves p r v x := by
  cases h' with
  | same => exact h.mono hqr
  | counted hw hx hlt =>
    cases h with
    | same => exact .counted hw hx hlt
    | counted hv _ hlt' => exact .counted hv hx (hlt.trans hlt')
    | resolved _ hw' _ _ =>
      rcases hw' with hw' | hw'
      · rw [not_isUnknown_of_isWin hw'] at hw; cases hw
      · rw [not_isUnknown_of_isLoss hw'] at hw; cases hw
    | upgraded _ hw' _ _ _ => rw [not_isUnknown_of_isWin hw'] at hw; cases hw
  | resolved hw hx hle hle' =>
    cases h with
    | same => exact .resolved hw hx (hpq.trans hle) hle'
    | counted hv _ _ => exact .resolved hv hx (hpq.trans hle) hle'
    | resolved _ hw' _ _ =>
      rcases hw' with hw' | hw'
      · rw [not_isUnknown_of_isWin hw'] at hw; cases hw
      · rw [not_isUnknown_of_isLoss hw'] at hw; cases hw
    | upgraded _ hw' _ _ _ => rw [not_isUnknown_of_isWin hw'] at hw; cases hw
  | upgraded hw hx hp hply hct =>
    cases h with
    | same =>
      -- The first ply is the one of the win.
      have hv := hfirst hw
      exact .upgraded hw hx (by omega) hply hct
    | counted _ hw' _ => rw [not_isUnknown_of_isWin hw] at hw'; cases hw'
    | resolved hv _ hle hle' => exact .resolved hv (Or.inl hx) (by omega) (by omega)
    | upgraded hv _ hp' hply' hct' =>
      exact .upgraded hv hx hp' (hply.trans hply') (hct'.trans hct)

section

variable [Shakmaty] {probe : Chess → Run DtcOutcome} {tableA : Egt} {tableB : Option Egt}
  {entries : List Entry} {policy : Policy} {s₀ s s' : Solver} {c₀ : Progress}

/-! ### Values -/

namespace Solver

/-- The values as the workers see them. -/
def memory (s : Solver) : WorkingPair :=
  match s.scanning with
  | some pool => pool.memory
  | none => s.working

omit [Shakmaty] in
theorem memory_of_idle (h : s.scanning = none) : s.memory = s.working := by
  rw [memory, h]

omit [Shakmaty] in
theorem memory_of_scanning {pool : ScanPool} (h : s.scanning = some pool) :
    s.memory = pool.memory := by
  rw [memory, h]

/-- No distance is above 8191 plies, not even in the scan under way. -/
def InRange (s : Solver) : Prop :=
  s.Fits ∧ ∀ pool, s.scanning = some pool → s.plies ≤ 8191 ∨ pool.count = 0

end Solver

/-- A step of a pool runs some more updates. -/
theorem exists_foldl_of_step {e : Entry} {phase : Phase} {plies : ℕ} {m : WorkingPair}
    {board : Summaries} {parts : List (List (Slot × ℕ))} {pool pool' : ScanPool}
    {events : List (Event (Slot × ℕ) MaybeDtcOutcome Update)}
    (h : (e.scan phase plies).Trace (Pool.start m board parts) events pool)
    (hstep : (e.scan phase plies).PoolStep pool pool') : ∃ us : List Update,
      (∀ u ∈ us, u.1.1 = e.twinSlot) ∧
        (pool'.memory, pool'.count) = us.foldl (e.scan phase plies).visit (pool.memory, pool.count) := by
  obtain ⟨events', hstep⟩ := hstep
  have hs := stable e phase plies
  have hi := h.invariant hs
  have hi' := (h.tail hstep).invariant hs
  refine ⟨(settledOf events').map Prod.fst, fun u hu => ?_, ?_⟩
  · have hmem : u ∈ (settledOf (events ++ events')).map Prod.fst := by
      rw [settledOf_append, List.map_append]
      exact List.mem_append_right _ hu
    have hmem' := hi'.updates.subset (List.mem_append_left _ (List.mem_map_of_mem hmem))
    obtain ⟨x, -, hx⟩ := List.mem_flatMap.mp hmem'
    exact target_twinSlot hx
  · rw [hi'.memory, hi.memory, settledOf_append, List.map_append, List.foldl_append]

/-- What a step of a pool makes of the values. -/
theorem updated_of_step {e : Entry} {phase : Phase} {plies : ℕ} {m : WorkingPair}
    {board : Summaries} {parts : List (List (Slot × ℕ))} {pool pool' : ScanPool}
    {events : List (Event (Slot × ℕ) MaybeDtcOutcome Update)}
    (h : (e.scan phase plies).Trace (Pool.start m board parts) events pool)
    (hstep : (e.scan phase plies).PoolStep pool pool') (hle : plies ≤ 8191 ∨ pool'.count = 0) :
    ∃ n, Updated plies e.twinSlot pool.memory (pool'.memory, n) ∧ pool'.count = n + pool.count := by
  obtain ⟨us, hus, heq⟩ := exists_foldl_of_step h hstep
  have hadd := @foldl_visit_add _ _ _ _ _ _ _ _ (e.scan phase plies) pool.memory 0 pool.count us
  rw [zero_add, ← heq, Prod.mk.injEq] at hadd
  obtain ⟨hm, hn⟩ := hadd
  refine ⟨_, ?_, hn⟩
  rw [hm]
  refine updated_foldl hus (hle.imp_right fun h0 => ?_)
  rw [hn] at h0
  exact (add_eq_zero.mp h0).1

/-- The state before a step is in range if the one after it is. -/
theorem inRange_of_step (h : Linked policy entries c₀ s) (hstep : Solver.Step policy entries s s')
    (hrange : s'.InRange) : s.InRange := by
  refine ⟨fits_of_step hstep hrange.1, fun pool hpool => ?_⟩
  cases hstep with
  | skip hidle _ _ => rw [hidle] at hpool; cases hpool
  | start hidle _ _ => rw [hidle] at hpool; cases hpool
  | @work phase e rest pool₁ pool' hscan htodo hwork =>
    rw [hscan] at hpool
    cases hpool
    have hcount := hrange.2 pool' rfl
    obtain ⟨events, htrace⟩ := h.trace hscan htodo
    obtain ⟨n, -, hn⟩ := updated_of_step htrace hwork hcount
    refine hcount.imp_right fun h0 => ?_
    rw [hn] at h0
    exact (add_eq_zero.mp h0).2
  | @join phase e rest pool₁ hscan htodo hd =>
    rw [hscan] at hpool
    cases hpool
    rcases hrange.1 with hle | ⟨-, hzero⟩
    · exact Or.inl hle
    · refine Or.inr ?_
      have hslot : Function.update s.found e.twinSlot (s.found e.twinSlot + pool.count) e.twinSlot
          = 0 := hzero e.twinSlot
      rw [Function.update_self] at hslot
      exact (add_eq_zero.mp hslot).2
  | advance hidle _ _ _ => rw [hidle] at hpool; cases hpool
  | halt hidle _ _ _ => rw [hidle] at hpool; cases hpool

/-- A step keeps every value, or makes one step with it. -/
theorem step_evolves (h : Linked policy entries c₀ s) (hstep : Solver.Step policy entries s s')
    (hrange : s'.InRange) : s.plies ≤ s'.plies ∧
      ∀ a v, SharedMemory.get s.memory a = some v →
        ∃ w, SharedMemory.get s'.memory a = some w ∧ Evolves s.plies s'.plies v w := by
  cases hstep with
  | skip hidle _ _ =>
    refine ⟨le_rfl, fun a v hv => ⟨v, ?_, .same⟩⟩
    rw [Solver.memory_of_idle hidle] at hv
    simpa only [Solver.memory, hidle] using hv
  | start hidle _ _ =>
    refine ⟨le_rfl, fun a v hv => ⟨v, ?_, .same⟩⟩
    rwa [Solver.memory_of_idle hidle] at hv
  | @work phase e rest pool pool' hscan htodo hwork =>
    refine ⟨le_rfl, fun a v hv => ?_⟩
    rw [Solver.memory_of_scanning hscan] at hv
    obtain ⟨events, htrace⟩ := h.trace hscan htodo
    obtain ⟨n, hu, -⟩ := updated_of_step htrace hwork (hrange.2 pool' rfl)
    obtain ⟨w, hw, hcase⟩ := hu.values a v hv
    refine ⟨w, hw, ?_⟩
    rcases hcase with ⟨-, hadv⟩ | rfl
    · exact .of_advances hadv
    · exact .same
  | @join phase e rest pool hscan htodo hd =>
    refine ⟨le_rfl, fun a v hv => ⟨v, ?_, .same⟩⟩
    rwa [Solver.memory_of_scanning hscan] at hv
  | advance hidle _ _ _ =>
    refine ⟨Nat.le_succ _, fun a v hv => ⟨v, ?_, .same⟩⟩
    rw [Solver.memory_of_idle hidle] at hv
    have hidle' : (s.advanced entries).scanning = none := hidle
    rwa [Solver.memory_of_idle hidle']
  | halt hidle _ _ _ =>
    refine ⟨le_rfl, fun a v hv => ⟨v, ?_, .same⟩⟩
    rw [Solver.memory_of_idle hidle] at hv
    simpa only [Solver.memory, hidle] using hv

/-- Whatever comes before a state that is in range, is in range. -/
theorem inRange_of_run (h : Linked policy entries c₀ s)
    (hrun : ReflTransGen (Solver.Step policy entries) s s') (hrange : s'.InRange) : s.InRange := by
  induction hrun with
  | refl => exact hrange
  | tail hrun hstep ih =>
    have h₁ := h.run hrun (fits_of_step hstep hrange.1)
    exact ih (inRange_of_step h₁ hstep hrange)

/-- A win is never later than the ply under way. -/
theorem Linked.win_le (h : Linked policy entries c₀ s) (hrange : s.InRange) {a : Slot × ℕ}
    {v : MaybeDtcOutcome} (hv : SharedMemory.get s.memory a = some v) (hw : v.isWin = true) :
    ply v ≤ s.plies := by
  have hworking : ∀ w, SharedMemory.get s.working a = some w → w.isWin = true →
      ply w ≤ s.plies := by
    intro w hw' hwin
    have hk : kindOf w = some (.win (outcomeCt w)) := by
      simp [kindOf, hwin, not_isLoss_of_isWin hwin]
    exact (h.tracks.values a w _ hw' hk).le
  cases hscan : s.scanning with
  | none =>
    rw [Solver.memory_of_idle hscan] at hv
    exact hworking v hv hw
  | some pool =>
    rw [Solver.memory_of_scanning hscan] at hv
    obtain ⟨phase, e, rest, events, htodo, htrace⟩ := h.scanning pool hscan
    have hu := updated_of_trace htrace (hrange.2 pool hscan)
    have hsome : (SharedMemory.get s.working a).isSome := by
      have hi := htrace.invariant (stable e phase s.plies)
      have hm : pool.memory = _ := congrArg Prod.fst hi.memory
      have hiff : (SharedMemory.get pool.memory a).isSome = (SharedMemory.get s.working a).isSome := by
        rw [hm]
        exact isSome_foldl_visit _ _ _
      rw [← hiff, hv]
      rfl
    obtain ⟨w, hw₀⟩ := Option.isSome_iff_exists.mp hsome
    obtain ⟨v', hv', hcase⟩ := hu.values a w hw₀
    rw [hv, Option.some.injEq] at hv'
    subst hv'
    rcases hcase with ⟨-, hadv⟩ | rfl
    · cases hadv with
      | same => exact hworking v hw₀ hw
      | counted _ _ _ => rw [not_isWin_newUnknown] at hw; cases hw
      | won hle _ => exact (ply_newWin _ (by omega)).le
      | lost _ _ => rw [not_isWin_newLoss] at hw; cases hw
      | upgraded hw' hp _ =>
        have hlt := ply_lt w
        exact (ply_newWin _ (by omega)).le
    · exact hworking v hw₀ hw

/-- Between two states of a run, every value evolves. -/
theorem run_evolves (h : Linked policy entries c₀ s)
    (hrun : ReflTransGen (Solver.Step policy entries) s s') (hrange : s'.InRange) :
    s.plies ≤ s'.plies ∧ ∀ a v, SharedMemory.get s.memory a = some v →
      ∃ w, SharedMemory.get s'.memory a = some w ∧ Evolves s.plies s'.plies v w := by
  induction hrun with
  | refl => exact ⟨le_rfl, fun a v hv => ⟨v, hv, .same⟩⟩
  | @tail s₁ s' hrun hstep ih =>
    -- The states before are in range, too.
    have h₁ := h.run hrun (fits_of_step hstep hrange.1)
    have hrange₁ := inRange_of_step h₁ hstep hrange
    obtain ⟨hle, hvalues⟩ := ih hrange₁
    obtain ⟨hle', hvalues'⟩ := step_evolves h₁ hstep hrange
    refine ⟨hle.trans hle', fun a v hv => ?_⟩
    obtain ⟨w, hw, hev⟩ := hvalues a v hv
    obtain ⟨x, hx, hev'⟩ := hvalues' a w hw
    refine ⟨x, hx, hev.trans hle hle' (fun hwin => ?_) hev'⟩
    exact h.win_le (inRange_of_run h hrun hrange₁) hv hwin

/-! ### Reachable states -/

end

end ChessEgt
