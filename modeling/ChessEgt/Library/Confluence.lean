import ChessEgt.Library.Workers

/-!
# Confluence of parallel scans

What a parallel scan leaves does not depend on the order of its steps, and can be told cell by
cell.

* `mem_sources_iff`, `sources_perm` — the cells that a scan selects;
* `Result`, `Trace.result`, `Result.exists_run` — a scan has one result, and can always reach it;
* `Chain`, `Explains.chain` — the updates of one cell, one after the other.
-/

variable {M S A V U R F : Type} [SharedMemory M A V] [Notes S R] [AddCommMonoid F]

open SharedMemory Notes

namespace ParallelScan

variable {scan : ParallelScan A V U R F} {m₀ m : M} {s : S} {parts : List (List A)}
  {cells : List A} {events : List (Event A V U)} {us us' : List U}

/-! ### The sources of a scan -/

theorem mem_sources_iff {part : List A} {x : A × V} : x ∈ scan.sources m part ↔
    x.1 ∈ part ∧ get m x.1 = some x.2 ∧ scan.select x.2 = true := by
  unfold sources
  rw [List.mem_filterMap]
  constructor
  · rintro ⟨a, ha, hx⟩
    obtain ⟨v, hv, hx⟩ := Option.bind_eq_some_iff.mp hx
    by_cases hsel : scan.select v = true
    · rw [if_pos hsel] at hx
      cases hx
      exact ⟨ha, hv, hsel⟩
    · rw [if_neg hsel] at hx
      cases hx
  · rintro ⟨ha, hv, hsel⟩
    exact ⟨x.1, ha, by rw [hv, Option.bind_some, if_pos hsel]⟩

theorem flatMap_sources (parts : List (List A)) :
    parts.flatMap (scan.sources m) = scan.sources m parts.flatten := by
  induction parts with
  | nil => rfl
  | cons part parts ih =>
    rw [List.flatMap_cons, ih, List.flatten_cons]
    exact List.filterMap_append.symm

theorem nodup_sources {part : List A} (h : part.Nodup) : (scan.sources m part).Nodup := by
  refine h.filterMap fun a a' x ha ha' => ?_
  obtain ⟨v, -, ha⟩ := Option.bind_eq_some_iff.mp ha
  obtain ⟨v', -, ha'⟩ := Option.bind_eq_some_iff.mp ha'
  split at ha
  · split at ha'
    · cases ha
      cases ha'
      rfl
    · cases ha'
  · cases ha

/-- Two ways to visit every selected cell once have the same sources. -/
theorem sources_perm {part part' : List A} (h : part.Nodup) (h' : part'.Nodup)
    (hsel : ∀ a v, get m a = some v → scan.select v = true → (a ∈ part ↔ a ∈ part')) :
    (scan.sources m part).Perm (scan.sources m part') := by
  refine (List.perm_ext_iff_of_nodup (nodup_sources h) (nodup_sources h')).mpr fun x => ?_
  rw [mem_sources_iff, mem_sources_iff]
  constructor
  · rintro ⟨ha, hv, hx⟩
    exact ⟨(hsel _ _ hv hx).mp ha, hv, hx⟩
  · rintro ⟨ha, hv, hx⟩
    exact ⟨(hsel _ _ hv hx).mpr ha, hv, hx⟩

/-! ### The order of the updates -/

/-- Every exchange counts. -/
def Effective (scan : ParallelScan A V U R F) : Prop :=
  ∀ u v, (scan.attempt u v).isSome → (scan.apply u v).2 ≠ 0

/-- Updates with nothing to exchange leave everything as it is. -/
theorem foldl_visit_of_none (h : ∀ u ∈ us, ∀ v, get m (scan.target u) = some v →
    scan.attempt u v = none) (n : F) : us.foldl scan.visit (m, n) = (m, n) := by
  induction us with
  | nil => rfl
  | cons u us ih =>
    have hstay : scan.visit (m, n) u = (m, n) := by
      cases hv : get m (scan.target u) with
      | none => simp [visit, hv]
      | some v =>
        rw [visit_eq hv, apply_of_attempt_none (h u List.mem_cons_self v hv), add_zero,
          set_eq_self (fun w hw => by rw [hv] at hw; exact (Option.some.inj hw).symm)]
    rw [List.foldl_cons, hstay]
    exact ih fun u hu => h u (List.mem_cons_of_mem _ hu)

theorem foldl_visit_add (m : M) (n k : F) (us : List U) : us.foldl scan.visit (m, n + k)
    = ((us.foldl scan.visit (m, n)).1, (us.foldl scan.visit (m, n)).2 + k) := by
  induction us generalizing m n with
  | nil => rfl
  | cons u us ih => rw [List.foldl_cons, List.foldl_cons, visit_add, ih]

/-- If every exchange counts and nothing has been counted, then nothing has been exchanged. -/
theorem Effective.attempt_eq_none [Subsingleton (AddUnits F)] (he : scan.Effective)
    (h : (us.foldl scan.visit (m, 0)).2 = 0) :
    ∀ u ∈ us, ∀ v, get m (scan.target u) = some v → scan.attempt u v = none := by
  induction us with
  | nil => exact fun u hu => absurd hu List.not_mem_nil
  | cons u us ih =>
    rw [List.foldl_cons] at h
    cases hv : get m (scan.target u) with
    | none =>
      have hstay : scan.visit (m, (0 : F)) u = (m, 0) := by simp [visit, hv]
      rw [hstay] at h
      intro u' hu' v' hv'
      rcases List.mem_cons.mp hu' with rfl | hu'
      · rw [hv] at hv'
        cases hv'
      · exact ih h u' hu' v' hv'
    | some v =>
      have hcount : (scan.apply u v).2 = 0 := by
        rw [visit_eq hv, add_comm, ← zero_add (0 : F), add_comm, foldl_visit_add] at h
        exact (add_eq_zero.mp (by simpa using h)).2
      have hnone : scan.attempt u v = none := by
        by_contra hne
        exact he u v (Option.isSome_iff_ne_none.mpr hne) hcount
      have hstay : [u].foldl scan.visit (m, (0 : F)) = (m, 0) := by
        refine foldl_visit_of_none (fun u' hu' v' hv' => ?_) 0
        rw [List.mem_singleton.mp hu'] at hv' ⊢
        rw [hv] at hv'
        rw [← Option.some.inj hv', hnone]
      rw [List.foldl_cons, List.foldl_nil] at hstay
      rw [hstay] at h
      intro u' hu' v' hv'
      rcases List.mem_cons.mp hu' with rfl | hu'
      · rw [hv] at hv'
        rw [← Option.some.inj hv', hnone]
      · exact ih h u' hu' v' hv'

/-- The order of the updates does not matter if they commute, or if they exchange nothing. -/
theorem foldl_visit_perm [Subsingleton (AddUnits F)] (hp : us.Perm us')
    (h : scan.Commutes ∨ scan.Effective ∧ (us.foldl scan.visit (m, 0)).2 = 0) :
    us.foldl scan.visit (m, 0) = us'.foldl scan.visit (m, 0) := by
  rcases h with hc | ⟨he, hzero⟩
  · exact hc.foldl_eq hp _
  · have hnone := he.attempt_eq_none hzero
    rw [foldl_visit_of_none hnone,
      foldl_visit_of_none fun u hu => hnone u (hp.mem_iff.mpr hu)]

/-- The count of settled updates is the sum of what each of them counts. -/
theorem Explains.count_eq {settled : List (U × V)} {x : M × F} (h : scan.Explains x settled) :
    ((settled.map Prod.fst).foldl scan.visit x).2
      = x.2 + (settled.map fun p => (scan.apply p.1 p.2).2).sum := by
  induction settled generalizing x with
  | nil => simp
  | cons p settled ih =>
    obtain ⟨u, v⟩ := p
    obtain ⟨m, n⟩ := x
    obtain ⟨hv, hrest⟩ := h
    rw [List.map_cons, List.foldl_cons, ih hrest, visit_eq hv, List.map_cons, List.sum_cons,
      add_assoc]

/-! ### The result of a scan -/

/-- The memory and the count after all updates of the selected cells, one after the other. -/
def Result (scan : ParallelScan A V U R F) (m₀ : M) (cells : List A) (x : M × F) : Prop :=
  ∃ us : List U, (scan.sources m₀ cells).flatMap scan.emitted = us.map some ∧
    (∀ u ∈ us, (get m₀ (scan.target u)).isSome) ∧ x = us.foldl scan.visit (m₀, 0)

theorem Result.unique {x y : M × F} (hx : scan.Result m₀ cells x) (hy : scan.Result m₀ cells y) :
    x = y := by
  obtain ⟨us, hus, -, rfl⟩ := hx
  obtain ⟨us', hus', -, rfl⟩ := hy
  rw [List.map_injective_iff.mpr (Option.some_injective U) (hus.symm.trans hus')]

/-- A scan that selects nothing changes nothing. -/
theorem result_of_sources_eq_nil (h : scan.sources m₀ cells = []) :
    scan.Result m₀ cells (m₀, 0) :=
  ⟨[], by rw [h]; rfl, by simp, rfl⟩

variable [Subsingleton (AddUnits F)]

/-- A finished scan has the result of the sequential one. -/
theorem Trace.result (hs : scan.Stable) {pool : Pool M S A V U R F}
    (h : scan.Trace (Pool.start m₀ s parts) events pool) (hd : pool.Done)
    (hcells : (parts.flatMap (scan.sources m₀)).Perm (scan.sources m₀ cells))
    (hc : scan.Commutes ∨ scan.Effective ∧ pool.count = 0) :
    scan.Result m₀ cells (pool.memory, pool.count) := by
  have hi := h.invariant hs
  obtain ⟨us, hus, hperm⟩ := hi.finished hd
  have hemitted := hcells.flatMap_right scan.emitted
  rw [hus] at hemitted
  -- The updates of the sequential scan, in its order.
  obtain ⟨us', hus', hperm'⟩ : ∃ us', (scan.sources m₀ cells).flatMap scan.emitted = us'.map some ∧
      us.Perm us' := by
    obtain ⟨us', hus'⟩ := exists_map_some (l := (scan.sources m₀ cells).flatMap scan.emitted)
      fun x hx => by
        obtain ⟨u, -, rfl⟩ := List.mem_map.mp (hemitted.mem_iff.mpr hx)
        rfl
    rw [hus'] at hemitted
    exact ⟨us', hus', (List.map_perm_map_iff (Option.some_injective U)).mp hemitted⟩
  have hall := hperm.trans hperm'
  refine ⟨us', hus', fun u hu => hi.settled.isSome u (hall.mem_iff.mpr hu), ?_⟩
  rw [hi.memory]
  refine foldl_visit_perm hall (hc.imp_right fun ⟨he, hzero⟩ => ⟨he, ?_⟩)
  rw [← hi.memory]
  exact hzero

/-- A finished scan has selected every source once. -/
theorem Trace.selections_perm (hs : scan.Stable) {pool : Pool M S A V U R F}
    (h : scan.Trace (Pool.start m₀ s parts) events pool) (hd : pool.Done) :
    (selectionsOf events).Perm (parts.flatMap (scan.sources m₀)) := by
  have hi := h.invariant hs
  have hnil : pool.workers.flatMap (scan.unscanned m₀) = [] :=
    List.flatMap_eq_nil_iff.mpr fun w hw => unscanned_of_done (hd w hw)
  have hselected := hi.selected
  rwa [hnil, List.append_nil] at hselected

/-- A finished scan has settled every update of its selected cells once. -/
theorem Trace.updates_perm (hs : scan.Stable) {pool : Pool M S A V U R F}
    (h : scan.Trace (Pool.start m₀ s parts) events pool) (hd : pool.Done) :
    (((settledOf events).map Prod.fst).map some).Perm
      ((selectionsOf events).flatMap scan.emitted) := by
  obtain ⟨us, hus, hperm⟩ := (h.invariant hs).finished hd
  refine (hperm.map some).trans ?_
  rw [← hus]
  exact ((h.selections_perm hs hd).flatMap_right scan.emitted).symm

/-- The result of a sequential scan can be reached in parallel, from everywhere in a run. -/
theorem Result.exists_done (hs : scan.Stable) {x : M × F} (hx : scan.Result m₀ cells x)
    (hload : ∀ a ∈ parts.flatten, (get m₀ a).isSome)
    (hcells : (parts.flatMap (scan.sources m₀)).Perm (scan.sources m₀ cells))
    (hc : scan.Commutes ∨ scan.Effective ∧ x.2 = 0) {pool : Pool M S A V U R F}
    (h : scan.Trace (Pool.start m₀ s parts) events pool) : ∃ pool', pool'.Done ∧
      Relation.ReflTransGen scan.PoolStep pool pool' ∧ (pool'.memory, pool'.count) = x := by
  obtain ⟨us, hus, htargets, rfl⟩ := hx
  have hi := h.invariant hs
  have hemitted := hcells.flatMap_right scan.emitted
  rw [hus] at hemitted
  obtain ⟨pool', hd, hrun⟩ := hi.exists_done hs hload fun x hx => by
    obtain ⟨u, hu, rfl⟩ := List.mem_map.mp (hemitted.mem_iff.mp hx)
    exact ⟨u, rfl, htargets u hu⟩
  refine ⟨pool', hd, hrun, ?_⟩
  obtain ⟨events', h'⟩ := exists_trace hrun
  have hi' := (h.append h').invariant hs
  obtain ⟨us', hus', hperm⟩ := hi'.finished hd
  rw [hus'] at hemitted
  have hall := hperm.trans ((List.map_perm_map_iff (Option.some_injective U)).mp hemitted)
  rw [hi'.memory]
  exact (foldl_visit_perm hall.symm hc).symm

end ParallelScan

/-! ### The updates of a cell -/

namespace ParallelScan

variable [DecidableEq A] {scan : ParallelScan A V U R F} {a : A} {v : V}

/-- The settled updates of a cell, with the values that they met. -/
def settledAt (scan : ParallelScan A V U R F) (a : A) (settled : List (U × V)) : List (U × V) :=
  settled.filter fun p => scan.target p.1 = a

/-- Updates of one cell, each of which meets the value that the one before it has left. -/
def Chain (scan : ParallelScan A V U R F) (v : V) : List (U × V) → Prop
  | [] => True
  | (u, w) :: rest => w = v ∧ Chain scan (scan.apply u v).1 rest

/-- The value that updates of one cell leave. -/
def valueAfter (scan : ParallelScan A V U R F) (v : V) (us : List U) : V :=
  us.foldl (fun v u => (scan.apply u v).1) v

theorem settledAt_cons_self {p : U × V} (h : scan.target p.1 = a) (settled : List (U × V)) :
    scan.settledAt a (p :: settled) = p :: scan.settledAt a settled :=
  List.filter_cons_of_pos (by simpa using h)

theorem settledAt_cons_of_ne {p : U × V} (h : scan.target p.1 ≠ a) (settled : List (U × V)) :
    scan.settledAt a (p :: settled) = scan.settledAt a settled :=
  List.filter_cons_of_neg (by simpa using h)

/-- The settled updates of a cell form a chain from its value at the start to the one at the end. -/
theorem Explains.chain {x : M × F} {settled : List (U × V)} (h : scan.Explains x settled)
    (hv : get x.1 a = some v) : scan.Chain v (scan.settledAt a settled) ∧
      get ((settled.map Prod.fst).foldl scan.visit x).1 a
        = some (scan.valueAfter v ((scan.settledAt a settled).map Prod.fst)) := by
  induction settled generalizing x v with
  | nil => exact ⟨trivial, hv⟩
  | cons p settled ih =>
    obtain ⟨u, w⟩ := p
    obtain ⟨hw, hrest⟩ := h
    rw [List.map_cons, List.foldl_cons]
    by_cases ht : scan.target u = a
    · have hwv : w = v := by
        rw [ht, hv] at hw
        exact (Option.some.inj hw).symm
      have hnext : get (scan.visit x u).1 a = some (scan.apply u v).1 := by
        rw [← ht] at hv ⊢
        exact get_visit_self hv x.2
      obtain ⟨hchain, hlast⟩ := ih hrest hnext
      rw [settledAt_cons_self (p := (u, w)) ht]
      exact ⟨⟨hwv, hchain⟩, hlast⟩
    · rw [settledAt_cons_of_ne (p := (u, w)) ht]
      exact ih hrest (by rw [get_visit_of_ne x ht]; exact hv)

end ParallelScan
