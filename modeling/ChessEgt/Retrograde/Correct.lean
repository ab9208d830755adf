import ChessEgt.Retrograde.Counting
import ChessEgt.Retrograde.Interleaving
import ChessEgt.Retrograde.Edges
import ChessEgt.Storage.Finalization

/-!
# The propagation is correct

Every scan of every run takes the values from the cells expected before it to those expected after
it, so that a run that has halted has found the outcomes.

* `SolvedPair` — a table and its twin, with distances that fit;
* `Exact`, `Exact.step` — the values stand for the cells that they should, step by step;
* `Exact.exists_step`, `Exact.exists_halted` — the next step exists, until the run halts;
* `exact_reachable` — every state of a run is exact, whatever the interleaving;
* `solver_correct` — what a run has found when it halts.
-/

namespace ChessEgt

open Rules Indexer ParallelScan MaybeDtcOutcome SharedMemory Relation

/-- The entries are those of a table and its twin, and every distance fits. -/
structure SolvedPair (M : Material) (entries : List Entry) : Prop where
  bounded : M.nPieces ≤ maxPieces
  canonical : M.Canonical
  entries : PairEntries M entries
  distances : DistancesFit M

section

variable [Shakmaty]

/-- Between two scans, every value stands for the cell that is expected there. -/
structure Exact (M : Material) (entries : List Entry) (c : Progress) : Prop where
  cells : ∃ p done, c.plies = p + 1 ∧ scansOf entries = done ++ c.todo ∧
    Represents c.working (cellsOf M p done)
  sizes : ∀ e ∈ entries,
    (c.working.values e.slot).length = (materialAt M e.slot).indexer.indexRange
  others : ∀ slot ∉ entries.map Entry.slot, c.working.values slot = []
  fits : c.Fits

omit [Shakmaty] in
theorem mem_of_mem_scansOf {entries : List Entry} {s : Phase × Entry} (h : s ∈ scansOf entries) :
    s.2 ∈ entries := by
  unfold scansOf at h
  simp only [List.mem_append, List.mem_map, List.mem_flatMap] at h
  rcases h with ⟨e, he, rfl⟩ | ⟨ct, -, e, he, rfl⟩
  · exact he
  · exact he

/-- Updates keep the sizes of the tables. -/
theorem length_values_foldl {e : Entry} {phase : Phase} {plies : ℕ} (us : List Update)
    (x : WorkingPair × Found) (slot : Slot) :
    ((us.foldl (e.scan phase plies).visit x).1.values slot).length
      = (x.1.values slot).length := by
  have hcells : ∀ idx, idx < ((us.foldl (e.scan phase plies).visit x).1.values slot).length
      ↔ idx < (x.1.values slot).length := by
    intro idx
    have hsome : (get (us.foldl (e.scan phase plies).visit x).1 (slot, idx)).isSome
        = (get x.1 (slot, idx)).isSome := isSome_foldl_visit _ _ _
    have hiff : ((us.foldl (e.scan phase plies).visit x).1.values slot)[idx]?.isSome
        ↔ (x.1.values slot)[idx]?.isSome := by
      rw [show ((us.foldl (e.scan phase plies).visit x).1.values slot)[idx]?.isSome
        = (x.1.values slot)[idx]?.isSome from hsome]
    simpa using hiff
  refine le_antisymm ?_ ?_
  · by_contra hlt
    exact lt_irrefl _ ((hcells _).mp (not_le.mp hlt))
  · by_contra hlt
    exact lt_irrefl _ ((hcells _).mpr (not_le.mp hlt))

omit [Shakmaty] in
theorem Progress.Fits.le {c : Progress} (h : c.Fits) : c.plies ≤ 8192 := by
  rcases h with h | ⟨h, -⟩ <;> omega

omit [Shakmaty] in
theorem Progress.Bounded.plies_le {c : Progress} {start : ℕ} (hb : c.Bounded start) :
    c.plies ≤ start + 2 := by
  by_cases hp : 2 ≤ c.plies
  · have := hb.used hp
    omega
  · omega

theorem Progress.Positioned.run {entries : List Entry} {c c' : Progress}
    (h : c.Positioned entries) (hrun : ReflTransGen (Progress.Step entries) c c') :
    c'.Positioned entries := by
  induction hrun with
  | refl => exact h
  | tail _ hstep ih => exact (ih.step hstep).1

namespace Exact

variable [LawfulShakmaty] {M : Material} {entries rest : List Entry} {c c' : Progress}
  {phase : Phase} {e : Entry} {todo : List (Phase × Entry)}

/-- The updates that the next scan emits. -/
theorem emitted (h : SolvedPair M entries) (hx : Exact M entries c)
    (htodo : c.todo = (phase, e) :: todo) : ∃ p, c.plies = p + 1 ∧
      ((e.scan phase c.plies).sources c.working (c.working.addresses e.slot)).flatMap
        (e.scan phase c.plies).emitted = (scanUpdates M p phase e).map some := by
  obtain ⟨p, done, hp, hscans, hcells⟩ := hx.cells
  rw [htodo] at hscans
  have he : e ∈ entries :=
    mem_of_mem_scansOf (hscans ▸ List.mem_append_right _ List.mem_cons_self)
  have hle := hx.fits.le
  refine ⟨p, hp, ?_⟩
  rw [hp]
  exact emitted_eq h.bounded h.canonical h.entries he (by omega) hcells
    (inBits_cellsOf h.bounded h.canonical h.distances h.entries hscans)
    (sourceOf_cellsOf phase done) (hx.sizes e he)

/-- A scan takes the cells to the next ones, in any order of its updates, and above ply 8191 it
    finds nothing. -/
theorem scan (h : SolvedPair M entries) (hx : Exact M entries c)
    (htodo : c.todo = (phase, e) :: todo) {p : ℕ} (hp : c.plies = p + 1) {us : List Update}
    (hus : us.Perm (scanUpdates M p phase e)) :
    Exact M entries (c.scanned e todo (us.foldl (e.scan phase c.plies).visit (c.working, 0))) := by
  obtain ⟨p', done, hp', hscans, hcells⟩ := hx.cells
  obtain rfl : p' = p := by omega
  rw [htodo] at hscans
  have hscans' : scansOf entries = (done ++ [(phase, e)]) ++ todo := by
    rw [hscans, List.append_assoc]
    rfl
  have hafter : cellsAfter phase (p' + 1) us (cellsOf M p' done)
      = cellsOf M p' (done ++ [(phase, e)]) := by
    rw [cellsAfter_perm hus, cellsOf_append]
  have hlast : ∀ a, InBits (cellsAfter phase (p' + 1) us (cellsOf M p' done) a) := by
    rw [hafter]
    exact inBits_cellsOf h.bounded h.canonical h.distances h.entries hscans'
  have hrun : Represents (us.foldl (e.scan phase (p' + 1)).visit (c.working, 0)).1 _ ∧ _ :=
    represents_foldl hcells (inBits_cellsOf h.bounded h.canonical h.distances h.entries hscans) hlast
  rw [hafter, ← hp] at hrun
  refine ⟨⟨p', done ++ [(phase, e)], hp, hscans', hrun.1⟩, fun e' he' => ?_, fun slot hslot => ?_, ?_⟩
  · exact (length_values_foldl _ _ _).trans (hx.sizes e' he')
  · have hlen : ((us.foldl (e.scan phase c.plies).visit (c.working, 0)).1.values slot).length = _ :=
      length_values_foldl us (c.working, 0) slot
    rw [hx.others slot hslot] at hlen
    exact List.length_eq_zero_iff.mp hlen
  · rcases hx.fits with hle | ⟨heq, hzero⟩
    · exact Or.inl hle
    · refine Or.inr ⟨heq, fun slot => ?_⟩
      have hcount := hrun.2 (by omega)
      show Function.update c.found e.twinSlot (c.found e.twinSlot + _) slot = 0
      rw [hcount, add_zero, Function.update_eq_self]
      exact hzero slot

/-- The end of a ply. -/
theorem advance (h : SolvedPair M entries) (hx : Exact M entries c) (htodo : c.todo = [])
    (hfound : ∃ slot, (c.found slot).isEmpty = false) : Exact M entries (c.advanced entries) := by
  obtain ⟨p, done, hp, hscans, hcells⟩ := hx.cells
  rw [htodo, List.append_nil] at hscans
  subst hscans
  refine ⟨⟨p + 1, [], by rw [← hp]; rfl, rfl, fun a v hv => ?_⟩, hx.sizes, hx.others, ?_⟩
  · have hslot : a.1 ∈ entries.map Entry.slot := by
      by_contra hslot
      have hnone : (c.working.values a.1)[a.2]? = some v := hv
      rw [hx.others _ hslot] at hnone
      cases hnone
    obtain ⟨e, he, hslot⟩ := List.mem_map.mp hslot
    -- The table of the address is the twin of one of the entries.
    obtain ⟨e', he', hslot'⟩ := h.entries.slots e he
    rw [hcells a v hv, cellsOf_scansOf h.bounded h.canonical h.entries he' (by rw [hslot', hslot])]
    rfl
  · rcases hx.fits with hle | ⟨-, hzero⟩
    · show c.plies + 1 ≤ 8191 ∨ c.plies + 1 = 8192 ∧ ∀ slot, (0 : Found) = 0
      by_cases hlast : c.plies = 8191
      · exact Or.inr ⟨by omega, fun _ => rfl⟩
      · exact Or.inl (by omega)
    · obtain ⟨slot, hslot⟩ := hfound
      rw [hzero slot] at hslot
      cases hslot

/-- **A step** of progress keeps the values exact. -/
theorem step (h : SolvedPair M entries) (hx : Exact M entries c)
    (hstep : Progress.Step entries c c') : Exact M entries c' := by
  cases hstep with
  | scan htodo hresult =>
    obtain ⟨us, hus, -, rfl⟩ := hresult
    obtain ⟨p, hp, hemitted⟩ := hx.emitted h htodo
    rw [hemitted] at hus
    have hsame := List.map_injective_iff.mpr (Option.some_injective Update) hus
    exact hx.scan h htodo hp (by rw [hsame])
  | advance htodo _ hfound => exact hx.advance h htodo hfound
  | halt _ _ _ => exact ⟨hx.cells, hx.sizes, hx.others, hx.fits⟩

theorem run (h : SolvedPair M entries) (hx : Exact M entries c)
    (hrun : ReflTransGen (Progress.Step entries) c c') : Exact M entries c' := by
  induction hrun with
  | refl => exact hx
  | tail _ hstep ih => exact ih.step h hstep

/-! ### The next step -/

/-- The targets of a scan are cells of the twin table. -/
theorem isSome_target (h : SolvedPair M entries) (hx : Exact M entries c) (he : e ∈ entries) {p : ℕ}
    {u : Update} (hu : u ∈ scanUpdates M p phase e) : (get c.working u.1).isSome := by
  unfold scanUpdates sourceUpdates at hu
  obtain ⟨idx, -, hu⟩ := List.mem_flatMap.mp hu
  obtain ⟨ct, hct, hu⟩ := List.mem_flatMap.mp hu
  obtain ⟨x, hmem, rfl⟩ := List.mem_map.mp hu
  have hvalid := mem_valid_of_sourceOf (Option.mem_toList.mp hct)
  obtain ⟨q, hq⟩ := stands_of_mem_preds h.bounded h.canonical hvalid hmem
  have hlt := hq.lt
  rw [pairGraph_preds] at hmem
  rw [fst_of_mem_emittedNodes hmem, nodeAt_material, ← h.entries.partner e he] at hlt
  obtain ⟨e', he', hslot⟩ := h.entries.twins e he
  rw [← hslot, ← hx.sizes e' he', hslot] at hlt
  show ((c.working.values e.twinSlot)[x.index]?).isSome
  rw [List.getElem?_eq_getElem hlt]
  rfl

/-- A run that has not halted can go on. -/
theorem exists_step (h : SolvedPair M entries) (hx : Exact M entries c) (hrun : c.halted = false) :
    ∃ c', Progress.Step entries c c' := by
  cases htodo : c.todo with
  | nil =>
    by_cases hfound : ∃ slot, (c.found slot).isEmpty = false
    · exact ⟨_, .advance htodo hrun hfound⟩
    · refine ⟨_, .halt htodo hrun fun slot => ?_⟩
      by_contra hslot
      exact hfound ⟨slot, Bool.not_eq_true _ ▸ hslot⟩
  | cons s todo =>
    obtain ⟨phase, e⟩ := s
    obtain ⟨p, -, hemitted⟩ := hx.emitted h htodo
    have he : e ∈ entries := by
      obtain ⟨-, done, -, hscans, -⟩ := hx.cells
      rw [htodo] at hscans
      exact mem_of_mem_scansOf (hscans ▸ List.mem_append_right _ List.mem_cons_self)
    exact ⟨_, .scan htodo ⟨_, hemitted, fun u hu => hx.isSome_target h he hu, rfl⟩⟩

/-- **A run halts.** -/
theorem exists_halted (h : SolvedPair M entries) (hx : Exact M entries c) {start : ℕ}
    (hb : c.Bounded start) (hpos : c.Positioned entries) :
    ∃ c', ReflTransGen (Progress.Step entries) c c' ∧ c'.halted = true := by
  -- Every step moves the position on, and the position of a run is bounded.
  have hbound : ∀ {c : Progress}, c.Bounded start → c.Positioned entries →
      c.position entries ≤ (start + 2) * ((scansOf entries).length + 1) + 1 := by
    intro c hb hpos
    have hle := hpos.position_le
    have hmul : c.plies * ((scansOf entries).length + 1)
        ≤ (start + 2) * ((scansOf entries).length + 1) := Nat.mul_le_mul_right _ hb.plies_le
    omega
  obtain ⟨n, hn⟩ : ∃ n, n = (start + 2) * ((scansOf entries).length + 1) + 1
      - c.position entries := ⟨_, rfl⟩
  induction n generalizing c with
  | zero =>
    cases hh : c.halted with
    | true => exact ⟨c, .refl, hh⟩
    | false =>
      obtain ⟨c', hstep⟩ := hx.exists_step h hh
      obtain ⟨hpos', hposition⟩ := hpos.step hstep
      have hle := hbound (hb.step hstep (hx.step h hstep).fits) hpos'
      omega
  | succ n ih =>
    cases hh : c.halted with
    | true => exact ⟨c, .refl, hh⟩
    | false =>
      obtain ⟨c', hstep⟩ := hx.exists_step h hh
      obtain ⟨hpos', hposition⟩ := hpos.step hstep
      have hx' := hx.step h hstep
      obtain ⟨c'', hrun, hhalted⟩ := ih hx' (hb.step hstep hx'.fits) hpos' (by omega)
      exact ⟨c'', .head hstep hrun, hhalted⟩

end Exact

/-! ### The start -/

section

variable [LawfulShakmaty] {probe : Chess → Run DtcOutcome} {M : Material} {tableB : Option Egt}
  {entries : List Entry} {policy : Policy} {s₀ s s' : Solver} {c₀ : Progress}

/-- What the initialization leaves is exact. -/
theorem exact_start (h : SolvedPair M entries) (hentries : entriesOf M.table tableB = .ok entries)
    (hprobe : ProbesPair probe M) (hstart : solveStart probe entries = .ok s₀) :
    Exact M entries s₀.progress := by
  have hnodup := nodup_slots hentries
  have hplaced := placed hnodup hstart
  have htodo : s₀.progress.todo = scansOf entries := (started hnodup hstart).todo
  have hplies : s₀.progress.plies = 0 + 1 := hplaced.plies
  -- The initial values of a table, index by index.
  have hinitial : ∀ e ∈ entries, ∃ pairs : List (MaybeDtcOutcome × InitCounts),
      s₀.working.values e.slot = pairs.map Prod.fst ∧
        pairs.length = (materialAt M e.slot).indexer.indexRange ∧
        ∀ idx pair, pairs[idx]? = some pair → InitialAt probe e.table idx pair.1 pair.2 := by
    intro e he
    obtain ⟨values, summary, counts, hinit, hv, -, -⟩ := hplaced.tables e he
    obtain ⟨pairs, hp⟩ := initializeTable_at probe hinit
    have hlen : pairs.length = e.table.indexRange := by
      rw [← hp.each.length_eq, List.length_range]
    refine ⟨pairs, hv.trans hp.values, ?_, fun idx pair hpair => ?_⟩
    · rw [hlen, h.entries.table e he]
      rfl
    · obtain ⟨hlt, rfl⟩ := List.getElem?_eq_some_iff.mp hpair
      have hlt' : idx < (List.range e.table.indexRange).length := by
        rw [List.length_range, ← hlen]
        exact hlt
      have hat := (List.forall₂_iff_get.mp hp.each).2 idx hlt' hlt
      rwa [List.get_eq_getElem, List.getElem_range] at hat
  refine ⟨⟨0, [], hplies, by rw [htodo]; rfl, fun a v hv => ?_⟩, fun e he => ?_, fun slot hslot => ?_,
    Or.inl (by rw [hplies]; omega)⟩
  · by_cases hslot : a.1 ∈ entries.map Entry.slot
    · obtain ⟨e, he, hslot⟩ := List.mem_map.mp hslot
      obtain ⟨pairs, hvalues, hlen, hat⟩ := hinitial e he
      have hget : (s₀.working.values a.1)[a.2]? = some v := hv
      rw [← hslot, hvalues, List.getElem?_map] at hget
      obtain ⟨pair, hpair, rfl⟩ := Option.map_eq_some_iff.mp hget
      have hinit := hat a.2 pair hpair
      rw [h.entries.table e he, hslot] at hinit
      have hlt : a.2 < (materialAt M a.1).indexer.indexRange := by
        rw [← hslot, ← hlen]
        exact (List.getElem?_eq_some_iff.mp hpair).1
      show pair.1 = encode (cellAt M 0 a)
      rw [cellAt_eq]
      exact encode_initial h.bounded h.canonical (materialAt_cases M a.1) hlt
        (hprobe (nodeAt M a) (materialAt_cases M a.1)) hinit
    · have hget : (s₀.working.values a.1)[a.2]? = some v := hv
      rw [(hplaced.others a.1 hslot).1] at hget
      cases hget
  · obtain ⟨pairs, hvalues, hlen, -⟩ := hinitial e he
    show (s₀.working.values e.slot).length = _
    rw [hvalues, List.length_map, hlen]
  · exact (hplaced.others slot hslot).1

/-! ### Runs of the solver -/

/-- However its workers interleave, a finished scan leaves exact values; at the ply after the last
    distance it finds nothing. -/
theorem Linked.exact_joined (h : SolvedPair M entries) (hl : Linked policy entries c₀ s)
    (hx : Exact M entries s.progress) {phase : Phase} {e : Entry} {rest : List (Phase × Entry)}
    {pool : ScanPool} (hscan : s.scanning = some pool) (htodo : s.todo = (phase, e) :: rest)
    (hd : pool.Done) : Exact M entries (s.joined e rest pool).progress := by
  obtain ⟨events, htrace⟩ := hl.trace hscan htodo
  have hle : s.plies ≤ 8192 := hx.fits.le
  have htodo' : s.progress.todo = (phase, e) :: rest := htodo
  obtain ⟨p, hp, hemitted⟩ := hx.emitted h htodo'
  have hi := htrace.invariant (stable e phase s.plies)
  -- The updates that the workers have settled are those of the scan, in some order.
  obtain ⟨us, hus, hperm⟩ := hi.finished hd
  have hsources := (hl.tracks.sources_perm hle policy e phase).flatMap_right
    (e.scan phase s.plies).emitted
  have hemitted' : ((e.scan phase s.plies).sources s.working
      (s.working.addresses e.slot)).flatMap (e.scan phase s.plies).emitted
        = (scanUpdates M p phase e).map some := hemitted
  rw [hus, hemitted'] at hsources
  have hall := hperm.trans ((List.map_perm_map_iff (Option.some_injective Update)).mp hsources)
  have hnext := hx.scan h htodo' hp hall
  have hmemory : (pool.memory, pool.count)
      = (((settledOf events).map Prod.fst).foldl (e.scan phase s.plies).visit (s.working, 0)) :=
    hi.memory
  have hsame : (s.joined e rest pool).progress
      = s.progress.scanned e rest (pool.memory, pool.count) := rfl
  rw [hsame, hmemory]
  exact hnext

/-- A step of a run makes a step of progress, or none, and stays exact. -/
theorem Linked.exact_step (h : SolvedPair M entries) (hl : Linked policy entries c₀ s)
    (hx : Exact M entries s.progress) (hstep : Solver.Step policy entries s s') :
    Linked policy entries c₀ s' ∧ Exact M entries s'.progress := by
  have hfits : s'.Fits := by
    cases hstep with
    | skip _ _ _ => exact hx.fits
    | start _ _ _ => exact hx.fits
    | work _ _ _ => exact hx.fits
    | join hscan htodo hd => exact (hl.exact_joined h hx hscan htodo hd).fits
    | advance _ htodo _ hfound => exact (hx.advance h htodo hfound).fits
    | halt _ _ _ _ => exact hx.fits
  refine ⟨hl.step hstep hfits, ?_⟩
  cases hstep with
  | @skip phase e rest hidle htodo hskip =>
    -- A scan that is left out selects nothing.
    have hresult := result_of_sources_eq_nil (hl.tracks.sources_eq_nil hx.fits.le hskip)
    have hscan : Progress.Step entries s.progress (s.progress.scanned e rest (s.working, 0)) :=
      .scan htodo hresult
    rw [scanned_of_skip htodo] at hscan
    exact hx.step h hscan
  | start _ _ _ => exact hx
  | work _ _ _ => exact hx
  | join hscan htodo hd => exact hl.exact_joined h hx hscan htodo hd
  | advance _ htodo _ hfound => exact hx.advance h htodo hfound
  | halt _ htodo hrun hempty => exact hx.step h (.halt htodo hrun hempty)

theorem Linked.exact_run (h : SolvedPair M entries) (hl : Linked policy entries c₀ s)
    (hx : Exact M entries s.progress) (hrun : ReflTransGen (Solver.Step policy entries) s s') :
    Linked policy entries c₀ s' ∧ Exact M entries s'.progress := by
  induction hrun with
  | refl => exact ⟨hl, hx⟩
  | tail _ hstep ih => exact ih.1.exact_step h ih.2 hstep

/-- Every state of a run is exact. -/
theorem exact_reachable (h : SolvedPair M entries) (hentries : entriesOf M.table tableB = .ok entries)
    (hprobe : ProbesPair probe M) (hstart : solveStart probe entries = .ok s₀)
    (hrun : ReflTransGen (Solver.Step policy entries) s₀ s) :
    Linked policy entries s₀.progress s ∧ Exact M entries s.progress :=
  ((started (nodup_slots hentries) hstart).linked policy).exact_run h
    (exact_start h hentries hprobe hstart) hrun

/-- Every state of a run can be continued until the run halts. -/
theorem exists_halted_run (h : SolvedPair M entries)
    (hentries : entriesOf M.table tableB = .ok entries) (hprobe : ProbesPair probe M)
    (hstart : solveStart probe entries = .ok s₀)
    (hrun : ReflTransGen (Solver.Step policy entries) s₀ s) :
    ∃ s', ReflTransGen (Solver.Step policy entries) s s' ∧ s'.halted = true := by
  obtain ⟨hl, hx⟩ := exact_reachable h hentries hprobe hstart hrun
  have hplaced := placed (nodup_slots hentries) hstart
  have hplies : s₀.progress.plies = 1 := hplaced.plies
  have hbounded : s₀.progress.Bounded s₀.progress.openCount :=
    ⟨le_rfl, fun hp => by rw [hplies] at hp; omega⟩
  have hpos : s₀.progress.Positioned entries := by
    refine ⟨by rw [hplies]; exact Nat.one_pos, ?_, fun hh => ?_⟩
    · have htodo : s₀.progress.todo = scansOf entries := (started (nodup_slots hentries) hstart).todo
      rw [htodo]
    · have hfalse : s₀.halted = true := hh
      rw [hplaced.running] at hfalse
      cases hfalse
  obtain ⟨c, hc, hhalted⟩ := hx.exists_halted h (hbounded.run hl.progress hx.fits)
    (hpos.run hl.progress)
  obtain ⟨s', hs', heq⟩ := hl.exists_progress hc (hx.run h hc).fits hhalted
  refine ⟨s', hs', ?_⟩
  have hsame : s'.progress.halted = true := by
    rw [heq]
    exact hhalted
  exact hsame

/-! ### What a run has found when it halts -/

/-- A value of a run that has halted is invalid or stands for the outcome of its position. -/
structure Solved (egt : Egt) (idx : ℕ) (v : MaybeDtcOutcome) : Prop where
  invalid : ∀ reason, egt.indexer.positionFromIndexWithReason idx .white = .ok (.error reason) →
    v = .invalid
  outcome : ∀ p, egt.indexer.positionFromIndexWithReason idx .white = .ok (.ok p) →
    resolveUnknown v = encode (.known (dtcOutcome p))

omit [Shakmaty] [LawfulShakmaty] in
/-- A ply that has found nothing has resolved no value. -/
theorem not_resolved_of_tally {p : ℕ} {values : List MaybeDtcOutcome} (h : tally p values = 0)
    {v : MaybeDtcOutcome} (hv : v ∈ values) (hr : v.isWin = true ∨ v.isLoss = true) : ply v ≠ p := by
  intro hply
  have hw : values.countP (fun v => v.isWin && decide (ply v = p)) = 0 := by
    rw [← tally_wins, h]
    rfl
  have hl : values.countP (fun v => v.isLoss && decide (ply v = p)) = 0 := by
    rw [← tally_losses, h]
    rfl
  rw [List.countP_eq_zero] at hw hl
  rcases hr with hr | hr
  · exact hw v hv (by simp [hr, hply])
  · exact hl v hv (by simp [hr, hply])

omit [Shakmaty] [LawfulShakmaty] in
theorem isResolved_encode {o : DtcOutcome} {n : ℕ} (h : o.plies? = some n) :
    (encode (.known o)).isWin = true ∨ (encode (.known o)).isLoss = true := by
  cases o with
  | draw => cases h
  | win ct m => exact Or.inl (isWin_newWin ct _)
  | loss ct m => exact Or.inr (isLoss_newLoss ct _)

/-- An index decodes to the position of its node. -/
theorem PairEntries.stands_iff (hM : M.nPieces ≤ maxPieces) (h : PairEntries M entries)
    {e : Entry} (he : e ∈ entries) {idx : ℕ} (hidx : idx < e.table.indexRange) (position : Chess) :
    e.table.indexer.positionFromIndexWithReason idx .white = .ok (.ok position) ↔
      (nodeAt M (e.slot, idx)).Stands position := by
  rw [h.table e he] at hidx ⊢
  exact decoded_iff (x := nodeAt M (e.slot, idx)) (nPieces_materialAt hM e.slot) hidx

/-- A table of a run that has halted is solved. -/
theorem Exact.solved (h : SolvedPair M entries) {c : Progress} (hx : Exact M entries c)
    (hcounted : c.Counted) (hhalted : c.halted = true) {e : Entry} (he : e ∈ entries) {idx : ℕ}
    {v : MaybeDtcOutcome} (hv : (c.working.values e.slot)[idx]? = some v) : Solved e.table idx v := by
  have hs := solution_truth (M := M) h.bounded h.canonical
  have hlawful := lawful_pairGraph (M := M) h.bounded h.canonical
  obtain ⟨htodo, hzero⟩ := hcounted.halted hhalted
  obtain ⟨p, done, hp, hscans, hcells⟩ := hx.cells
  rw [htodo, List.append_nil] at hscans
  subst hscans
  -- All scans of the last ply are done.
  have hcell : ∀ e ∈ entries, ∀ idx v, (c.working.values e.slot)[idx]? = some v →
      v = encode (cellAt M (p + 1) (e.slot, idx)) := by
    intro e he idx v hv
    obtain ⟨e', he', hslot⟩ := h.entries.slots e he
    have hrepr := hcells (e.slot, idx) v hv
    rwa [cellsOf_scansOf h.bounded h.canonical h.entries he' hslot.symm] at hrepr
  -- The last ply has found nothing, so that there is no later distance.
  have hnone : ∀ y ∈ (pairGraph M).valid, y.truth.plies? ≠ some (p + 1) := by
    intro y hy hply
    obtain ⟨hmaterial, q, hq⟩ := mem_valid.mp hy
    obtain ⟨e', he', hslot⟩ := h.entries.exists_entry h.canonical he hmaterial
    have hlt : y.index < (c.working.values e'.slot).length := by
      rw [hx.sizes e' he', hslot]
      exact hq.lt
    have hnode : nodeAt M (e'.slot, y.index) = y := Node.ext hslot rfl
    have hknown : cellAt M (p + 1) (e'.slot, y.index) = .known y.truth := by
      rw [cellAt_eq, hnode]
      exact Propagation.expected_of_within hy (Or.inr ⟨p + 1, le_rfl, hply⟩)
    have hvalue := hcell e' he' y.index _ (List.getElem?_eq_getElem hlt)
    have hbits := inBits_cellAt h.bounded h.canonical h.distances (p + 1) (e'.slot, y.index)
    rw [hknown] at hvalue hbits
    have hfound := hcounted.found e'.slot
    rw [hzero, hp] at hfound
    exact not_resolved_of_tally hfound.symm (List.getElem_mem hlt) (hvalue ▸ isResolved_encode hply)
      (hvalue ▸ ply_encode_known hbits hply)
  have hlater := hs.no_later_plies hlawful hnone
  have hmaterial := materialAt_cases M e.slot
  have hlt : idx < (materialAt M e.slot).indexer.indexRange := by
    rw [← hx.sizes e he]
    exact (List.getElem?_eq_some_iff.mp hv).1
  have hvalue := hcell e he idx v hv
  rw [cellAt_eq] at hvalue
  have hstands := h.entries.stands_iff h.bounded he (by rw [h.entries.table e he]; exact hlt)
  refine ⟨fun reason hr => ?_, fun q hq => ?_⟩
  · rw [hvalue, Propagation.expected_of_not_valid]
    · rfl
    · intro hmem
      obtain ⟨-, q, hq⟩ := mem_valid.mp hmem
      rw [(hstands q).mpr hq] at hr
      cases hr
  · have hq' := (hstands q).mp hq
    have hmem : nodeAt M (e.slot, idx) ∈ (pairGraph M).valid := mem_valid.mpr ⟨hmaterial, q, hq'⟩
    have hbits := inBits_cellAt h.bounded h.canonical h.distances (p + 1) (e.slot, idx)
    rw [cellAt_eq] at hbits
    rw [← hq'.truth_eq]
    rcases hs.expected_cases hlawful hmem (p := p + 1) (by omega) with hk | ⟨hw, hu⟩
    · rw [hvalue, hk]
      exact if_neg (by simpa using isUnknown_encode_of_ne fun n hn => by cases hn)
    · -- What is still open has no distance.
      have hdraw : (nodeAt M (e.slot, idx)).truth = .draw := by
        rw [← Outcome.plies?_eq_none, Option.eq_none_iff_forall_ne_some]
        intro n hn
        by_cases hle : n ≤ p + 1
        · exact hw ⟨n, hle, hn⟩
        · exact hlater n (by omega) _ hmem hn
      rw [hu] at hbits hvalue
      rw [hdraw, hvalue]
      exact if_pos (isUnknown_encode hbits)

/-- **The solver is correct.** For a table and its twin whose distances fit, with probes that give
    the outcomes of the conversions, no state of any run exceeds the range of the distances, every
    run can be continued until it halts, and once it has halted, every index that does not decode
    is invalid and every other one holds the outcome of its position. -/
theorem solver_correct (hM : M.nPieces ≤ maxPieces) (hc : M.Canonical) (hdist : DistancesFit M)
    (htwin : IsTwinTable M tableB) (hentries : entriesOf M.table tableB = .ok entries)
    (hprobe : ProbesPair probe M) (hstart : solveStart probe entries = .ok s₀)
    (hrun : ReflTransGen (Solver.Step policy entries) s₀ s) :
    s.Fits ∧ (∃ s', ReflTransGen (Solver.Step policy entries) s s' ∧ s'.halted = true) ∧
    (s.halted = true → ∀ e ∈ entries,
      (s.working.values e.slot).length = e.table.indexRange ∧
      ∀ idx v, (s.working.values e.slot)[idx]? = some v → Solved e.table idx v) := by
  have h : SolvedPair M entries := ⟨hM, hc, pairEntries hM hc htwin hentries, hdist⟩
  obtain ⟨hl, hx⟩ := exact_reachable h hentries hprobe hstart hrun
  refine ⟨hx.fits, exists_halted_run h hentries hprobe hstart hrun, fun hhalted e he => ⟨?_, ?_⟩⟩
  · rw [h.entries.table e he]
    exact hx.sizes e he
  · have hcounted := (placed (nodup_slots hentries) hstart).counted.run hl.progress hx.fits
    exact fun idx v hv => hx.solved h hcounted hhalted he hv

end

end

theorem solver_correct_bareKings : ∃ entries s₀,
    entriesOf Material.kings.table none = .ok entries ∧
    @solveStart rulesShakmaty (fun _ => .ok .draw) entries = .ok s₀ ∧
    ∃ s, ReflTransGen (@Solver.Step rulesShakmaty .skipping entries) s₀ s ∧ s.halted = true := by
  obtain ⟨entries, s₀, hentries, hs₀⟩ := exists_start_kings
  exact ⟨entries, s₀, hentries, hs₀, (@solver_correct rulesShakmaty lawful_rulesShakmaty _ _ _ _
    .skipping _ _ Material.nPieces_kings Material.canonical_kings
    (@distancesFit_kings rulesShakmaty lawful_rulesShakmaty) Material.isTwinTable_kings hentries
    (probesPair_kings) hs₀ .refl).2.1⟩

end ChessEgt
