import ChessEgt.Retrograde.Correct
import ChessEgt.Retrograde.Runs

/-!
# The counters between two plies

What the values mean while the propagation is still going on.

* `openMoves` — the moves of a position that are not yet known to lose after a ply;
* `Completed` — the states in which all scans of a ply are done;
* `inRange_reachable` — no state of a run leaves the range of the distances, not even within a scan;
* `counters_exact` — which positions are resolved after a ply, and what the counters of the other
  ones are.
-/

namespace ChessEgt

open Rules Indexer ParallelScan MaybeDtcOutcome Relation

section

variable [Shakmaty]

/-- The weight of the moves that are not yet known to lose after `p` plies: quiet moves, unless
    their successor has been won before ply `p`, and conversions, unless their successor is won. -/
noncomputable def openMoves (M : Material) (p : ℕ) (position : Chess) : ℕ :=
  (((quietMoves position).filter fun m =>
    ¬ Propagation.WonBefore p (dtcOutcome (play position m))).map fun m =>
      moveWeight M position (normalize (play position m))).sum
    + ((Shakmaty.legalMoves position).filter fun m =>
      !m.isQuiet && !decide (dtcOutcome (play position m)).IsWin).length

/-- The position is decided by the rules, or within `p` plies. -/
def DecidedWithin (p : ℕ) (position : Chess) : Prop :=
  (∀ m, ¬ Legal position m) ∨ ∃ n ≤ p, (dtcOutcome position).plies? = some n

/-- All scans of ply `p` are done. -/
def Solver.Completed (entries : List Entry) (p : ℕ) (s : Solver) : Prop :=
  s.scanning = none ∧ (s.todo = scansOf entries ∧ s.plies = p + 1 ∨ s.todo = [] ∧ s.plies = p)

variable [LawfulShakmaty] {M : Material} {x : Node} {p : ℕ} {position : Chess}

/-- The moves that remain in the graph are the open moves of the position. -/
theorem remaining_eq_openMoves (hM : x.material.nPieces ≤ maxPieces) (hx : x.Stands position) :
    (pairGraph M).remaining Node.truth p x = openMoves x.material p position := by
  unfold Propagation.remaining openMoves
  congr 1
  · rw [pairGraph_quiet, hx.position_eq, List.filter_map, List.map_map]
    refine congrArg List.sum (congrArg _ (List.filter_congr fun m hm => ?_))
    obtain ⟨hl, hq⟩ := (mem_quietMoves hx.1.valid).mp hm
    simp only [Function.comp_apply]
    rw [truth_twinNode hM hx ⟨m, hl, hq, rfl⟩, dtcOutcome_normalize (hx.1.valid.play hl)]
  · unfold Propagation.openConversions
    rw [pairGraph_conversions, hx.position_eq, ← List.countP_eq_length_filter,
      ← List.countP_eq_length_filter, List.countP_filterMap]
    refine List.countP_congr fun m _ => ?_
    cases hct : conversionType m with
    | none => simp [conversionType_eq_none.mp hct]
    | some ct =>
      have hq : m.isQuiet = false := isQuiet_of_conversionType hct
      simp [hq]

/-- What is decided in the graph is decided at the position. -/
theorem decided_iff (hx : x.Stands position) :
    (pairGraph M).edges x = ∅ ∨ Propagation.Within Node.truth p x ↔ DecidedWithin p position := by
  unfold DecidedWithin Propagation.Within
  rw [hx.truth_eq, Set.eq_empty_iff_forall_notMem]
  refine or_congr_left ⟨fun h m hm => h _ ((mem_edges_pairGraph hx).mpr ⟨m, hm, rfl⟩), ?_⟩
  intro h e he
  obtain ⟨m, hm, -⟩ := (mem_edges_pairGraph hx).mp he
  exact h m hm

/-! ### Reachable states -/

variable {probe : Chess → Run DtcOutcome} {tableB : Option Egt} {entries : List Entry}
  {policy : Policy} {s₀ s : Solver}

/-- No state of a run leaves the range of the distances, not even within a scan. -/
theorem inRange_reachable (h : SolvedPair M entries) (hentries : entriesOf M.table tableB = .ok entries)
    (hprobe : ProbesPair probe M) (hstart : solveStart probe entries = .ok s₀)
    (hrun : ReflTransGen (Solver.Step policy entries) s₀ s) : s.InRange := by
  obtain ⟨hl, -⟩ := exact_reachable h hentries hprobe hstart hrun
  -- The run can go on until it halts, and nothing is being scanned then.
  obtain ⟨s', hrun', hhalted⟩ := exists_halted_run h hentries hprobe hstart hrun
  obtain ⟨hl', hx'⟩ := exact_reachable h hentries hprobe hstart (hrun.trans hrun')
  refine inRange_of_run hl hrun' ⟨hx'.fits, fun pool hpool => ?_⟩
  obtain ⟨phase, e, rest, events, htodo, -⟩ := hl'.scanning pool hpool
  rw [hl'.halted hhalted] at htodo
  cases htodo

/-- The cells of a completed ply are the expected ones. -/
theorem Exact.completed (h : SolvedPair M entries) (hx : Exact M entries s.progress)
    (hs : s.Completed entries p) {e : Entry} (he : e ∈ entries) {idx : ℕ} {v : MaybeDtcOutcome}
    (hv : (s.working.values e.slot)[idx]? = some v) : v = encode (cellAt M p (e.slot, idx)) := by
  obtain ⟨p', done, hp', hscans, hcells⟩ := hx.cells
  have hv' := hcells (e.slot, idx) v hv
  have hp'' : s.plies = p' + 1 := hp'
  rcases hs.2 with ⟨htodo, hp⟩ | ⟨htodo, hp⟩
  · have hdone : done = [] := by
      have htodo' : s.progress.todo = scansOf entries := htodo
      rw [htodo'] at hscans
      exact List.self_eq_append_left.mp hscans
    obtain rfl : p = p' := by omega
    rw [hv', hdone]
    rfl
  · have htodo' : s.progress.todo = [] := htodo
    rw [htodo', List.append_nil] at hscans
    subst hscans
    obtain ⟨e', he', hslot⟩ := h.entries.slots e he
    obtain rfl : p = p' + 1 := by omega
    rw [hv', cellsOf_scansOf h.bounded h.canonical h.entries he' hslot.symm]

omit [Shakmaty] [LawfulShakmaty] in
/-- What evolves from a value is invalid if the value is. -/
theorem Evolves.invalid_iff {p p' : ℕ} {v w : MaybeDtcOutcome} (h : Evolves p p' v w) :
    w = .invalid ↔ v = .invalid := by
  have hunknown : ∀ {x : MaybeDtcOutcome}, x.isUnknown = true → x ≠ .invalid := by
    rintro x hx rfl
    cases hx
  have hwin : ∀ {x : MaybeDtcOutcome}, x.isWin = true → x ≠ .invalid := by
    rintro x hx rfl
    cases hx
  have hloss : ∀ {x : MaybeDtcOutcome}, x.isLoss = true → x ≠ .invalid := by
    rintro x hx rfl
    cases hx
  cases h with
  | same => exact Iff.rfl
  | counted hv hw _ => exact iff_of_false (hunknown hw) (hunknown hv)
  | resolved hv hw _ _ => exact iff_of_false (hw.elim hwin hloss) (hunknown hv)
  | upgraded hv hw _ _ _ => exact iff_of_false (hwin hw) (hwin hv)

omit [Shakmaty] [LawfulShakmaty] in
theorem encode_eq_invalid {c : Cell ConversionType} (h : InBits c) :
    encode c = .invalid ↔ c = .invalid := by
  refine ⟨fun hc => ?_, fun hc => hc ▸ rfl⟩
  cases c with
  | invalid => rfl
  | unknown n =>
    have hu := isUnknown_encode h
    rw [hc] at hu
    cases hu
  | known o =>
    cases o with
    | draw => cases hc
    | win ct n =>
      have hw : (encode (.known (.win ct n))).isWin = true := isWin_newWin ct _
      rw [hc] at hw
      cases hw
    | loss ct n =>
      have hl : (encode (.known (.loss ct n))).isLoss = true := isLoss_newLoss ct _
      rw [hc] at hl
      cases hl

omit [LawfulShakmaty] in
/-- The start of a run completes ply 0. -/
theorem completed_start (hentries : entriesOf M.table tableB = .ok entries)
    (hstart : solveStart probe entries = .ok s₀) : s₀.Completed entries 0 := by
  have hstarted := started (nodup_slots hentries) hstart
  exact ⟨hstarted.scanning, Or.inl ⟨hstarted.todo, hstarted.plies⟩⟩

/-- **The counters are exact.** In every reachable state, also within a scan, an index holds
    INVALID exactly if it has no position. When ply `p` is completed, the positions that are decided
    within `p` plies hold their outcomes; any other one holds what the initialization has resolved,
    if `p` is zero, or a counter of its open moves, which is positive and fits. -/
theorem counters_exact (hM : M.nPieces ≤ maxPieces) (hc : M.Canonical) (hdist : DistancesFit M)
    (htwin : IsTwinTable M tableB) (hentries : entriesOf M.table tableB = .ok entries)
    (hprobe : ProbesPair probe M) (hstart : solveStart probe entries = .ok s₀)
    (hrun : ReflTransGen (Solver.Step policy entries) s₀ s) {e : Entry} (he : e ∈ entries) {idx : ℕ}
    (hidx : idx < e.table.indexRange) :
    ∃ v₀ v, SharedMemory.get s₀.memory (e.slot, idx) = some v₀ ∧
      SharedMemory.get s.memory (e.slot, idx) = some v ∧
      (v = .invalid ↔ ∀ position,
        e.table.indexer.positionFromIndexWithReason idx .white ≠ .ok (.ok position)) ∧
      ∀ p, s.Completed entries p → ∀ position,
        e.table.indexer.positionFromIndexWithReason idx .white = .ok (.ok position) →
        (DecidedWithin p position → v = encode (.known (dtcOutcome position))) ∧
        (¬ DecidedWithin p position → v₀.isUnknown = false → p = 0 ∧ v = v₀) ∧
        (¬ DecidedWithin p position → v₀.isUnknown = true →
          0 < openMoves (materialAt M e.slot) p position ∧
          openMoves (materialAt M e.slot) p position ≤ 8191 ∧
          v = newUnknown (.ofNat (openMoves (materialAt M e.slot) p position))) := by
  have h : SolvedPair M entries := ⟨hM, hc, pairEntries hM hc htwin hentries, hdist⟩
  have hs := solution_truth (M := M) hM hc
  have hlawful := lawful_pairGraph (M := M) hM hc
  have hx₀ := exact_start h hentries hprobe hstart
  have hstart₀ := completed_start hentries hstart
  obtain ⟨hl, hx⟩ := exact_reachable h hentries hprobe hstart hrun
  have hbound := nPieces_materialAt hM e.slot
  have hstands := h.entries.stands_iff hM he hidx
  have hslot := materialAt_cases M e.slot
  -- The initial value, and what has become of it.
  obtain ⟨v₀, hv₀⟩ : ∃ v₀, SharedMemory.get s₀.memory (e.slot, idx) = some v₀ := by
    rw [Solver.memory_of_idle hstart₀.1]
    have hlen : (s₀.working.values e.slot).length = _ := hx₀.sizes e he
    rw [h.entries.table e he] at hidx
    exact ⟨_, List.getElem?_eq_getElem (hlen ▸ hidx)⟩
  have hinitial : v₀ = encode (cellAt M 0 (e.slot, idx)) := by
    rw [Solver.memory_of_idle hstart₀.1] at hv₀
    exact hx₀.completed h hstart₀ he hv₀
  have hl₀ := (started (nodup_slots hentries) hstart).linked policy
  obtain ⟨-, hvalues⟩ := run_evolves hl₀ hrun (inRange_reachable h hentries hprobe hstart hrun)
  obtain ⟨v, hv, hevolves⟩ := hvalues _ v₀ hv₀
  refine ⟨v₀, v, hv₀, hv, ?_, fun p hcompleted position hp => ?_⟩
  · rw [hevolves.invalid_iff, hinitial, encode_eq_invalid (inBits_cellAt hM hc hdist 0 _), cellAt_eq]
    constructor
    · intro hcell position hp
      have hvalid : nodeAt M (e.slot, idx) ∈ (pairGraph M).valid :=
        mem_valid.mpr ⟨hslot, position, (hstands position).mp hp⟩
      rw [hs.expected_zero hlawful hvalid] at hcell
      rcases Propagation.initial_cases hlawful hvalid Node.truth with ⟨-, hin⟩ | ⟨-, k, -, hin⟩ |
        ⟨-, -, -, -, k, -, hin⟩ | ⟨-, -, -, hin⟩ <;>
      · rw [hin] at hcell
        cases hcell
    · intro hnone
      refine Propagation.expected_of_not_valid (fun hvalid => ?_) 0
      obtain ⟨-, position, hp⟩ := mem_valid.mp hvalid
      exact hnone position ((hstands position).mpr hp)
  · have hp' := (hstands position).mp hp
    have hvalid : nodeAt M (e.slot, idx) ∈ (pairGraph M).valid := mem_valid.mpr ⟨hslot, position, hp'⟩
    have hvalue : v = encode (cellAt M p (e.slot, idx)) := by
      rw [Solver.memory_of_idle hcompleted.1] at hv
      exact hx.completed h hcompleted he hv
    have hbits := inBits_cellAt hM hc hdist p (e.slot, idx)
    have hbits₀ := inBits_cellAt hM hc hdist 0 (e.slot, idx)
    rw [cellAt_eq] at hvalue hbits hinitial hbits₀
    rw [hs.expected_zero hlawful hvalid] at hinitial hbits₀
    rw [← decided_iff (M := M) hp', ← hp'.truth_eq]
    refine ⟨fun hw => ?_, fun hw hknown => ?_, fun hw hunknown => ?_⟩
    · rw [hvalue, Propagation.expected_of_within hvalid hw]
    · have hzero : p = 0 := by
        by_contra hpos
        have hw' : ¬ ((pairGraph M).edges (nodeAt M (e.slot, idx)) = ∅ ∨
            Propagation.Within Node.truth 1 (nodeAt M (e.slot, idx))) := fun hw' =>
          hw (hw'.imp_right fun ⟨n, hn, hply⟩ => ⟨n, by omega, hply⟩)
        obtain ⟨-, -, hin⟩ := hs.initial_unknown hlawful hvalid hw'
        rw [hin] at hinitial hbits₀
        rw [hinitial, isUnknown_encode hbits₀] at hknown
        cases hknown
      subst hzero
      refine ⟨rfl, ?_⟩
      rw [hvalue, hinitial, hs.expected_zero hlawful hvalid]
    · obtain ⟨n, hin⟩ : ∃ n, (pairGraph M).initial (nodeAt M (e.slot, idx)) = .unknown n := by
        by_contra hnone
        rw [hinitial, isUnknown_encode_of_ne fun n hn => hnone ⟨n, hn⟩] at hunknown
        cases hunknown
      rw [Propagation.expected_unknown hvalid hw hin, remaining_eq_openMoves hbound hp'] at hvalue hbits
      exact ⟨hbits.1, hbits.2, hvalue⟩

end

theorem counters_exact_kings : ∃ entries s₀,
    entriesOf Material.kings.table none = .ok entries ∧
    @solveStart rulesShakmaty (fun _ => .ok .draw) entries = .ok s₀ ∧
    ∀ e ∈ entries, ∀ idx < e.table.indexRange, ∃ v,
      SharedMemory.get s₀.memory (e.slot, idx) = some v ∧
        (v = .invalid ↔ ∀ position, @Indexer.positionFromIndexWithReason e.table.indexer rulesShakmaty
          idx .white ≠ .ok (.ok position)) := by
  obtain ⟨entries, s₀, hentries, hs₀⟩ := exists_start_kings
  refine ⟨entries, s₀, hentries, hs₀, fun e he idx hidx => ?_⟩
  obtain ⟨-, v, -, hv, hinvalid, -⟩ := @counters_exact rulesShakmaty lawful_rulesShakmaty _ _ _ _
    .skipping _ _ Material.nPieces_kings Material.canonical_kings
    (@distancesFit_kings rulesShakmaty lawful_rulesShakmaty) Material.isTwinTable_kings hentries
    probesPair_kings hs₀ .refl e he idx hidx
  exact ⟨v, hv, hinvalid⟩

end ChessEgt
