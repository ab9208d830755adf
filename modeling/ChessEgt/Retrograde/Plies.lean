import ChessEgt.Retrograde.Scans

/-!
# Plies as iterations

* `DistancesFit`, `ProbesPair` — what is assumed of the distances and of the probes;
* `mem_reached_losses`, `length_reached_wins` — the losses and the wins of the ply before that
  reach a cell;
* `cellsOf` — the cells after some of the scans of a ply;
* `cellsOf_scansOf` — all scans of a ply take the cells expected before it to those expected
  after it;
* `inBits_cellsOf` — no counter and no distance leaves its bits on the way.
-/

namespace ChessEgt

open Rules Indexer ParallelScan MaybeDtcOutcome SharedMemory

/-- No distance of a node of the pair is above 8191. -/
def DistancesFit (M : Material) : Prop :=
  ∀ x : Node, (x.material = M ∨ x.material = M.partnerTable) → ∀ p, x.Stands p →
    ∀ n, (dtcOutcome p).plies? = some n → n ≤ 8191

/-- The probes of the conversions of either table give the true outcomes. -/
def ProbesPair (probe : Chess → Run DtcOutcome) (M : Material) : Prop :=
  ∀ x : Node, (x.material = M ∨ x.material = M.partnerTable) → ∀ p, x.Stands p →
    ProbesConversions probe p

section

variable [Shakmaty] [LawfulShakmaty] {M : Material} {entries : List Entry} {e : Entry} {p : ℕ}
  {a : Slot × ℕ} {ct : ConversionType}

/-! ### What reaches a cell -/

theorem nodeAt_eq (hc : M.Canonical) (h : PairEntries M entries) (he : e ∈ entries)
    (ha : a.1 = e.twinSlot) {y : Node} (hy : y.material = M ∨ y.material = M.partnerTable)
    (hmem : nodeAt M a ∈ (pairGraph M).preds y) : y = nodeAt M (e.slot, y.index) := by
  rw [pairGraph_preds] at hmem
  have hmaterial := fst_of_mem_emittedNodes hmem
  rw [nodeAt_material, ha, h.partner e he] at hmaterial
  have hinj : ∀ {T T' : Material}, (T = M ∨ T = M.partnerTable) → (T' = M ∨ T' = M.partnerTable) →
      T.partnerTable = T'.partnerTable → T = T' := by
    intro T T' hT hT' heq
    have hinv : ∀ {U : Material}, (U = M ∨ U = M.partnerTable) → U.partnerTable.partnerTable = U := by
      rintro U (rfl | rfl)
      · exact Material.partnerTable_partnerTable hc
      · rw [Material.partnerTable_partnerTable hc]
    rw [← hinv hT, heq, hinv hT']
  exact Node.ext (hinj hy (materialAt_cases M e.slot) hmaterial.symm) rfl

/-- The sources of a phase are the nodes with its outcome at the ply before. -/
theorem sourceOf_cellAt (hM : M.nPieces ≤ maxPieces) (hc : M.Canonical) :
    (Phase.losses.sourceOf p (cellAt M p a) = some ct ↔
        nodeAt M a ∈ (pairGraph M).valid ∧ (nodeAt M a).truth = .loss ct p) ∧
      ∀ ct', (Phase.wins ct').sourceOf p (cellAt M p a) = some ct ↔
        ct = ct' ∧ nodeAt M a ∈ (pairGraph M).valid ∧ (nodeAt M a).truth = .win ct' p := by
  have hs := solution_truth (M := M) hM hc
  have hl := lawful_pairGraph (M := M) hM hc
  refine ⟨?_, fun ct' => ?_⟩
  · rw [cellAt_eq, Phase.sourceOf_eq_some, ← hs.expected_eq_loss_iff hl]
    constructor
    · exact fun h => h.1
    · exact fun h => ⟨h, fun ct' h' => nomatch h'⟩
  · rw [cellAt_eq, Phase.sourceOf_eq_some, ← hs.expected_eq_win_iff hl]
    constructor
    · rintro ⟨h, heq⟩
      obtain rfl := heq ct' rfl
      exact ⟨rfl, h⟩
    · rintro ⟨rfl, h⟩
      exact ⟨h, fun ct'' h' => Phase.wins.inj h'⟩

/-- A cell is marked by the losses that emit it. -/
theorem mem_reached_losses (hM : M.nPieces ≤ maxPieces) (hc : M.Canonical)
    (h : PairEntries M entries) (he : e ∈ entries) (ha : a.1 = e.twinSlot) :
    ct ∈ reached M p .losses e a ↔ ∃ y ∈ (pairGraph M).valid, y.truth = .loss ct p ∧
      nodeAt M a ∈ (pairGraph M).preds y := by
  unfold reached
  rw [List.mem_flatMap]
  constructor
  · rintro ⟨idx, -, hmem⟩
    obtain ⟨ct', hct', hmem⟩ := List.mem_flatMap.mp hmem
    obtain ⟨hne, rfl⟩ := List.mem_replicate.mp hmem
    rw [Option.mem_toList] at hct'
    obtain ⟨hvalid, htruth⟩ := (sourceOf_cellAt hM hc).1.mp hct'
    exact ⟨_, hvalid, htruth, List.count_pos_iff.mp (Nat.pos_of_ne_zero hne)⟩
  · rintro ⟨y, hy, htruth, hmem⟩
    obtain ⟨hmaterial, q, hq⟩ := mem_valid.mp hy
    have hnode := nodeAt_eq hc h he ha hmaterial hmem
    have hlt := hq.lt
    rw [hnode] at hy htruth hmem hlt
    refine ⟨y.index, List.mem_range.mpr hlt, List.mem_flatMap.mpr ⟨ct, ?_, ?_⟩⟩
    · rw [Option.mem_toList]
      exact (sourceOf_cellAt hM hc).1.mpr ⟨hy, htruth⟩
    · exact List.mem_replicate.mpr ⟨(List.count_pos_iff.mpr hmem).ne', rfl⟩

/-- A cell is decremented as often as the wins of a type emit it. -/
theorem length_reached_wins (hM : M.nPieces ≤ maxPieces) (hc : M.Canonical)
    (h : PairEntries M entries) (he : e ∈ entries) (ha : a.1 = e.twinSlot) {W : Finset Node}
    (hW : ∀ y, y ∈ W ↔ y ∈ (pairGraph M).valid ∧ y.truth = .win ct p) :
    (reached M p (.wins ct) e a).length = (pairGraph M).emitted W (nodeAt M a) := by
  have hterm : ∀ idx, (((Phase.wins ct).sourceOf p (cellAt M p (e.slot, idx))).toList.flatMap
      fun ct => List.replicate
        ((pairGraph M).emissionsOf (nodeAt M (e.slot, idx)) (nodeAt M a)) ct).length
      = if nodeAt M (e.slot, idx) ∈ W then ((pairGraph M).preds (nodeAt M (e.slot, idx))).count (nodeAt M a) else 0 := by
    intro idx
    cases hsource : (Phase.wins ct).sourceOf p (cellAt M p (e.slot, idx)) with
    | none =>
      rw [if_neg]
      · rfl
      · intro hmem
        obtain ⟨hvalid, htruth⟩ := (hW _).mp hmem
        rw [((sourceOf_cellAt hM hc).2 ct).mpr ⟨rfl, hvalid, htruth⟩] at hsource
        cases hsource
    | some ct' =>
      obtain ⟨-, hvalid⟩ := ((sourceOf_cellAt hM hc).2 ct).mp hsource
      rw [if_pos ((hW _).mpr hvalid)]
      simp [Propagation.emissionsOf]
  unfold reached Propagation.emitted
  rw [List.length_flatMap]
  simp only [hterm]
  have hrange : ∀ (n : ℕ) (f : ℕ → ℕ), ((List.range n).map f).sum = ∑ i ∈ Finset.range n, f i :=
    fun n f => rfl
  rw [hrange, ← Finset.sum_filter]
  -- The other sources do not emit the node.
  refine Finset.sum_bij_ne_zero (fun idx _ _ => nodeAt M (e.slot, idx)) ?_ ?_ ?_ ?_
  · intro idx hidx _
    exact (Finset.mem_filter.mp hidx).2
  · intro idx _ _ idx' _ _ heq
    exact congrArg Node.index heq
  · intro y hy hne
    obtain ⟨hmaterial, q, hq⟩ := mem_valid.mp ((hW y).mp hy).1
    have hmem := List.count_pos_iff.mp (Nat.pos_of_ne_zero hne)
    have hnode := nodeAt_eq hc h he ha hmaterial hmem
    have hlt := hq.lt
    rw [hnode] at hy hne hlt
    exact ⟨y.index, Finset.mem_filter.mpr ⟨Finset.mem_range.mpr hlt, hy⟩, hne, hnode.symm⟩
  · intro idx _ _
    rfl

/-! ### The scans of a ply -/

/-- The cells after some scans of a ply. -/
noncomputable def cellsOf (M : Material) (p : ℕ) (done : List (Phase × Entry)) :
    Slot × ℕ → Cell ConversionType :=
  done.foldl (fun cell s => cellsAfter s.1 (p + 1) (scanUpdates M p s.1 s.2) cell) (cellAt M p)

omit [LawfulShakmaty] in
/-- Every cell goes through the scans on its own. -/
theorem cellsOf_apply (M : Material) (p : ℕ) (done : List (Phase × Entry)) (a : Slot × ℕ) :
    cellsOf M p done a = done.foldl (fun c s =>
      (typesAt a (scanUpdates M p s.1 s.2)).foldl (s.1.update (p + 1)) c) (cellAt M p a) := by
  unfold cellsOf
  generalize cellAt M p = cell
  induction done generalizing cell with
  | nil => rfl
  | cons s done ih =>
    rw [List.foldl_cons, List.foldl_cons, ih, cellsAfter]

omit [LawfulShakmaty] in
theorem cellsOf_append (M : Material) (p : ℕ) (done : List (Phase × Entry)) (s : Phase × Entry) :
    cellsOf M p (done ++ [s])
      = cellsAfter s.1 (p + 1) (scanUpdates M p s.1 s.2) (cellsOf M p done) := by
  unfold cellsOf
  rw [List.foldl_append, List.foldl_cons, List.foldl_nil]

omit [LawfulShakmaty] in
/-- The sources stay what they are. -/
theorem sourceOf_cellsOf (phase : Phase) (done : List (Phase × Entry)) (a : Slot × ℕ) :
    phase.sourceOf p (cellsOf M p done a) = phase.sourceOf p (cellAt M p a) := by
  rw [cellsOf_apply]
  generalize cellAt M p a = c
  induction done generalizing c with
  | nil => rfl
  | cons s done ih => rw [List.foldl_cons, ih, Phase.sourceOf_foldl]

omit [Shakmaty] [LawfulShakmaty] in
/-- Among the entries, one reaches the cell. -/
theorem foldl_targets {α : Type*} (f : α → Entry → α) (hnodup : (entries.map Entry.twinSlot).Nodup)
    (he : e ∈ entries) (ha : a.1 = e.twinSlot) (c : α) :
    entries.foldl (fun c e' => if a.1 = e'.twinSlot then f c e' else c) c = f c e := by
  have hother : ∀ (l : List Entry) (c : α), (∀ e' ∈ l, a.1 ≠ e'.twinSlot) →
      l.foldl (fun c e' => if a.1 = e'.twinSlot then f c e' else c) c = c := by
    intro l c hl
    induction l with
    | nil => rfl
    | cons e' l ih =>
      rw [List.foldl_cons, if_neg (hl e' List.mem_cons_self)]
      exact ih fun e'' he'' => hl e'' (List.mem_cons_of_mem _ he'')
  induction entries generalizing c with
  | nil => cases he
  | cons e' l ih =>
    rw [List.map_cons, List.nodup_cons] at hnodup
    rw [List.foldl_cons]
    rcases List.mem_cons.mp he with rfl | he
    · rw [if_pos ha]
      refine hother l _ fun e'' he'' heq => hnodup.1 ?_
      rw [← ha, heq]
      exact List.mem_map_of_mem he''
    · rw [if_neg]
      · exact ih hnodup.2 he c
      · intro heq
        refine hnodup.1 ?_
        rw [← heq, ha]
        exact List.mem_map_of_mem he

/-- **A ply.** All its scans take the cells expected before it to those expected after it. -/
theorem cellsOf_scansOf (hM : M.nPieces ≤ maxPieces) (hc : M.Canonical)
    (h : PairEntries M entries) (he : e ∈ entries) (ha : a.1 = e.twinSlot) :
    cellsOf M p (scansOf entries) a = cellAt M (p + 1) a := by
  have hphase : ∀ (phase : Phase) (c : Cell ConversionType),
      (entries.map fun e' => (phase, e')).foldl (fun c s =>
        (typesAt a (scanUpdates M p s.1 s.2)).foldl (s.1.update (p + 1)) c) c
        = (reached M p phase e a).foldl (phase.update (p + 1)) c := by
    intro phase c
    rw [List.foldl_map, ← foldl_targets
      (fun c e' => (reached M p phase e' a).foldl (phase.update (p + 1)) c) h.targets he ha c]
    refine List.foldl_ext _ _ _ fun c e' he' => ?_
    rw [typesAt_scanUpdates h he']
    split <;> rfl
  have hwins : ∀ (ct : ConversionType) (c : Cell ConversionType),
      (reached M p (.wins ct) e a).foldl ((Phase.wins ct).update (p + 1)) c
        = (Cell.decrement ct (p + 1))^[(reached M p (.wins ct) e a).length] c :=
    fun ct c => List.foldl_const (Cell.decrement ct (p + 1)) c _
  have hmarks : Phase.losses.update (p + 1) = Cell.mark (p + 1) := rfl
  have hdecrements : ∀ c, Cell.decrements (p + 1) (fun ct => (reached M p (.wins ct) e a).length)
      ConversionType.descending c
      = (Cell.decrement .promotion (p + 1))^[(reached M p (.wins .promotion) e a).length]
        ((Cell.decrement .capture (p + 1))^[(reached M p (.wins .capture) e a).length]
          ((Cell.decrement .checkmate (p + 1))^[(reached M p (.wins .checkmate) e a).length] c)) := by
    intro c
    unfold Cell.decrements ConversionType.descending
    rw [List.foldl_cons, List.foldl_cons, List.foldl_cons, List.foldl_nil]
  have hstep := Propagation.step (lawful_pairGraph (M := M) hM hc) (solution_truth hM hc)
    (partner_truth hM hc) ConversionType.descending_pairwise ConversionType.mem_descending p
    (nodeAt M a) (fun ct => mem_reached_losses hM hc h he ha)
    (D := fun ct => (reached M p (.wins ct) e a).length)
    (fun ct => length_reached_wins hM hc h he ha fun _ =>
      Propagation.mem_filter_outcome)
  rw [cellsOf_apply, scansOf, List.foldl_append, hphase]
  simp only [List.flatMap_cons, List.flatMap_nil, List.append_nil, List.foldl_append, hphase, hwins,
    hmarks]
  rw [← hdecrements, cellAt_eq, cellAt_eq]
  exact hstep

/-! ### Counters and distances fit -/

theorem inBits_cellAt (hM : M.nPieces ≤ maxPieces) (hc : M.Canonical) (hdist : DistancesFit M)
    (p : ℕ) (a : Slot × ℕ) : InBits (cellAt M p a) := by
  have hs := solution_truth (M := M) hM hc
  have hl := lawful_pairGraph (M := M) hM hc
  by_cases hvalid : nodeAt M a ∈ (pairGraph M).valid
  swap
  · rw [cellAt_eq, Propagation.expected_of_not_valid hvalid]
    exact inBits_invalid
  obtain ⟨hmaterial, q, hq⟩ := mem_valid.mp hvalid
  by_cases hw : (pairGraph M).edges (nodeAt M a) = ∅ ∨ Propagation.Within Node.truth p (nodeAt M a)
  · rw [cellAt_eq, Propagation.expected_of_within hvalid hw]
    intro n hn
    rw [hq.truth_eq] at hn
    exact hdist _ hmaterial q hq n hn
  · have hcell := Propagation.expected_of_not_within (o := Node.truth) hvalid hw
    rcases Propagation.initial_cases hl hvalid Node.truth with ⟨he, -⟩ | ⟨-, k, -, hin⟩ |
      ⟨-, -, -, -, k, -, hin⟩ | ⟨-, -, -, hin⟩
    · exact absurd (Or.inl he) hw
    · rw [cellAt_eq, hcell, hin]
      exact inBits_win.mpr (by decide)
    · rw [cellAt_eq, hcell, hin]
      exact inBits_loss.mpr (by decide)
    · rw [cellAt_eq, Propagation.expected_unknown hvalid hw hin]
      refine ⟨hs.remaining_pos hl hvalid hw hin, ?_⟩
      have hle := Propagation.remaining_le (S := pairGraph M) Node.truth p (nodeAt M a)
      have hinitial := initialCounter_le (pairOf_of_mem hM hc hvalid).bounded hq
      rw [initialCounter_eq (M := M) hq] at hinitial
      have hopen : (pairGraph M).openConversions (nodeAt M a)
          ≤ ((pairGraph M).conversions (nodeAt M a)).length := List.length_filter_le _ _
      omega

/-- On the way through the scans of a ply, every cell stays within its bits. -/
theorem inBits_cellsOf (hM : M.nPieces ≤ maxPieces) (hc : M.Canonical) (hdist : DistancesFit M)
    (h : PairEntries M entries) {done rest : List (Phase × Entry)}
    (hscans : scansOf entries = done ++ rest) (a : Slot × ℕ) : InBits (cellsOf M p done a) := by
  have hmem : ∀ s ∈ scansOf entries, s.2 ∈ entries := by
    intro s hs
    unfold scansOf at hs
    simp only [List.mem_append, List.mem_map, List.mem_flatMap] at hs
    rcases hs with ⟨e, he, rfl⟩ | ⟨ct, -, e, he, rfl⟩
    · exact he
    · exact he
  have hstart := inBits_cellAt hM hc hdist p a
  by_cases htarget : ∃ e ∈ entries, e.twinSlot = a.1
  · obtain ⟨e, he, ha⟩ := htarget
    have hlast := inBits_cellAt hM hc hdist (p + 1) a
    rw [← cellsOf_scansOf hM hc h he ha.symm, hscans, cellsOf_apply, List.foldl_append,
      ← cellsOf_apply] at hlast
    -- A distance that does not fit would stay to the end of the ply.
    have hkeep : ∀ (l : List (Phase × Entry)) {c : Cell ConversionType}, Spent (p + 1) c →
        Spent (p + 1) (l.foldl (fun c s =>
          (typesAt a (scanUpdates M p s.1 s.2)).foldl (s.1.update (p + 1)) c) c) := by
      intro l
      induction l with
      | nil => exact fun hs => hs
      | cons s l ih => exact fun hs => ih (hs.foldl s.1 _)
    have hor : ∀ (l : List (Phase × Entry)) {c : Cell ConversionType}, InBits c →
        InBits (l.foldl (fun c s =>
          (typesAt a (scanUpdates M p s.1 s.2)).foldl (s.1.update (p + 1)) c) c) ∨
        Spent (p + 1) (l.foldl (fun c s =>
          (typesAt a (scanUpdates M p s.1 s.2)).foldl (s.1.update (p + 1)) c) c) := by
      intro l
      induction l with
      | nil => exact fun hb => Or.inl hb
      | cons s l ih =>
        intro c hb
        rcases inBits_foldl hb s.1 (typesAt a (scanUpdates M p s.1 s.2)) with hb' | hs'
        · exact ih hb'
        · exact Or.inr (hkeep l hs')
    rcases hor done hstart with hb | hs
    · rwa [cellsOf_apply]
    · rw [cellsOf_apply] at hlast
      exact absurd hlast (hkeep rest hs).not_inBits
  · -- No scan reaches the cell.
    have hsame : cellsOf M p done a = cellAt M p a := by
      rw [cellsOf_apply]
      have hdone : ∀ s ∈ done, s.2 ∈ entries := fun s hs =>
        hmem s (by rw [hscans]; exact List.mem_append_left _ hs)
      clear hscans
      induction done with
      | nil => rfl
      | cons s done ih =>
        have hne : ¬ a.1 = s.2.twinSlot := fun heq =>
          htarget ⟨s.2, hdone s List.mem_cons_self, heq.symm⟩
        rw [List.foldl_cons, typesAt_scanUpdates h (hdone s List.mem_cons_self), if_neg hne,
          List.foldl_nil]
        exact ih fun s' hs' => hdone s' (List.mem_cons_of_mem _ hs')
    rw [hsame]
    exact hstart

end

end ChessEgt
