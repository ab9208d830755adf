import ChessEgt.Library.Alike
import ChessEgt.Retrograde.Correct
import ChessEgt.Retrograde.Runs

/-!
# Reflected positions

Without pawns, two indices of a table stand for the same position up to a reflection when its kings
are on a long diagonal. They go through the propagation with the same values.

* `legalMoves_setup` — the legal moves of the image of a position are the images of its moves;
* `alike_diagonalPartner` — a node and its diagonal partner are alike;
* `cellsOf_partner` — their cells are the same between any two scans, `reflections_equal` — and so
  are their values.
-/

namespace ChessEgt

open Rules Indexer ParallelScan MaybeDtcOutcome SharedMemory Relation

section

variable [Shakmaty] [LawfulShakmaty] {M : Material} {x y : Node} {p : Chess} {g : Transform}

/-- The legal moves of the image of a position are the images of its moves. -/
theorem legalMoves_setup (hp : Valid p) (hg : g.Fits p.board) :
    (Shakmaty.legalMoves (g.setup p)).Perm ((Shakmaty.legalMoves p).map g.move) := by
  have hq := Transform.valid_setup hg hp
  refine (List.perm_ext_iff_of_nodup (LawfulShakmaty.legalMoves_nodup _ hq)
    ((LawfulShakmaty.legalMoves_nodup _ hp).map g.move_injective)).mpr fun m => ?_
  rw [LawfulShakmaty.mem_legalMoves _ hq, List.mem_map]
  constructor
  · intro hm
    refine ⟨g.inv.move m, (LawfulShakmaty.mem_legalMoves _ hp _).mpr ?_, g.move_inv m⟩
    rw [← Transform.legal_iff hg, g.move_inv]
    exact hm
  · rintro ⟨m, hm, rfl⟩
    exact (Transform.legal_iff hg m).mpr ((LawfulShakmaty.mem_legalMoves _ hp m).mp hm)

theorem quietMoves_setup (hp : Valid p) (hg : g.Fits p.board) :
    (quietMoves (g.setup p)).Perm ((quietMoves p).map g.move) := by
  unfold quietMoves
  have hperm := (legalMoves_setup hp hg).filter Move.isQuiet
  rw [List.filter_map] at hperm
  simpa only [Function.comp_def, Transform.move_isQuiet] using hperm

omit [Shakmaty] [LawfulShakmaty] in
theorem moveWeight_setup {m : Move} (hg : g.Fits p.board) (hm : Legal p m) :
    moveWeight M (g.setup p) (normalize (play (g.setup p) (g.move m)))
      = moveWeight M p (normalize (play p m)) := by
  have hkings : ∀ b, kingsOnLongDiagonal ((g.board b).byRole .king)
      = kingsOnLongDiagonal (b.byRole .king) := kingsOnLongDiagonal_board g
  have hplay : (play (g.setup p) (g.move m)).board = g.board (play p m).board :=
    congrArg Setup.board (Transform.play_eq hg hm.1)
  unfold moveWeight bothKingsOnDiagonal
  rw [show (normalize (play (g.setup p) (g.move m))).board = g.board (play p m).board from hplay,
    Transform.setup_board, hkings, hkings]
  rfl

omit [Shakmaty] [LawfulShakmaty] in
/-- The outcome after a move of the image of a position. -/
theorem dtcOutcome_play_setup {m : Move} (hp : Valid p) (hg : g.Fits p.board) (hm : Legal p m) :
    dtcOutcome (play (g.setup p) (g.move m)) = dtcOutcome (play p m) := by
  rw [Transform.play_eq hg hm.1]
  exact dtcOutcome_transform (hp.play hm) (hg.play hm.1)

/-- Nodes of a table that stand for images of each other are alike. -/
theorem alike_of_stands (hM : x.material.nPieces ≤ maxPieces) (hmaterial : y.material = x.material)
    (hx : x.Stands p) (hy : y.Stands (g.setup p)) (hg : g.Fits p.board) :
    (pairGraph M).Alike Node.truth y x := by
  have hp := hx.1.valid
  have hlegal : ∀ m ∈ Shakmaty.legalMoves p, Legal p m := fun m hm =>
    (LawfulShakmaty.mem_legalMoves p hp m).mp hm
  have hmaterials : y.material = M ∨ y.material = M.partnerTable ↔
      x.material = M ∨ x.material = M.partnerTable := by rw [hmaterial]
  -- The quiet moves of a node, as outcomes and weights.
  have hquiet : ∀ {z : Node} {q : Chess}, z.material = x.material → z.Stands q →
      ((pairGraph M).quiet z).map (fun e => (e.1.truth, e.2)) = (quietMoves q).map fun m =>
        (dtcOutcome (play q m), moveWeight x.material q (normalize (play q m))) := by
    intro z q hz hq
    rw [pairGraph_quiet, hq.position_eq, List.map_map]
    refine List.map_congr_left fun m hm => ?_
    obtain ⟨hl, hqm⟩ := (mem_quietMoves hq.1.valid).mp hm
    simp only [Function.comp_apply]
    rw [truth_twinNode (hz ▸ hM) hq ⟨m, hl, hqm, rfl⟩, dtcOutcome_normalize (hq.1.valid.play hl), hz]
  refine ⟨?_, ?_, ?_, ?_, ?_⟩
  · rw [mem_valid, mem_valid, hmaterials]
    exact and_congr_right fun _ => iff_of_true ⟨_, hy⟩ ⟨_, hx⟩
  · rw [hx.truth_eq, hy.truth_eq, dtcOutcome_transform hp hg]
  · rw [pairGraph_terminal, pairGraph_terminal, hx.position_eq, hy.position_eq]
    simp only [Transform.inCheck_iff hg]
  · rw [hquiet rfl hx, hquiet hmaterial hy]
    refine ((quietMoves_setup hp hg).map _).trans (List.Perm.of_eq ?_)
    rw [List.map_map]
    refine List.map_congr_left fun m hm => ?_
    have hl := ((mem_quietMoves hp).mp hm).1
    simp only [Function.comp_apply]
    rw [dtcOutcome_play_setup hp hg hl, moveWeight_setup hg hl]
  · rw [conversions_eq hx, conversions_eq hy]
    unfold conversionsAmong
    refine ((legalMoves_setup hp hg).filterMap _).trans (List.Perm.of_eq ?_)
    rw [List.filterMap_map]
    refine List.filterMap_congr fun m hm => ?_
    have htype : conversionType (g.move m) = conversionType m := by
      unfold conversionType
      rw [Transform.move_isCapture, Transform.move_isPromotion]
    simp only [Function.comp_apply]
    rw [htype, dtcOutcome_play_setup hp hg (hlegal m hm)]

/-- A node and its diagonal partner are alike. -/
theorem alike_diagonalPartner (hM : x.material.nPieces ≤ maxPieces) (hx : x.Stands p) :
    (pairGraph M).Alike Node.truth x.diagonalPartner x := by
  obtain ⟨hmaterial, hp | ⟨hpl, hp⟩⟩ := hx.diagonalPartner hM
  · refine alike_of_stands (g := 1) hM hmaterial hx ?_ (Or.inl (by decide))
    rwa [Transform.one_setup]
  · exact alike_of_stands hM hmaterial hx hp (Or.inr hpl)

omit [Shakmaty] [LawfulShakmaty] in
/-- A node stands for a position if its diagonal partner does. -/
theorem stands_diagonalPartner_iff (hM : x.material.nPieces ≤ maxPieces)
    (hlt : x.index < x.material.indexer.indexRange) :
    (∃ p, x.diagonalPartner.Stands p) ↔ ∃ p, x.Stands p := by
  have hhalf : ∀ {z : Node}, z.material.nPieces ≤ maxPieces → (∃ p, z.Stands p) →
      ∃ p, z.diagonalPartner.Stands p := by
    rintro z hz ⟨p, hp⟩
    obtain ⟨-, hp | ⟨-, hp⟩⟩ := hp.diagonalPartner hz
    · exact ⟨_, hp⟩
    · exact ⟨_, hp⟩
  refine ⟨fun h => ?_, hhalf hM⟩
  obtain ⟨b, ep, hi⟩ := exists_indexes hM hlt
  have hmaterial : x.diagonalPartner.material = x.material := by
    unfold Node.diagonalPartner
    split <;> rfl
  rw [← Node.diagonalPartner_diagonalPartner hM hi]
  exact hhalf (hmaterial.symm ▸ hM) h

/-! ### Cells -/

variable {entries : List Entry} {a : Slot × ℕ} {k q : ℕ}

omit [Shakmaty] [LawfulShakmaty] in
theorem nodeAt_partner (hk : (materialAt M a.1).indexer.diagonalSymmetric a.2 = .ok (some k)) :
    nodeAt M (a.1, k) = (nodeAt M a).diagonalPartner := by
  unfold Node.diagonalPartner
  rw [nodeAt_material, nodeAt_index, hk]
  rfl

omit [LawfulShakmaty] in
/-- Cells that stand for no position stay invalid. -/
theorem cellsOf_of_not_valid (hvalid : nodeAt M a ∉ (pairGraph M).valid)
    (done : List (Phase × Entry)) : cellsOf M q done a = .invalid := by
  rw [cellsOf_apply, cellAt_eq, Propagation.expected_of_not_valid hvalid]
  induction done with
  | nil => rfl
  | cons s done ih =>
    rw [List.foldl_cons]
    have hstay : ∀ cts : List ConversionType, cts.foldl (s.1.update (q + 1)) .invalid = .invalid := by
      intro cts
      induction cts with
      | nil => rfl
      | cons ct cts ih =>
        rw [List.foldl_cons]
        have hone : s.1.update (q + 1) .invalid ct = .invalid := by cases s.1 <;> rfl
        rw [hone, ih]
    rw [hstay, ih]

/-- A cell is marked by the types of the losses that its node moves to. -/
theorem marked_iff (hM : M.nPieces ≤ maxPieces) (hc : M.Canonical) (h : PairEntries M entries)
    {e : Entry} (he : e ∈ entries) (hvalid : nodeAt M a ∈ (pairGraph M).valid)
    (ha : a.1 = e.twinSlot) {ct : ConversionType} : ct ∈ reached M q .losses e a ↔
      ∃ t w, (t, w) ∈ (pairGraph M).quiet (nodeAt M a) ∧ t.truth = .loss ct q := by
  rw [mem_reached_losses hM hc h he ha]
  exact Propagation.exists_emitter_iff (lawful_pairGraph hM hc) (partner_truth hM hc) hvalid _

/-- A cell is decremented by the weight of the moves of its node to wins. -/
theorem decremented_eq (hM : M.nPieces ≤ maxPieces) (hc : M.Canonical) (h : PairEntries M entries)
    {e : Entry} (he : e ∈ entries) (hvalid : nodeAt M a ∈ (pairGraph M).valid)
    (ha : a.1 = e.twinSlot) (ct : ConversionType) : (reached M q (.wins ct) e a).length
      = (pairGraph M).weightWonAt Node.truth q ct (nodeAt M a) := by
  rw [length_reached_wins hM hc h he ha fun _ => Propagation.mem_filter_outcome]
  exact Propagation.emitted_filter (lawful_pairGraph hM hc) (partner_truth hM hc) hvalid _

/-- An index and its diagonal partner have the same cells between any two scans. -/
theorem cellsOf_partner (hM : M.nPieces ≤ maxPieces) (hc : M.Canonical) (h : PairEntries M entries)
    (hlt : a.2 < (materialAt M a.1).indexer.indexRange)
    (hk : (materialAt M a.1).indexer.diagonalSymmetric a.2 = .ok (some k))
    {done : List (Phase × Entry)} (hdone : ∀ s ∈ done, s.2 ∈ entries) :
    cellsOf M q done (a.1, k) = cellsOf M q done a := by
  have hnode := nodeAt_partner hk
  have hbound : (nodeAt M a).material.nPieces ≤ maxPieces := nPieces_materialAt hM a.1
  have hmem : nodeAt M (a.1, k) ∈ (pairGraph M).valid ↔ nodeAt M a ∈ (pairGraph M).valid := by
    rw [mem_valid, mem_valid, hnode, stands_diagonalPartner_iff hbound hlt, ← hnode]
    rfl
  by_cases hvalid : nodeAt M a ∈ (pairGraph M).valid
  swap
  · rw [cellsOf_of_not_valid hvalid, cellsOf_of_not_valid fun hv => hvalid (hmem.mp hv)]
  have hvalid' := hmem.mpr hvalid
  obtain ⟨-, p, hp⟩ := mem_valid.mp hvalid
  have halike : (pairGraph M).Alike Node.truth (nodeAt M (a.1, k)) (nodeAt M a) := by
    rw [hnode]
    exact alike_diagonalPartner hbound hp
  induction done using List.reverseRecOn with
  | nil =>
    show cellAt M q (a.1, k) = cellAt M q a
    rw [cellAt_eq, cellAt_eq, halike.expected_eq]
  | append_singleton done s ih =>
    obtain ⟨phase, e⟩ := s
    have ih := ih fun s hs => hdone s (List.mem_append_left _ hs)
    have he : e ∈ entries := hdone _ (List.mem_append_right _ (List.mem_singleton_self (phase, e)))
    rw [cellsOf_append, cellsAfter, cellsAfter, ih, typesAt_scanUpdates h he, typesAt_scanUpdates h he]
    by_cases ha : a.1 = e.twinSlot
    swap
    · rw [if_neg ha, if_neg ha]
    rw [if_pos ha, if_pos ha]
    cases phase with
    | losses =>
      refine Cell.foldl_mark_congr (q + 1) (fun ct => ?_) _
      rw [marked_iff hM hc h he hvalid' ha, marked_iff hM hc h he hvalid ha,
        halike.exists_quiet_iff]
    | wins ct =>
      have hlen : (reached M q (.wins ct) e (a.1, k)).length = (reached M q (.wins ct) e a).length := by
        rw [decremented_eq hM hc h he hvalid' ha, decremented_eq hM hc h he hvalid ha,
          halike.weightWonAt_eq]
      exact (List.foldl_const (Cell.decrement ct (q + 1)) _ _).trans
        ((congrArg (fun n => (Cell.decrement ct (q + 1))^[n] _) hlen).trans
          (List.foldl_const (Cell.decrement ct (q + 1)) _ _).symm)

/-! ### Values -/

omit [Shakmaty] [LawfulShakmaty] in
/-- Diagonal partners are indices of the table. -/
theorem diagonalSymmetric_lt (hM : M.nPieces ≤ maxPieces) {i : ℕ} (hlt : i < M.indexer.indexRange)
    (hk : M.indexer.diagonalSymmetric i = .ok (some k)) : k < M.indexer.indexRange := by
  obtain ⟨b, ep, hi⟩ := exists_indexes hM hlt
  rcases Nat.eq_zero_or_pos M.nPawns with hp | hp
  · obtain ⟨o, ho, -, hspec⟩ := diagonalSymmetric_spec hM hp hi .white
    rw [hk] at ho
    exact (hspec k (Except.ok.inj ho).symm).1
  · rw [Indexes.diagonalSymmetric_pawnful hp] at hk
    cases hk

variable {probe : Chess → Run DtcOutcome} {tableB : Option Egt} {policy : Policy} {s₀ s : Solver}

/-- **Reflections stay equal.** In every reachable state in which no scan is under way, an index and
    its diagonal partner hold the same value. -/
theorem reflections_equal (hM : M.nPieces ≤ maxPieces) (hc : M.Canonical) (hdist : DistancesFit M)
    (htwin : IsTwinTable M tableB) (hentries : entriesOf M.table tableB = .ok entries)
    (hprobe : ProbesPair probe M) (hstart : solveStart probe entries = .ok s₀)
    (hrun : ReflTransGen (Solver.Step policy entries) s₀ s) (hidle : s.scanning = none) {e : Entry}
    (he : e ∈ entries) {i : ℕ} (hlt : i < e.table.indexRange)
    (hk : e.table.diagonalSymmetric i = .ok (some k)) :
    ∃ v, get s.memory (e.slot, i) = some v ∧ get s.memory (e.slot, k) = some v := by
  have h : SolvedPair M entries := ⟨hM, hc, pairEntries hM hc htwin hentries, hdist⟩
  obtain ⟨-, hx⟩ := exact_reachable h hentries hprobe hstart hrun
  obtain ⟨q, done, -, hscans, hcells⟩ := hx.cells
  have hdone : ∀ s ∈ done, s.2 ∈ entries := fun s hs =>
    mem_of_mem_scansOf (hscans ▸ List.mem_append_left _ hs)
  rw [h.entries.table e he] at hlt hk
  have hbound : (materialAt M e.slot).nPieces ≤ maxPieces := nPieces_materialAt hM _
  have hlt' : k < (materialAt M e.slot).indexer.indexRange := diagonalSymmetric_lt hbound hlt hk
  have hlen : (s.working.values e.slot).length = _ := hx.sizes e he
  rw [Solver.memory_of_idle hidle]
  have hcell : ∀ idx < (materialAt M e.slot).indexer.indexRange,
      get s.working (e.slot, idx) = some (encode (cellsOf M q done (e.slot, idx))) := by
    intro idx hidx
    have hget : get s.working (e.slot, idx) = some _ := List.getElem?_eq_getElem (hlen ▸ hidx)
    rw [hget, hcells _ _ hget]
  refine ⟨_, hcell i hlt, ?_⟩
  rw [hcell k hlt', cellsOf_partner (a := (e.slot, i)) hM hc h.entries hlt hk hdone]

end

theorem reflections_equal_kings : ∃ entries s₀,
    entriesOf Material.kings.table none = .ok entries ∧
    @solveStart rulesShakmaty (fun _ => .ok .draw) entries = .ok s₀ ∧
    ∀ e ∈ entries, ∀ i k, i < e.table.indexRange → e.table.diagonalSymmetric i = .ok (some k) →
      ∃ v, get s₀.memory (e.slot, i) = some v ∧ get s₀.memory (e.slot, k) = some v := by
  obtain ⟨entries, s₀, hentries, hs₀⟩ := exists_start_kings
  refine ⟨entries, s₀, hentries, hs₀, fun e he i k hi hk => ?_⟩
  have hidle := (@started rulesShakmaty _ _ _ (@nodup_slots rulesShakmaty _ _ _ hentries) hs₀).scanning
  exact @reflections_equal rulesShakmaty lawful_rulesShakmaty _ _ _ _ _ .skipping _ _
    Material.nPieces_kings Material.canonical_kings
    (@distancesFit_kings rulesShakmaty lawful_rulesShakmaty) Material.isTwinTable_kings hentries
    probesPair_kings hs₀ .refl hidle e he i hi hk

end ChessEgt
