import ChessEgt.Retrograde.Kings

/-!
# The edges of the retrograde graph

Moves are followed backward during the propagation, and forward when the counters are set.

* `Decodes` — an index of a table and its position;
* `stands_of_mem_preds` — every emitted index has a position;
* `emissions` — what an index of the twin table emits, `quiet_edges_exact` — over every set of
  indices of the twin table closed under reflection, an index is emitted as often as its quiet
  moves into the set are counted.
-/

namespace ChessEgt

open Rules Indexer

section

variable [Shakmaty]

/-- The index decodes to the position. -/
def Decodes (M : Material) (idx : ℕ) (p : Chess) : Prop :=
  idx < M.indexer.indexRange ∧ M.indexer.positionFromIndexWithReason idx .white = .ok (.ok p)

theorem decodes_iff [LawfulShakmaty] {M : Material} {idx : ℕ} {p : Chess} (hM : M.nPieces ≤ maxPieces) :
    Decodes M idx p ↔ Node.Stands ⟨M, idx⟩ p := by
  constructor
  · rintro ⟨hlt, hp⟩
    exact (decoded_iff (x := ⟨M, idx⟩) hM hlt).mp hp
  · intro h
    exact ⟨h.lt, (decoded_iff (x := ⟨M, idx⟩) hM h.lt).mpr h⟩

/-- Every emitted index has a position. -/
theorem stands_of_mem_preds [LawfulShakmaty] {M : Material} {x y : Node} (hM : M.nPieces ≤ maxPieces)
    (hc : M.Canonical) (hy : y ∈ (pairGraph M).valid) (h : x ∈ (pairGraph M).preds y) :
    ∃ q, x.Stands q := by
  have hT := (pairOf_of_mem hM hc hy).bounded
  have hT' : y.material.partnerTable.nPieces ≤ maxPieces := by
    rwa [Material.nPieces_partnerTable]
  obtain ⟨-, s, ha, b, ep, hj, rfl⟩ := mem_valid.mp hy
  obtain ⟨l, index, other, -, hmem, hspec, hq⟩ := quietUnmoves_table hT hj ha
  rw [pairGraph_preds, hq] at h
  obtain ⟨k, hk, rfl⟩ := List.mem_map.mp h
  obtain ⟨r, hr, hk⟩ := List.mem_flatMap.mp hk
  obtain ⟨hacc, hlink⟩ := (hmem r).mp hr
  obtain ⟨i, br, epr, σ, hi, hir, hσ, hview⟩ :=
    exists_twinIndex hT hacc (hlink.turn_black rfl) (hlink.hasMaterial_of hj.hasMaterial)
  obtain ⟨hindex, ho⟩ := hspec r hr
  obtain rfl : i = index r := Except.ok.inj (hi.symm.trans hindex)
  have hstands : Node.Stands ⟨y.material.partnerTable, index r⟩ (whiteSetup br epr) := by
    refine ⟨?_, br, epr, hir, rfl⟩
    rw [← hir.accepted_view_iff hσ, ← hview]
    exact hacc
  unfold emittedAt at hk
  split at hk
  · next hp =>
    rcases List.mem_cons.mp hk with rfl | hk
    · exact ⟨_, hstands⟩
    · -- The partner of an index stands for the reflected position.
      obtain ⟨-, hpartner | ⟨-, hpartner⟩⟩ := hstands.diagonalPartner hT'
      all_goals
        unfold Node.diagonalPartner at hpartner
        rw [Option.mem_toList] at hk
        rw [ho, hk] at hpartner
        exact ⟨_, hpartner⟩
  · rw [List.mem_singleton.mp hk]
    exact ⟨_, hstands⟩

/-- The indices of the table that an index of the twin table emits. -/
def emissions (M : Material) (j : ℕ) : List ℕ :=
  match quietUnmoves M.partnerTable.table M.table j M.reflectsTwin with
  | .ok indices => indices
  | .error _ => []

variable [LawfulShakmaty] {M : Material} {i j : ℕ} {p s : Chess}

omit [LawfulShakmaty] in
/-- The emissions are the predecessors in the graph of the pair. -/
theorem preds_partnerTable (hc : M.Canonical) (j : ℕ) :
    (pairGraph M).preds ⟨M.partnerTable, j⟩ = (emissions M j).map (Node.mk M) := by
  rw [pairGraph_preds]
  simp only [Material.partnerTable_partnerTable hc, Material.reflectsTwin_partnerTable hc]
  unfold emissions
  cases quietUnmoves M.partnerTable.table M.table j M.reflectsTwin <;> rfl

/-- Every index with a position emits. -/
theorem quietUnmoves_eq_emissions (hM : M.nPieces ≤ maxPieces) (hc : M.Canonical)
    (h : Decodes M.partnerTable j s) :
    quietUnmoves M.partnerTable.table M.table j M.reflectsTwin = .ok (emissions M j) := by
  have hM' : M.partnerTable.nPieces ≤ maxPieces := by rwa [Material.nPieces_partnerTable]
  obtain ⟨indices, hq, -⟩ := exists_preds (M := M) hM' ((decodes_iff hM').mp h)
  simp only [Material.partnerTable_partnerTable hc, Material.reflectsTwin_partnerTable hc] at hq
  unfold emissions
  rw [hq]

/-- The weight of the quiet moves of a position into a set of indices of the twin table. -/
noncomputable def weightInto (M : Material) (W : Finset ℕ) (p : Chess) : ℕ :=
  (((quietMoves p).filter fun m =>
    ∃ j ∈ W, M.twinIndex (normalize (play p m)) = .ok j).map fun m =>
      moveWeight M p (normalize (play p m))).sum

/-- **Edge multiplicity**, index by index: over a set of indices of the twin table that is closed
    under reflection. -/
theorem sum_emissions (hM : M.nPieces ≤ maxPieces) (hc : M.Canonical) (hi : Decodes M i p)
    {W : Finset ℕ} (hW : ∀ j ∈ W, (∃ s, Decodes M.partnerTable j s) ∧
      ∀ k, M.partnerTable.indexer.diagonalSymmetric j = .ok (some k) → k ∈ W) :
    ∑ j ∈ W, (emissions M j).count i = weightInto M W p := by
  classical
  have hM' : M.partnerTable.nPieces ≤ maxPieces := by rwa [Material.nPieces_partnerTable]
  have hp : Node.Stands ⟨M, i⟩ p := (decodes_iff hM).mp hi
  have hinj : Function.Injective (Node.mk M.partnerTable) := fun a b h => congrArg Node.index h
  have hvalid : ∀ j ∈ W, (⟨M.partnerTable, j⟩ : Node) ∈ (pairGraph M).valid := by
    intro j hj
    obtain ⟨s, hs⟩ := (hW j hj).1
    exact mem_valid.mpr ⟨Or.inr rfl, s, (decodes_iff hM').mp hs⟩
  have hmem : ∀ y : Node, y ∈ W.map ⟨_, hinj⟩ ↔ ∃ j ∈ W, y = ⟨M.partnerTable, j⟩ := by
    intro y
    rw [Finset.mem_map]
    exact exists_congr fun j => and_congr_right fun _ => eq_comm
  have hclosed : (pairGraph M).Closed (W.map ⟨_, hinj⟩) := by
    intro y hy
    obtain ⟨j, hj, rfl⟩ := (hmem y).mp hy
    refine ⟨hvalid j hj, (hmem _).mpr ?_⟩
    rw [pairGraph_partner]
    unfold Node.diagonalPartner
    dsimp only
    split
    · next k hk => exact ⟨k, (hW j hj).2 k hk, rfl⟩
    · exact ⟨j, hj, rfl⟩
  have hemitted := pairGraph_emissions hM hc _ hclosed ⟨M, i⟩ (mem_valid.mpr ⟨Or.inl rfl, p, hp⟩)
  have hleft : (pairGraph M).emitted (W.map ⟨_, hinj⟩) ⟨M, i⟩
      = ∑ j ∈ W, (emissions M j).count i := by
    unfold Propagation.emitted
    rw [Finset.sum_map]
    refine Finset.sum_congr rfl fun j _ => ?_
    show ((pairGraph M).preds ⟨M.partnerTable, j⟩).count ⟨M, i⟩ = _
    rw [preds_partnerTable hc]
    exact List.count_map_of_injective _ _ (fun a b h => congrArg Node.index h) i
  have hright : (pairGraph M).weightInto (W.map ⟨_, hinj⟩) ⟨M, i⟩ = weightInto M W p := by
    unfold Propagation.weightInto weightInto
    rw [pairGraph_quiet, hp.position_eq, List.filter_map, List.map_map]
    refine congrArg List.sum (congrArg _ (List.filter_congr fun m hm => ?_))
    obtain ⟨hl, hq⟩ := (mem_quietMoves hp.1.valid).mp hm
    have hnode := twinNode_eq_iff (x := ⟨M, i⟩) hM hp ⟨m, hl, hq, rfl⟩
    simp only [Function.comp_apply]
    refine decide_eq_decide.mpr ?_
    rw [hmem]
    exact exists_congr fun j => and_congr_right fun _ => hnode j
  rw [← hleft, hemitted, hright]

open Classical in
/-- The indices of a table that have a position. -/
noncomputable def decodable (M : Material) : Finset ℕ :=
  (Finset.range M.indexer.indexRange).filter fun idx => ∃ p, Decodes M idx p

omit [LawfulShakmaty] in
theorem mem_decodable {idx : ℕ} : idx ∈ decodable M ↔ ∃ p, Decodes M idx p := by
  classical
  refine Finset.mem_filter.trans ⟨And.right, fun h => ⟨?_, h⟩⟩
  exact Finset.mem_range.mpr h.choose_spec.1

/-- The reflection of an index with a position has a position. -/
theorem decodable_closed (hM : M.nPieces ≤ maxPieces) {j k : ℕ} (hj : j ∈ decodable M)
    (hk : M.indexer.diagonalSymmetric j = .ok (some k)) : k ∈ decodable M := by
  obtain ⟨s, hs⟩ := mem_decodable.mp hj
  obtain ⟨-, hpartner | ⟨-, hpartner⟩⟩ := ((decodes_iff hM).mp hs).diagonalPartner hM
  all_goals
    unfold Node.diagonalPartner at hpartner
    rw [hk] at hpartner
    exact mem_decodable.mpr ⟨_, (decodes_iff hM).mpr hpartner⟩

/-- **The edges are exact.** Every index of the twin table with a position emits, and only indices
    with a position. With pawns, it emits an index as often as there are quiet moves from there;
    in general, this holds of sets closed under reflection, where moves onto a long diagonal count
    twice. Over the whole twin table, an index is emitted as often as its quiet moves count in its
    initial counter. -/
theorem quiet_edges_exact (hM : M.nPieces ≤ maxPieces) (hc : M.Canonical) (hi : Decodes M i p) :
    (∀ j s, Decodes M.partnerTable j s →
      quietUnmoves M.partnerTable.table M.table j M.reflectsTwin = .ok (emissions M j) ∧
      (∀ k ∈ emissions M j, ∃ q, Decodes M k q) ∧
      (0 < M.nPawns → (emissions M j).count i = (quietMoves p).countP fun m =>
        M.twinIndex (normalize (play p m)) = .ok j)) ∧
    (∀ W : Finset ℕ, (∀ j ∈ W, (∃ s, Decodes M.partnerTable j s) ∧
        ∀ k, M.partnerTable.indexer.diagonalSymmetric j = .ok (some k) → k ∈ W) →
      ∑ j ∈ W, (emissions M j).count i = weightInto M W p) ∧
    ∑ j ∈ decodable M.partnerTable, (emissions M j).count i
      + ((Shakmaty.legalMoves p).filter fun m => !m.isQuiet).length = initialCounter M.table p := by
  have hM' : M.partnerTable.nPieces ≤ maxPieces := by rwa [Material.nPieces_partnerTable]
  have hp : Node.Stands ⟨M, i⟩ p := (decodes_iff hM).mp hi
  refine ⟨fun j s hj => ⟨quietUnmoves_eq_emissions hM hc hj, fun k hk => ?_, fun hpawns => ?_⟩,
    fun W hW => sum_emissions hM hc hi hW, ?_⟩
  · have hvalid : (⟨M.partnerTable, j⟩ : Node) ∈ (pairGraph M).valid :=
      mem_valid.mpr ⟨Or.inr rfl, s, (decodes_iff hM').mp hj⟩
    have hmem : (⟨M, k⟩ : Node) ∈ (pairGraph M).preds ⟨M.partnerTable, j⟩ := by
      rw [preds_partnerTable hc]
      exact List.mem_map_of_mem hk
    obtain ⟨q, hq⟩ := stands_of_mem_preds hM hc hvalid hmem
    exact ⟨q, (decodes_iff hM).mpr hq⟩
  · -- With pawns, every index is a closed set of its own, and every move counts once.
    have hpawns' : 0 < M.partnerTable.nPawns := by rwa [Material.nPawns_partnerTable]
    have hW : ∀ j' ∈ ({j} : Finset ℕ), (∃ s, Decodes M.partnerTable j' s) ∧
        ∀ k, M.partnerTable.indexer.diagonalSymmetric j' = .ok (some k) → k ∈ ({j} : Finset ℕ) := by
      intro j' hj'
      rw [Finset.mem_singleton.mp hj']
      refine ⟨⟨s, hj⟩, fun k hk => ?_⟩
      rw [Indexes.diagonalSymmetric_pawnful hpawns'] at hk
      cases hk
    have hsum := sum_emissions hM hc hi hW
    rw [Finset.sum_singleton] at hsum
    rw [hsum]
    unfold weightInto
    have hone : ∀ m, moveWeight M p (normalize (play p m)) = 1 := fun m =>
      if_neg fun h => by
        have := h.1
        omega
    simp only [hone, Finset.mem_singleton, exists_eq_left]
    rw [List.map_const', List.sum_replicate, smul_eq_mul, Nat.mul_one, ← List.countP_eq_length_filter]
  · have hall : weightInto M (decodable M.partnerTable) p
        = (((pairGraph M).quiet ⟨M, i⟩).map Prod.snd).sum := by
      unfold weightInto
      rw [pairGraph_quiet, hp.position_eq, List.map_map, List.filter_eq_self.mpr]
      · rfl
      intro m hm
      obtain ⟨hl, hq⟩ := (mem_quietMoves hp.1.valid).mp hm
      have hlink : QuietLink p (normalize (play p m)) := ⟨m, hl, hq, rfl⟩
      obtain ⟨s, hs, -⟩ := twinNode_stands (x := ⟨M, i⟩) hM hp hlink
      have hnode := twinNode_eq_iff (x := ⟨M, i⟩) hM hp hlink (twinNode M (normalize (play p m))).index
      exact decide_eq_true ⟨_, mem_decodable.mpr ⟨s, (decodes_iff hM').mpr hs⟩, hnode.mp rfl⟩
    have hconversions : ((pairGraph M).conversions ⟨M, i⟩).length
        = ((Shakmaty.legalMoves p).filter fun m => !m.isQuiet).length := by
      rw [pairGraph_conversions, hp.position_eq, List.length_filterMap_eq_countP,
        List.countP_eq_length_filter]
      refine congrArg List.length (List.filter_congr fun m _ => ?_)
      cases hct : conversionType m with
      | none => rw [conversionType_eq_none.mp hct]; rfl
      | some ct =>
        have hq : m.isQuiet = false := isQuiet_of_conversionType hct
        rw [hq]
        rfl
    have hcounter : initialCounter M.table p = _ := initialCounter_eq (M := M) hp
    rw [sum_emissions hM hc hi fun j hj => ⟨mem_decodable.mp hj, fun k hk =>
      decodable_closed hM' hj hk⟩, hall, hcounter, hconversions]

end

theorem quiet_edges_exact_kings : ∃ i p, @Decodes rulesShakmaty Material.kings i p ∧
    ∑ j ∈ @decodable rulesShakmaty Material.kings.partnerTable,
        (@emissions rulesShakmaty Material.kings j).count i
      + ((@Shakmaty.legalMoves rulesShakmaty p).filter fun m => !m.isQuiet).length
      = @initialCounter rulesShakmaty Material.kings.table p := by
  obtain ⟨i, p, hp⟩ := @exists_decoded_kings rulesShakmaty lawful_rulesShakmaty
  have hi := (@decodes_iff rulesShakmaty lawful_rulesShakmaty _ _ _ Material.nPieces_kings).mpr hp
  exact ⟨i, p, hi, (@quiet_edges_exact rulesShakmaty lawful_rulesShakmaty _ _ _
    Material.nPieces_kings Material.canonical_kings hi).2.2⟩

end ChessEgt
