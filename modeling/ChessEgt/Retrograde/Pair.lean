import ChessEgt.Dtc
import ChessEgt.Library.Iteration
import ChessEgt.Retrograde.Emissions
import ChessEgt.Retrograde.Initialize

/-!
# The propagation system of a pair of tables

* `Node`, `Node.Stands` — an index of a table of the pair, and its position;
* `pairGraph` — the moves, the conversions and the emitted predecessors of the nodes, as a system
  for the propagation of outcomes;
* `pairGraph_balanced`, `lawful_pairGraph` — every quiet move is emitted as often as it is counted.
-/

namespace ChessEgt

open Rules Indexer

/-- An index of the table of a material. -/
@[ext] structure Node where
  material : Material
  index : ℕ

noncomputable instance : DecidableEq Node := Classical.decEq Node

namespace Node

/-- The node stands for an accepted position of White. -/
def Stands (x : Node) (p : Chess) : Prop :=
  Accepted p ∧ ∃ b ep, Indexes x.material x.index b ep ∧ p = whiteSetup b ep

variable {x : Node} {p q : Chess}

theorem Stands.unique (h : x.Stands p) (h' : x.Stands q) : p = q := by
  obtain ⟨-, b, ep, hi, rfl⟩ := h
  obtain ⟨-, b', ep', hi', rfl⟩ := h'
  obtain ⟨rfl, rfl⟩ := hi.eq_setup hi'
  rfl

theorem Stands.lt (h : x.Stands p) : x.index < x.material.indexer.indexRange := by
  obtain ⟨-, b, ep, hi, -⟩ := h
  exact hi.lt

theorem Stands.hasMaterial (h : x.Stands p) : HasMaterial x.material p := by
  obtain ⟨-, b, ep, hi, rfl⟩ := h
  exact hi.hasMaterial

theorem Stands.turn (h : x.Stands p) : p.turn = .white := by
  obtain ⟨-, b, ep, -, rfl⟩ := h
  rfl

open Classical in
/-- The position of a node, if there is one. -/
noncomputable def position (x : Node) : Chess := if h : ∃ p, x.Stands p then h.choose else Setup.empty

theorem Stands.position_eq (h : x.Stands p) : x.position = p := by
  have hex : ∃ p, x.Stands p := ⟨p, h⟩
  unfold Node.position
  rw [dif_pos hex]
  exact hex.choose_spec.unique h

/-- The diagonal partner of a node, or the node itself. -/
def diagonalPartner (x : Node) : Node :=
  match x.material.indexer.diagonalSymmetric x.index with
  | .ok (some k) => ⟨x.material, k⟩
  | _ => x

/-- A node whose kings are not both on a long diagonal has no other partner. -/
theorem diagonalPartner_eq_self (hM : x.material.nPieces ≤ maxPieces) {b : Board} {ep : Option File}
    (h : Indexes x.material x.index b ep) (hne : ¬ (x.material.nPawns = 0 ∧ KingsDiagonal b)) :
    x.diagonalPartner = x := by
  unfold diagonalPartner
  rcases Nat.eq_zero_or_pos x.material.nPawns with hp | hp
  · rw [h.diagonalSymmetric_none hM hp fun hd => hne ⟨hp, hd⟩]
  · rw [Indexes.diagonalSymmetric_pawnful hp]

/-- The partner of a node whose kings are on the diagonal is its reflection. -/
theorem exists_diagonalPartner (hM : x.material.nPieces ≤ maxPieces) (hp : x.material.nPawns = 0) {b : Board}
    {ep : Option File} (h : Indexes x.material x.index b ep) (hd : KingsDiagonal b) : ∃ k,
      x.diagonalPartner = ⟨x.material, k⟩ ∧ Indexes x.material k (Transform.diagonal.board b) none := by
  obtain ⟨k, hk, hik⟩ := h.diagonalSymmetric_some hM hp hd
  refine ⟨k, ?_, hik⟩
  unfold diagonalPartner
  rw [hk]

theorem diagonalPartner_diagonalPartner (hM : x.material.nPieces ≤ maxPieces) {b : Board}
    {ep : Option File} (hi : Indexes x.material x.index b ep) :
    x.diagonalPartner.diagonalPartner = x := by
  by_cases hd : x.material.nPawns = 0 ∧ KingsDiagonal b
  · obtain ⟨k, hk, hik⟩ := exists_diagonalPartner hM hd.1 hi hd.2
    obtain ⟨k', hk', hik'⟩ := exists_diagonalPartner (x := ⟨x.material, k⟩) hM hd.1 hik hd.2.board_diagonal
    have hep := hi.ep_eq_none hd.1
    subst hep
    rw [hk, hk']
    rw [← Transform.mul_board, Transform.diagonal_mul_diagonal, Transform.one_board] at hik'
    exact Node.ext rfl (hik'.eq_index hi)
  · rw [diagonalPartner_eq_self hM hi hd, diagonalPartner_eq_self hM hi hd]

/-- The partner of a node stands for the position or its reflection. -/
theorem Stands.diagonalPartner (hM : x.material.nPieces ≤ maxPieces) (h : x.Stands p) :
    x.diagonalPartner.material = x.material ∧ (x.diagonalPartner.Stands p ∨
      Transform.Pawnless p.board ∧ x.diagonalPartner.Stands (Transform.diagonal.setup p)) := by
  obtain ⟨ha, b, ep, hi, rfl⟩ := h
  by_cases hd : x.material.nPawns = 0 ∧ KingsDiagonal b
  · obtain ⟨k, hk, hik⟩ := exists_diagonalPartner hM hd.1 hi hd.2
    have hep := hi.ep_eq_none hd.1
    subst hep
    have hpl : Transform.Pawnless b := hi.hasMaterial.pawnless_iff.mpr hd.1
    rw [hk]
    exact ⟨rfl, Or.inr ⟨hpl, ha.setup (Or.inr hpl), _, none, hik, rfl⟩⟩
  · rw [diagonalPartner_eq_self hM hi hd]
    exact ⟨rfl, Or.inl ⟨ha, b, ep, hi, rfl⟩⟩

end Node

/-- How often a quiet move from `p` to `s` is counted: moves onto a long diagonal also for their
    reflections. -/
def moveWeight (M : Material) (p s : Chess) : ℕ :=
  if M.nPawns = 0 ∧ bothKingsOnDiagonal p = false ∧ bothKingsOnDiagonal s = true then 2 else 1

section

variable [Shakmaty]

/-- The node of a position of Black in the twin table. -/
def twinNode (M : Material) (s : Chess) : Node :=
  ⟨M.partnerTable, match M.twinIndex s with
    | .ok k => k
    | .error _ => 0⟩

/-- The nodes of emitted indices. -/
def emittedNodes (M : Material) : Run (List ℕ) → List Node
  | .ok indices => indices.map (Node.mk M)
  | .error _ => []

omit [Shakmaty] in
theorem fst_of_mem_emittedNodes {M : Material} {r : Run (List ℕ)} {x : Node}
    (h : x ∈ emittedNodes M r) : x.material = M := by
  cases r with
  | ok indices =>
    obtain ⟨i, -, rfl⟩ := List.mem_map.mp h
    rfl
  | error e => exact absurd h List.not_mem_nil

open Classical in
/-- The propagation system of the tables of a material and of its twin. -/
noncomputable def pairGraph (M : Material) : Propagation Node ConversionType where
  valid := (((Finset.range M.indexer.indexRange).image (Node.mk M)) ∪
    ((Finset.range M.partnerTable.indexer.indexRange).image (Node.mk M.partnerTable))).filter
      fun x => ∃ p, x.Stands p
  quiet x := (quietMoves x.position).map fun m =>
    (twinNode x.material (normalize (play x.position m)),
      moveWeight x.material x.position (normalize (play x.position m)))
  conversions x := (Shakmaty.legalMoves x.position).filterMap fun m =>
    (conversionType m).map fun ct => (ct, dtcOutcome (play x.position m))
  terminal x := if InCheck x.position then .loss .checkmate 0 else .draw
  preds x := emittedNodes x.material.partnerTable
    (quietUnmoves x.material.table x.material.partnerTable.table x.index x.material.reflectsTwin)
  partner := Node.diagonalPartner

@[simp] theorem pairGraph_partner (M : Material) (x : Node) :
    (pairGraph M).partner x = x.diagonalPartner := rfl
@[simp] theorem pairGraph_terminal (M : Material) (x : Node) : (pairGraph M).terminal x
    = if InCheck x.position then Outcome.loss ConversionType.checkmate 0 else .draw := rfl
theorem pairGraph_preds (M : Material) (x : Node) : (pairGraph M).preds x
    = emittedNodes x.material.partnerTable
      (quietUnmoves x.material.table x.material.partnerTable.table x.index x.material.reflectsTwin) := rfl
theorem pairGraph_quiet (M : Material) (x : Node) : (pairGraph M).quiet x
    = (quietMoves x.position).map fun m => (twinNode x.material (normalize (play x.position m)),
      moveWeight x.material x.position (normalize (play x.position m))) := rfl
theorem pairGraph_conversions (M : Material) (x : Node) : (pairGraph M).conversions x
    = (Shakmaty.legalMoves x.position).filterMap fun m =>
      (conversionType m).map fun ct => (ct, dtcOutcome (play x.position m)) := rfl

/-- The materials of the two tables. -/
structure Material.PairOf (T M : Material) : Prop where
  bounded : T.nPieces ≤ maxPieces
  canonical : T.Canonical
  member : T = M ∨ T = M.partnerTable

omit [Shakmaty] in
theorem Material.PairOf.partnerTable {T M : Material} (h : T.PairOf M) (hc : M.Canonical) :
    T.partnerTable.PairOf M where
  bounded := by rw [Material.nPieces_partnerTable]; exact h.bounded
  canonical := by
    unfold Material.partnerTable
    exact Material.Canonical.canonical _
  member := by
    rcases h.member with rfl | rfl
    · exact Or.inr rfl
    · exact Or.inl (Material.partnerTable_partnerTable hc)

section Valid

variable {M : Material} {x y : Node} {p s : Chess}

theorem mem_valid : x ∈ (pairGraph M).valid ↔
    (x.material = M ∨ x.material = M.partnerTable) ∧ ∃ p, x.Stands p := by
  classical
  unfold pairGraph
  simp only [Finset.mem_filter, Finset.mem_union, Finset.mem_image, Finset.mem_range]
  constructor
  · rintro ⟨hm | hm, hp⟩
    · obtain ⟨i, -, rfl⟩ := hm
      exact ⟨Or.inl rfl, hp⟩
    · obtain ⟨i, -, rfl⟩ := hm
      exact ⟨Or.inr rfl, hp⟩
  · rintro ⟨hm, p, hp⟩
    have hlt := hp.lt
    refine ⟨?_, p, hp⟩
    rcases hm with hm | hm
    · rw [hm] at hlt
      exact Or.inl ⟨x.index, hlt, Node.ext hm.symm rfl⟩
    · rw [hm] at hlt
      exact Or.inr ⟨x.index, hlt, Node.ext hm.symm rfl⟩

theorem pairOf_of_mem (hM : M.nPieces ≤ maxPieces) (hc : M.Canonical)
    (h : x ∈ (pairGraph M).valid) : x.material.PairOf M := by
  rcases (mem_valid.mp h).1 with hx | hx
  · exact ⟨hx ▸ hM, hx ▸ hc, Or.inl hx⟩
  · have hM' : M.PairOf M := ⟨hM, hc, Or.inl rfl⟩
    rw [hx]
    exact hM'.partnerTable hc

/-- The partner of a valid node is valid. -/
theorem partner_mem_valid (hM : M.nPieces ≤ maxPieces) (hc : M.Canonical)
    (h : x ∈ (pairGraph M).valid) : x.diagonalPartner ∈ (pairGraph M).valid := by
  obtain ⟨hm, p, hp⟩ := mem_valid.mp h
  obtain ⟨h₁, h₂⟩ := hp.diagonalPartner (pairOf_of_mem hM hc h).bounded
  rw [mem_valid, h₁]
  rcases h₂ with h₂ | ⟨-, h₂⟩
  · exact ⟨hm, _, h₂⟩
  · exact ⟨hm, _, h₂⟩

end Valid

variable [LawfulShakmaty] {M : Material} {x y : Node} {p s : Chess}

/-- The successors of a position are nodes of the twin table. -/
theorem twinNode_stands (hM : x.material.nPieces ≤ maxPieces) (hx : x.Stands p) (h : QuietLink p s) :
    ∃ q, (twinNode x.material s).Stands q ∧ ∃ σ b ep, Indexes x.material.partnerTable (twinNode x.material s).index b ep ∧
      q = whiteSetup b ep ∧ σ ∈ x.material.partnerTable.views x.material.reflectsTwin b ∧ s = view σ q := by
  have hacc := h.accepted hx.1.valid
  have hturn : s.turn = .black := by rw [h.turn, hx.turn]; rfl
  obtain ⟨k, b, ep, σ, hk, hi, hσ, hs⟩ :=
    exists_twinIndex hM hacc hturn (h.hasMaterial hx.hasMaterial)
  have hnode : twinNode x.material s = ⟨x.material.partnerTable, k⟩ := by
    unfold twinNode
    rw [hk]
  have haccepted : Accepted (whiteSetup b ep) := by
    rw [← hi.accepted_view_iff hσ, ← hs]
    exact hacc
  rw [hnode]
  exact ⟨_, ⟨haccepted, b, ep, hi, rfl⟩, σ, b, ep, hi, rfl, hσ, hs⟩

theorem twinNode_eq_iff (hM : x.material.nPieces ≤ maxPieces) (hx : x.Stands p) (h : QuietLink p s)
    (j : ℕ) : twinNode x.material s = ⟨x.material.partnerTable, j⟩ ↔ x.material.twinIndex s = .ok j := by
  have hacc := h.accepted hx.1.valid
  have hturn : s.turn = .black := by rw [h.turn, hx.turn]; rfl
  obtain ⟨k, b, ep, σ, hk, -⟩ :=
    exists_twinIndex hM hacc hturn (h.hasMaterial hx.hasMaterial)
  unfold twinNode
  rw [hk]
  simp only [Node.mk.injEq, true_and, Except.ok.injEq]

theorem mem_quietMoves (hp : Valid p) {m : Move} :
    m ∈ quietMoves p ↔ Legal p m ∧ m.isQuiet = true := by
  rw [quietMoves, List.mem_filter, LawfulShakmaty.mem_legalMoves _ hp]

/-- The weight of the quiet moves from a node to another one is the weight of a single one, for
    every linked view. -/
theorem weightTo_eq (hM : x.material.nPieces ≤ maxPieces) (hx : x.Stands p) {b : Board}
    {ep : Option File} {j : ℕ} (hj : Indexes x.material.partnerTable j b ep)
    (haj : Accepted (whiteSetup b ep)) :
    (pairGraph M).weightTo x ⟨x.material.partnerTable, j⟩
      = links (x.material.partnerTable.views x.material.reflectsTwin b) p (whiteSetup b ep)
        * moveWeight x.material p (whiteSetup b ep) := by
  classical
  have hquiet : (pairGraph M).quiet x = (quietMoves p).map fun m =>
      (twinNode x.material (normalize (play p m)), moveWeight x.material p (normalize (play p m))) := by
    rw [← hx.position_eq]
    rfl
  have hfilter : ∀ m ∈ quietMoves p, (twinNode x.material (normalize (play p m)) = ⟨x.material.partnerTable, j⟩
      ↔ x.material.twinIndex (normalize (play p m)) = .ok j) := by
    intro m hm
    obtain ⟨hl, hq⟩ := (mem_quietMoves hx.1.valid).mp hm
    exact twinNode_eq_iff hM hx ⟨m, hl, hq, rfl⟩ j
  -- Moves to one node lead to views of it, so that they weigh alike.
  have hweight : ∀ m ∈ (quietMoves p).filter
      (fun m => x.material.twinIndex (normalize (play p m)) = .ok j),
      moveWeight x.material p (normalize (play p m)) = moveWeight x.material p (whiteSetup b ep) := by
    intro m hm
    obtain ⟨hm, hidx⟩ := List.mem_filter.mp hm
    obtain ⟨hl, hq⟩ := (mem_quietMoves hx.1.valid).mp hm
    have hlink : QuietLink p (normalize (play p m)) := ⟨m, hl, hq, rfl⟩
    obtain ⟨σ, -, hs⟩ := (twinIndex_eq_iff hM hj (hlink.accepted hx.1.valid)
      (by rw [hlink.turn, hx.turn]; rfl) (hlink.hasMaterial hx.hasMaterial)).mp
        (of_decide_eq_true hidx)
    unfold moveWeight
    rw [hs]
    have hkings : bothKingsOnDiagonal (view σ (whiteSetup b ep))
        = bothKingsOnDiagonal (whiteSetup b ep) := kingsOnLongDiagonal_board ⟨σ, true⟩ b
    rw [hkings]
  have hcount : ((quietMoves p).filter
      (fun m => x.material.twinIndex (normalize (play p m)) = .ok j)).length
      = links (x.material.partnerTable.views x.material.reflectsTwin b) p (whiteSetup b ep) := by
    rw [← List.countP_eq_length_filter]
    obtain ⟨ha, b', ep', hi, rfl⟩ := hx
    exact countP_twinIndex hM hi ha hj haj
  unfold Propagation.weightTo
  rw [hquiet, List.filter_map, List.map_map, ← hcount]
  have hsame : (quietMoves p).filter ((fun e : Node × ℕ => decide (e.1 = ⟨x.material.partnerTable, j⟩))
      ∘ fun m => (twinNode x.material (normalize (play p m)), moveWeight x.material p (normalize (play p m))))
      = (quietMoves p).filter (fun m => x.material.twinIndex (normalize (play p m)) = .ok j) := by
    refine List.filter_congr fun m hm => ?_
    exact decide_eq_decide.mpr (hfilter m hm)
  rw [hsame]
  generalize (quietMoves p).filter (fun m => x.material.twinIndex (normalize (play p m)) = .ok j) = l
    at hweight
  induction l with
  | nil => rw [List.map_nil, List.sum_nil, List.length_nil, Nat.zero_mul]
  | cons m l ih =>
    rw [List.map_cons, List.sum_cons, List.length_cons, Nat.succ_mul,
      ih fun m' hm' => hweight m' (List.mem_cons_of_mem _ hm'), Nat.add_comm]
    congr 1
    exact hweight m List.mem_cons_self

omit [LawfulShakmaty] in
/-- Moves lead to the twin table only. -/
theorem weightTo_eq_zero {M : Material} {x y : Node} (h : y.material ≠ x.material.partnerTable) :
    (pairGraph M).weightTo x y = 0 := by
  have hnil : ((pairGraph M).quiet x).filter (fun e => e.1 = y) = [] := by
    rw [List.filter_eq_nil_iff]
    intro e he
    obtain ⟨m, -, rfl⟩ := List.mem_map.mp he
    rw [decide_eq_true_eq]
    exact fun heq => h (congrArg Node.material heq).symm
  unfold Propagation.weightTo
  rw [hnil]
  rfl

omit [LawfulShakmaty] in
/-- Predecessors are emitted in the twin table only. -/
theorem emissionsOf_eq_zero {M : Material} {x y : Node} (h : x.material ≠ y.material.partnerTable) :
    (pairGraph M).emissionsOf y x = 0 := by
  unfold Propagation.emissionsOf
  rw [List.count_eq_zero]
  intro hmem
  rw [pairGraph_preds] at hmem
  exact h (fst_of_mem_emittedNodes hmem)

/-- The predecessors of a node are the emissions of its index. -/
theorem exists_preds (hM : y.material.nPieces ≤ maxPieces) (hy : y.Stands s) : ∃ indices,
    quietUnmoves y.material.table y.material.partnerTable.table y.index y.material.reflectsTwin = .ok indices ∧
      (pairGraph M).preds y = indices.map (Node.mk y.material.partnerTable) := by
  obtain ⟨ha, b, ep, hj, rfl⟩ := hy
  obtain ⟨l, index, other, -, -, -, hq⟩ := quietUnmoves_table hM hj ha
  refine ⟨_, hq, ?_⟩
  rw [pairGraph_preds, hq]
  rfl

/-- **Edge multiplicity.** Over a node and its diagonal partner, another node is emitted as often
    as its quiet moves to the two are counted. -/
theorem pairGraph_balanced (hM : M.nPieces ≤ maxPieces) (hc : M.Canonical)
    (hx : x ∈ (pairGraph M).valid) (hy : y ∈ (pairGraph M).valid) :
    (pairGraph M).emissionsOf y x + (pairGraph M).emissionsOf y.diagonalPartner x
      = (pairGraph M).weightTo x y + (pairGraph M).weightTo x y.diagonalPartner := by
  obtain ⟨N, j⟩ := y
  obtain ⟨T, i⟩ := x
  have hN := pairOf_of_mem hM hc hy
  have hT := pairOf_of_mem hM hc hx
  obtain ⟨-, s, hs⟩ := mem_valid.mp hy
  obtain ⟨-, p, hp⟩ := mem_valid.mp hx
  have hpartner : (Node.diagonalPartner ⟨N, j⟩).material = N := (hs.diagonalPartner hN.bounded).1
  simp only at hN hT
  by_cases htwin : T = N.partnerTable
  swap
  · -- No moves between tables that are not twins.
    have hback : N ≠ T.partnerTable := fun h => htwin (by
      rw [h, Material.partnerTable_partnerTable hT.canonical])
    rw [emissionsOf_eq_zero htwin, emissionsOf_eq_zero (by rw [hpartner]; exact htwin),
      weightTo_eq_zero hback, weightTo_eq_zero (by rw [hpartner]; exact hback)]
  subst htwin
  have hNN := Material.partnerTable_partnerTable hN.canonical
  have hrefl := Material.reflectsTwin_partnerTable hN.canonical
  have hpawns := N.nPawns_partnerTable
  obtain ⟨hai, b', ep', hi, rfl⟩ := hp
  obtain ⟨haj, b, ep, hj, rfl⟩ := hs
  simp only at hi hj
  -- The emissions and the moves of any source with the material.
  have hcount : ∀ {k : ℕ} {c : Board} {e : Option File}, Indexes N k c e →
      Accepted (whiteSetup c e) → ∃ indices,
        quietUnmoves N.table N.partnerTable.table k N.reflectsTwin = .ok indices ∧
        (pairGraph M).emissionsOf ⟨N, k⟩ ⟨N.partnerTable, i⟩ = indices.count i := by
    intro k c e hk hak
    obtain ⟨indices, hq, hpreds⟩ := exists_preds (M := M) (y := ⟨N, k⟩) hN.bounded ⟨hak, c, e, hk, rfl⟩
    refine ⟨indices, hq, ?_⟩
    unfold Propagation.emissionsOf
    rw [hpreds]
    exact List.count_map_of_injective _ _ (fun a b h => congrArg Node.index h) i
  have hweight : ∀ {k : ℕ} {c : Board} {e : Option File}, Indexes N k c e →
      Accepted (whiteSetup c e) → (pairGraph M).weightTo ⟨N.partnerTable, i⟩ ⟨N, k⟩
        = links (N.views N.reflectsTwin c) (whiteSetup b' ep') (whiteSetup c e)
          * moveWeight N.partnerTable (whiteSetup b' ep') (whiteSetup c e) := by
    intro k c e hk hak
    have hstands : Node.Stands ⟨N.partnerTable, i⟩ (whiteSetup b' ep') := ⟨hai, b', ep', hi, rfl⟩
    have hk' : Indexes N.partnerTable.partnerTable k c e := by rw [hNN]; exact hk
    have h := weightTo_eq (M := M) hT.bounded hstands hk' hak
    simp only [hNN, hrefl] at h
    exact h
  obtain ⟨indices, hq, hcnt⟩ := hcount hj haj
  obtain ⟨hon, hoff⟩ := count_quietUnmoves hN.bounded hj haj hi hai hq
  rcases Nat.eq_zero_or_pos N.nPawns with hp0 | hp0
  swap
  · -- With pawns, every view counts once on either side.
    have hself : Node.diagonalPartner ⟨N, j⟩ = ⟨N, j⟩ :=
      Node.diagonalPartner_eq_self hN.bounded hj fun h => by
        have := h.1
        simp only at this
        omega
    have hviews : N.partnerTable.views N.reflectsTwin b' = N.views N.reflectsTwin b := by
      ext σ
      rw [Material.mem_views_pawnful (by omega), Material.mem_views_pawnful hp0,
        Material.symmetric_partnerTable]
    have hone : moveWeight N.partnerTable (whiteSetup b' ep') (whiteSetup b ep) = 1 :=
      if_neg fun h => by
        have := h.1
        omega
    rw [hself, hcnt, hoff fun h => by omega, hweight hj haj, hone, hviews, Nat.mul_one]
  have hp0' : N.partnerTable.nPawns = 0 := by omega
  have hi' : bothKingsOnDiagonal (whiteSetup b' ep') = true ↔ KingsDiagonal b' :=
    bothKingsOnDiagonal_iff hi.canonical hp0'
  have hj' : bothKingsOnDiagonal (whiteSetup b ep) = true ↔ KingsDiagonal b :=
    bothKingsOnDiagonal_iff hj.canonical hp0
  have hpl : Transform.Pawnless (whiteSetup b' ep').board := hi.hasMaterial.pawnless_iff.mpr hp0'
  by_cases hd : KingsDiagonal b
  · -- A source on the diagonal counts with its partner.
    obtain ⟨k, hk, hjk⟩ := Node.exists_diagonalPartner (x := ⟨N, j⟩) hN.bounded hp0 hj hd
    simp only at hk hjk
    have hep := hj.ep_eq_none hp0
    subst hep
    have hset : whiteSetup (Transform.diagonal.board b) none
        = Transform.diagonal.setup (whiteSetup b none) := rfl
    have hak : Accepted (whiteSetup (Transform.diagonal.board b) none) := by
      rw [hset]
      exact haj.setup (Or.inr (hj.hasMaterial.pawnless_iff.mpr hp0))
    obtain ⟨indices', hq', hcnt'⟩ := hcount hjk hak
    have hoff' := (count_quietUnmoves hN.bounded hjk hak hi hai hq').2
    have hkings : bothKingsOnDiagonal (whiteSetup (Transform.diagonal.board b) none) = true :=
      (kingsOnLongDiagonal_board Transform.diagonal b).trans (hj'.mpr hd)
    rw [hk, hcnt, hcnt', hoff fun h => h.2.1 hd, hoff' fun h => h.2.1 hd.board_diagonal,
      hweight hj haj, hweight hjk hak, Material.views_onDiagonal _ hp0 hd,
      Material.views_onDiagonal _ hp0 hd.board_diagonal, hset, links_diagonal_right hpl,
      links_diagonal_right hpl, withAxes_diagonal.2]
    unfold moveWeight
    rw [← hset, hkings, hj'.mpr hd]
    by_cases hd' : KingsDiagonal b'
    · rw [Material.views_onDiagonal _ hp0' hd', withAxes_diagonal.2, hi'.mpr hd']
      simp
    · have hfalse : bothKingsOnDiagonal (whiteSetup b' ep') = false := by
        rw [← Bool.not_eq_true, hi']
        exact hd'
      rw [Material.views_offDiagonal _ hp0' hd', univ_diagonal, links_univ, hfalse]
      simp only [hp0', and_self, if_true]
      omega
  · -- Off the diagonal, all symmetries count.
    have hself : Node.diagonalPartner ⟨N, j⟩ = ⟨N, j⟩ :=
      Node.diagonalPartner_eq_self hN.bounded hj fun h => hd h.2
    have hfalse : bothKingsOnDiagonal (whiteSetup b ep) = false := by
      rw [← Bool.not_eq_true, hj']
      exact hd
    have hone : moveWeight N.partnerTable (whiteSetup b' ep') (whiteSetup b ep) = 1 :=
      if_neg fun h => by
        have := h.2.2
        rw [hfalse] at this
        cases this
    rw [hself, hcnt, hweight hj haj, hone, Nat.mul_one, Material.views_offDiagonal _ hp0 hd]
    by_cases hd' : KingsDiagonal b'
    · rw [hon hp0 hd hd', links_diagonal_left, withAxes_diagonal.1, links_univ]
    · rw [hoff fun h => hd' h.2.2, Material.views_offDiagonal _ hp0' hd']

omit [Shakmaty] [LawfulShakmaty] in
theorem moveWeight_pos (M : Material) (p s : Chess) : 0 < moveWeight M p s := by
  unfold moveWeight
  split <;> omega

/-- Quiet moves lead from valid nodes to valid nodes. -/
theorem quiet_mem_valid (hM : M.nPieces ≤ maxPieces) (hc : M.Canonical)
    (hx : x ∈ (pairGraph M).valid) {e : Node × ℕ} (he : e ∈ (pairGraph M).quiet x) :
    e.1 ∈ (pairGraph M).valid := by
  rw [pairGraph_quiet] at he
  obtain ⟨m, hm, rfl⟩ := List.mem_map.mp he
  obtain ⟨-, p, hp⟩ := mem_valid.mp hx
  have hpair := pairOf_of_mem hM hc hx
  rw [hp.position_eq] at hm ⊢
  obtain ⟨hl, hq⟩ := (mem_quietMoves hp.1.valid).mp hm
  obtain ⟨q, hq', -⟩ := twinNode_stands hpair.bounded hp ⟨m, hl, hq, rfl⟩
  exact mem_valid.mpr ⟨(hpair.partnerTable hc).member, q, hq'⟩

/-- **Edge multiplicity** over every set of nodes that is closed under diagonal partners. -/
theorem pairGraph_emissions (hM : M.nPieces ≤ maxPieces) (hc : M.Canonical) :
    ∀ W, (pairGraph M).Closed W → ∀ x ∈ (pairGraph M).valid,
      (pairGraph M).emitted W x = (pairGraph M).weightInto W x := by
  have hinv : ∀ y ∈ (pairGraph M).valid,
      (pairGraph M).partner ((pairGraph M).partner y) = y := by
    intro y hy
    obtain ⟨-, p, -, b, ep, hi, -⟩ := mem_valid.mp hy
    rw [pairGraph_partner, pairGraph_partner]
    exact Node.diagonalPartner_diagonalPartner (pairOf_of_mem hM hc hy).bounded hi
  refine (pairGraph M).emissions_of_balanced hinv fun x hx y hy _ => ?_
  rw [pairGraph_partner]
  exact pairGraph_balanced hM hc hx hy

/-- **The laws** of propagation hold of the tables of a pair. -/
theorem lawful_pairGraph (hM : M.nPieces ≤ maxPieces) (hc : M.Canonical) :
    (pairGraph M).Lawful where
  weight_pos x _ e he := by
    rw [pairGraph_quiet] at he
    obtain ⟨m, -, rfl⟩ := List.mem_map.mp he
    exact moveWeight_pos _ _ _
  target_valid x hx e he := quiet_mem_valid hM hc hx he
  terminal_eq x := by
    rw [pairGraph_terminal]
    split
    · exact Or.inr ⟨_, rfl⟩
    · exact Or.inl rfl
  emissions := pairGraph_emissions hM hc

end

end ChessEgt
