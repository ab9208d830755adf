import ChessEgt.Retrograde.Pair

/-!
# The true outcomes of a pair of tables

* `Node.truth` — the true outcome of a node;
* `truth_twinNode`, `truth_diagonalPartner` — symmetric positions have the same outcome;
* `solution_truth` — the true outcomes are consistent with the moves of every node.
-/

namespace ChessEgt

open Rules Indexer

/-- The true outcome of a node. -/
noncomputable def Node.truth (x : Node) : DtcOutcome := dtcOutcome x.position

theorem Node.Stands.truth_eq {x : Node} {p : Chess} (h : x.Stands p) : x.truth = dtcOutcome p := by
  unfold Node.truth
  rw [h.position_eq]

/-- A node and its diagonal partner have the same outcome. -/
theorem truth_diagonalPartner {x : Node} {p : Chess} (hM : x.material.nPieces ≤ maxPieces)
    (h : x.Stands p) : x.diagonalPartner.truth = x.truth := by
  obtain ⟨-, hp | ⟨hpl, hp⟩⟩ := h.diagonalPartner hM
  · rw [hp.truth_eq, h.truth_eq]
  · rw [hp.truth_eq, h.truth_eq, dtcOutcome_transform h.1.valid (Or.inr hpl)]

section

variable [Shakmaty] [LawfulShakmaty] {M : Material} {x : Node} {p s : Chess} {m : Move}

/-- The node of a successor has the outcome of the successor. -/
theorem truth_twinNode (hM : x.material.nPieces ≤ maxPieces) (hx : x.Stands p)
    (h : QuietLink p s) : (twinNode x.material s).truth = dtcOutcome s := by
  obtain ⟨q, hq, σ, b, ep, hi, rfl, hσ, rfl⟩ := twinNode_stands hM hx h
  have hfits := Material.fits_of_mem_views hi.hasMaterial hσ
  rw [hq.truth_eq]
  exact (dtcOutcome_transform hq.1.valid hfits).symm

/-! ### The moves of a node -/

/-- The move of a node in the propagation system. -/
noncomputable def edgeOf (M : Material) (p : Chess) (m : Move) : Edge Node ConversionType :=
  match conversionType m with
  | none => .quiet (twinNode M (normalize (play p m)))
  | some ct => .conversion ct (dtcOutcome (play p m))

omit [LawfulShakmaty] in
theorem edgeOf_of_isQuiet (M : Material) (p : Chess) (hq : m.isQuiet = true) :
    edgeOf M p m = .quiet (twinNode M (normalize (play p m))) := by
  unfold edgeOf
  rw [conversionType_eq_none.mpr hq]

omit [LawfulShakmaty] in
theorem edgeOf_of_conversion (M : Material) (p : Chess) {ct : ConversionType}
    (h : conversionType m = some ct) : edgeOf M p m = .conversion ct (dtcOutcome (play p m)) := by
  unfold edgeOf
  rw [h]

/-- The edges of a node are its legal moves. -/
theorem mem_edges_pairGraph (hx : x.Stands p) {e : Edge Node ConversionType} :
    e ∈ (pairGraph M).edges x ↔ ∃ m, Legal p m ∧ e = edgeOf x.material p m := by
  have hquiet : ∀ t w, (t, w) ∈ (pairGraph M).quiet x ↔ ∃ m, Legal p m ∧ m.isQuiet = true ∧
      t = twinNode x.material (normalize (play p m)) ∧
        w = moveWeight x.material p (normalize (play p m)) := by
    intro t w
    rw [pairGraph_quiet, hx.position_eq, List.mem_map]
    refine exists_congr fun m => ?_
    rw [mem_quietMoves hx.1.valid, Prod.mk.injEq, and_assoc, eq_comm (a := t), eq_comm (a := w)]
  have hconv : ∀ ct r, (ct, r) ∈ (pairGraph M).conversions x ↔ ∃ m, Legal p m ∧
      conversionType m = some ct ∧ r = dtcOutcome (play p m) := by
    intro ct r
    rw [pairGraph_conversions, hx.position_eq, List.mem_filterMap]
    refine exists_congr fun m => and_congr (LawfulShakmaty.mem_legalMoves p hx.1.valid m) ?_
    rw [Option.map_eq_some_iff]
    constructor
    · rintro ⟨ct', hct, h⟩
      rw [Prod.mk.injEq] at h
      exact ⟨h.1 ▸ hct, h.2.symm⟩
    · rintro ⟨hct, rfl⟩
      exact ⟨ct, hct, rfl⟩
  unfold Propagation.edges
  rw [Set.mem_setOf_eq]
  constructor
  · rintro (⟨t, w, ht, rfl⟩ | ⟨ct, r, hr, rfl⟩)
    · obtain ⟨m, hm, hq, rfl, -⟩ := (hquiet t w).mp ht
      exact ⟨m, hm, (edgeOf_of_isQuiet _ _ hq).symm⟩
    · obtain ⟨m, hm, hct, rfl⟩ := (hconv ct r).mp hr
      exact ⟨m, hm, (edgeOf_of_conversion _ _ hct).symm⟩
  · rintro ⟨m, hm, rfl⟩
    cases hct : conversionType m with
    | none =>
      have hq := conversionType_eq_none.mp hct
      exact Or.inl ⟨_, _, (hquiet _ _).mpr ⟨m, hm, hq, rfl, rfl⟩, edgeOf_of_isQuiet _ _ hq⟩
    | some ct =>
      exact Or.inr ⟨_, _, (hconv _ _).mpr ⟨m, hm, hct, rfl⟩, edgeOf_of_conversion _ _ hct⟩

/-- The value of a move under the true outcomes. -/
theorem value_edgeOf (hM : x.material.nPieces ≤ maxPieces) (hx : x.Stands p) (hm : Legal p m) :
    (edgeOf x.material p m).value Node.truth = moveValue m (dtcOutcome (play p m)) := by
  rw [moveValue_eq]
  cases hct : conversionType m with
  | none =>
    have hq := conversionType_eq_none.mp hct
    rw [edgeOf_of_isQuiet _ _ hq, Edge.value_quiet, truth_twinNode hM hx ⟨m, hm, hq, rfl⟩,
      dtcOutcome_normalize (hx.1.valid.play hm)]
  | some ct => rw [edgeOf_of_conversion _ _ hct, Edge.value_conversion]

/-- The true outcomes are consistent at every node. -/
theorem solution_truth (hM : M.nPieces ≤ maxPieces) (hc : M.Canonical) :
    (pairGraph M).Solution Node.truth := by
  intro x hx
  have hbound := (pairOf_of_mem hM hc hx).bounded
  obtain ⟨-, p, hp⟩ := mem_valid.mp hx
  refine ⟨fun hempty => ?_, fun hne => ?_⟩
  · have hm : ∀ m, ¬ Legal p m := by
      intro m hm
      have hmem : edgeOf x.material p m ∈ (pairGraph M).edges x :=
        (mem_edges_pairGraph hp).mpr ⟨m, hm, rfl⟩
      rw [hempty] at hmem
      exact hmem
    rw [hp.truth_eq, pairGraph_terminal, hp.position_eq]
    split
    · next hcheck => exact dtcOutcome_checkmate hm hcheck
    · next hcheck => exact dtcOutcome_stalemate hm hcheck
  · obtain ⟨e, he⟩ := hne
    obtain ⟨m₀, hm₀, -⟩ := (mem_edges_pairGraph hp).mp he
    have himage : Edge.value Node.truth '' (pairGraph M).edges x
        = {v | ∃ m, Legal p m ∧ v = moveValue m (dtcOutcome (play p m))} := by
      ext v
      constructor
      · rintro ⟨e, he, rfl⟩
        obtain ⟨m, hm, rfl⟩ := (mem_edges_pairGraph hp).mp he
        exact ⟨m, hm, value_edgeOf hbound hp hm⟩
      · rintro ⟨m, hm, rfl⟩
        exact ⟨_, (mem_edges_pairGraph hp).mpr ⟨m, hm, rfl⟩, value_edgeOf hbound hp hm⟩
    rw [himage, hp.truth_eq]
    exact dtcOutcome_isGreatest hm₀

/-- The partners of valid nodes are valid nodes with the same outcome. -/
theorem partner_truth (hM : M.nPieces ≤ maxPieces) (hc : M.Canonical) :
    ∀ x ∈ (pairGraph M).valid, (pairGraph M).partner x ∈ (pairGraph M).valid ∧
      ((pairGraph M).partner x).truth = x.truth := by
  intro x hx
  obtain ⟨-, p, hp⟩ := mem_valid.mp hx
  exact ⟨partner_mem_valid hM hc hx, truth_diagonalPartner (pairOf_of_mem hM hc hx).bounded hp⟩

/-! ### Kings alone -/

omit [Shakmaty] [LawfulShakmaty] in
/-- A king that attacks the other one is attacked by it. -/
theorem kingAttacked_other {b : Board} {c : Color} (hk : ∀ s pc, b s = some pc → pc.role = .king)
    (h : KingAttacked b c) : KingAttacked b c.other := by
  obtain ⟨t, ht, s, hs⟩ := h
  obtain ⟨pc, hpc, hcolor, hatt⟩ := attackedFrom_iff.mp hs
  have hrole := hk s pc hpc
  have hking : pc = ⟨c.other, .king⟩ := by
    rw [← hcolor, ← hrole]
  subst hking
  refine ⟨s, hpc, t, attackedFrom_iff.mpr ⟨⟨c, .king⟩, ht, (Color.other_other c).symm, ?_⟩⟩
  have hnot : (⟨c, .king⟩ : Piece).role ≠ .pawn := fun h => by cases h
  rw [attacks_comm hnot]
  exact hatt

omit [Shakmaty] [LawfulShakmaty] in
/-- Kings alone make quiet moves only. -/
theorem isQuiet_of_kings (hv : Valid p) (hk : ∀ s pc, p.board s = some pc → pc.role = .king)
    (hm : Legal p m) : m.isQuiet = true := by
  rw [Move.isQuiet_iff]
  cases m with
  | enPassant s t =>
    have hrole := hk s _ hm.1.1
    cases hrole
  | normal role s capture t promotion =>
    obtain ⟨hs, hcap, hown, hrule⟩ := hm.1
    obtain rfl : role = .king := hk s _ hs
    rw [if_neg (by decide)] at hrule
    obtain ⟨rfl, hatt⟩ := hrule
    cases ht : p.board t with
    | none =>
      rw [ht] at hcap
      exact ⟨.king, s, t, by rw [hcap]; rfl⟩
    | some pc =>
      -- The captured piece is the other king, which was in check.
      have hcolor : pc.color = p.turn.other := by
        have hne : pc.color ≠ p.turn := fun heq => by
          have hmine : p.board.byColor p.turn t = true := Board.byColor_apply.mpr ⟨pc, ht, heq⟩
          rw [hown] at hmine
          cases hmine
        cases hc : pc.color <;> cases hp : p.turn <;> simp_all [Color.other]
      have hking : pc = ⟨p.turn.other, .king⟩ := by
        rw [← hcolor, ← hk t pc ht]
      subst hking
      refine absurd ⟨t, ht, s, attackedFrom_iff.mpr ⟨_, hs, (Color.other_other _).symm, hatt⟩⟩ hv.opposite

/-- A table of positions with nothing but kings holds draws only. -/
theorem truth_eq_draw (hM : M.nPieces ≤ maxPieces) (hc : M.Canonical)
    (hk : ∀ x ∈ (pairGraph M).valid, ∀ p, x.Stands p → ∀ s pc, p.board s = some pc →
      pc.role = .king) (hx : x ∈ (pairGraph M).valid) : x.truth = .draw := by
  have hs := solution_truth (M := M) hM hc
  have hl := lawful_pairGraph (M := M) hM hc
  have hzero : ∀ y ∈ (pairGraph M).valid, y.truth.plies? ≠ some 0 := by
    intro y hy hply
    obtain ⟨-, p, hp⟩ := mem_valid.mp hy
    rcases Set.eq_empty_or_nonempty ((pairGraph M).edges y) with he | hne
    · rw [(hs y hy).terminal_eq he, pairGraph_terminal, hp.position_eq] at hply
      split at hply
      · next hcheck => exact hp.1.valid.opposite (kingAttacked_other (hk y hy p hp) hcheck)
      · cases hply
    · have := hs.plies_pos hy hne hply
      omega
  have hone : ∀ y ∈ (pairGraph M).valid, y.truth.plies? ≠ some (0 + 1) := by
    intro y hy hply
    obtain ⟨-, p, hp⟩ := mem_valid.mp hy
    have hne : ((pairGraph M).edges y).Nonempty := by
      by_contra hempty
      rw [(hs y hy).terminal_eq (Set.not_nonempty_iff_eq_empty.mp hempty)] at hply
      rcases hl.terminal_eq y with h | ⟨k, h⟩ <;> rw [h] at hply <;> cases hply
    obtain ⟨e, he, hval⟩ := (hs y hy).exists_value_eq hne
    obtain ⟨m, hm, rfl⟩ := (mem_edges_pairGraph hp).mp he
    have hq := isQuiet_of_kings hp.1.valid (hk y hy p hp) hm
    rw [edgeOf_of_isQuiet _ _ hq] at he hval
    rcases he with ⟨t, w, ht, heq⟩ | ⟨k, r, -, heq⟩
    · rw [Edge.quiet.injEq] at heq
      have hvalid := hl.target_valid y hy _ ht
      rw [← heq] at hvalid
      rw [← hval, Edge.value_quiet] at hply
      refine hzero _ hvalid ?_
      cases ho : (twinNode y.material (normalize (play p m))).truth <;> simp_all
    · cases heq
  have hlater := hs.no_later_plies hl hone
  rw [← Outcome.plies?_eq_none, Option.eq_none_iff_forall_ne_some]
  intro n hn
  rcases Nat.eq_zero_or_pos n with rfl | hpos
  · exact hzero x hx hn
  · exact hlater n hpos x hx hn

end

end ChessEgt
