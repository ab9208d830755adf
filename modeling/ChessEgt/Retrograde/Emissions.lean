import ChessEgt.Retrograde.Graph

/-!
# How often an index is emitted

The number of times that a source emits an index, and the number of quiet moves that lead from
the index back to the source, as numbers of linked views.

* `countP_eq_card` — counting a list by the elements of a set that stand for its members;
* `count_quietUnmoves` — the emissions of an index by a source;
* `countP_twinIndex` — the quiet moves into a source.
-/

namespace ChessEgt

open Rules Indexer

/-- The members of a list with a property are as many as the elements that stand for them. -/
theorem countP_eq_card {α β : Type} {l : List α} (hl : l.Nodup) {S : Finset β} {f : β → α}
    (hf : ∀ b ∈ S, ∀ b' ∈ S, f b = f b' → b = b') {P : α → Bool}
    (hP : ∀ a ∈ l, P a = true ↔ ∃ b ∈ S, a = f b) {Q : β → Prop} [DecidablePred Q]
    (hQ : ∀ b ∈ S, Q b ↔ f b ∈ l) : l.countP P = (S.filter Q).card := by
  classical
  have himage : (l.filter P).toFinset = (S.filter Q).image f := by
    ext a
    rw [List.mem_toFinset, List.mem_filter, Finset.mem_image]
    constructor
    · rintro ⟨ha, hPa⟩
      obtain ⟨b, hb, rfl⟩ := (hP a ha).mp hPa
      exact ⟨b, Finset.mem_filter.mpr ⟨hb, (hQ b hb).mpr ha⟩, rfl⟩
    · rintro ⟨b, hb, rfl⟩
      obtain ⟨hb, hQb⟩ := Finset.mem_filter.mp hb
      have ha := (hQ b hb).mp hQb
      exact ⟨ha, (hP _ ha).mpr ⟨b, hb, rfl⟩⟩
  rw [List.countP_eq_length_filter, ← List.toFinset_card_of_nodup (hl.filter P), himage]
  refine Finset.card_image_of_injOn fun b hb b' hb' => ?_
  exact hf b (Finset.mem_filter.mp hb).1 b' (Finset.mem_filter.mp hb').1

/-- The emissions of an index: as itself, and as the diagonal partner of another one. -/
theorem count_flatMap_emittedAt (M : Material) (s : Chess) (i : ℕ) (index : Chess → ℕ)
    (other : Chess → Option ℕ) (l : List Chess) :
    (l.flatMap fun r => emittedAt M s (index r) (other r)).count i
      = l.countP (fun r => index r = i)
        + if M.nPawns = 0 ∧ bothKingsOnDiagonal s = false
          then l.countP (fun r => other r = some i) else 0 := by
  unfold emittedAt
  by_cases hd : M.nPawns = 0 ∧ bothKingsOnDiagonal s = false
  · simp only [if_pos hd]
    induction l with
    | nil => rfl
    | cons r l ih =>
      rw [List.flatMap_cons, List.count_append, ih, List.countP_cons, List.countP_cons,
        List.count_cons]
      have hother : (other r).toList.count i = if other r = some i then 1 else 0 := by
        cases other r with
        | none => rfl
        | some k => simp [List.count_cons]
      rw [hother]
      simp only [decide_eq_true_eq, beq_iff_eq]
      omega
  · simp only [if_neg hd, Nat.add_zero]
    induction l with
    | nil => rfl
    | cons r l ih =>
      rw [List.flatMap_cons, List.count_append, ih, List.countP_cons, List.count_singleton]
      simp only [decide_eq_true_eq, beq_iff_eq]
      omega

section

variable [Shakmaty] [LawfulShakmaty] {M : Material} {i j : ℕ} {b b' : Board}
  {ep ep' : Option File}

theorem QuietLink.turn_black {r s : Chess} (h : QuietLink r s) (hs : s.turn = .white) :
    r.turn = .black := by
  have hturn := h.turn
  rw [hs] at hturn
  cases hr : r.turn with
  | white => rw [hr] at hturn; cases hturn
  | black => rfl

/-- The predecessors with an index are the linked views of its position. -/
theorem countP_index (hM : M.nPieces ≤ maxPieces) (hj : Indexes M j b ep)
    (hi : Indexes M.partnerTable i b' ep') (hai : Accepted (whiteSetup b' ep')) {l : List Chess}
    (hl : l.Nodup) (hmem : ∀ r, r ∈ l ↔ Accepted r ∧ QuietLink r (whiteSetup b ep))
    {index : Chess → ℕ} (hindex : ∀ r ∈ l, M.twinIndex r = .ok (index r)) :
    l.countP (fun r => index r = i)
      = links (M.partnerTable.views M.reflectsTwin b') (whiteSetup b' ep') (whiteSetup b ep) := by
  classical
  unfold links
  have hinj : ∀ s ∈ M.partnerTable.views M.reflectsTwin b',
      ∀ t ∈ M.partnerTable.views M.reflectsTwin b',
        view s (whiteSetup b' ep') = view t (whiteSetup b' ep') → s = t :=
    fun s hs t ht he => view_injOn hi hs ht he
  refine countP_eq_card hl hinj (fun r hr => ?_) fun s hs => ?_
  · obtain ⟨hacc, hlink⟩ := (hmem r).mp hr
    rw [← twinIndex_eq_iff hM hi hacc (hlink.turn_black rfl) (hlink.hasMaterial_of hj.hasMaterial),
      hindex r hr, decide_eq_true_eq, Except.ok.injEq]
  · rw [hmem, hi.accepted_view_iff hs, and_iff_right hai]

/-- The partners of two indices of a table are mutual. -/
theorem diagonalSymmetric_comm (hM : M.nPieces ≤ maxPieces) {k : ℕ} (hi : Indexes M i b ep)
    (hk : Indexes M k b' ep') : M.indexer.diagonalSymmetric k = .ok (some i) ↔
      M.indexer.diagonalSymmetric i = .ok (some k) := by
  have hhalf : ∀ {i k : ℕ} {b b' : Board} {ep ep' : Option File}, Indexes M i b ep →
      Indexes M k b' ep' → M.indexer.diagonalSymmetric k = .ok (some i) →
        M.indexer.diagonalSymmetric i = .ok (some k) := by
    intro i k b b' ep ep' _ hk h
    rcases Nat.eq_zero_or_pos M.nPawns with hp | hp
    · obtain ⟨o, ho, -, hspec⟩ := diagonalSymmetric_spec hM hp hk .white
      rw [h] at ho
      exact (hspec i (Except.ok.inj ho).symm).2.2
    · rw [Indexes.diagonalSymmetric_pawnful hp] at h
      cases h
  exact ⟨hhalf hi hk, hhalf hk hi⟩

/-- **The emissions** of an index by a source: the linked views of its position and, if only the
    kings of the index stand on a long diagonal, those of the reflected position. -/
theorem count_quietUnmoves (hM : M.nPieces ≤ maxPieces) (hj : Indexes M j b ep)
    (haj : Accepted (whiteSetup b ep)) (hi : Indexes M.partnerTable i b' ep')
    (hai : Accepted (whiteSetup b' ep')) {indices : List ℕ}
    (h : quietUnmoves M.table M.partnerTable.table j M.reflectsTwin = .ok indices) :
    (M.nPawns = 0 → ¬ KingsDiagonal b → KingsDiagonal b' → indices.count i
      = links (withAxes false) (whiteSetup b' ep') (whiteSetup b ep)
        + links (withAxes false) (Transform.diagonal.setup (whiteSetup b' ep'))
          (whiteSetup b ep)) ∧
    (¬ (M.nPawns = 0 ∧ ¬ KingsDiagonal b ∧ KingsDiagonal b') → indices.count i
      = links (M.partnerTable.views M.reflectsTwin b') (whiteSetup b' ep') (whiteSetup b ep)) := by
  obtain ⟨l, index, other, hnodup, hmem, hspec, hq⟩ := quietUnmoves_table hM hj haj
  rw [hq] at h
  rw [← Except.ok.inj h, count_flatMap_emittedAt,
    countP_index hM hj hi hai hnodup hmem fun r hr => (hspec r hr).1]
  have hM' : M.partnerTable.nPieces ≤ maxPieces := by rwa [Material.nPieces_partnerTable]
  have hpawns := M.nPawns_partnerTable
  have hdiag : M.nPawns = 0 → (bothKingsOnDiagonal (whiteSetup b ep) = false ↔ ¬ KingsDiagonal b) := by
    intro hp
    have hiff : bothKingsOnDiagonal (whiteSetup b ep) = true ↔ KingsDiagonal b :=
      bothKingsOnDiagonal_iff hj.canonical hp
    rw [← hiff, Bool.not_eq_true]
  -- The indices whose partner is the index.
  have hother : ∀ r ∈ l, other r = some i ↔
      M.partnerTable.indexer.diagonalSymmetric i = .ok (some (index r)) := by
    intro r hr
    obtain ⟨hacc, hlink⟩ := (hmem r).mp hr
    obtain ⟨k, bk, epk, -, hk, hik, -, -⟩ :=
      exists_twinIndex hM hacc (hlink.turn_black rfl) (hlink.hasMaterial_of hj.hasMaterial)
    obtain ⟨hindex, ho⟩ := hspec r hr
    obtain rfl : k = index r := Except.ok.inj (hk.symm.trans hindex)
    rw [← diagonalSymmetric_comm hM' hi hik, ho, Except.ok.injEq]
  constructor
  · intro hp hd hd'
    have hp' : M.partnerTable.nPawns = 0 := by omega
    rw [if_pos ⟨hp, (hdiag hp).mpr hd⟩]
    -- The partner of the index stands for the reflected board.
    have hep := hi.ep_eq_none hp'
    subst hep
    obtain ⟨i', hii', hi'⟩ := hi.diagonalSymmetric_some hM' hp' hd'
    have hset : whiteSetup (Transform.diagonal.board b') none
        = Transform.diagonal.setup (whiteSetup b' none) := rfl
    have hai' : Accepted (whiteSetup (Transform.diagonal.board b') none) := by
      rw [hset]
      exact hai.setup (Or.inr (hi.hasMaterial.pawnless_iff.mpr hp'))
    have hcount := countP_index hM hj hi' hai' hnodup hmem fun r hr => (hspec r hr).1
    rw [Material.views_onDiagonal _ hp' hd'.board_diagonal, hset] at hcount
    rw [Material.views_onDiagonal _ hp' hd', ← hcount]
    congr 1
    refine List.countP_congr fun r hr => ?_
    rw [decide_eq_true_eq, decide_eq_true_eq, hother r hr, hii', Except.ok.injEq,
      Option.some.injEq, eq_comm]
  · intro hne
    by_cases hp : M.nPawns = 0 ∧ bothKingsOnDiagonal (whiteSetup b ep) = false
    · rw [if_pos hp]
      have hp' : M.partnerTable.nPawns = 0 := by omega
      have hd' : ¬ KingsDiagonal b' := fun hd' => hne ⟨hp.1, (hdiag hp.1).mp hp.2, hd'⟩
      have hzero : l.countP (fun r => other r = some i) = 0 := by
        rw [List.countP_eq_zero]
        intro r hr
        rw [decide_eq_true_eq, hother r hr, hi.diagonalSymmetric_none hM' hp' hd']
        simp
      rw [hzero, Nat.add_zero]
    · rw [if_neg hp, Nat.add_zero]

/-! ### The quiet moves into a source -/

/-- The quiet moves of a position. -/
def quietMoves (p : Chess) : List Move := (Shakmaty.legalMoves p).filter Move.isQuiet

omit [Shakmaty] [LawfulShakmaty] in
theorem Material.views_inv (M : Material) (mirrored : Bool) (b : Board) :
    (M.views mirrored b).image (·⁻¹) = M.views mirrored b := by
  have hinv : ∀ s ∈ M.views mirrored b, s⁻¹ ∈ M.views mirrored b := by
    intro s hs
    rcases Nat.eq_zero_or_pos M.nPawns with hp | hp
    · rw [mem_views_pawnless hp] at hs ⊢
      intro hd
      have hswap := hs hd
      obtain ⟨a, f, x⟩ := s
      simp only at hswap
      subst hswap
      rfl
    · rw [mem_views_pawnful hp] at hs ⊢
      have hself : ∀ m, (pawnViews m)⁻¹ = pawnViews m := by decide
      rcases hs with rfl | ⟨hsymm, rfl⟩
      · exact Or.inl (hself _)
      · exact Or.inr ⟨hsymm, hself _⟩
  ext s
  rw [Finset.mem_image]
  constructor
  · rintro ⟨t, ht, rfl⟩
    exact hinv t ht
  · exact fun hs => ⟨s⁻¹, hinv s hs, inv_inv s⟩

/-- **The quiet moves** of a position into an index are the links to the views of the index. -/
theorem countP_twinIndex (hM : M.nPieces ≤ maxPieces) (hi : Indexes M i b ep)
    (hai : Accepted (whiteSetup b ep)) (hj : Indexes M.partnerTable j b' ep')
    (haj : Accepted (whiteSetup b' ep')) :
    (quietMoves (whiteSetup b ep)).countP
      (fun m => M.twinIndex (normalize (play (whiteSetup b ep) m)) = .ok j)
      = links (M.partnerTable.views M.reflectsTwin b') (whiteSetup b ep) (whiteSetup b' ep') := by
  classical
  have hv := hai.valid
  have hmem : ∀ m, m ∈ quietMoves (whiteSetup b ep) ↔ Legal (whiteSetup b ep) m ∧
      m.isQuiet = true := by
    intro m
    rw [quietMoves, List.mem_filter, LawfulShakmaty.mem_legalMoves _ hv]
  -- The successors are different positions.
  have hnodup : ((quietMoves (whiteSetup b ep)).map
      fun m => normalize (play (whiteSetup b ep) m)).Nodup := by
    refine List.Nodup.map_on (fun m hm m' hm' he => ?_)
      ((LawfulShakmaty.legalMoves_nodup _ hv).filter _)
    obtain ⟨hl, hq⟩ := (hmem m).mp hm
    obtain ⟨hl', hq'⟩ := (hmem m').mp hm'
    exact eq_of_quiet hl hq hl' hq' he
  have hlink : ∀ s, s ∈ (quietMoves (whiteSetup b ep)).map
      (fun m => normalize (play (whiteSetup b ep) m)) ↔ QuietLink (whiteSetup b ep) s := by
    intro s
    rw [List.mem_map]
    constructor
    · rintro ⟨m, hm, rfl⟩
      obtain ⟨hl, hq⟩ := (hmem m).mp hm
      exact ⟨m, hl, hq, rfl⟩
    · rintro ⟨m, hl, hq, rfl⟩
      exact ⟨m, (hmem m).mpr ⟨hl, hq⟩, rfl⟩
  have hinj : ∀ s ∈ M.partnerTable.views M.reflectsTwin b',
      ∀ t ∈ M.partnerTable.views M.reflectsTwin b',
        view s (whiteSetup b' ep') = view t (whiteSetup b' ep') → s = t :=
    fun s hs t ht he => view_injOn hj hs ht he
  have hcount := countP_eq_card (P := fun s => decide (M.twinIndex s = .ok j)) hnodup hinj
    (fun s hs => by
      have hl := (hlink s).mp hs
      rw [decide_eq_true_eq]
      exact twinIndex_eq_iff hM hj (hl.accepted hv) (by rw [hl.turn]; rfl)
        (hl.hasMaterial hi.hasMaterial))
    (Q := fun σ => QuietLink (whiteSetup b ep) (view σ (whiteSetup b' ep')))
    (fun σ _ => (hlink _).symm)
  rw [List.countP_map] at hcount
  refine hcount.trans (card_filter_view_eq (Material.views_inv _ _ _) fun σ hσ => ?_)
  rcases Nat.eq_zero_or_pos M.partnerTable.nPawns with hp | hp
  · exact Or.inr (hi.hasMaterial.pawnless_iff.mpr (by rw [← M.nPawns_partnerTable]; exact hp))
  · exact Or.inl (Material.keepsPawns_of_mem_views hp hσ)

end

end ChessEgt
