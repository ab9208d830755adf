import ChessEgt.Indexing.RoundTrip

/-!
# The views of an index

* `view` — a position of White as Black sees it under a symmetry of the board;
* `Material.views` — the symmetries under which a table encodes the positions of Black;
* `positionToIndexImpl_eq_iff` — the positions of Black with the index of a position are its
  views, each of them once (`view_injOn`).
-/

namespace ChessEgt

open Rules Indexer

/-- The image of a position under a symmetry with the colors exchanged. -/
def view (s : Symmetry) (p : Chess) : Chess := (⟨s, true⟩ : Transform).setup p

@[simp] theorem view_turn (s : Symmetry) (p : Chess) : (view s p).turn = p.turn.other := rfl

theorem view_setup (s t : Symmetry) (p : Chess) :
    view s ((⟨t, false⟩ : Transform).setup p) = view (s * t) p :=
  (Transform.mul_setup ⟨s, true⟩ ⟨t, false⟩ p).symm

theorem setup_view (s t : Symmetry) (p : Chess) :
    (⟨t, false⟩ : Transform).setup (view s p) = view (t * s) p :=
  (Transform.mul_setup ⟨t, false⟩ ⟨s, true⟩ p).symm

theorem view_view (s t : Symmetry) (p : Chess) :
    view s (view t p) = (⟨s * t, false⟩ : Transform).setup p :=
  (Transform.mul_setup ⟨s, true⟩ ⟨t, true⟩ p).symm

theorem view_view_inv (s : Symmetry) (p : Chess) : view s (view s⁻¹ p) = p := by
  rw [view_view, mul_inv_cancel]
  exact Transform.one_setup p

/-- A transform that exchanges the colors is undone by a view. -/
theorem Transform.eq_view {g : Transform} {p q : Chess} (hr : g.recolor = true)
    (h : g.setup p = q) : p = view g.symmetry⁻¹ q := by
  have hinv : g.inv = ⟨g.symmetry⁻¹, true⟩ := Transform.ext rfl hr
  rw [view, ← hinv, ← h, Transform.inv_setup]

/-- Symmetries that flip the board so that pawns of Black move up it. -/
def pawnViews (mirrored : Bool) : Symmetry :=
  if mirrored then Symmetry.mirror * Symmetry.flip else Symmetry.flip

/-- The symmetries under which a table encodes positions of Black: reflected on request or by the
    kings' order with pawns, and all of them without, except that kings on the diagonal decide on
    the exchange of the axes. -/
@[irreducible] def Material.views (M : Material) (mirrored : Bool) (b : Board) : Finset Symmetry :=
  if 0 < M.nPawns then
    Finset.univ.filter fun s => s = pawnViews mirrored ∨ M.Symmetric ∧ s = pawnViews (!mirrored)
  else Finset.univ.filter fun s => KingsDiagonal b → s.swapAxes = false

namespace Material

variable {M : Material} {mirrored : Bool} {b : Board} {s : Symmetry}

theorem mem_views_pawnful (hp : 0 < M.nPawns) : s ∈ M.views mirrored b ↔
    s = pawnViews mirrored ∨ M.Symmetric ∧ s = pawnViews (!mirrored) := by
  rw [views, if_pos hp, Finset.mem_filter, and_iff_right (Finset.mem_univ _)]

theorem mem_views_pawnless (hp : M.nPawns = 0) :
    s ∈ M.views mirrored b ↔ (KingsDiagonal b → s.swapAxes = false) := by
  rw [views, if_neg (by omega), Finset.mem_filter, and_iff_right (Finset.mem_univ _)]

theorem keepsPawns_of_mem_views (hp : 0 < M.nPawns) (hs : s ∈ M.views mirrored b) :
    (⟨s, true⟩ : Transform).KeepsPawns := by
  rcases (mem_views_pawnful hp).mp hs with rfl | ⟨-, rfl⟩
  · cases mirrored <;> decide
  · cases mirrored <;> decide

theorem fits_of_mem_views {p : Chess} (h : HasMaterial M p) (hs : s ∈ M.views mirrored b) :
    (⟨s, true⟩ : Transform).Fits p.board := by
  rcases Nat.eq_zero_or_pos M.nPawns with hp | hp
  · exact Or.inr (h.pawnless_iff.mpr hp)
  · exact Or.inl (keepsPawns_of_mem_views hp hs)

end Material

/-- A reduction that leaves both kings on the diagonal has not exchanged the axes. -/
theorem reducer_swapAxes_of_onDiagonal {kw kb : Square}
    (h : OnDiagonal (reducer kw kb • kw) (reducer kw kb • kb)) :
    (reducer kw kb).swapAxes = false := by
  by_contra hswap
  rw [Bool.not_eq_false] at hswap
  have hred : ∀ s : Square, reducer kw kb • s
      = ⟨(quadrantFlips kw • s).file, (quadrantFlips kw • s).rank⟩ := by
    intro s
    show (reducer kw kb).apply s = _
    unfold Symmetry.apply
    rw [hswap]
    rfl
  rw [hred, hred] at h
  obtain ⟨h₀, h₁⟩ := h
  have hcond := of_decide_eq_true hswap
  rcases hcond with hlt | ⟨-, hlt⟩
  · exact hlt.ne h₀
  · exact hlt.ne h₁

/-! ### The views of an index -/

section

variable {M : Material} {mirrored : Bool} {g : Transform} {p r : Chess} {i j : ℕ} {b : Board}
  {ep : Option File}

/-- The transform that encodes a position of Black is undone by a view. -/
theorem Canonizes.mem_views (h : Canonizes M g r i b ep) (henc : EncodedBy M mirrored r g)
    (hr : r.turn = .black) : g.symmetry⁻¹ ∈ M.views mirrored b := by
  unfold EncodedBy at henc
  rcases Nat.eq_zero_or_pos M.nPawns with hp | hp
  · rw [if_neg (by omega)] at henc
    obtain ⟨kw, kb, hw, hb, rfl⟩ := henc
    rw [Material.mem_views_pawnless hp]
    intro hd
    -- The kings are on the diagonal after the reduction.
    have hboard : b = (⟨reducer kw kb, false⟩ : Transform).board (oriented M mirrored r).board := by
      have hO : orient mirrored false r.turn = orient mirrored (decide (0 < M.nPawns)) r.turn := by
        rw [decide_eq_false (by omega)]
      rw [h.board_eq, Transform.mul_board, hO]
      rfl
    have hking : ∀ {c : Color} {k : Square}, (oriented M mirrored r).board k = some ⟨c, .king⟩ →
        (reducer kw kb • k).rank = (reducer kw kb • k).file := by
      intro c k hk
      refine hd c _ ?_
      rw [hboard]
      exact (Transform.board_eq_some ⟨reducer kw kb, false⟩ (x := ⟨c, .king⟩)).mpr hk
    have hswap := reducer_swapAxes_of_onDiagonal ⟨hking hw, hking hb⟩
    rw [hr]
    generalize reducer kw kb = s at hswap
    obtain ⟨a, f, x⟩ := s
    simp only at hswap
    subst hswap
    cases mirrored <;> cases a <;> cases f <;> decide
  · rw [if_pos hp] at henc
    rw [Material.mem_views_pawnful hp]
    split at henc
    · next hs =>
      obtain ⟨r', rfl⟩ := henc
      rw [hr]
      by_cases hm : r' = mirrored
      · rw [hm]
        left
        cases mirrored <;> decide
      · right
        refine ⟨hs, ?_⟩
        cases r' <;> cases mirrored <;> first | exact absurd rfl hm | decide
    · rw [henc, hr]
      left
      cases mirrored <;> decide

/-- Views of one setup under different symmetries differ. -/
theorem view_injOn (h : Indexes M i b ep) {s t : Symmetry} (hs : s ∈ M.views mirrored b)
    (ht : t ∈ M.views mirrored b) (he : view s (whiteSetup b ep) = view t (whiteSetup b ep)) :
    s = t := by
  have hfix : (⟨t⁻¹ * s, false⟩ : Transform).setup (whiteSetup b ep) = whiteSetup b ep := by
    have := congrArg (view t⁻¹) he
    rw [view_view, view_view, inv_mul_cancel] at this
    exact this.trans (Transform.one_setup _)
  have hboard : (⟨t⁻¹ * s, false⟩ : Transform).board b = b := congrArg Setup.board hfix
  have hcan := h.canonical
  rw [← hboard] at hcan
  have hmat : HasMaterial M (whiteSetup b ep) := h.canonical.white.material.congr rfl rfl
  have hfits : (⟨t⁻¹ * s, false⟩ : Transform).Fits b := by
    have hs' := Material.fits_of_mem_views hmat hs
    have ht' := (Material.fits_of_mem_views hmat ht).inv
    have hsb : (⟨t, true⟩ : Transform).board b = (⟨s, true⟩ : Transform).board b :=
      (congrArg Setup.board he).symm
    have hmul := Transform.Fits.mul (g := (⟨t, true⟩ : Transform).inv) (h := ⟨s, true⟩)
      (b := b) (by rw [← hsb]; exact ht') hs'
    exact hmul
  rcases h.canonical.transform_eq hcan hfits rfl with hone | ⟨hp, hdiag, hd⟩
  · have hst : t⁻¹ * s = 1 := congrArg Transform.symmetry hone
    exact (inv_mul_eq_one.mp hst).symm
  · -- Views of kings on the diagonal do not exchange the axes.
    exfalso
    have hs' := (Material.mem_views_pawnless hp).mp hs hd
    have ht' := (Material.mem_views_pawnless hp).mp ht hd
    have hst : t⁻¹ * s = Symmetry.diagonal := congrArg Transform.symmetry hdiag
    obtain ⟨a, f, x⟩ := s
    obtain ⟨a', f', x'⟩ := t
    simp only at hs' ht'
    subst hs' ht'
    revert hst
    cases a <;> cases f <;> cases a' <;> cases f' <;> decide

variable [Shakmaty] [LawfulShakmaty]

/-- The position of an index of Black, and the view of it that the position is. -/
theorem exists_view (hM : M.nPieces ≤ maxPieces) (hr : Accepted r) (hturn : r.turn = .black)
    (h : HasMaterial M (oriented M mirrored r)) : ∃ k b ep s,
      M.indexer.positionToIndexImpl mirrored r = .ok k ∧ Indexes M k b ep ∧
        s ∈ M.views mirrored b ∧ r = view s (whiteSetup b ep) := by
  obtain ⟨g, k, b, ep, hk, hc, henc⟩ := positionToIndexImpl_eq hM hr.valid h
  have hrecolor : g.recolor = true := by
    have hcolor := hc.color
    rw [hturn] at hcolor
    by_contra hne
    rw [Bool.not_eq_true] at hne
    unfold Transform.color at hcolor
    rw [hne] at hcolor
    cases hcolor
  refine ⟨k, b, ep, g.symmetry⁻¹, hk, hc.indexes, hc.mem_views henc hturn, ?_⟩
  have hset := hc.setup
  rw [hr.normalize_eq] at hset
  exact Transform.eq_view hrecolor hset

/-- **The positions of Black** that a table gives an index are the views of its position. -/
theorem positionToIndexImpl_eq_iff (hM : M.nPieces ≤ maxPieces) (hi : Indexes M i b ep)
    (hr : Accepted r) (hturn : r.turn = .black) (h : HasMaterial M (oriented M mirrored r)) :
    M.indexer.positionToIndexImpl mirrored r = .ok i ↔
      ∃ s ∈ M.views mirrored b, r = view s (whiteSetup b ep) := by
  obtain ⟨k, b', ep', s', hk, hk', hs', hrs'⟩ := exists_view hM hr hturn h
  constructor
  · intro hidx
    obtain rfl : k = i := Except.ok.inj (hk.symm.trans hidx)
    obtain ⟨rfl, rfl⟩ := hk'.eq_setup hi
    exact ⟨s', hs', hrs'⟩
  · rintro ⟨s, hs, hrs⟩
    rw [hk]
    refine congrArg _ ?_
    -- Both setups are canonical, and images of each other.
    have hset : (⟨s'⁻¹ * s, false⟩ : Transform).setup (whiteSetup b ep) = whiteSetup b' ep' := by
      have he := congrArg (view s'⁻¹) (hrs'.symm.trans hrs)
      rw [view_view, view_view, inv_mul_cancel] at he
      exact he.symm.trans (Transform.one_setup _)
    have hboard : (⟨s'⁻¹ * s, false⟩ : Transform).board b = b' := congrArg Setup.board hset
    have hcan := hk'.canonical
    rw [← hboard] at hcan
    have hmat : HasMaterial M (whiteSetup b ep) := hi.canonical.white.material.congr rfl rfl
    have hmat' : HasMaterial M (whiteSetup b' ep') := hk'.canonical.white.material.congr rfl rfl
    have hfits : (⟨s'⁻¹ * s, false⟩ : Transform).Fits b := by
      have hsb : (⟨s', true⟩ : Transform).board b' = (⟨s, true⟩ : Transform).board b :=
        congrArg Setup.board (hrs'.symm.trans hrs)
      have hinv := (Material.fits_of_mem_views hmat' hs').inv
      have hmul := Transform.Fits.mul (g := (⟨s', true⟩ : Transform).inv) (h := ⟨s, true⟩)
        (b := b) (by rw [← hsb]; exact hinv) (Material.fits_of_mem_views hmat hs)
      exact hmul
    rcases hi.canonical.transform_eq hcan hfits rfl with hone | ⟨hp, hdiag, hd⟩
    · rw [hone, Transform.one_setup] at hset
      obtain ⟨rfl, rfl⟩ := whiteSetup_injective hset
      exact hk'.eq_index hi
    · exfalso
      rw [hdiag] at hboard
      have hd' : KingsDiagonal b' := hboard ▸ hd.board_diagonal
      have hs₁ := (Material.mem_views_pawnless hp).mp hs hd
      have hs₂ := (Material.mem_views_pawnless hp).mp hs' hd'
      have hst : s'⁻¹ * s = Symmetry.diagonal := congrArg Transform.symmetry hdiag
      obtain ⟨a, f, x⟩ := s
      obtain ⟨a', f', x'⟩ := s'
      simp only at hs₁ hs₂
      subst hs₁ hs₂
      revert hst
      cases a <;> cases f <;> cases a' <;> cases f' <;> decide

end

end ChessEgt
