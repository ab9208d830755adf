import ChessEgt.Indexing.Views
import ChessEgt.Retrograde.Predecessors
import ChessEgt.Routing.Quiet
import ChessEgt.Routing.Twin

/-!
# Quiet links between the tables of a pair

* `QuietLink` — a legal quiet move leads from one position to another, up to normalization;
* `QuietLink.setup` — links are kept by the symmetries that fit;
* `QuietLink.hasMaterial`, `QuietLink.hasMaterial_of` — links lead to the twin of a material, and
  from it;
* `links` — the number of views of a position that are linked to another one;
  `links_add_exchanged`, `links_inv` and their like relate the counts of the two tables.
-/

namespace ChessEgt

open Rules Indexer

/-- A legal quiet move leads from `p` to `s`, up to normalization. -/
def QuietLink (p s : Chess) : Prop := ∃ m, Legal p m ∧ m.isQuiet = true ∧ normalize (play p m) = s

/-- Quiet moves are determined by where they lead. -/
theorem eq_of_quiet {p : Chess} {m m' : Move} (hm : Legal p m) (hq : m.isQuiet = true)
    (hm' : Legal p m') (hq' : m'.isQuiet = true)
    (h : normalize (play p m) = normalize (play p m')) : m = m' := by
  obtain ⟨role, a, t, rfl⟩ := Move.isQuiet_iff.mp hq
  obtain ⟨role', a', t', rfl⟩ := Move.isQuiet_iff.mp hq'
  have hmove := hm.1.quiet
  have hmove' := hm'.1.quiet
  have hboard : p.board.relocate a t = p.board.relocate a' t' := by
    rw [← playBoard_quiet hmove.source, ← playBoard_quiet hmove'.source]
    exact (normalize_eq_iff.mp h).1
  obtain ⟨rfl, rfl⟩ := Board.relocate_inj hmove.source hmove.target hmove'.source hmove'.target
    hboard
  have hrole := hmove.source.symm.trans hmove'.source
  simp only [Option.some.injEq, Piece.mk.injEq, true_and] at hrole
  rw [hrole]

namespace QuietLink

variable {M : Material} {p s : Chess}

theorem turn (h : QuietLink p s) : s.turn = p.turn.other := by
  obtain ⟨m, -, -, rfl⟩ := h
  rfl

theorem accepted (h : QuietLink p s) (hp : Valid p) : Accepted s := by
  obtain ⟨m, hm, -, rfl⟩ := h
  exact accepted_normalize (hp.play hm)

/-- Links are kept by the symmetries that fit. -/
theorem setup (h : QuietLink p s) {g : Transform} (hg : g.Fits p.board) :
    QuietLink (g.setup p) (g.setup s) := by
  obtain ⟨m, hm, hq, rfl⟩ := h
  refine ⟨g.move m, (Transform.legal_iff hg m).mpr hm, by rw [Transform.move_isQuiet, hq], ?_⟩
  rw [Transform.play_eq hg hm.1, Transform.normalize_eq (hg.play hm.1)]

theorem setup_iff {g : Transform} (hg : g.Fits p.board) :
    QuietLink (g.setup p) (g.setup s) ↔ QuietLink p s := by
  constructor
  · intro h
    have := h.setup (g := g.inv) hg.inv
    rwa [Transform.inv_setup, Transform.inv_setup] at this
  · exact fun h => h.setup hg

/-- Links lead to the twin of a material. -/
theorem hasMaterial (h : QuietLink p s) (hm : HasMaterial M p) : HasMaterial M.twin s := by
  obtain ⟨m, hlegal, hq, rfl⟩ := h
  obtain ⟨role, a, t, rfl⟩ := Move.isQuiet_iff.mp hq
  exact (hm.play hlegal.1.quiet).normalize

/-- Links to a material come from its twin. -/
theorem hasMaterial_of (h : QuietLink p s) (hm : HasMaterial M s) : HasMaterial M.twin p := by
  obtain ⟨m, hlegal, hq, rfl⟩ := h
  obtain ⟨role, a, t, rfl⟩ := Move.isQuiet_iff.mp hq
  have hmove := hlegal.1.quiet
  refine ⟨fun f => ?_, fun side x hx => ?_⟩
  · have hw : positionOrder (play p (.normal role a none t none)) f = M.words f := hm.words f
    rw [hmove.positionOrder] at hw
    show positionOrder p f = flipOrder (M.words f)
    rw [← hw, flipOrder_flipOrder]
  · have hc : ((playBoard p.board p.turn (.normal role a none t none)).byPiece
        ⟨side.reverse.color p.turn.other, x⟩).count = M.count side.reverse x :=
      hm.count side.reverse x hx
    rw [playBoard_quiet hmove.source, Board.count_relocate hmove.source hmove.target,
      EgtSide.color_other, ← EgtSide.color_reverse, EgtSide.reverse_reverse] at hc
    exact hc

/-- A view can be taken of either end of a link. -/
theorem view_iff {σ : Symmetry} (hg : (⟨σ, true⟩ : Transform).Fits p.board) :
    QuietLink (view σ p) s ↔ QuietLink p (view σ⁻¹ s) := by
  rw [← setup_iff (s := view σ⁻¹ s) hg]
  show _ ↔ QuietLink (view σ p) (view σ (view σ⁻¹ s))
  rw [view_view_inv]

/-- Reflections of the end of a link are reflections of its start. -/
theorem setup_right_iff {t : Symmetry} (hg : (⟨t⁻¹, false⟩ : Transform).Fits p.board) :
    QuietLink p ((⟨t, false⟩ : Transform).setup s)
      ↔ QuietLink ((⟨t⁻¹, false⟩ : Transform).setup p) s := by
  have hundo : (⟨t⁻¹, false⟩ : Transform).setup ((⟨t, false⟩ : Transform).setup s) = s := by
    rw [← Transform.mul_setup]
    have hone : (⟨t⁻¹, false⟩ : Transform) * ⟨t, false⟩ = 1 :=
      Transform.ext (inv_mul_cancel t) rfl
    rw [hone, Transform.one_setup]
  rw [← setup_iff hg, hundo]

end QuietLink

/-! ### Counting linked views -/

open Classical in
/-- The number of symmetries of `S` under which the view of `p` is linked to `s`. -/
noncomputable def links (S : Finset Symmetry) (p s : Chess) : ℕ :=
  (S.filter fun σ => QuietLink (view σ p) s).card

/-- The symmetries that exchange the axes, or those that do not. -/
def withAxes (swap : Bool) : Finset Symmetry := Finset.univ.filter fun σ => σ.swapAxes = swap

theorem Material.views_onDiagonal {M : Material} {b : Board} (mirrored : Bool) (hp : M.nPawns = 0)
    (hd : KingsDiagonal b) : M.views mirrored b = withAxes false := by
  ext s
  rw [mem_views_pawnless hp, withAxes, Finset.mem_filter, and_iff_right (Finset.mem_univ _),
    forall_prop_of_true hd]

theorem Material.views_offDiagonal {M : Material} {b : Board} (mirrored : Bool) (hp : M.nPawns = 0)
    (hd : ¬ KingsDiagonal b) : M.views mirrored b = Finset.univ := by
  ext s
  rw [mem_views_pawnless hp]
  exact iff_of_true (fun h => absurd h hd) (Finset.mem_univ s)

section Links

variable {S : Finset Symmetry} {p s : Chess}

/-- All symmetries are the ones with either state of the axes. -/
theorem links_univ (p s : Chess) :
    links Finset.univ p s = links (withAxes false) p s + links (withAxes true) p s := by
  classical
  have hunion : (Finset.univ : Finset Symmetry) = withAxes false ∪ withAxes true := by decide
  have hdisjoint : Disjoint (withAxes false) (withAxes true) := by decide
  unfold links
  rw [hunion, Finset.filter_union]
  exact Finset.card_union_of_disjoint (Finset.disjoint_filter_filter hdisjoint)

/-- Counting over a translate of the symmetries. -/
theorem links_image {f : Symmetry → Symmetry} (hf : Function.Injective f) {p' s' : Chess}
    (h : ∀ σ, QuietLink (view σ p) s ↔ QuietLink (view (f σ) p') s') :
    links S p s = links (S.image f) p' s' := by
  classical
  unfold links
  rw [Finset.filter_image, Finset.card_image_of_injective _ hf]
  simp only [h]

/-- The views of the reflected position exchange the axes. -/
theorem links_diagonal_left (S : Finset Symmetry) (p s : Chess) :
    links S (Transform.diagonal.setup p) s = links (S.image (· * Symmetry.diagonal)) p s := by
  refine links_image (mul_left_injective _) fun σ => ?_
  rw [← view_setup σ Symmetry.diagonal p]
  rfl

theorem links_diagonal_right (hp : Transform.Pawnless p.board) (S : Finset Symmetry) (s : Chess) :
    links S p (Transform.diagonal.setup s) = links (S.image (Symmetry.diagonal * ·)) p s := by
  refine links_image (mul_right_injective _) fun σ => ?_
  have hv : Transform.Pawnless (view σ p).board := Transform.pawnless_board _ hp
  rw [← setup_view σ Symmetry.diagonal p]
  exact QuietLink.setup_right_iff (t := Symmetry.diagonal) (Or.inr hv)

theorem withAxes_diagonal : (withAxes false).image (· * Symmetry.diagonal) = withAxes true ∧
    (withAxes false).image (Symmetry.diagonal * ·) = withAxes true := by decide

theorem univ_diagonal : (Finset.univ : Finset Symmetry).image (Symmetry.diagonal * ·)
    = Finset.univ := by decide

open Classical in
/-- The views of the end of a link are counted by the views of its start. -/
theorem card_filter_view_eq (hinv : S.image (·⁻¹) = S)
    (hfits : ∀ σ ∈ S, (⟨σ, true⟩ : Transform).Fits p.board) :
    (S.filter fun σ => QuietLink p (view σ s)).card = links S p s := by
  unfold links
  refine Finset.card_nbij' (·⁻¹) (·⁻¹) ?_ ?_ (fun σ _ => inv_inv σ) (fun σ _ => inv_inv σ)
  · intro σ hσ
    obtain ⟨hmem, hlink⟩ := Finset.mem_filter.mp hσ
    have hmem' : σ⁻¹ ∈ S := hinv ▸ Finset.mem_image_of_mem _ hmem
    refine Finset.mem_filter.mpr ⟨hmem', ?_⟩
    rw [QuietLink.view_iff (hfits _ hmem'), inv_inv]
    exact hlink
  · intro σ hσ
    obtain ⟨hmem, hlink⟩ := Finset.mem_filter.mp hσ
    refine Finset.mem_filter.mpr ⟨hinv ▸ Finset.mem_image_of_mem _ hmem, ?_⟩
    rwa [QuietLink.view_iff (hfits _ hmem)] at hlink

end Links

end ChessEgt
