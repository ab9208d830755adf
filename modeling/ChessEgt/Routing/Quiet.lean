import ChessEgt.Routing.Twin

/-!
# The material after a quiet move

* `Board.relocate_eq_swap` — a relocation to an empty square exchanges two squares;
* `PawnPush.lt_of_lt` — pushed pawns do not pass other pieces of their file;
* `HasMaterial.play` — quiet moves lead to the twin of the material.
-/

namespace ChessEgt

open Rules

/-! ### Relocations as exchanges of squares -/

theorem Board.relocate_eq_swap {b : Board} {s t : Square} {pc : Piece} (hs : b s = some pc)
    (ht : b t = none) (u : Square) : b.relocate s t u = b (Equiv.swap s t u) := by
  rw [Board.relocate_apply hs]
  by_cases hut : u = t
  · rw [if_pos hut, hut, Equiv.swap_apply_right, hs]
  rw [if_neg hut]
  by_cases hus : u = s
  · rw [if_pos hus, hus, Equiv.swap_apply_left, ht]
  · rw [if_neg hus, Equiv.swap_apply_of_ne_of_ne hus hut]

/-- Exchanging squares does not change the number of pieces of a kind. -/
theorem Board.count_relocate {b : Board} {s t : Square} {pc : Piece} (hs : b s = some pc)
    (ht : b t = none) (x : Piece) :
    ((b.relocate s t).byPiece x).count = (b.byPiece x).count := by
  have hperm : ((b.relocate s t).byPiece x).toList.Perm
      ((b.byPiece x).toList.map (Equiv.swap s t)) := by
    refine (List.perm_ext_iff_of_nodup (Bitboard.nodup_toList _)
      ((Bitboard.nodup_toList _).map (Equiv.injective _))).mpr (fun u => ?_)
    rw [Bitboard.mem_toList, Board.byPiece_apply, decide_eq_true_eq, relocate_eq_swap hs ht,
      List.mem_map]
    simp only [Bitboard.mem_toList, Board.byPiece_apply, decide_eq_true_eq]
    constructor
    · exact fun h => ⟨_, h, Equiv.swap_apply_self s t u⟩
    · rintro ⟨v, hv, rfl⟩
      rw [Equiv.swap_apply_self]; exact hv
  have := hperm.length_eq
  rwa [List.length_map] at this

/-! ### Pawn pushes -/

namespace Rules.PawnPush

variable {b : Board} {c : Color} {s t : Square}

theorem lt (h : PawnPush b c s t) : c.relativeRank s.rank < c.relativeRank t.rank := by
  obtain ⟨-, -, h | ⟨h₁, h₃, -⟩⟩ := h
  · rw [Fin.lt_def]; omega
  · rw [h₁, h₃]; decide

/-- Pieces in front of a pawn stay in front of it. -/
theorem lt_of_lt (h : PawnPush b c s t) {u : Square} (hfile : u.file = s.file)
    (hu : b u ≠ none) (hlt : c.relativeRank s.rank < c.relativeRank u.rank) :
    c.relativeRank t.rank < c.relativeRank u.rank := by
  obtain ⟨hst, ht, hstep⟩ := h
  have hne : c.relativeRank u.rank ≠ c.relativeRank t.rank := by
    intro he
    refine hu ?_
    rw [show u = t from Square.ext (Color.relativeRank_inj.mp he) (hfile.trans hst), ht]
  rw [Fin.lt_def] at hlt ⊢
  rw [Ne, Fin.ext_iff] at hne
  rcases hstep with h | ⟨h₁, h₃, hmid⟩
  · omega
  · -- The square passed by a double push is empty.
    have hne₂ : c.relativeRank u.rank ≠ 2 := by
      intro he
      refine hu ?_
      have hsq : u = relativeSquare c 2 s.file := by
        refine Square.ext ?_ hfile
        rw [relativeSquare, ← he, Color.relativeRank_relativeRank]
      rw [hsq, hmid]
    rw [Ne, Fin.ext_iff] at hne₂
    rw [h₁] at hlt
    rw [h₃] at hne ⊢
    have : ((1 : Rank) : ℕ) = 1 := rfl
    have : ((2 : Rank) : ℕ) = 2 := rfl
    have : ((3 : Rank) : ℕ) = 3 := rfl
    omega

end Rules.PawnPush

/-! ### Quiet moves -/

/-- What a legal quiet move does: a piece goes to an empty square, and a pawn goes forward on
    its file without passing a piece. -/
structure QuietMove (p : Chess) (r : Role) (s t : Square) : Prop where
  source : p.board s = some ⟨p.turn, r⟩
  target : p.board t = none
  push : r = .pawn → PawnPush p.board p.turn s t ∧ p.turn.relativeRank t.rank ≠ 7

theorem Rules.PseudoLegal.quiet {p : Chess} {r : Role} {s t : Square}
    (h : PseudoLegal p (.normal r s none t none)) : QuietMove p r s t := by
  obtain ⟨hs, hc, -, hmove⟩ := h
  have ht : p.board t = none := by
    cases hb : p.board t with
    | none => rfl
    | some x => rw [hb] at hc; cases hc
  refine ⟨hs, ht, fun hr => ?_⟩
  rw [if_pos hr] at hmove
  refine ⟨?_, fun h7 => ?_⟩
  · rcases hmove.2 with ⟨hocc, -⟩ | hpush
    · simp [ht] at hocc
    · exact hpush
  · have hpr := hmove.1
    unfold PromotionRule at hpr
    rw [if_pos h7] at hpr
    simp at hpr

section Successor

variable {M : Material} {p : Chess} {r : Role} {s t : Square}

theorem EgtSide.ofColor_other (c turn : Color) :
    EgtSide.ofColor c turn.other = (EgtSide.ofColor c turn).reverse := by
  cases c <;> cases turn <;> rfl

/-- The board after a quiet move. -/
theorem QuietMove.board (h : QuietMove p r s t) (u : Square) :
    (play p (.normal r s none t none)).board u = p.board (Equiv.swap s t u) := by
  show playBoard p.board p.turn (.normal r s none t none) u = _
  rw [playBoard_quiet h.source, Board.relocate_eq_swap h.source h.target]

theorem QuietMove.board_swap (h : QuietMove p r s t) (u : Square) :
    (play p (.normal r s none t none)).board (Equiv.swap s t u) = p.board u := by
  rw [h.board, Equiv.swap_apply_self]

/-- Exchanging the squares of a quiet move keeps the files of the pawns. -/
theorem QuietMove.file (h : QuietMove p r s t) {u : Square} {c : Color}
    (hu : p.board u = some ⟨c, .pawn⟩) : (Equiv.swap s t u).file = u.file := by
  have hut : u ≠ t := fun he => by rw [he, h.target] at hu; cases hu
  by_cases hus : u = s
  · subst hus
    have hr : r = .pawn := by
      have := h.source.symm.trans hu
      rw [Option.some.injEq, Piece.mk.injEq] at this
      exact this.2
    rw [Equiv.swap_apply_left, (h.push hr).1.1]
  · rw [Equiv.swap_apply_of_ne_of_ne hus hut]

/-- Quiet moves keep the order of the pawns of a file. -/
theorem QuietMove.lt (h : QuietMove p r s t) {u v : Square} {c c' : Color}
    (hu : p.board u = some ⟨c, .pawn⟩) (hv : p.board v = some ⟨c', .pawn⟩)
    (hfile : u.file = v.file)
    (hlt : p.turn.relativeRank u.rank < p.turn.relativeRank v.rank) :
    p.turn.relativeRank (Equiv.swap s t u).rank
      < p.turn.relativeRank (Equiv.swap s t v).rank := by
  have hne : ∀ {w : Square} {d : Color}, p.board w = some ⟨d, .pawn⟩ → w ≠ t := by
    intro w d hw he
    rw [he, h.target] at hw; cases hw
  have hpawn : ∀ {d : Color}, p.board s = some ⟨d, .pawn⟩ → r = .pawn := by
    intro d hd
    have := h.source.symm.trans hd
    rw [Option.some.injEq, Piece.mk.injEq] at this
    exact this.2
  by_cases hus : u = s
  · subst hus
    have hvs : v ≠ u := fun he => by rw [he] at hlt; exact lt_irrefl _ hlt
    rw [Equiv.swap_apply_left, Equiv.swap_apply_of_ne_of_ne hvs (hne hv)]
    exact (h.push (hpawn hu)).1.lt_of_lt hfile.symm (by rw [hv]; simp) hlt
  rw [Equiv.swap_apply_of_ne_of_ne hus (hne hu)]
  by_cases hvs : v = s
  · subst hvs
    rw [Equiv.swap_apply_left]
    exact lt_trans hlt (h.push (hpawn hv)).1.lt
  · rw [Equiv.swap_apply_of_ne_of_ne hvs (hne hv)]
    exact hlt

/-- The pawns of a file after a quiet move, seen from the other side. -/
theorem QuietMove.pawnsOn (h : QuietMove p r s t) (f : File) :
    pawnsOn (play p (.normal r s none t none)) f
      = ((pawnsOn p f).map (Equiv.swap s t)).reverse := by
  refine pawnsOn_eq ?_ (fun u => ?_)
  · show Ascending p.turn.other _
    unfold Ascending
    rw [List.pairwise_reverse, List.pairwise_map]
    refine ascending_pawnsOn.imp_of_mem (fun {u v} hu hv hlt => ?_)
    obtain ⟨⟨c, hu⟩, huf⟩ := mem_pawnsOn.mp hu
    obtain ⟨⟨c', hv⟩, hvf⟩ := mem_pawnsOn.mp hv
    rw [Color.relativeRank_other, Color.relativeRank_other, Fin.rev_lt_rev]
    exact h.lt hu hv (huf.trans hvf.symm) hlt
  · rw [List.mem_reverse, List.mem_map]
    constructor
    · rintro ⟨v, hv, rfl⟩
      obtain ⟨⟨c, hc⟩, hf⟩ := mem_pawnsOn.mp hv
      exact ⟨⟨c, by rw [h.board_swap, hc]⟩, by rw [h.file hc, hf]⟩
    · rintro ⟨⟨c, hc⟩, hf⟩
      rw [h.board] at hc
      have hfile := h.file hc
      rw [Equiv.swap_apply_self, hf] at hfile
      exact ⟨_, mem_pawnsOn.mpr ⟨⟨c, hc⟩, hfile.symm⟩, Equiv.swap_apply_self s t u⟩

/-- The pawn orders after a quiet move are those before it, seen from the other side. -/
theorem QuietMove.positionOrder (h : QuietMove p r s t) (f : File) :
    positionOrder (play p (.normal r s none t none)) f = flipOrder (positionOrder p f) := by
  unfold ChessEgt.positionOrder flipOrder
  rw [h.pawnsOn, List.map_reverse, List.map_map, List.map_map]
  congr 1
  refine List.map_congr_left (fun u hu => ?_)
  obtain ⟨⟨c, hc⟩, -⟩ := mem_pawnsOn.mp hu
  have hc' := h.board_swap u
  rw [hc] at hc'
  rw [Function.comp_apply, Function.comp_apply, sideAt_eq hc', sideAt_eq hc]
  exact EgtSide.ofColor_other c p.turn

/-- **Quiet moves** lead to the twin of the material. -/
theorem HasMaterial.play (hm : HasMaterial M p) (h : QuietMove p r s t) :
    HasMaterial M.twin (play p (.normal r s none t none)) where
  words f := by rw [h.positionOrder, hm.words]; rfl
  count side x hx := by
    show ((playBoard p.board p.turn (.normal r s none t none)).byPiece
      ⟨side.color p.turn.other, x⟩).count = _
    rw [playBoard_quiet h.source, Board.count_relocate h.source h.target,
      EgtSide.color_other, ← EgtSide.color_reverse, hm.count _ x hx]
    rfl

end Successor

end ChessEgt
