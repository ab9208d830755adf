import ChessEgt.Chess.Symmetry

/-!
# Legal moves and valid positions

* `Rules.Valid.play` — legal moves lead from valid positions to valid positions;
* `Rules.normalize` — an en passant square without a legal capture changes nothing;
* `Board.relocate` — the effect of a quiet move on the board, and of its reversal.
-/

namespace ChessEgt

namespace Rules

/-! ### Geometry -/

theorem Between.comm {s t u : Square} (h : Between s t u) : Between t s u := by
  obtain ⟨h₁, h₂, h₃, h₄, h₅⟩ := h
  have e₁ := rankDist_comm s u
  have e₂ := rankDist_comm u t
  have e₃ := rankDist_comm s t
  have e₄ := fileDist_comm s u
  have e₅ := fileDist_comm u t
  have e₆ := fileDist_comm s t
  refine ⟨h₂, h₁, by omega, by omega, fun h => ?_⟩
  have := h₅ (by omega)
  omega

/-- Emptying the ends of a line does not matter to the squares between them. -/
theorem clear_congr {occ occ' : Bitboard} {s t : Square}
    (h : ∀ u, u ≠ s → u ≠ t → occ u = occ' u) : Clear occ s t ↔ Clear occ' s t := by
  unfold Clear
  refine forall_congr' (fun u => imp_congr_right (fun hb => ?_))
  rw [h u hb.1 hb.2.1]

theorem clear_comm {occ : Bitboard} {s t : Square} : Clear occ s t ↔ Clear occ t s :=
  ⟨fun h u hu => h u hu.comm, fun h u hu => h u hu.comm⟩

theorem straight_comm {s t : Square} : Straight s t ↔ Straight t s := by
  unfold Straight; rw [rankDist_comm s t, fileDist_comm s t]

theorem diagonal_comm {s t : Square} : Diagonal s t ↔ Diagonal t s := by
  unfold Diagonal; rw [rankDist_comm s t, fileDist_comm s t]

/-- An attack looks at the occupancy strictly between its ends only. -/
theorem attacks_congr {occ occ' : Bitboard} {pc : Piece} {s t : Square}
    (h : ∀ u, u ≠ s → u ≠ t → occ u = occ' u) : Attacks occ pc s t ↔ Attacks occ' pc s t := by
  unfold Attacks
  cases pc.role <;> simp only [clear_congr h]

/-- Pieces other than pawns attack back. -/
theorem attacks_comm {occ : Bitboard} {pc : Piece} (hr : pc.role ≠ .pawn) {s t : Square} :
    Attacks occ pc s t ↔ Attacks occ pc t s := by
  unfold Attacks
  cases h : pc.role with
  | pawn => exact absurd h hr
  | knight => simp only [rankDist_comm s t, fileDist_comm s t]
  | bishop => simp only [diagonal_comm (s := s), clear_comm (s := s)]
  | rook => simp only [straight_comm (s := s), clear_comm (s := s)]
  | queen => simp only [straight_comm (s := s), diagonal_comm (s := s), clear_comm (s := s)]
  | king => simp only [rankDist_comm s t, fileDist_comm s t, ne_comm (a := s)]

theorem Attacks.ne {occ : Bitboard} {pc : Piece} {s t : Square} (h : Attacks occ pc s t) :
    s ≠ t := by
  rintro rfl
  unfold Attacks at h
  have hr : rankDist s s = 0 := by simp [rankDist]
  have hf : fileDist s s = 0 := by simp [fileDist]
  revert h
  cases pc.role <;> simp [Straight, Diagonal, hr, hf]

theorem PawnPush.ne {b : Board} {c : Color} {s t : Square} (h : PawnPush b c s t) : s ≠ t := by
  rintro rfl
  rcases h.2.2 with h | ⟨h, h', -⟩
  · omega
  · rw [h] at h'; exact absurd h' (by decide)

/-! ### Legal moves -/

section Moves

variable {p : Setup} {m : Move}

theorem PseudoLegal.source_eq (h : PseudoLegal p m) : p.board m.source = some ⟨p.turn, m.role⟩ := by
  cases m with
  | normal r s c t pr => exact h.1
  | enPassant s t => exact h.1

theorem PseudoLegal.ne (h : PseudoLegal p m) : m.source ≠ m.target := by
  cases m with
  | normal r s c t pr =>
    have h := h.2.2.2
    split at h
    · rcases h.2 with ⟨-, h⟩ | h
      · exact h.ne
      · exact h.ne
    · exact h.2.ne
  | enPassant s t => exact h.2.2.ne

/-- Moves never land on an own piece. -/
theorem PseudoLegal.target_color (hv : EpStructure p) (h : PseudoLegal p m) :
    p.board.byColor p.turn m.target = false := by
  cases m with
  | normal r s c t pr => exact h.2.2.1
  | enPassant s t =>
    obtain ⟨-, -, hn, -⟩ := hv _ h.2.1
    simp [Move.target, Board.byColor, hn]

/-- A capture by a normal move is an attack on the captured piece. -/
theorem PseudoLegal.attacks {r : Role} {s t : Square} {c pr : Option Role}
    (h : PseudoLegal p (.normal r s c t pr)) (ht : p.board t ≠ none) :
    Attacks p.board.occupied ⟨p.turn, r⟩ s t := by
  have h' := h.2.2.2
  split at h'
  next hr =>
    subst hr
    rcases h'.2 with ⟨-, h'⟩ | h'
    · exact h'
    · exact absurd h'.2.1 ht
  next => exact h'.2

/-- The opponent's king cannot be captured. -/
theorem PseudoLegal.target_ne_king (hv : Valid p) (h : PseudoLegal p m) :
    p.board m.target ≠ some ⟨p.turn.other, .king⟩ := by
  intro hk
  cases m with
  | normal r s c t pr =>
    refine hv.opposite ⟨t, hk, s, ?_⟩
    rw [attackedFrom_iff, Color.other_other]
    exact ⟨_, h.1, rfl, h.attacks (by rw [Move.target] at hk; rw [hk]; simp)⟩
  | enPassant s t =>
    obtain ⟨-, -, hn, -⟩ := hv.epStructure _ h.2.1
    rw [Move.target] at hk
    rw [hn] at hk; cases hk

/-- The square of the pawn that an en passant capture takes. -/
theorem Valid.epCaptured (hv : Valid p) {s t : Square} (h : PseudoLegal p (.enPassant s t)) :
    (⟨s.rank, t.file⟩ : Square) = relativeSquare p.turn 4 t.file ∧
      p.board ⟨s.rank, t.file⟩ = some ⟨p.turn.other, .pawn⟩ := by
  obtain ⟨h₁, h₂, -, -⟩ := hv.epStructure _ h.2.1
  have ha : (p.turn.relativeRank t.rank).val = (p.turn.relativeRank s.rank).val + 1 := h.2.2.2
  have heq : (⟨s.rank, t.file⟩ : Square) = relativeSquare p.turn 4 t.file := by
    ext1
    · rw [relativeSquare, ← Color.relativeRank_inj (c := p.turn), Color.relativeRank_relativeRank]
      rw [h₁] at ha
      rw [Fin.ext_iff]
      simp only [Fin.isValue] at ha ⊢
      have : ((5 : Rank) : ℕ) = 5 := rfl
      have : ((4 : Rank) : ℕ) = 4 := rfl
      omega
    · rfl
  exact ⟨heq, by rw [heq]; exact h₂⟩

/-- What a move leaves on the squares other than its own. -/
theorem playBoard_of_ne {b : Board} {c : Color} {u : Square} (hs : u ≠ m.source)
    (ht : u ≠ m.target) (he : ∀ s t, m = .enPassant s t → u ≠ ⟨s.rank, t.file⟩) :
    playBoard b c m u = b u := by
  cases m with
  | normal r s cp t pr => simp only [playBoard, Move.source, Move.target] at *; simp [hs, ht]
  | enPassant s t =>
    simp only [playBoard, Move.source, Move.target] at *
    simp [hs, ht, he s t rfl]

theorem playBoard_target (b : Board) (c : Color) : playBoard b c m m.target
    = some ⟨c, match m with
      | .normal r _ _ _ pr => pr.getD r
      | .enPassant _ _ => .pawn⟩ := by
  cases m <;> simp [playBoard, Move.target]

/-- The piece left on a square after a move: the moved piece or a piece that stood there. -/
theorem playBoard_eq_some {b : Board} {c : Color} {u : Square} {pc : Piece}
    (h : playBoard b c m u = some pc) : (u = m.target ∧ pc.color = c) ∨
      (u ≠ m.target ∧ u ≠ m.source ∧ b u = some pc) := by
  cases m with
  | normal r s cp t pr =>
    simp only [playBoard] at h
    split at h
    next hu => cases h; exact Or.inl ⟨hu, rfl⟩
    next hu =>
      split at h
      · cases h
      · exact Or.inr ⟨hu, ‹_›, h⟩
  | enPassant s t =>
    simp only [playBoard] at h
    split at h
    next hu => cases h; exact Or.inl ⟨hu, rfl⟩
    next hu =>
      split at h
      · cases h
      next hn => exact Or.inr ⟨hu, fun hs => hn (Or.inl hs), h⟩

theorem PromotionRule.ne {c : Color} {t : Square} {pr : Option Role}
    (h : PromotionRule c t pr) : pr ≠ some .king ∧ pr ≠ some .pawn := by
  unfold PromotionRule at h
  split at h
  · rcases h with rfl | rfl | rfl | rfl <;> simp
  · subst h; simp

theorem PseudoLegal.promotion_eq_none {r : Role} {s t : Square} {c pr : Option Role}
    (h : PseudoLegal p (.normal r s c t pr)) (hr : r ≠ .pawn) : pr = none := by
  have h' := h.2.2.2
  rw [if_neg hr] at h'
  exact h'.1

/-- The king moves as a king and no other piece becomes one. -/
theorem PseudoLegal.king_moves {r : Role} {s t : Square} {c pr : Option Role}
    (h : PseudoLegal p (.normal r s c t pr)) : pr.getD r = .king ↔ r = .king := by
  constructor
  · intro hk
    cases pr with
    | none => exact hk
    | some x =>
      have h' := h.2.2.2
      split at h'
      · exact absurd (congrArg some hk) h'.1.ne.1
      · exact absurd h'.1 (by simp)
  · rintro rfl
    rw [h.promotion_eq_none (by decide)]; rfl

theorem oneKing_playBoard (hv : Valid p) (h : PseudoLegal p m) :
    OneKing (playBoard p.board p.turn m) := by
  intro c
  obtain ⟨k, hk⟩ := hv.kings c
  have hkk := (hk k).mpr rfl
  have hsource := h.source_eq
  have htarget := h.target_color hv.epStructure
  by_cases hmove : c = p.turn ∧ m.role = .king
  · -- The moving king ends on the target square.
    obtain ⟨rfl, hr⟩ := hmove
    rw [hr] at hsource
    have hks := (hk _).mp hsource
    cases m with
    | enPassant s t => cases hr
    | normal r s cp t pr =>
      have hrk : r = .king := hr
      refine ⟨t, fun u => ⟨fun hu => ?_, ?_⟩⟩
      · rcases playBoard_eq_some hu with ⟨hu', -⟩ | ⟨-, hne, hu'⟩
        · exact hu'
        · exact absurd ((hk u).mp hu') (by rw [← hks]; exact hne)
      · rintro rfl
        have := playBoard_target (m := .normal r s cp u pr) p.board p.turn
        simp only [Move.target, h.king_moves.mpr hrk] at this
        exact this
  · -- The king stays where it is.
    have hks : k ≠ m.source := by
      rintro rfl
      rw [hsource, Option.some.injEq, Piece.mk.injEq] at hkk
      exact hmove ⟨hkk.1.symm, hkk.2⟩
    have hkt : k ≠ m.target := by
      rintro rfl
      rcases Color.eq_or_eq_other c p.turn with rfl | rfl
      · simp [Board.byColor, hkk] at htarget
      · exact h.target_ne_king hv hkk
    refine ⟨k, fun u => ⟨fun hu => ?_, ?_⟩⟩
    · rcases playBoard_eq_some hu with ⟨rfl, hc⟩ | ⟨-, -, hu'⟩
      · exfalso
        rw [playBoard_target, Option.some.injEq, Piece.mk.injEq] at hu
        refine hmove ⟨hc, ?_⟩
        cases m with
        | normal r s cp t pr => exact h.king_moves.mp hu.2
        | enPassant s t => exact absurd hu.2 (by simp)
      · exact (hk u).mp hu'
    · rintro rfl
      rw [playBoard_of_ne hks hkt, hkk]
      rintro s t rfl rfl
      rw [(hv.epCaptured h).2] at hkk
      simp at hkk

theorem pawnRanks_playBoard (hv : Valid p) (h : PseudoLegal p m) :
    PawnRanks (playBoard p.board p.turn m) := by
  intro u pc hu hr
  rcases playBoard_eq_some hu with ⟨rfl, -⟩ | ⟨-, -, hu'⟩
  · -- A pawn arrives below the last rank and above the first.
    rw [playBoard_target, Option.some.injEq] at hu
    subst hu
    have hrel : p.turn.relativeRank m.target.rank ≠ 7 ∧
        p.turn.relativeRank m.target.rank ≠ 0 := by
      cases m with
      | normal r s cp t pr =>
        simp only at hr
        have h' := h.2.2.2
        by_cases hrp : r = .pawn
        · rw [if_pos hrp] at h'
          simp only [Move.target]
          constructor
          · intro h7
            have hpr := h'.1
            unfold PromotionRule at hpr
            rw [if_pos h7] at hpr
            rcases hpr with rfl | rfl | rfl | rfl <;> cases hr
          · intro h0
            rcases h'.2 with ⟨-, h'⟩ | h'
            · have : (p.turn.relativeRank t.rank).val = (p.turn.relativeRank s.rank).val + 1 := h'.2
              rw [h0] at this
              exact absurd this (by simp)
            · rcases h'.2.2 with h' | ⟨-, h', -⟩
              · rw [h0] at h'; exact absurd h' (by simp)
              · rw [h0] at h'; exact absurd h' (by decide)
        · rw [h.promotion_eq_none hrp] at hr
          exact absurd hr hrp
      | enPassant s t =>
        obtain ⟨h₁, -⟩ := hv.epStructure _ h.2.1
        simp only [Move.target, h₁]
        decide
    revert hrel
    generalize m.target.rank = x
    cases p.turn <;> revert x <;> decide
  · exact hv.pawns u pc hu' hr

theorem epStructure_play (hv : Valid p) (h : PseudoLegal p m) : EpStructure (play p m) := by
  intro ep hep
  simp only [play] at hep ⊢
  cases m with
  | enPassant s t => cases hep
  | normal r s c t pr =>
    simp only [playEpSquare] at hep
    split at hep
    swap
    · cases hep
    next hd =>
      obtain ⟨rfl, hs, ht⟩ := hd
      rw [Option.some.injEq] at hep
      subst hep
      have h' := h.2.2.2
      rw [if_pos rfl] at h'
      have hpr : pr = none := by
        have := h'.1
        unfold PromotionRule at this
        rwa [if_neg (by rw [ht]; decide)] at this
      have hpush : PawnPush p.board p.turn s t := by
        rcases h'.2 with ⟨-, h'⟩ | h'
        · have : (p.turn.relativeRank t.rank).val = (p.turn.relativeRank s.rank).val + 1 := h'.2
          rw [hs, ht] at this
          exact absurd this (by decide)
        · exact h'
      have hmid : p.board (relativeSquare p.turn 2 s.file) = none := by
        rcases hpush.2.2 with h' | ⟨-, -, h'⟩
        · rw [hs, ht] at h'; exact absurd h' (by decide)
        · exact h'
      have htsq : t = relativeSquare p.turn 3 s.file := by
        ext1
        · rw [← Color.relativeRank_inj (c := p.turn), ht]
          simp [relativeSquare]
        · exact hpush.1.symm
      have hssq : s = relativeSquare p.turn 1 s.file := by
        ext1
        · rw [← Color.relativeRank_inj (c := p.turn), hs]
          simp [relativeSquare]
        · rfl
      have hrel : ∀ (x : Rank), p.turn.other.relativeRank x = p.turn.relativeRank x.rev := by
        intro x; rw [Color.relativeRank_other, Color.relativeRank_rev]
      have hne : ∀ x y : Rank, x ≠ y → relativeSquare p.turn x s.file ≠
          relativeSquare p.turn y s.file := by
        intro x y hxy he
        simp only [relativeSquare, Square.mk.injEq, Color.relativeRank_inj, and_true] at he
        exact hxy he
      have h4 : relativeSquare p.turn.other 4 s.file = relativeSquare p.turn 3 s.file := by
        simp only [relativeSquare, hrel]; rfl
      have h6 : relativeSquare p.turn.other 6 s.file = relativeSquare p.turn 1 s.file := by
        simp only [relativeSquare, hrel]; rfl
      refine ⟨?_, ?_, ?_, ?_⟩
      · simp only [relativeSquare, hrel, ← Color.relativeRank_rev]
        rw [Color.relativeRank_relativeRank]; rfl
      · show playBoard _ _ _ (relativeSquare p.turn.other 4 s.file) = _
        rw [h4, ← htsq, Color.other_other, hpr]
        simp [playBoard]
      · have e1 : relativeSquare p.turn 2 s.file ≠ t := by rw [htsq]; exact hne _ _ (by decide)
        have e2 : relativeSquare p.turn 2 s.file ≠ s := by
          rw [hssq]; exact hne 2 1 (by decide)
        simp only [playBoard, if_neg e1, if_neg e2, hmid]
      · show playBoard _ _ _ (relativeSquare p.turn.other 6 s.file) = _
        rw [h6, ← hssq]
        have e1 : s ≠ t := hpush.ne
        simp [playBoard, e1]

/-- Legal moves keep positions valid. -/
theorem Valid.play (hv : Valid p) (h : Legal p m) : Valid (play p m) where
  castling := hv.castling
  kings := oneKing_playBoard hv h.1
  pawns := pawnRanks_playBoard hv h.1
  opposite := by
    show ¬ KingAttacked (playBoard p.board p.turn m) p.turn.other.other
    rw [Color.other_other]; exact h.2
  epStructure := epStructure_play hv h.1

end Moves

/-! ### En passant squares -/

section Normalize

variable {p : Setup} {m : Move}

theorem legalEp_eq_some {ep : Square} : legalEp p = some ep ↔
    p.epSquare = some ep ∧ ∃ s, Legal p (.enPassant s ep) := by
  unfold legalEp
  rw [Option.filter_eq_some_iff]
  simp

@[simp] theorem normalize_board (p : Setup) : (normalize p).board = p.board := rfl
@[simp] theorem normalize_turn (p : Setup) : (normalize p).turn = p.turn := rfl
@[simp] theorem normalize_epSquare (p : Setup) : (normalize p).epSquare = legalEp p := rfl
@[simp] theorem normalize_castlingRights (p : Setup) :
    (normalize p).castlingRights = p.castlingRights := rfl

/-- Normalization does not change the legal moves. -/
theorem legal_normalize : Legal (normalize p) m ↔ Legal p m := by
  cases m with
  | normal r s c t pr => exact Iff.rfl
  | enPassant s t =>
    constructor
    · rintro ⟨⟨h₁, h₂, h₃⟩, h₄⟩
      exact ⟨⟨h₁, (legalEp_eq_some.mp h₂).1, h₃⟩, h₄⟩
    · rintro ⟨⟨h₁, h₂, h₃⟩, h₄⟩
      exact ⟨⟨h₁, legalEp_eq_some.mpr ⟨h₂, s, ⟨h₁, h₂, h₃⟩, h₄⟩, h₃⟩, h₄⟩

theorem play_normalize (p : Setup) (m : Move) : play (normalize p) m = play p m := rfl

@[simp] theorem legalEp_normalize (p : Setup) : legalEp (normalize p) = legalEp p := by
  ext ep
  simp only [legalEp_eq_some, normalize_epSquare, legal_normalize]
  exact ⟨fun h => h.1, fun h => ⟨h, h.2⟩⟩

@[simp] theorem normalize_normalize (p : Setup) : normalize (normalize p) = normalize p := by
  unfold normalize
  rw [show legalEp { p with epSquare := legalEp p } = legalEp p from legalEp_normalize p]

theorem Valid.normalize (hv : Valid p) : Valid (normalize p) where
  castling := hv.castling
  kings := hv.kings
  pawns := hv.pawns
  opposite := hv.opposite
  epStructure := fun ep hep => hv.epStructure ep (legalEp_eq_some.mp hep).1

theorem normalize_eq_self : normalize p = p ↔ legalEp p = p.epSquare := by
  constructor
  · intro h
    rw [← normalize_epSquare, h]
  · intro h
    unfold Rules.normalize
    rw [h]

theorem legalEp_of_none (h : p.epSquare = none) : legalEp p = none := by
  simp [legalEp, h]

/-- Positions that agree up to normalization. -/
theorem normalize_eq_iff {q : Setup} : normalize p = normalize q ↔
    p.board = q.board ∧ p.turn = q.turn ∧ p.castlingRights = q.castlingRights ∧
      legalEp p = legalEp q := by
  rw [Setup.ext_iff]; rfl

end Normalize

end Rules

/-! ### Relocations -/

namespace Board

/-- The board with whatever stands on `s` moved to `t`. -/
def relocate (b : Board) (s t : Square) : Board :=
  (b.discardPieceAt s).setPieceAt t ((b s).getD ⟨.white, .pawn⟩)

variable {b : Board} {s t : Square} {pc : Piece}

theorem relocate_apply (hs : b s = some pc) (u : Square) :
    b.relocate s t u = if u = t then some pc else if u = s then none else b u := by
  simp only [relocate, setPieceAt, discardPieceAt, Function.update_apply, hs, Option.getD_some]

/-- A relocation to an empty square is undone by moving back. -/
theorem relocate_relocate (hs : b s = some pc) (ht : b t = none) (hne : s ≠ t) :
    (b.relocate s t).relocate t s = b := by
  funext u
  have hs' : b.relocate s t t = some pc := by rw [relocate_apply hs, if_pos rfl]
  rw [relocate_apply hs']
  by_cases hu : u = s
  · rw [if_pos hu, hu, hs]
  · rw [if_neg hu]
    by_cases hut : u = t
    · rw [if_pos hut, hut, ht]
    · rw [if_neg hut, relocate_apply hs, if_neg hut, if_neg hu]

theorem relocate_source (hs : b s = some pc) (hne : s ≠ t) : b.relocate s t s = none := by
  rw [relocate_apply hs, if_neg hne, if_pos rfl]

theorem relocate_target (hs : b s = some pc) : b.relocate s t t = some pc := by
  rw [relocate_apply hs, if_pos rfl]

/-- The origin and target of a relocation can be read off the boards. -/
theorem relocate_inj {s' t' : Square} {pc' : Piece} (hs : b s = some pc) (ht : b t = none)
    (hs' : b s' = some pc') (ht' : b t' = none)
    (h : b.relocate s t = b.relocate s' t') : s = s' ∧ t = t' := by
  have h₁ := congrFun h t
  have h₂ := congrFun h s
  rw [relocate_apply hs, relocate_apply hs', if_pos rfl] at h₁
  have hne : s ≠ t := fun he => by rw [he, ht] at hs; cases hs
  rw [relocate_apply hs, relocate_apply hs', if_neg hne, if_pos rfl] at h₂
  have htt : t = t' := by
    by_contra hn
    rw [if_neg hn] at h₁
    split at h₁
    · cases h₁
    · rw [ht] at h₁; cases h₁
  refine ⟨?_, htt⟩
  by_contra hn
  rw [if_neg hn, hs] at h₂
  split at h₂ <;> cases h₂

end Board

namespace Rules

/-- A quiet move relocates the moving piece. -/
theorem playBoard_quiet {b : Board} {c : Color} {r : Role} {s t : Square}
    (hs : b s = some ⟨c, r⟩) : playBoard b c (.normal r s none t none) = b.relocate s t := by
  funext u
  rw [Board.relocate_apply hs]
  rfl

end Rules

end ChessEgt
