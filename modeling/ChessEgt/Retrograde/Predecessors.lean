import ChessEgt.Chess.Concrete
import ChessEgt.Indexing.Decode
import ChessEgt.Retrograde.Unmoves
import ChessEgt.Routing.Quiet

/-!
# Unmoves are the inverse of quiet moves

* `Unmove` — the squares of a quiet move that may have led to a position;
* `exists_quiet_iff` — accepted positions with a quiet move to a position are those on the boards
  of its unmoves;
* `emitPawnfulPredecessors_eq` — all accepted positions on a board are emitted, each once;
* `quiet_unmoves_exact` — the unmove generators emit exactly the quiet predecessors.
-/

namespace ChessEgt

open Rules

/-! ### Lists of runs -/

/-- A list of runs that all succeed, with what is known of their values. -/
theorem Run.exists_mapM {α β : Type} [Nonempty β] {f : α → Run β} {l : List α}
    {P : α → β → Prop} (h : ∀ a ∈ l, ∃ b, f a = .ok b ∧ P a b) :
    ∃ g : α → β, l.mapM f = .ok (l.map g) ∧ ∀ a ∈ l, P a (g a) := by
  classical
  let g : α → β := fun a => if ha : a ∈ l then (h a ha).choose else Classical.arbitrary β
  have hg : ∀ a ∈ l, f a = .ok (g a) ∧ P a (g a) := by
    intro a ha
    simp only [g, dif_pos ha]
    exact (h a ha).choose_spec
  exact ⟨g, Run.mapM_eq_ok (fun a ha => (hg a ha).1), fun a ha => (hg a ha).2⟩

/-! ### Squares one rank away -/

theorem Square.offset_eq_some {c : Color} {s t : Square} :
    s.offset (if c = .white then -8 else 8) = some t ↔
      t.file = s.file ∧ (c.relativeRank s.rank).val = (c.relativeRank t.rank).val + 1 := by
  obtain ⟨⟨r, hr⟩, ⟨f, hf⟩⟩ := s
  obtain ⟨⟨r', hr'⟩, ⟨f', hf'⟩⟩ := t
  unfold Square.offset
  cases c with
  | white =>
    simp only [if_true, Color.relativeRank_white, Fin.mk.injEq]
    split
    next h => simp only [Option.some.injEq, Square.mk.injEq, Fin.mk.injEq]; omega
    next h => simp only [reduceCtorEq, false_iff]; omega
  | black =>
    simp only [reduceCtorEq, if_false, Color.relativeRank_black, Fin.mk.injEq, Fin.val_rev]
    split
    next h => simp only [Option.some.injEq, Square.mk.injEq, Fin.mk.injEq]; omega
    next h => simp only [reduceCtorEq, false_iff]; omega

theorem neg_backward (c : Color) : -(if c = .white then (-8 : Int) else 8)
    = if c.other = .white then -8 else 8 := by
  cases c <;> rfl

/-! ### Unmoves of a position -/

/-- The squares of a quiet move that may have led to a position: a piece moved, or a pawn was
    pushed. Only a double push leaves a right to capture en passant, and no other right. -/
def Unmove (s : Chess) (a t : Square) : Prop :=
  s.board a = none ∧ ∃ role, s.board t = some ⟨s.turn.other, role⟩ ∧
    if role = .pawn then a.file = t.file ∧
      (((s.turn.other.relativeRank t.rank).val = (s.turn.other.relativeRank a.rank).val + 1 ∧
          legalEp s = none) ∨
        (s.turn.other.relativeRank a.rank = 1 ∧ s.turn.other.relativeRank t.rank = 3 ∧
          s.board (relativeSquare s.turn.other 2 a.file) = none ∧
          legalEp { s with epSquare := some (relativeSquare s.turn.other 2 a.file) }
            = legalEp s))
    else Attacks s.board.occupied ⟨s.turn.other, role⟩ t a ∧ legalEp s = none

theorem Unmove.target {s : Chess} {a t : Square} (h : Unmove s a t) :
    ∃ role, s.board t = some ⟨s.turn.other, role⟩ := by
  obtain ⟨-, role, ht, -⟩ := h
  exact ⟨role, ht⟩

/-- The square passed by a double push is not one of its ends. -/
theorem middle_ne {c : Color} {a t : Square} (h₁ : c.relativeRank a.rank = 1)
    (h₃ : c.relativeRank t.rank = 3) :
    relativeSquare c 2 a.file ≠ a ∧ relativeSquare c 2 a.file ≠ t := by
  constructor
  · intro he
    have := congrArg (fun s : Square => c.relativeRank s.rank) he
    simp only [relativeSquare, Color.relativeRank_relativeRank, h₁] at this
    exact absurd this (by decide)
  · intro he
    have := congrArg (fun s : Square => c.relativeRank s.rank) he
    simp only [relativeSquare, Color.relativeRank_relativeRank, h₃] at this
    exact absurd this (by decide)

theorem Board.relocate_occupied {b : Board} {s t u : Square} {pc : Piece} (hs : b s = some pc)
    (hus : u ≠ s) (hut : u ≠ t) : (b.relocate s t).occupied u = b.occupied u := by
  rw [Board.occupied_apply, relocate_apply hs, if_neg hut, if_neg hus, Board.occupied_apply]

section Inverse

variable {r s : Chess}

/-- A quiet move is undone by an unmove. -/
theorem unmove_of_quiet (hr : Valid r) {m : Move} (hm : Legal r m) (hq : m.isQuiet = true)
    (h : normalize (play r m) = normalize s) : r.turn = s.turn.other ∧
      ∃ a t, Unmove s a t ∧ r.board = s.board.relocate t a := by
  obtain ⟨role, a, t, rfl⟩ := Move.isQuiet_iff.mp hq
  obtain ⟨hboard, hturn, hcastling, hep⟩ := normalize_eq_iff.mp h
  have hmove := hm.1.quiet
  have hne : a ≠ t := hm.1.ne
  have hsb : s.board = r.board.relocate a t := by
    rw [← hboard]
    exact playBoard_quiet hmove.source
  have hus : r.turn = s.turn.other := by
    rw [← hturn]
    exact (Color.other_other _).symm
  have hsa : s.board a = none := by rw [hsb, Board.relocate_source hmove.source hne]
  have hst : s.board t = some ⟨s.turn.other, role⟩ := by
    rw [hsb, Board.relocate_target hmove.source, hus]
  refine ⟨hus, a, t, ⟨hsa, role, hst, ?_⟩, ?_⟩
  swap
  · rw [hsb, Board.relocate_relocate hmove.source hmove.target hne]
  have hpseudo := hm.1.2.2.2
  by_cases hd : IsDoublePush r.turn role a t
  · -- A double push leaves the right that the position has.
    obtain ⟨rfl, h₁, h₃⟩ := hd
    obtain ⟨hpush, -⟩ := hmove.push rfl
    obtain ⟨hma, hmt⟩ := middle_ne h₁ h₃
    have hmid : r.board (relativeSquare r.turn 2 a.file) = none := by
      rcases hpush.2.2 with h | ⟨-, -, h⟩
      · rw [h₁, h₃] at h; exact absurd h (by decide)
      · exact h
    rw [if_pos rfl, ← hus]
    refine ⟨hpush.1, Or.inr ⟨h₁, h₃, ?_, ?_⟩⟩
    · rw [hsb, Board.relocate_apply hmove.source, if_neg hmt, if_neg hma, hmid]
    · rw [← hep]
      congr 1
      ext1
      · exact hboard.symm
      · exact hturn.symm
      · exact hcastling.symm
      · exact (if_pos ⟨rfl, h₁, h₃⟩).symm
  · -- Other moves leave no right.
    have hnone : legalEp s = none := by
      rw [← hep]
      exact legalEp_of_none (if_neg hd)
    split
    next hrole =>
      subst hrole
      obtain ⟨hpush, -⟩ := hmove.push rfl
      rw [← hus]
      refine ⟨hpush.1, Or.inl ⟨?_, hnone⟩⟩
      rcases hpush.2.2 with h | ⟨h₁, h₃, -⟩
      · exact h
      · exact absurd ⟨rfl, h₁, h₃⟩ hd
    next hrole =>
      rw [if_neg hrole] at hpseudo
      refine ⟨?_, hnone⟩
      rw [← hus, attacks_comm hrole]
      refine (attacks_congr (fun u hua hut => ?_)).mp hpseudo.2
      rw [hsb, Board.relocate_occupied hmove.source hua hut]

/-- An unmove to a valid position is undone by a quiet move. -/
theorem quiet_of_unmove (hs : Valid s) (hr : Valid r) (hus : r.turn = s.turn.other)
    {a t : Square} (h : Unmove s a t) (hb : r.board = s.board.relocate t a) :
    ∃ m, Legal r m ∧ m.isQuiet = true ∧ normalize (play r m) = normalize s := by
  obtain ⟨hsa, role, hst, hmove⟩ := h
  have hne : t ≠ a := fun he => by rw [he, hsa] at hst; cases hst
  have hra : r.board a = some ⟨r.turn, role⟩ := by
    rw [hb, Board.relocate_target hst, hus]
  have hrt : r.board t = none := by rw [hb, Board.relocate_source hst hne]
  have hback : playBoard r.board r.turn (.normal role a none t none) = s.board := by
    rw [playBoard_quiet hra, hb, Board.relocate_relocate hst hsa hne]
  have hrank : role = .pawn → r.turn.relativeRank t.rank ≠ 7 := by
    rintro rfl
    have := hs.pawns t _ hst rfl
    revert this
    generalize t.rank = x
    cases r.turn <;> revert x <;> decide
  refine ⟨.normal role a none t none, ⟨⟨hra, by rw [hrt]; rfl, ?_, ?_⟩, ?_⟩, rfl, ?_⟩
  · simp [Board.byColor, hrt]
  · split
    next hrole =>
      subst hrole
      rw [if_pos rfl, ← hus] at hmove
      obtain ⟨hfile, hstep⟩ := hmove
      have hpromotion : PromotionRule r.turn t none := by
        unfold PromotionRule
        rw [if_neg (hrank rfl)]
      refine ⟨hpromotion, Or.inr ⟨hfile, hrt, ?_⟩⟩
      rcases hstep with ⟨h, -⟩ | ⟨h₁, h₃, hmid, -⟩
      · exact Or.inl h
      · obtain ⟨hma, hmt⟩ := middle_ne h₁ h₃
        refine Or.inr ⟨h₁, h₃, ?_⟩
        rw [hb, Board.relocate_apply hst, if_neg hma, if_neg hmt, hmid]
    next hrole =>
      rw [if_neg hrole, ← hus] at hmove
      refine ⟨rfl, ?_⟩
      rw [attacks_comm hrole]
      refine (attacks_congr (fun u hut hua => ?_)).mpr hmove.1
      rw [hb, Board.relocate_occupied hst hut hua]
  · rw [hback, hus]
    exact hs.opposite
  · refine normalize_eq_iff.mpr ⟨hback, ?_, ?_, ?_⟩
    · show r.turn.other = s.turn
      rw [hus, Color.other_other]
    · show r.castlingRights = s.castlingRights
      rw [hr.castling, hs.castling]
    · by_cases hd : IsDoublePush r.turn role a t
      · obtain ⟨rfl, h₁, h₃⟩ := hd
        rw [if_pos rfl, ← hus] at hmove
        rcases hmove.2 with ⟨h, -⟩ | ⟨-, -, -, h⟩
        · rw [h₁, h₃] at h; exact absurd h (by decide)
        · rw [← h]
          congr 1
          ext1
          · exact hback
          · show r.turn.other = s.turn
            rw [hus, Color.other_other]
          · show r.castlingRights = s.castlingRights
            rw [hr.castling, hs.castling]
          · exact if_pos ⟨rfl, h₁, h₃⟩
      · have hnone : legalEp s = none := by
          split at hmove
          next hrole =>
            rcases hmove.2 with ⟨-, h⟩ | ⟨h₁, h₃, -⟩
            · exact h
            · exact absurd ⟨hrole, by rw [hus]; exact h₁, by rw [hus]; exact h₃⟩ hd
          next => exact hmove.2
        rw [hnone]
        exact legalEp_of_none (if_neg hd)

/-- **Quiet predecessors** are the accepted positions on the boards of the unmoves. -/
theorem exists_quiet_iff (hs : Valid s) (hr : Valid r) :
    (∃ m, Legal r m ∧ m.isQuiet = true ∧ normalize (play r m) = normalize s) ↔
      r.turn = s.turn.other ∧ ∃ a t, Unmove s a t ∧ r.board = s.board.relocate t a := by
  constructor
  · rintro ⟨m, hm, hq, h⟩
    exact unmove_of_quiet hr hm hq h
  · rintro ⟨hus, a, t, h, hb⟩
    exact quiet_of_unmove hs hr hus h hb

/-- The squares of an unmove can be read off the board before it. -/
theorem Unmove.inj {a t a' t' : Square} (h : Unmove s a t) (h' : Unmove s a' t')
    (hb : s.board.relocate t a = s.board.relocate t' a') : a = a' ∧ t = t' := by
  obtain ⟨role, ht⟩ := h.target
  obtain ⟨role', ht'⟩ := h'.target
  obtain ⟨htt, haa⟩ := Board.relocate_inj ht h.1 ht' h'.1 hb
  exact ⟨haa, htt⟩

theorem takeBack_eq {b : Board} {a t : Square} {pc : Piece} (h : b t = some pc) :
    takeBack b a t pc = b.relocate t a := by
  unfold takeBack Board.relocate
  rw [h]; rfl

theorem Rules.OneKing.relocate {b : Board} {s t : Square} {pc : Piece} (h : OneKing b)
    (hs : b s = some pc) (ht : b t = none) : OneKing (b.relocate s t) := by
  intro c
  obtain ⟨k, hk⟩ := h c
  refine ⟨Equiv.swap s t k, fun u => ?_⟩
  rw [Board.relocate_eq_swap hs ht, hk, Equiv.swap_apply_eq_iff]

end Inverse

/-! ### The positions on a board -/

/-- The board of a predecessor, with its side to move. -/
def OnBoard (b : Board) (turn : Color) (r : Chess) : Prop :=
  Accepted r ∧ r.board = b ∧ r.turn = turn

section Emission

variable [Shakmaty] [LawfulShakmaty] {b : Board} {us : Color}

omit [Shakmaty] [LawfulShakmaty] in
theorem onBoard_none (hk : OneKing b) (hp : Rules.PawnRanks b)
    (hc : ¬ KingAttacked b us.other) : OnBoard b us ⟨b, us, [], none⟩ :=
  ⟨⟨⟨rfl, hk, hp, hc, fun _ h => by cases h⟩, legalEp_of_none rfl⟩, rfl, rfl⟩

/-- The setup with an en passant square on a file. -/
theorem relativeRank_other_five (c : Color) :
    c.other.relativeRank 2 = c.relativeRank 5 ∧ c.other.relativeRank 3 = c.relativeRank 4 ∧
      c.other.relativeRank 1 = c.relativeRank 6 := by
  cases c <;> decide

/-- **The positions on a board** are emitted, each once. -/
theorem emitPawnfulPredecessors_eq (hk : OneKing b) :
    ∃ l, emitPawnfulPredecessors ⟨b, us, [], none⟩ = .ok l ∧ l.Nodup ∧
      ∀ r, r ∈ l ↔ OnBoard b us r := by
  obtain ⟨h2, h3, h1⟩ := relativeRank_other_five us
  unfold emitPawnfulPredecessors
  rw [Run.ensure_eq rfl, Run.ok_bind]
  by_cases hback : (b.pawns.inter Bitboard.backranks).isEmpty = true
  swap
  · -- Pawns on the back ranks.
    refine ⟨[], by simp [hback], List.nodup_nil, fun r => ?_⟩
    simp only [List.not_mem_nil, false_iff]
    rintro ⟨ha, rfl, -⟩
    refine hback (Bitboard.isEmpty_iff.mpr (fun s => ?_))
    rw [← Bool.not_eq_true, Bitboard.inter_apply, Bool.and_eq_true]
    rintro ⟨hs, hr⟩
    obtain ⟨pc, hpc, hrole⟩ := Board.byRole_apply.mp hs
    obtain ⟨h0, h7⟩ := ha.valid.pawns s pc hpc hrole
    simp [Bitboard.backranks, h0, h7] at hr
  have hpawns : Rules.PawnRanks b := by
    intro s pc hpc hrole
    have := Bitboard.isEmpty_iff.mp hback s
    rw [Bitboard.inter_apply, Bool.and_eq_false_iff] at this
    rcases this with h | h
    · rw [← Bool.not_eq_true] at h
      exact absurd (Board.byRole_apply.mpr ⟨pc, hpc, hrole⟩) h
    · simpa [Bitboard.backranks] using h
  simp only [hback, Bool.not_true, Bool.false_eq_true, if_false, oppositeCheck_eq hk, Run.ok_bind]
  by_cases hopp : KingAttacked b us.other
  · refine ⟨[], by simp [hopp], List.nodup_nil, fun r => ?_⟩
    simp only [List.not_mem_nil, false_iff]
    rintro ⟨ha, rfl, rfl⟩
    exact ha.valid.opposite hopp
  simp only [hopp, decide_false, Bool.false_eq_true, if_false, Run.pure_eq_ok]
  have hfirst : Shakmaty.fromSetupUnchecked (⟨b, us, [], none⟩ : Setup) = ⟨b, us, [], none⟩ :=
    LawfulShakmaty.fromSetupUnchecked_eq _ rfl (fun _ h => by cases h)
  -- The positions with an en passant square behind a pushed pawn.
  have hpushed : ∀ pawn : Square,
      pawn ∈ ((b.byPiece ⟨us.other, .pawn⟩).inter
        (Bitboard.fromRank (us.other.relativeRank 3))).toList ↔
      b pawn = some ⟨us.other, .pawn⟩ ∧ pawn.rank = us.relativeRank 4 := by
    intro pawn
    simp [h3]
  have hsome : ∀ (pawn : Square), b pawn = some ⟨us.other, .pawn⟩ → pawn.rank = us.relativeRank 4 →
      ∀ r, (if b.occupied ⟨us.other.relativeRank 2, pawn.file⟩ ||
          b.occupied ⟨us.other.relativeRank 1, pawn.file⟩ ||
          ((Shakmaty.pawnAttacks us.other ⟨us.other.relativeRank 2, pawn.file⟩).inter
            (b.byPiece ⟨us, .pawn⟩)).isEmpty then none
        else
          if Shakmaty.legalEpSquare (Shakmaty.fromSetupUnchecked
              ⟨b, us, [], some ⟨us.other.relativeRank 2, pawn.file⟩⟩)
            = some ⟨us.other.relativeRank 2, pawn.file⟩ then
            some (Shakmaty.fromSetupUnchecked
              ⟨b, us, [], some ⟨us.other.relativeRank 2, pawn.file⟩⟩)
          else none) = some r ↔
        r = ⟨b, us, [], some ⟨us.relativeRank 5, pawn.file⟩⟩ ∧ OnBoard b us r := by
    intro pawn hpawn hrank r
    rw [h2, h1]
    have hstructure : b ⟨us.relativeRank 5, pawn.file⟩ = none →
        b ⟨us.relativeRank 6, pawn.file⟩ = none →
        EpStructure ⟨b, us, [], some ⟨us.relativeRank 5, pawn.file⟩⟩ := by
      intro hep hstart ep hsome
      obtain rfl := Option.some.inj hsome
      refine ⟨Color.relativeRank_relativeRank us 5, ?_, hep, hstart⟩
      rw [← hpawn]
      show b ⟨us.relativeRank 4, pawn.file⟩ = b pawn
      rw [← hrank]
    constructor
    · intro h
      split at h
      · cases h
      next hcond =>
        simp only [Bool.or_eq_true, not_or, Bool.not_eq_true] at hcond
        obtain ⟨⟨hep, hstart⟩, -⟩ := hcond
        have hep : b ⟨us.relativeRank 5, pawn.file⟩ = none := by simpa using hep
        have hstart : b ⟨us.relativeRank 6, pawn.file⟩ = none := by simpa using hstart
        have hst := hstructure hep hstart
        have hv : Valid ⟨b, us, [], some ⟨us.relativeRank 5, pawn.file⟩⟩ :=
          ⟨rfl, hk, hpawns, hopp, hst⟩
        rw [LawfulShakmaty.fromSetupUnchecked_eq _ rfl hst,
          LawfulShakmaty.legalEpSquare_eq _ hv] at h
        split at h
        next hlegal =>
          obtain rfl := Option.some.inj h
          exact ⟨rfl, ⟨hv, hlegal⟩, rfl, rfl⟩
        next => cases h
    · rintro ⟨rfl, ha, -, -⟩
      obtain ⟨-, -, hep, hstart⟩ := ha.valid.epStructure _ rfl
      have hlegal := ha.legalEp
      obtain ⟨c, hc⟩ := (legalEp_eq_some.mp hlegal).2
      have hattack : ((Shakmaty.pawnAttacks us.other ⟨us.relativeRank 5, pawn.file⟩).inter
          (b.byPiece ⟨us, .pawn⟩)).isEmpty = false := by
        rw [← Bool.not_eq_true, Bitboard.isEmpty_iff, not_forall]
        refine ⟨c, ?_⟩
        rw [Bool.not_eq_false, Bitboard.inter_apply, Bool.and_eq_true,
          LawfulShakmaty.pawnAttacks_iff, Board.byPiece_apply, decide_eq_true_eq]
        refine ⟨?_, hc.1.1⟩
        have hcap : fileDist c ⟨us.relativeRank 5, pawn.file⟩ = 1 ∧
            (us.relativeRank (us.relativeRank 5)).val = (us.relativeRank c.rank).val + 1 :=
          hc.1.2.2
        refine ⟨by rw [fileDist_comm]; exact hcap.1, ?_⟩
        have := hcap.2
        simp only [Color.relativeRank_other, Color.relativeRank_relativeRank, Fin.val_rev] at this ⊢
        omega
      have hempty : ∀ x, b x = none → b.occupied x = false := by
        intro x hx
        rw [Board.occupied_apply, hx]
        rfl
      rw [hempty ⟨us.relativeRank 5, pawn.file⟩ hep, hempty ⟨us.relativeRank 6, pawn.file⟩ hstart,
        hattack, if_neg (by decide), LawfulShakmaty.fromSetupUnchecked_eq _ rfl ha.valid.epStructure,
        LawfulShakmaty.legalEpSquare_eq _ ha.valid]
      exact if_pos hlegal
  refine ⟨_, rfl, ?_, fun r => ?_⟩
  · rw [hfirst, List.nodup_cons]
    constructor
    · intro hmem
      obtain ⟨pawn, hpawn, hr⟩ := List.mem_filterMap.mp hmem
      obtain ⟨hb, hrank⟩ := (hpushed pawn).mp hpawn
      have := congrArg Setup.epSquare ((hsome pawn hb hrank _).mp hr).1
      cases this
    · -- Different pawns have different en passant squares.
      refine List.pairwise_filterMap.mpr ((Bitboard.nodup_toList _).imp_of_mem ?_)
      rintro x y hx hy hne r hr r' hr' rfl
      obtain ⟨hbx, hrx⟩ := (hpushed x).mp hx
      obtain ⟨hby, hry⟩ := (hpushed y).mp hy
      have hep := ((hsome x hbx hrx r).mp hr).1.symm.trans ((hsome y hby hry r).mp hr').1
      have hfile := congrArg Square.file (Option.some.inj (congrArg Setup.epSquare hep))
      exact hne (Square.ext (hrx.trans hry.symm) hfile)
  · rw [hfirst, List.mem_cons, List.mem_filterMap]
    constructor
    · rintro (rfl | ⟨pawn, hpawn, hr⟩)
      · exact onBoard_none hk hpawns hopp
      · obtain ⟨hb, hrank⟩ := (hpushed pawn).mp hpawn
        exact ((hsome pawn hb hrank r).mp hr).2
    · intro hr
      obtain ⟨ha, rfl, rfl⟩ := id hr
      cases hep : r.epSquare with
      | none =>
        left
        exact Setup.ext rfl rfl ha.valid.castling hep
      | some ep =>
        obtain ⟨hrank, hpawn, -⟩ := ha.valid.epStructure ep hep
        have hepr : ep = ⟨r.turn.relativeRank 5, ep.file⟩ :=
          Square.ext (by rw [← hrank, Color.relativeRank_relativeRank]) rfl
        refine Or.inr ⟨relativeSquare r.turn 4 ep.file, (hpushed _).mpr ⟨hpawn, rfl⟩,
          (hsome _ hpawn rfl r).mpr ⟨Setup.ext rfl rfl ha.valid.castling ?_, hr⟩⟩
        rw [hep]
        exact congrArg some hepr

/-! ### The unmoves that are tried -/

variable {s : Chess}

omit [Shakmaty] [LawfulShakmaty] in
theorem mem_byColor_toList {b : Board} {c : Color} {t : Square} :
    t ∈ (b.byColor c).toList ↔ ∃ role, b t = some ⟨c, role⟩ := by
  rw [Bitboard.mem_toList, Board.byColor_apply]
  constructor
  · rintro ⟨⟨c', role⟩, h, rfl⟩; exact ⟨role, h⟩
  · rintro ⟨role, h⟩; exact ⟨_, h, rfl⟩

omit [Shakmaty] [LawfulShakmaty] in
/-- The predecessors of all targets, if each target emits those of its own unmoves. -/
theorem mem_flatten_targets (hs : Valid s) {g : Square → List Chess}
    (hnd : ∀ t ∈ (s.board.byColor s.turn.other).toList, (g t).Nodup)
    (hmem : ∀ t ∈ (s.board.byColor s.turn.other).toList, ∀ r, r ∈ g t ↔
      ∃ a, Unmove s a t ∧ OnBoard (s.board.relocate t a) s.turn.other r) :
    (((s.board.byColor s.turn.other).toList.map g).flatten).Nodup ∧
      ∀ r, r ∈ ((s.board.byColor s.turn.other).toList.map g).flatten ↔ Accepted r ∧
        ∃ m, Legal r m ∧ m.isQuiet = true ∧ normalize (play r m) = normalize s := by
  constructor
  · rw [← List.flatMap_def, List.nodup_flatMap]
    refine ⟨hnd, (Bitboard.nodup_toList _).imp_of_mem (fun {t t'} ht ht' hne r hr hr' => ?_)⟩
    obtain ⟨a, ha, -, hb, -⟩ := (hmem t ht r).mp hr
    obtain ⟨a', ha', -, hb', -⟩ := (hmem t' ht' r).mp hr'
    exact hne (ha.inj ha' (hb.symm.trans hb')).2
  · intro r
    rw [← List.flatMap_def, List.mem_flatMap]
    constructor
    · rintro ⟨t, ht, hr⟩
      obtain ⟨a, ha, hacc, hb, hturn⟩ := (hmem t ht r).mp hr
      exact ⟨hacc, (exists_quiet_iff hs hacc.valid).mpr ⟨hturn, a, t, ha, hb⟩⟩
    · rintro ⟨hacc, hm⟩
      obtain ⟨hturn, a, t, ha, hb⟩ := (exists_quiet_iff hs hacc.valid).mp hm
      have ht := mem_byColor_toList.mpr ha.target
      exact ⟨t, ht, (hmem t ht r).mpr ⟨a, ha, hacc, hb, hturn⟩⟩

omit [Shakmaty] [LawfulShakmaty] in
theorem exists_flatten_targets (hs : Valid s) {f : Square → Run (List Chess)}
    (h : ∀ t ∈ (s.board.byColor s.turn.other).toList, ∃ l, f t = .ok l ∧ l.Nodup ∧
      ∀ r, r ∈ l ↔ ∃ a, Unmove s a t ∧ OnBoard (s.board.relocate t a) s.turn.other r) :
    ∃ l, ((s.board.byColor s.turn.other).toList.mapM f >>= fun ls => pure ls.flatten) = .ok l ∧
      l.Nodup ∧ ∀ r, r ∈ l ↔ Accepted r ∧
        ∃ m, Legal r m ∧ m.isQuiet = true ∧ normalize (play r m) = normalize s := by
  obtain ⟨g, hg, hgspec⟩ := Run.exists_mapM h
  refine ⟨_, by rw [hg]; rfl, ?_⟩
  exact mem_flatten_targets hs (fun t ht => (hgspec t ht).1) (fun t ht => (hgspec t ht).2)

omit [Shakmaty] [LawfulShakmaty] in
/-- The predecessors of the moves of one piece to a target. -/
theorem mem_flatten_origins {t : Square} {origins : List Square} (hnd : origins.Nodup)
    (hor : ∀ a, a ∈ origins ↔ Unmove s a t) {g : Square → List Chess}
    (hg : ∀ a ∈ origins, (g a).Nodup ∧
      ∀ r, r ∈ g a ↔ OnBoard (s.board.relocate t a) s.turn.other r) :
    ((origins.map g).flatten).Nodup ∧ ∀ r, r ∈ (origins.map g).flatten ↔
      ∃ a, Unmove s a t ∧ OnBoard (s.board.relocate t a) s.turn.other r := by
  constructor
  · rw [← List.flatMap_def, List.nodup_flatMap]
    refine ⟨fun a ha => (hg a ha).1, hnd.imp_of_mem (fun {a a'} ha ha' hne r hr hr' => ?_)⟩
    obtain ⟨-, hb, -⟩ := ((hg a ha).2 r).mp hr
    obtain ⟨-, hb', -⟩ := ((hg a' ha').2 r).mp hr'
    exact hne (((hor a).mp ha).inj ((hor a').mp ha') (hb.symm.trans hb')).1
  · intro r
    rw [← List.flatMap_def, List.mem_flatMap]
    constructor
    · rintro ⟨a, ha, hr⟩
      exact ⟨a, (hor a).mp ha, ((hg a ha).2 r).mp hr⟩
    · rintro ⟨a, ha, hr⟩
      exact ⟨a, (hor a).mpr ha, ((hg a ((hor a).mpr ha)).2 r).mpr hr⟩

theorem mem_origins {t a : Square} {pc : Piece} :
    a ∈ ((Shakmaty.attacks t pc s.board.occupied).inter s.board.occupied.compl).toList ↔
      Attacks s.board.occupied pc t a ∧ s.board a = none := by
  rw [Bitboard.mem_toList, Bitboard.inter_apply, Bool.and_eq_true, LawfulShakmaty.attacks_iff,
    Bitboard.compl_apply, Board.occupied_apply]
  cases s.board a <;> simp

omit [Shakmaty] [LawfulShakmaty] in
/-- The unmoves of a piece other than a pawn. -/
theorem unmove_piece_iff {t a : Square} {role : Role} (ht : s.board t = some ⟨s.turn.other, role⟩)
    (hrole : role ≠ .pawn) : Unmove s a t ↔
      s.board a = none ∧ Attacks s.board.occupied ⟨s.turn.other, role⟩ t a ∧
        legalEp s = none := by
  constructor
  · rintro ⟨ha, role', ht', h⟩
    have he := ht.symm.trans ht'
    rw [Option.some.injEq, Piece.mk.injEq] at he
    obtain rfl := he.2
    rw [if_neg hrole] at h
    exact ⟨ha, h⟩
  · rintro ⟨ha, h⟩
    exact ⟨ha, role, ht, by rw [if_neg hrole]; exact h⟩

omit [Shakmaty] [LawfulShakmaty] in
/-- The unmoves of a pawn. -/
theorem unmove_pawn_iff {t a : Square} (ht : s.board t = some ⟨s.turn.other, .pawn⟩) :
    Unmove s a t ↔ s.board a = none ∧ a.file = t.file ∧
      (((s.turn.other.relativeRank t.rank).val = (s.turn.other.relativeRank a.rank).val + 1 ∧
          legalEp s = none) ∨
        (s.turn.other.relativeRank a.rank = 1 ∧ s.turn.other.relativeRank t.rank = 3 ∧
          s.board (relativeSquare s.turn.other 2 a.file) = none ∧
          legalEp { s with epSquare := some (relativeSquare s.turn.other 2 a.file) }
            = legalEp s)) := by
  constructor
  · rintro ⟨ha, role', ht', h⟩
    have he := ht.symm.trans ht'
    rw [Option.some.injEq, Piece.mk.injEq] at he
    obtain rfl := he.2
    rw [if_pos rfl] at h
    exact ⟨ha, h⟩
  · rintro ⟨ha, h⟩
    exact ⟨ha, .pawn, ht, by rw [if_pos rfl]; exact h⟩

/-! ### Tables without pawns -/

/-- **Pawnless unmoves** are the quiet predecessors. -/
theorem pawnlessQuietUnmoves_eq (hs : Valid s) (hp : s.board.pawns.isEmpty = true) :
    ∃ l, pawnlessQuietUnmoves s = .ok l ∧ l.Nodup ∧ ∀ r, r ∈ l ↔ Accepted r ∧
      ∃ m, Legal r m ∧ m.isQuiet = true ∧ normalize (play r m) = normalize s := by
  have hpawnless : Transform.Pawnless s.board := by
    intro u pc hu hr
    have := Bitboard.isEmpty_iff.mp hp u
    rw [← Bool.not_eq_true] at this
    exact this (Board.byRole_apply.mpr ⟨pc, hu, hr⟩)
  have hlegal := legalEp_of_pawnless hs hpawnless
  have hep : s.epSquare = none := by
    by_contra hne
    obtain ⟨ep, hep⟩ := Option.ne_none_iff_exists'.mp hne
    exact hpawnless _ _ (hs.epStructure ep hep).2.1 rfl
  unfold pawnlessQuietUnmoves
  rw [Run.ensure_eq hp, Run.ok_bind, Run.ensure_eq hs.castling, Run.ok_bind]
  simp only [hs.castling, hep]
  -- The positions before the moves of a piece to a target.
  have hrow : ∀ t ∈ (s.board.byColor s.turn.other).toList, ∃ rows : List (List Chess),
      (do
        let piece ← Run.expect (s.board t) "occupied square must have a piece"
        ((Shakmaty.attacks t piece s.board.occupied).inter s.board.occupied.compl).toList.mapM
          fun source => do
            if ← oppositeCheck (takeBack s.board source t piece) s.turn.other then pure []
            else pure [Shakmaty.fromSetupUnchecked
              ⟨takeBack s.board source t piece, s.turn.other, [], none⟩]) = .ok rows ∧
      rows.flatten.Nodup ∧ ∀ r, r ∈ rows.flatten ↔
        ∃ a, Unmove s a t ∧ OnBoard (s.board.relocate t a) s.turn.other r := by
    intro t ht
    obtain ⟨role, hst⟩ := mem_byColor_toList.mp ht
    have hrole : role ≠ .pawn := hpawnless t _ hst
    have hor : ∀ a, a ∈ ((Shakmaty.attacks t ⟨s.turn.other, role⟩ s.board.occupied).inter
        s.board.occupied.compl).toList ↔ Unmove s a t := by
      intro a
      rw [mem_origins, unmove_piece_iff hst hrole]
      exact ⟨fun h => ⟨h.2, h.1, hlegal⟩, fun h => ⟨h.2.1, h.1⟩⟩
    rw [hst, Run.expect_some, Run.ok_bind]
    obtain ⟨g, hg, hgspec⟩ := Run.exists_mapM (P := fun a (l : List Chess) => l.Nodup ∧
        ∀ r, r ∈ l ↔ OnBoard (s.board.relocate t a) s.turn.other r)
      (f := fun source => do
        if ← oppositeCheck (takeBack s.board source t ⟨s.turn.other, role⟩) s.turn.other then
          pure []
        else pure [Shakmaty.fromSetupUnchecked
          ⟨takeBack s.board source t ⟨s.turn.other, role⟩, s.turn.other, [], none⟩])
      (l := ((Shakmaty.attacks t ⟨s.turn.other, role⟩ s.board.occupied).inter
        s.board.occupied.compl).toList) (fun a ha => by
      have hu := (hor a).mp ha
      have hk := Rules.OneKing.relocate hs.kings hst hu.1
      rw [takeBack_eq hst, oppositeCheck_eq hk, Run.ok_bind]
      by_cases hopp : KingAttacked (s.board.relocate t a) s.turn.other.other
      · refine ⟨[], by rw [decide_eq_true hopp]; rfl, List.nodup_nil, fun r => ?_⟩
        simp only [List.not_mem_nil, false_iff]
        rintro ⟨hacc, hb, hturn⟩
        refine hacc.valid.opposite ?_
        rw [hb, hturn]; exact hopp
      · -- Without pawns there is one position on the board.
        have hpl : Transform.Pawnless (s.board.relocate t a) := by
          intro u pc hu'
          rw [Board.relocate_eq_swap hst hu.1] at hu'
          exact hpawnless _ pc hu'
        refine ⟨[⟨s.board.relocate t a, s.turn.other, [], none⟩], ?_, List.nodup_singleton _,
          fun r => ?_⟩
        · simp only [hopp, decide_false, Bool.false_eq_true, if_false]
          rw [LawfulShakmaty.fromSetupUnchecked_eq _ rfl (fun _ h => by cases h)]
          rfl
        · rw [List.mem_singleton]
          constructor
          · rintro rfl
            exact onBoard_none hk (fun u pc hu' hr => absurd hr (hpl u pc hu')) hopp
          · rintro ⟨hacc, hb, hturn⟩
            refine Setup.ext hb hturn hacc.valid.castling ?_
            rw [← hacc.legalEp]
            exact legalEp_of_pawnless hacc.valid (by rw [hb]; exact hpl))
    refine ⟨_, hg, ?_⟩
    exact mem_flatten_origins (Bitboard.nodup_toList _) hor hgspec
  obtain ⟨g, hg, hgspec⟩ := Run.exists_mapM hrow
  refine ⟨_, by rw [hg]; rfl, ?_⟩
  have := mem_flatten_targets hs (g := fun t => (g t).flatten) (fun t ht => (hgspec t ht).1)
    (fun t ht => (hgspec t ht).2)
  have hflat : ∀ l : List Square, (l.map g).flatten.flatten
      = (l.map fun t => (g t).flatten).flatten := by
    intro l
    induction l with
    | nil => rfl
    | cons t l ih => simp [ih]
  rwa [hflat]

/-! ### Tables with pawns -/

omit [Shakmaty] [LawfulShakmaty] in
/-- The squares behind a pawn that stands in front of an empty square. -/
theorem unmove_pawn_of_offset {t source a : Square}
    (ht : s.board t = some ⟨s.turn.other, .pawn⟩) (hlegal : legalEp s = none)
    (hsource : source.file = t.file ∧ (s.turn.other.relativeRank t.rank).val
      = (s.turn.other.relativeRank source.rank).val + 1) :
    Unmove s a t ↔ s.board source = none ∧ (a = source ∨
      (s.board a = none ∧ a.file = t.file ∧ s.turn.other.relativeRank a.rank = 1 ∧
        s.turn.other.relativeRank t.rank = 3 ∧
        legalEp { s with epSquare := some source } = none)) := by
  rw [unmove_pawn_iff ht, hlegal]
  obtain ⟨hfile, hrank⟩ := hsource
  have hunique : ∀ a : Square, a.file = t.file → (s.turn.other.relativeRank t.rank).val
      = (s.turn.other.relativeRank a.rank).val + 1 → a = source := by
    intro a hf hr
    refine Square.ext ?_ (hf.trans hfile.symm)
    rw [← Color.relativeRank_inj (c := s.turn.other)]
    exact Fin.ext (by omega)
  -- The middle of a double push is the square behind the pawn.
  have hmiddle : ∀ a : Square, a.file = t.file → s.turn.other.relativeRank t.rank = 3 →
      relativeSquare s.turn.other 2 a.file = source := by
    intro a hf h3
    refine hunique _ hf ?_
    rw [relativeSquare, Color.relativeRank_relativeRank, h3]
    rfl
  constructor
  · rintro ⟨ha, hf, ⟨hr, -⟩ | ⟨h1, h3, hmid, hep⟩⟩
    · rw [hunique a hf hr] at ha ⊢
      exact ⟨ha, Or.inl rfl⟩
    · rw [hmiddle a hf h3] at hmid hep
      exact ⟨hmid, Or.inr ⟨ha, hf, h1, h3, hep⟩⟩
  · rintro ⟨hempty, rfl | ⟨ha, hf, h1, h3, hep⟩⟩
    · exact ⟨hempty, hfile, Or.inl ⟨hrank, rfl⟩⟩
    · rw [← hmiddle a hf h3] at hempty hep
      exact ⟨ha, hf, Or.inr ⟨h1, h3, hempty, hep⟩⟩

/-- **Pawnful unmoves** are the quiet predecessors. -/
theorem pawnfulQuietUnmoves_eq (hs : Valid s) (hp : s.board.pawns.isEmpty = false) :
    ∃ l, pawnfulQuietUnmoves s = .ok l ∧ l.Nodup ∧ ∀ r, r ∈ l ↔ Accepted r ∧
      ∃ m, Legal r m ∧ m.isQuiet = true ∧ normalize (play r m) = normalize s := by
  unfold pawnfulQuietUnmoves
  rw [Run.ensure_eq hp, Run.ok_bind, Run.ensure_eq hs.castling, Run.ok_bind]
  simp only [hs.castling, LawfulShakmaty.legalEpSquare_eq s hs]
  -- The positions before one move.
  have hemit : ∀ {a t : Square} {role : Role}, s.board t = some ⟨s.turn.other, role⟩ →
      s.board a = none → ∃ l, emitPawnfulPredecessors
          ⟨takeBack s.board a t ⟨s.turn.other, role⟩, s.turn.other, [], none⟩ = .ok l ∧
        l.Nodup ∧ ∀ r, r ∈ l ↔ OnBoard (s.board.relocate t a) s.turn.other r := by
    intro a t role ht ha
    rw [takeBack_eq ht]
    exact emitPawnfulPredecessors_eq (Rules.OneKing.relocate hs.kings ht ha)
  cases hlegal : legalEp s with
  | some ep =>
    -- Only the double push that left the right.
    have hep := (legalEp_eq_some.mp hlegal).1
    obtain ⟨hrank, hpawn, hempty, hstart⟩ := hs.epStructure ep hep
    obtain ⟨h4, h6⟩ : s.turn.relativeRank 4 = s.turn.other.relativeRank 3 ∧
        s.turn.relativeRank 6 = s.turn.other.relativeRank 1 := by
      cases s.turn <;> decide
    have htarget : ep.offset (-(if s.turn.other = .white then (-8 : Int) else 8))
        = some (relativeSquare s.turn 4 ep.file) := by
      rw [neg_backward, Color.other_other]
      refine Square.offset_eq_some.mpr ⟨rfl, ?_⟩
      rw [hrank, relativeSquare, Color.relativeRank_relativeRank]; rfl
    have hsource : ep.offset (if s.turn.other = .white then (-8 : Int) else 8)
        = some (relativeSquare s.turn 6 ep.file) := by
      refine Square.offset_eq_some.mpr ⟨rfl, ?_⟩
      rw [Color.relativeRank_other, Color.relativeRank_other, hrank, relativeSquare,
        Color.relativeRank_relativeRank]; rfl
    simp only [htarget, hsource, Run.expect_some, Run.ok_bind]
    have hocc : ∀ {x : Square}, s.board x = none → s.board.occupied x = false := by
      intro x hx
      rw [Board.occupied_apply, hx]; rfl
    rw [if_pos ⟨hpawn, hocc hstart, hocc hempty⟩, hpawn, Run.expect_some, Run.ok_bind]
    obtain ⟨l, hl, hnd, hmem⟩ := hemit hpawn hstart
    refine ⟨l, hl, hnd, fun r => (hmem r).trans ?_⟩
    have hepsq : ep = relativeSquare s.turn.other 2 ep.file := by
      refine Square.ext ?_ rfl
      rw [← Color.relativeRank_inj (c := s.turn), hrank, relativeSquare, Color.relativeRank_other,
        ← Color.relativeRank_rev, Color.relativeRank_relativeRank]
      rfl
    have hunmove : Unmove s (relativeSquare s.turn 6 ep.file) (relativeSquare s.turn 4 ep.file) := by
      rw [unmove_pawn_iff hpawn]
      refine ⟨hstart, rfl, Or.inr ⟨?_, ?_, ?_, ?_⟩⟩
      · rw [relativeSquare, h6, Color.relativeRank_relativeRank]
      · rw [relativeSquare, h4, Color.relativeRank_relativeRank]
      · show s.board (relativeSquare s.turn.other 2 ep.file) = none
        rw [← hepsq]; exact hempty
      · show legalEp { s with epSquare := some (relativeSquare s.turn.other 2 ep.file) } = legalEp s
        rw [← hepsq, ← hep]
    constructor
    · rintro ⟨hacc, hb, hturn⟩
      exact ⟨hacc, (exists_quiet_iff hs hacc.valid).mpr ⟨hturn, _, _, hunmove, hb⟩⟩
    · rintro ⟨hacc, hm⟩
      obtain ⟨hturn, a, t, ⟨ha, role, ht, hmove⟩, hb⟩ := (exists_quiet_iff hs hacc.valid).mp hm
      refine ⟨hacc, ?_, hturn⟩
      rw [hlegal] at hmove
      split at hmove
      swap
      · exact absurd hmove.2 (by simp)
      obtain ⟨hf, ⟨-, h⟩ | ⟨h1, h3, -, h⟩⟩ := hmove
      · exact absurd h (by simp)
      -- The right left by a double push tells its file.
      have hfile := congrArg Square.file (Option.some.inj (legalEp_eq_some.mp h).1)
      have ha6 : a = relativeSquare s.turn 6 ep.file := by
        refine Square.ext ?_ hfile
        rw [relativeSquare, h6, ← h1, Color.relativeRank_relativeRank]
      have ht4 : t = relativeSquare s.turn 4 ep.file := by
        refine Square.ext ?_ (hf.symm.trans hfile)
        rw [relativeSquare, h4, ← h3, Color.relativeRank_relativeRank]
      rw [hb, ha6, ht4]
  | none =>
    simp only
    refine exists_flatten_targets hs (fun t ht => ?_)
    obtain ⟨role, hst⟩ := mem_byColor_toList.mp ht
    simp only [hst, Run.expect_some, Run.ok_bind]
    by_cases hrole : role = .pawn
    swap
    · rw [if_pos hrole]
      have hor : ∀ a, a ∈ ((Shakmaty.attacks t ⟨s.turn.other, role⟩ s.board.occupied).inter
          s.board.occupied.compl).toList ↔ Unmove s a t := by
        intro a
        rw [mem_origins, unmove_piece_iff hst hrole]
        exact ⟨fun h => ⟨h.2, h.1, hlegal⟩, fun h => ⟨h.2.1, h.1⟩⟩
      obtain ⟨g, hg, hgspec⟩ := Run.exists_mapM (fun a ha => hemit hst ((hor a).mp ha).1)
      rw [hg]
      exact ⟨_, rfl, mem_flatten_origins (Bitboard.nodup_toList _) hor hgspec⟩
    · subst hrole
      rw [if_neg (by simp)]
      cases hoff : t.offset (if s.turn.other = .white then -8 else 8) with
      | none =>
        -- No square behind the pawn.
        refine ⟨[], rfl, List.nodup_nil, fun r => ?_⟩
        simp only [List.not_mem_nil, false_iff]
        rintro ⟨a, ha, -⟩
        obtain ⟨-, hf, ⟨hr, -⟩ | ⟨-, h3, -⟩⟩ := (unmove_pawn_iff hst).mp ha
        · rw [Square.offset_eq_some.mpr ⟨hf, hr⟩] at hoff; cases hoff
        · have hbehind : t.offset (if s.turn.other = .white then -8 else 8)
              = some (relativeSquare s.turn.other 2 t.file) := by
            refine Square.offset_eq_some.mpr ⟨rfl, ?_⟩
            rw [h3, relativeSquare, Color.relativeRank_relativeRank]
            rfl
          rw [hbehind] at hoff
          cases hoff
      | some source =>
        simp only
        have hbehind := Square.offset_eq_some.mp hoff
        have hiff := fun a => unmove_pawn_of_offset (a := a) hst hlegal hbehind
        by_cases hocc : s.board.occupied source = true
        · refine ⟨[], by rw [if_pos hocc]; rfl, List.nodup_nil, fun r => ?_⟩
          simp only [List.not_mem_nil, false_iff]
          rintro ⟨a, ha, -⟩
          rw [Board.occupied_apply, ((hiff a).mp ha).1] at hocc
          cases hocc
        have hempty : s.board source = none := by
          rw [Board.occupied_apply, Bool.not_eq_true] at hocc
          exact Option.isSome_eq_false_iff.mp hocc |> Option.isNone_iff_eq_none.mp
        rw [if_neg hocc]
        obtain ⟨single, hsingle, hsspec⟩ := hemit hst hempty
        rw [hsingle, Run.ok_bind]
        -- A single push only.
        have hone : (∀ a, Unmove s a t → a = source) → ∃ l, (pure single : Run (List Chess)) = .ok l ∧
            l.Nodup ∧ ∀ r, r ∈ l ↔
              ∃ a, Unmove s a t ∧ OnBoard (s.board.relocate t a) s.turn.other r := by
          intro honly
          refine ⟨single, rfl, hsspec.1, fun r => (hsspec.2 r).trans ?_⟩
          constructor
          · exact fun h => ⟨source, (hiff source).mpr ⟨hempty, Or.inl rfl⟩, h⟩
          · rintro ⟨a, ha, h⟩
            rwa [honly a ha] at h
        by_cases hfourth : t.rank = s.turn.other.relativeRank 3
        swap
        · rw [if_neg hfourth]
          refine hone (fun a ha => ?_)
          rcases ((hiff a).mp ha).2 with h | ⟨-, -, -, h3, -⟩
          · exact h
          · exact absurd (by rw [← h3, Color.relativeRank_relativeRank]) hfourth
        rw [if_pos hfourth]
        have h3 : s.turn.other.relativeRank t.rank = 3 := by
          rw [hfourth, Color.relativeRank_relativeRank]
        have hstart : source.offset (if s.turn.other = .white then -8 else 8)
            = some (relativeSquare s.turn.other 1 t.file) := by
          refine Square.offset_eq_some.mpr ⟨hbehind.1.symm, ?_⟩
          have := hbehind.2
          rw [h3] at this
          rw [relativeSquare, Color.relativeRank_relativeRank]
          have : ((3 : Rank) : ℕ) = 3 := rfl
          have : ((1 : Rank) : ℕ) = 1 := rfl
          omega
        have hstartiff : ∀ a : Square, a.file = t.file → s.turn.other.relativeRank a.rank = 1 →
            a = relativeSquare s.turn.other 1 t.file := by
          intro a hf h1
          refine Square.ext ?_ hf
          rw [relativeSquare, ← h1, Color.relativeRank_relativeRank]
        rw [hstart, Run.expect_some, Run.ok_bind]
        by_cases hocc' : s.board.occupied (relativeSquare s.turn.other 1 t.file) = true
        · rw [if_pos hocc']
          refine hone (fun a ha => ?_)
          rcases ((hiff a).mp ha).2 with h | ⟨ha, hf, h1, -, -⟩
          · exact h
          · rw [Board.occupied_apply, ← hstartiff a hf h1, ha] at hocc'
            cases hocc'
        have hempty' : s.board (relativeSquare s.turn.other 1 t.file) = none := by
          rw [Board.occupied_apply, Bool.not_eq_true] at hocc'
          exact Option.isSome_eq_false_iff.mp hocc' |> Option.isNone_iff_eq_none.mp
        rw [if_neg hocc']
        -- The double push must not leave a right.
        have hsq : source = relativeSquare s.turn 5 t.file := by
          refine Square.ext ?_ hbehind.1
          have := hbehind.2
          rw [← Color.relativeRank_inj (c := s.turn.other)]
          refine Fin.ext ?_
          rw [h3] at this
          rw [relativeSquare, Color.relativeRank_other s.turn (s.turn.relativeRank 5),
            Color.relativeRank_relativeRank]
          have : ((3 : Rank) : ℕ) = 3 := rfl
          have : ((Fin.rev (5 : Rank)) : ℕ) = 2 := rfl
          omega
        have hst5 : EpStructure ⟨s.board, s.turn, [], some source⟩ := by
          intro ep hep
          obtain rfl := Option.some.inj hep
          have h4 : s.turn.relativeRank 4 = s.turn.other.relativeRank 3 := by
            cases s.turn <;> decide
          have h6 : s.turn.relativeRank 6 = s.turn.other.relativeRank 1 := by
            cases s.turn <;> decide
          refine ⟨by rw [hsq, relativeSquare, Color.relativeRank_relativeRank], ?_, hempty, ?_⟩
          · rw [← hst, hbehind.1]
            show s.board ⟨s.turn.relativeRank 4, t.file⟩ = _
            rw [h4, ← hfourth]
          · rw [hbehind.1]
            show s.board ⟨s.turn.relativeRank 6, t.file⟩ = none
            rw [h6]; exact hempty'
        have hv5 : Valid ⟨s.board, s.turn, [], some source⟩ :=
          ⟨rfl, hs.kings, hs.pawns, hs.opposite, hst5⟩
        rw [LawfulShakmaty.fromSetupUnchecked_eq _ rfl hst5,
          LawfulShakmaty.legalEpSquare_eq _ hv5]
        have hsucc : (⟨s.board, s.turn, [], some source⟩ : Setup)
            = { s with epSquare := some source } := by
          ext1
          · rfl
          · rfl
          · exact hs.castling.symm
          · rfl
        rw [hsucc]
        by_cases hright : legalEp { s with epSquare := some source } = none
        swap
        · rw [if_neg hright]
          refine hone (fun a ha => ?_)
          rcases ((hiff a).mp ha).2 with h | ⟨-, -, -, -, h⟩
          · exact h
          · exact absurd h hright
        rw [if_pos hright]
        obtain ⟨double, hdouble, hdspec⟩ := hemit hst hempty'
        rw [hdouble, Run.ok_bind]
        have hne : source ≠ relativeSquare s.turn.other 1 t.file := by
          intro he
          have := hbehind.2
          rw [h3, he, relativeSquare, Color.relativeRank_relativeRank] at this
          exact absurd this (by decide)
        have hor : ∀ a, a ∈ [source, relativeSquare s.turn.other 1 t.file] ↔ Unmove s a t := by
          intro a
          rw [hiff a, List.mem_cons, List.mem_singleton]
          constructor
          · rintro (rfl | rfl)
            · exact ⟨hempty, Or.inl rfl⟩
            · exact ⟨hempty, Or.inr ⟨hempty', rfl, Color.relativeRank_relativeRank _ _, h3, hright⟩⟩
          · rintro ⟨-, rfl | ⟨-, hf, h1, -⟩⟩
            · exact Or.inl rfl
            · exact Or.inr (hstartiff a hf h1)
        have := mem_flatten_origins (g := fun a => if a = source then single else double)
          (by simpa using hne) hor (fun a ha => by
            rw [List.mem_cons, List.mem_singleton] at ha
            rcases ha with rfl | rfl
            · rw [if_pos rfl]; exact hsspec
            · rw [if_neg (Ne.symm hne)]; exact hdspec)
        simp only [List.map_cons, List.map_nil, List.flatten_cons, List.flatten_nil,
          List.append_nil, if_true, if_neg (Ne.symm hne)] at this
        exact ⟨_, rfl, this⟩

/-- Over every valid position, the unmoves are the positions one quiet move before, each once. -/
theorem quiet_unmoves_exact (s : Chess) (hs : Valid s) : ∃ l,
    (if s.board.pawns.isEmpty then pawnlessQuietUnmoves s else pawnfulQuietUnmoves s) = .ok l ∧
      l.Nodup ∧ ∀ r, r ∈ l ↔ (Valid r ∧ legalEp r = r.epSquare) ∧
        ∃ m, Legal r m ∧ m.isQuiet = true ∧ normalize (play r m) = normalize s := by
  have haccepted : ∀ r, Accepted r ↔ Valid r ∧ legalEp r = r.epSquare :=
    fun r => ⟨fun h => ⟨h.valid, h.legalEp⟩, fun h => ⟨h.1, h.2⟩⟩
  simp only [← haccepted]
  by_cases hp : s.board.pawns.isEmpty = true
  · rw [if_pos hp]
    exact pawnlessQuietUnmoves_eq hs hp
  · rw [if_neg hp]
    exact pawnfulQuietUnmoves_eq hs (Bool.not_eq_true _ ▸ hp)

end Emission

/-- Black to move, after a pawn move of White to e4. -/
def afterPush : Chess where
  board := fun s =>
    if s = ⟨0, 4⟩ then some ⟨.white, .king⟩
    else if s = ⟨7, 4⟩ then some ⟨.black, .king⟩
    else if s = ⟨3, 4⟩ then some ⟨.white, .pawn⟩
    else none
  turn := .black
  castlingRights := []
  epSquare := none

theorem valid_afterPush : Rules.Valid afterPush where
  castling := rfl
  kings c := by
    cases c
    · exact ⟨⟨0, 4⟩, by decide⟩
    · exact ⟨⟨7, 4⟩, by decide⟩
  pawns := by
    intro s pc hs hpc
    by_cases h : s = ⟨3, 4⟩
    · subst h
      decide
    · simp only [afterPush, h, if_false] at hs
      split_ifs at hs <;> cases hs <;> cases hpc
  opposite := by decide
  epStructure := by
    intro ep hep
    cases hep

theorem quiet_unmoves_exact_afterPush : ∃ l,
    @pawnfulQuietUnmoves rulesShakmaty afterPush = .ok l ∧ l.Nodup ∧ ∀ r ∈ l, Rules.Valid r := by
  obtain ⟨l, hl, hnodup, hmem⟩ :=
    @quiet_unmoves_exact rulesShakmaty lawful_rulesShakmaty afterPush valid_afterPush
  have hp : afterPush.board.pawns.isEmpty = false := by decide
  rw [hp] at hl
  exact ⟨l, hl, hnodup, fun r hr => ((hmem r).mp hr).1.1⟩

end ChessEgt
