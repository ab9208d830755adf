import ChessEgt.Indexing.Pawns
import ChessEgt.Layout

/-!
# Square numbers and coordinate slots

* `squareIndex_injective`, `squareCoord_squareIndex` — the two square numberings are bijective;
* `squareIndex_mirror` — how the reflection of the files acts on the numbers of symmetric tables;
* `slots_indexer` — the coordinate slots of a plan, group by group;
* `place`, `place_eq_some`, `coordToSetup_eq` — the board of coordinates, for either side to
  move.
-/

namespace ChessEgt

open Rules

namespace Indexer

variable (self : Indexer)

/-! ### Square numbers -/

theorem squareIndex_lt (s : Square) : self.squareIndex s < 64 := by
  have := s.rank.isLt
  have := s.file.isLt
  unfold squareIndex
  split
  · split <;> omega
  · omega

theorem squareIndex_injective : Function.Injective self.squareIndex := by
  intro s t h
  have h₁ := s.rank.isLt
  have h₂ := s.file.isLt
  have h₃ := t.rank.isLt
  have h₄ := t.file.isLt
  unfold squareIndex at h
  have : s.rank.val = t.rank.val ∧ s.file.val = t.file.val := by
    split at h
    · split at h <;> split at h <;> omega
    · omega
  exact Square.ext (Fin.ext this.1) (Fin.ext this.2)

theorem toSquare_eq (s : Square) : toSquare s.rank.val s.file.val = .ok s :=
  dif_pos ⟨s.rank.isLt, s.file.isLt⟩

theorem squareCoord_squareIndex (s : Square) :
    self.squareCoord (self.squareIndex s) = .ok s := by
  have h₁ := s.rank.isLt
  have h₂ := s.file.isLt
  unfold squareCoord squareIndex
  by_cases h : self.symmetricPawns = true
  · simp only [if_pos h]
    by_cases hf : s.file.val < 4
    · rw [if_pos hf, show (s.file.val * 8 + s.rank.val) / 8 = s.file.val by omega,
        show (s.file.val * 8 + s.rank.val) % 8 = s.rank.val by omega, if_pos hf]
      exact toSquare_eq s
    · rw [if_neg hf, show (s.file.val * 8 + (7 - s.rank.val)) / 8 = s.file.val by omega,
        show (s.file.val * 8 + (7 - s.rank.val)) % 8 = 7 - s.rank.val by omega, if_neg hf,
        show 7 - (7 - s.rank.val) = s.rank.val by omega]
      exact toSquare_eq s
  · simp only [if_neg h]
    rw [show (s.rank.val * 8 + s.file.val) / 8 = s.rank.val by omega,
      show (s.rank.val * 8 + s.file.val) % 8 = s.file.val by omega]
    exact toSquare_eq s

theorem exists_squareIndex {i : ℕ} (h : i < 64) : ∃ s, self.squareIndex s = i := by
  by_cases hs : self.symmetricPawns = true
  · by_cases hf : i / 8 < 4
    · refine ⟨⟨⟨i % 8, by omega⟩, ⟨i / 8, by omega⟩⟩, ?_⟩
      unfold squareIndex
      rw [if_pos hs]
      simp only [if_pos hf]
      omega
    · refine ⟨⟨⟨7 - i % 8, by omega⟩, ⟨i / 8, by omega⟩⟩, ?_⟩
      unfold squareIndex
      rw [if_pos hs]
      simp only [if_neg hf]
      omega
  · refine ⟨⟨⟨i / 8, by omega⟩, ⟨i % 8, by omega⟩⟩, ?_⟩
    unfold squareIndex
    rw [if_neg hs]
    simp only
    omega

theorem pidxToCoord_coordToPidx (coord : List Square) :
    pidxToCoord self (self.coordToPidx coord) = .ok coord := by
  unfold pidxToCoord coordToPidx
  rw [List.mapM_map]
  have := Run.mapM_eq_ok (f := self.squareCoord ∘ self.squareIndex) (g := id) (l := coord)
    (fun s _ => self.squareCoord_squareIndex s)
  rwa [List.map_id] at this

variable {self}

theorem squareIndex_eq_number (h : self.symmetricPawns = false) (s : Square) :
    self.squareIndex s = s.number := by
  unfold squareIndex Square.number
  rw [if_neg (by rw [h]; decide)]

/-- In symmetric tables, the reflection of the files reverses the numbers. -/
theorem squareIndex_mirror (h : self.symmetricPawns = true) (s : Square) :
    self.squareIndex (Symmetry.mirror • s) = 63 - self.squareIndex s := by
  have h₁ := s.rank.isLt
  have h₂ := s.file.isLt
  unfold squareIndex
  have hr : (Symmetry.mirror • s).rank.val = s.rank.val := rfl
  have hm : (Symmetry.mirror • s).file.val = 7 - s.file.val := by
    rw [Symmetry.mirror_smul, Fin.val_rev]; omega
  rw [if_pos h, if_pos h, hr, hm]
  by_cases hf : s.file.val < 4
  · rw [if_pos hf, if_neg (by omega)]; omega
  · rw [if_neg hf, if_pos (by omega)]; omega

/-! ### Coordinate slots -/

/-- The slots of a pawn group, from the highest rank. -/
def pawnSlots (g : IndexerPawnGroup) : List Piece :=
  g.order.reverse.map fun side => ⟨side.color .white, .pawn⟩

/-- The slots of a non-pawn group. -/
def groupSlots (g : IndexerPieceGroup) : List Piece :=
  match g.kind with
  | .pieces role side => List.replicate g.size ⟨side.color .white, role⟩
  | .kingPair => [⟨.white, .king⟩, ⟨.black, .king⟩]

end Indexer

open Indexer

namespace Material

variable (M : Material)

theorem map_kind_size_nonpawns : M.nonpawns.map (fun g => (g.kind, g.size))
    = (M.kingGroups ++ M.restGroups).map fun g => (g.kind, g.size) := by
  have hassign : ∀ (n : ℕ) (gs : List IndexerPieceGroup),
      (assignSquares n gs).map (fun g => (g.kind, g.size)) = gs.map fun g => (g.kind, g.size) := by
    intro n gs
    induction gs generalizing n with
    | nil => rfl
    | cons g gs ih => rw [assignSquares, List.map_cons, ih, List.map_cons]
  have hlook : ∀ gs : List IndexerPieceGroup,
      (lookUpKings gs).map (fun g => (g.kind, g.size)) = gs.map fun g => (g.kind, g.size) := by
    intro gs
    cases gs <;> rfl
  unfold nonpawns assignedGroups
  split
  · rw [hlook, hassign]
  · rw [hassign]

theorem map_nonpawns {α : Type} (f : IndexerPieceKind × ℕ → α) :
    M.nonpawns.map (fun g => f (g.kind, g.size))
      = (M.kingGroups ++ M.restGroups).map fun g => f (g.kind, g.size) := by
  have := congrArg (List.map f) M.map_kind_size_nonpawns
  rwa [List.map_map, List.map_map] at this

theorem flatMap_groupSlots : M.nonpawns.flatMap groupSlots
    = (M.kingGroups ++ M.restGroups).flatMap groupSlots := by
  have := congrArg List.flatten (M.map_nonpawns fun x => match x.1 with
    | .pieces role side => List.replicate x.2 (⟨side.color .white, role⟩ : Piece)
    | .kingPair => [⟨.white, .king⟩, ⟨.black, .king⟩])
  exact this

/-- The slots of the plan, group by group. -/
theorem slots_indexer : M.indexer.piecesIfWhiteIsStm
    = M.pawnGroups.flatMap pawnSlots ++ M.nonpawns.flatMap groupSlots := by
  show M.elements.flatMap elementPieces = _
  rw [flatMap_groupSlots, elements, List.flatMap_append]
  congr 1
  · unfold pawnElements pawnGroups
    induction (List.finRange 8) with
    | nil => rfl
    | cons f l ih =>
      by_cases h : M.words f = []
      · rw [List.filterMap_cons_none (by rw [if_pos h]), List.filterMap_cons_none (by rw [if_pos h]),
          ih]
      · rw [List.filterMap_cons_some (by rw [if_neg h]), List.filterMap_cons_some (by rw [if_neg h]),
          List.flatMap_cons, List.flatMap_cons, ih]
        rfl
  · have hk : pieceKinds = (.king, .sideToMove) :: (.king, .sideNotToMove) :: restKinds := rfl
    have hkings : M.kingGroups.flatMap groupSlots = [⟨.white, .king⟩, ⟨.black, .king⟩] := by
      unfold kingGroups; split <;> rfl
    have hrest : ∀ l : List (Role × EgtSide), (l.filterMap fun k =>
        if M.count k.2 k.1 = 0 then none
        else some (EgtElement.pieceGroup k.1 k.2 (M.count k.2 k.1))).flatMap elementPieces
        = (l.filterMap fun k => if M.count k.2 k.1 = 0 then none
          else some (⟨.pieces k.1 k.2, 0, 0, M.count k.2 k.1⟩ : IndexerPieceGroup)).flatMap
            groupSlots := by
      intro l
      induction l with
      | nil => rfl
      | cons k l ih =>
        by_cases h : M.count k.2 k.1 = 0
        · rw [List.filterMap_cons_none (by rw [if_pos h]),
            List.filterMap_cons_none (by rw [if_pos h]), ih]
        · rw [List.filterMap_cons_some (by rw [if_neg h]),
            List.filterMap_cons_some (by rw [if_neg h]), List.flatMap_cons, List.flatMap_cons, ih]
          rfl
    rw [List.flatMap_append, hkings, pieceElements, hk,
      List.filterMap_cons_some (b := .pieceGroup .king .sideToMove 1),
      List.filterMap_cons_some (b := .pieceGroup .king .sideNotToMove 1), List.flatMap_cons,
      List.flatMap_cons, hrest]
    · rfl
    all_goals simp [M.count_king]

end Material

/-! ### Placing pieces -/

/-- The board with pieces on the given squares. -/
def place (l : List (Square × Piece)) : Board :=
  l.foldl (fun b x => b.setPieceAt x.1 x.2) fun _ => none

/-- On distinct squares, exactly the given pieces stand. -/
theorem place_eq_some {l : List (Square × Piece)} (h : (l.map (·.1)).Nodup) {s : Square}
    {pc : Piece} : place l s = some pc ↔ (s, pc) ∈ l := by
  suffices hgen : ∀ b : Board, l.foldl (fun b x => b.setPieceAt x.1 x.2) b s = some pc ↔
      (s, pc) ∈ l ∨ (s ∉ l.map (·.1) ∧ b s = some pc) by
    rw [place, hgen]
    simp
  induction l with
  | nil => simp
  | cons x l ih =>
    intro b
    rw [List.map_cons, List.nodup_cons] at h
    rw [List.foldl_cons, ih h.2, List.map_cons, List.mem_cons, List.mem_cons]
    by_cases hs : s = x.1
    · subst hs
      have hset : b.setPieceAt x.1 x.2 x.1 = some x.2 := by simp [Board.setPieceAt]
      have hnot : (x.1, pc) ∉ l := fun hm => h.1 (List.mem_map.mpr ⟨_, hm, rfl⟩)
      rw [hset]
      constructor
      · rintro (hm | ⟨-, he⟩)
        · exact absurd hm hnot
        · exact Or.inl (Or.inl (by rw [← Option.some.inj he]))
      · rintro ((he | hm) | ⟨hn, -⟩)
        · exact Or.inr ⟨h.1, by rw [← he]⟩
        · exact absurd hm hnot
        · exact absurd (Or.inl rfl) hn
    · have hset : b.setPieceAt x.1 x.2 s = b s := by
        simp [Board.setPieceAt, hs]
      have hne : (s, pc) ≠ x := fun he => hs (by rw [← he])
      rw [hset]
      simp [hs, hne]

/-! ### The setups of coordinates -/

namespace Transform

/-- The transform between the positions of a side to move and those of White: colors are
    exchanged, and the ranks are flipped if there are pawns. -/
def normal (pawnful : Bool) (turn : Color) : Transform :=
  match turn with
  | .white => 1
  | .black => ⟨if pawnful then Symmetry.flip else 1, true⟩

@[simp] theorem normal_inv (pawnful : Bool) (turn : Color) :
    (normal pawnful turn).inv = normal pawnful turn := by
  cases pawnful <;> cases turn <;> decide

@[simp] theorem normal_color_self (pawnful : Bool) (turn : Color) :
    (normal pawnful turn).color turn = .white := by
  cases turn <;> rfl

@[simp] theorem normal_color_white (pawnful : Bool) (turn : Color) :
    (normal pawnful turn).color .white = turn := by
  cases turn <;> rfl

@[simp] theorem normal_flipFiles (pawnful : Bool) (turn : Color) :
    (normal pawnful turn).symmetry.flipFiles = false := by
  cases pawnful <;> cases turn <;> rfl

theorem normal_keepsPawns (turn : Color) : (normal true turn).KeepsPawns := by
  cases turn <;> decide

theorem normal_fits {pawnful : Bool} {b : Board} (turn : Color)
    (h : pawnful = false → Pawnless b) : (normal pawnful turn).Fits b := by
  cases pawnful with
  | true => exact Or.inl (normal_keepsPawns turn)
  | false => exact Or.inr (h rfl)

theorem board_setPieceAt (g : Transform) (b : Board) (s : Square) (pc : Piece) :
    g.board (b.setPieceAt s pc) = (g.board b).setPieceAt (g.symmetry • s) (g.piece pc) := by
  funext t
  obtain ⟨t, rfl⟩ := MulAction.surjective g.symmetry t
  rw [board_smul]
  unfold Board.setPieceAt
  simp only [Function.update_apply, smul_left_cancel_iff]
  split
  · rfl
  · rw [board_smul]

end Transform

/-- A board with White to move, and the en passant square on a file. -/
def whiteSetup (b : Board) (ep : Option File) : Setup :=
  ⟨b, .white, [], ep.map fun f => ⟨5, f⟩⟩

namespace Indexer

/-- Decoded setups are those of White, transformed for the side to move. -/
theorem coordToSetup_eq (self : Indexer) (ep : Option File) (coord : List Square) (turn : Color)
    (hep : ep ≠ none → 0 < self.nPawns) : self.coordToSetup ep coord turn
      = (Transform.normal (decide (0 < self.nPawns)) turn).setup
        (whiteSetup (place (coord.zip self.piecesIfWhiteIsStm)) ep) := by
  have hfold : ∀ (g : Transform) (l : List (Square × Piece)) (b : Board),
      l.foldl (fun b x => b.setPieceAt (g.symmetry • x.1) (g.piece x.2)) (g.board b)
        = g.board (l.foldl (fun b x => b.setPieceAt x.1 x.2) b) := by
    intro g l
    induction l with
    | nil => exact fun _ => rfl
    | cons x l ih => intro b; rw [List.foldl_cons, List.foldl_cons, ← g.board_setPieceAt, ih]
  unfold coordToSetup Transform.setup whiteSetup place
  ext1
  · cases turn with
    | white =>
      simp only [reduceCtorEq, if_false, Transform.normal]
      rw [Transform.one_board]
      rfl
    | black =>
      have hnone : Setup.empty.board
          = (Transform.normal (decide (0 < self.nPawns)) .black).board fun _ => none := rfl
      rw [hnone]
      simp only [if_true]
      rw [← hfold]
      congr 1
      funext b x
      congr 1
      by_cases h : 0 < self.nPawns <;> simp [Transform.normal, h]
  · simp
  · rfl
  · cases ep with
    | none => rfl
    | some f =>
      have h := hep (by simp)
      cases turn with
      | white => rfl
      | black => simp [Transform.normal, h]

end Indexer

end ChessEgt
