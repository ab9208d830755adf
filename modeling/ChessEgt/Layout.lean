import ChessEgt.Words
import ChessEgt.Chess.Moves

/-!
# The material of a position

* `pawnsOn_eq`, `mem_pawnsOn` — the pawns of a file in ascending normalized rank;
* `HasMaterial` — a position has exactly the pieces and the pawn orders of a material;
* `positionOrder_setup`, `HasMaterial.setup` — material and symmetries.
-/

namespace ChessEgt

open Rules

theorem Square.pairwise_all : Square.all.Pairwise
    fun s t => s.rank < t.rank ∨ (s.rank = t.rank ∧ s.file < t.file) := by decide +kernel

/-! ### The pawns of a file -/

section PawnsOn

variable {p : Chess} {f : File}

/-- Squares in ascending normalized rank. -/
def Ascending (c : Color) (l : List Square) : Prop :=
  l.Pairwise fun s t => c.relativeRank s.rank < c.relativeRank t.rank

theorem mem_pawnsOn {s : Square} :
    s ∈ pawnsOn p f ↔ (∃ c, p.board s = some ⟨c, .pawn⟩) ∧ s.file = f := by
  have hmem : s ∈ (p.board.pawns.inter (Bitboard.fromFile f)).toList
      ↔ (∃ c, p.board s = some ⟨c, .pawn⟩) ∧ s.file = f := by
    rw [Bitboard.mem_toList, Bitboard.inter_apply, Bool.and_eq_true, Bitboard.fromFile_apply,
      decide_eq_true_eq]
    refine and_congr_left (fun _ => ?_)
    rw [Board.pawns, Board.byRole_apply]
    constructor
    · rintro ⟨⟨c, r⟩, h, rfl⟩; exact ⟨c, h⟩
    · rintro ⟨c, h⟩; exact ⟨_, h, rfl⟩
  unfold pawnsOn
  simp only
  split
  · rw [List.mem_reverse, hmem]
  · exact hmem

theorem ascending_pawnsOn : Ascending p.turn (pawnsOn p f) := by
  have hasc : (p.board.pawns.inter (Bitboard.fromFile f)).toList.Pairwise
      fun s t => s.rank < t.rank := by
    refine (Square.pairwise_all.filter _).imp_of_mem (fun {s t} hs ht h => ?_)
    have hs := (List.mem_filter.mp hs).2
    have ht := (List.mem_filter.mp ht).2
    rw [Bitboard.inter_apply, Bool.and_eq_true, Bitboard.fromFile_apply, decide_eq_true_eq] at hs ht
    rcases h with h | ⟨-, h⟩
    · exact h
    · rw [hs.2, ht.2] at h; exact absurd h (lt_irrefl _)
  unfold pawnsOn Ascending
  simp only
  cases hturn : p.turn with
  | white => simpa using hasc
  | black =>
    rw [if_pos rfl, List.pairwise_reverse]
    simpa using hasc

theorem Ascending.nodup {c : Color} {l : List Square} (h : Ascending c l) : l.Nodup :=
  List.Pairwise.imp (fun hlt he => absurd hlt (by rw [he]; exact lt_irrefl _)) h

/-- Ascending lists are determined by their members. -/
theorem Ascending.eq {c : Color} {l l' : List Square} (h : Ascending c l) (h' : Ascending c l')
    (hmem : ∀ s, s ∈ l ↔ s ∈ l') : l = l' :=
  List.Perm.eq_of_pairwise (fun _ _ _ _ hab hba => absurd hba (lt_asymm hab)) h h'
    ((List.perm_ext_iff_of_nodup h.nodup h'.nodup).mpr hmem)

theorem pawnsOn_eq {l : List Square} (hl : Ascending p.turn l)
    (hmem : ∀ s, s ∈ l ↔ (∃ c, p.board s = some ⟨c, .pawn⟩) ∧ s.file = f) : pawnsOn p f = l :=
  ascending_pawnsOn.eq hl (fun s => by rw [mem_pawnsOn, hmem])

/-- On occupied squares, the side is the piece's color seen from the side to move. -/
theorem sideAt_eq {s : Square} {pc : Piece} (h : p.board s = some pc) :
    sideAt p s = EgtSide.ofColor pc.color p.turn := by
  unfold sideAt EgtSide.ofColor
  simp only [Board.byColor, h, Option.any_some, decide_eq_true_eq]
  cases pc.color <;> cases p.turn <;> rfl

theorem color_sideAt {s : Square} {pc : Piece} (h : p.board s = some pc) :
    (sideAt p s).color p.turn = pc.color := by
  rw [sideAt_eq h, EgtSide.color_ofColor]

end PawnsOn

/-! ### Material and symmetries -/

namespace Transform

variable {g : Transform} {p : Chess}

/-- The image of a file. -/
def file (g : Transform) (f : File) : File := if g.symmetry.flipFiles then f.rev else f

theorem file_file (g : Transform) (f : File) : g.file (g.file f) = f := by
  unfold file; split <;> simp

theorem KeepsPawns.file_smul (h : g.KeepsPawns) (s : Square) :
    (g.symmetry • s).file = g.file s.file := by
  obtain ⟨⟨a, b, c⟩, d⟩ := g
  obtain ⟨h, -⟩ := h
  simp only at h
  subst h
  cases b <;> simp [file, Symmetry.smul_def, Symmetry.apply]

theorem sideAt_setup (s : Square) : sideAt (g.setup p) (g.symmetry • s) = sideAt p s := by
  have := g.board_byColor p.board p.turn.other s
  rw [g.color_other] at this
  unfold sideAt
  rw [setup_board, setup_turn, this]

theorem pawnsOn_setup (h : g.KeepsPawns) (f : File) :
    pawnsOn (g.setup p) (g.file f) = (pawnsOn p f).map (g.symmetry • ·) := by
  refine pawnsOn_eq ?_ (fun s => ?_)
  · unfold Ascending
    rw [List.pairwise_map]
    refine ascending_pawnsOn.imp (fun {s t} hlt => ?_)
    rw [setup_turn, h.relativeRank, h.relativeRank]
    exact hlt
  · obtain ⟨s, rfl⟩ := MulAction.surjective g.symmetry s
    have hinj : g.file s.file = g.file f ↔ s.file = f :=
      ⟨fun he => by rw [← g.file_file s.file, he, g.file_file], fun he => by rw [he]⟩
    rw [h.file_smul, hinj, List.mem_map]
    simp only [smul_left_cancel_iff, exists_eq_right, mem_pawnsOn]
    refine and_congr_left (fun _ => ?_)
    constructor
    · rintro ⟨c, hc⟩
      exact ⟨g.color c, g.board_eq_some.mpr hc⟩
    · rintro ⟨c, hc⟩
      rw [setup_board, board_smul, Option.map_eq_some_iff] at hc
      obtain ⟨pc, hpc, he⟩ := hc
      refine ⟨pc.color, ?_⟩
      have hr : pc.role = .pawn := by rw [← piece_role g pc, he]
      rw [hpc, ← hr]

/-- Pawn orders are invariant under the symmetries that keep the pawns. -/
theorem positionOrder_setup (h : g.KeepsPawns) (f : File) :
    positionOrder (g.setup p) (g.file f) = positionOrder p f := by
  unfold positionOrder
  rw [pawnsOn_setup h, List.map_map]
  exact List.map_congr_left (fun s _ => sideAt_setup s)

theorem positionOrder_pawnless (h : Pawnless p.board) (f : File) : positionOrder p f = [] := by
  unfold positionOrder
  rw [List.map_eq_nil_iff, List.eq_nil_iff_forall_not_mem]
  intro s hs
  obtain ⟨⟨c, hc⟩, -⟩ := mem_pawnsOn.mp hs
  exact h s _ hc rfl

theorem toList_byPiece_perm (g : Transform) (b : Board) (pc : Piece) :
    ((g.board b).byPiece (g.piece pc)).toList.Perm ((b.byPiece pc).toList.map (g.symmetry • ·)) := by
  refine (List.perm_ext_iff_of_nodup (Bitboard.nodup_toList _)
    ((Bitboard.nodup_toList _).map (MulAction.injective g.symmetry))).mpr (fun s => ?_)
  obtain ⟨s, rfl⟩ := MulAction.surjective g.symmetry s
  rw [List.mem_map]
  simp only [smul_left_cancel_iff, exists_eq_right, Bitboard.mem_toList, Board.byPiece_apply,
    decide_eq_true_eq]
  exact g.board_eq_some

theorem count_byPiece (g : Transform) (b : Board) (pc : Piece) :
    ((g.board b).byPiece (g.piece pc)).count = (b.byPiece pc).count := by
  have := (toList_byPiece_perm g b pc).length_eq
  rwa [List.length_map] at this

end Transform

/-- A position has the pieces and the pawn orders of a material, seen from the side to move. -/
structure HasMaterial (M : Material) (p : Chess) : Prop where
  words : ∀ f, positionOrder p f = M.words f
  count : ∀ s r, r ≠ .pawn → (p.board.byPiece ⟨s.color p.turn, r⟩).count = M.count s r

namespace Material

/-- The material of the mirror images. -/
def mirrored (M : Material) : Material where
  words f := M.words f.rev
  count := M.count
  words_le f := M.words_le f.rev
  count_pawn := M.count_pawn
  count_king := M.count_king

@[simp] theorem mirrored_mirrored (M : Material) : M.mirrored.mirrored = M := by
  ext <;> simp [mirrored]

theorem nPawns_mirrored (M : Material) : M.mirrored.nPawns = M.nPawns := by
  simp only [nPawns, mirrored, List.finRange_succ, List.finRange_zero]
  simp
  omega

theorem nPieces_mirrored (M : Material) : M.mirrored.nPieces = M.nPieces := by
  unfold nPieces
  rw [nPawns_mirrored]; rfl

end Material

namespace HasMaterial

variable {M : Material} {p : Chess}

theorem count_setup (h : HasMaterial M p) (g : Transform) (s : EgtSide) {r : Role}
    (hr : r ≠ .pawn) : ((g.setup p).board.byPiece ⟨s.color (g.setup p).turn, r⟩).count
      = M.count s r := by
  have hc : s.color (g.setup p).turn = g.color (s.color p.turn) := by cases s <;> simp
  rw [hc, ← h.count s r hr]
  exact g.count_byPiece p.board ⟨s.color p.turn, r⟩

/-- Symmetries that keep the pawns and their files keep the material. -/
theorem setup (h : HasMaterial M p) {g : Transform} (hg : g.KeepsPawns)
    (hf : g.symmetry.flipFiles = false) : HasMaterial M (g.setup p) where
  words f := by
    have := Transform.positionOrder_setup hg (p := p) f
    rwa [show g.file f = f by simp [Transform.file, hf], h.words f] at this
  count s r hr := h.count_setup g s hr

/-- Reflections of the files reflect the material. -/
theorem setup_mirrored (h : HasMaterial M p) {g : Transform} (hg : g.KeepsPawns)
    (hf : g.symmetry.flipFiles = true) : HasMaterial M.mirrored (g.setup p) where
  words f := by
    have := Transform.positionOrder_setup hg (p := p) f.rev
    rwa [show g.file f.rev = f by simp [Transform.file, hf], h.words] at this
  count s r hr := h.count_setup g s hr

theorem pawnless_iff (h : HasMaterial M p) : Transform.Pawnless p.board ↔ M.nPawns = 0 := by
  have hzero : M.nPawns = 0 ↔ ∀ f, M.words f = [] := by
    unfold Material.nPawns
    rw [List.sum_eq_zero_iff]
    simp
  rw [hzero]
  constructor
  · intro hp f
    rw [← h.words f]; exact Transform.positionOrder_pawnless hp f
  · intro hw s pc hs hr
    have hmem : s ∈ pawnsOn p s.file := mem_pawnsOn.mpr ⟨⟨pc.color, by rw [hs, ← hr]⟩, rfl⟩
    have hnil := (h.words s.file).trans (hw s.file)
    unfold positionOrder at hnil
    rw [List.map_eq_nil_iff] at hnil
    rw [hnil] at hmem
    exact absurd hmem List.not_mem_nil

/-- Every symmetry keeps a material without pawns. -/
theorem setup_pawnless (h : HasMaterial M p) (g : Transform) (hp : M.nPawns = 0) :
    HasMaterial M (g.setup p) where
  words f := by
    have hb := h.pawnless_iff.mpr hp
    rw [← h.words f, Transform.positionOrder_pawnless hb]
    exact Transform.positionOrder_pawnless (p := g.setup p) (g.pawnless_board hb) f
  count s r hr := h.count_setup g s hr

theorem normalize (h : HasMaterial M p) : HasMaterial M (normalize p) := ⟨h.words, h.count⟩

end HasMaterial

end ChessEgt
