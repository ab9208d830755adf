import ChessEgt.Indexing.Squares
import ChessEgt.Library.Chunks

/-!
# Arranged coordinates

Boards of a material against lists of squares, one list a group.

* `WhiteBoard` — a board with exactly the pieces of a material, White to move;
* `PawnChunk`, `PieceChunk`, `Arranged` — the squares of a group, and of all groups;
* `WhiteBoard.arranged`, `WhiteBoard.place_eq` — the squares of a board, group by group, are
  arranged and give the board back;
* `Arranged.whiteBoard`, `Arranged.eq` — arranged squares give a board of the material, and are
  the squares of it.
-/

namespace ChessEgt

open Rules Indexer

/-- A board with exactly the pieces of a material, White to move. -/
structure WhiteBoard (M : Material) (b : Board) : Prop where
  material : HasMaterial M (whiteSetup b none)
  ranks : Rules.PawnRanks b

/-- The squares of a pawn group, from the highest rank. -/
structure PawnChunk (g : IndexerPawnGroup) (c : List Square) : Prop where
  length_eq : c.length = g.size
  file : ∀ s ∈ c, s.file = g.file
  descending : c.Pairwise fun s t => t.rank < s.rank
  ranks : ∀ s ∈ c, s.rank ≠ 0 ∧ s.rank ≠ 7

/-- The squares of a non-pawn group, from the highest number unless it is the king pair. -/
structure PieceChunk (plan : Indexer) (g : IndexerPieceGroup) (c : List Square) : Prop where
  length_eq : c.length = g.size
  descending : g.kind ≠ .kingPair →
    c.Pairwise fun s t => plan.squareIndex t < plan.squareIndex s

/-- Distinct squares for all groups of a material. -/
structure Arranged (M : Material) (ps qs : List (List Square)) : Prop where
  pawns : List.Forall₂ PawnChunk M.pawnGroups ps
  pieces : List.Forall₂ (PieceChunk M.indexer) M.nonpawns qs
  nodup : (ps.flatten ++ qs.flatten).Nodup

/-! ### The groups of a plan -/

namespace Material

variable {M : Material}

theorem mem_pawnGroups {g : IndexerPawnGroup} :
    g ∈ M.pawnGroups ↔ g.order = M.words g.file ∧ g.order ≠ [] := by
  simp only [pawnGroups, List.mem_filterMap, List.mem_finRange, true_and]
  constructor
  · rintro ⟨f, h⟩
    split at h
    · cases h
    next hne => cases h; exact ⟨rfl, hne⟩
  · rintro ⟨h, hne⟩
    refine ⟨g.file, ?_⟩
    rw [← h, if_neg hne]

theorem pairwise_pawnGroups : M.pawnGroups.Pairwise fun g g' => g.file ≠ g'.file := by
  unfold pawnGroups
  refine List.Pairwise.filterMap (R := (· ≠ ·)) _ ?_ (List.nodup_finRange 8)
  rintro f f' hne b hb b' hb'
  split at hb
  · cases hb
  · split at hb'
    · cases hb'
    · cases Option.some.inj hb; cases Option.some.inj hb'
      exact hne

theorem nodup_files_pawnGroups : (M.pawnGroups.map (·.file)).Nodup := by
  rw [List.Nodup, List.pairwise_map]
  exact pairwise_pawnGroups

theorem mem_kind_size {k : IndexerPieceKind} {n : ℕ} :
    (k, n) ∈ M.nonpawns.map (fun g => (g.kind, g.size)) ↔
      (k = .kingPair ∧ n = 2 ∧ M.KingsPaired) ∨
        ∃ r s, k = .pieces r s ∧ n = M.count s r ∧ n ≠ 0 ∧ (r = .king → ¬ M.KingsPaired) := by
  have hrest : (k, n) ∈ M.restGroups.map (fun g => (g.kind, g.size)) ↔
      ∃ r s, k = .pieces r s ∧ n = M.count s r ∧ n ≠ 0 ∧ r ≠ .king := by
    have hmem : ∀ x : Role × EgtSide, x ∈ restKinds ↔ x.1 ≠ .pawn ∧ x.1 ≠ .king := by
      rintro ⟨r, s⟩; cases r <;> cases s <;> decide
    simp only [restGroups, List.mem_map, List.mem_filterMap, hmem]
    constructor
    · rintro ⟨g, ⟨x, hx, h⟩, he⟩
      split at h
      · cases h
      next hne => cases h; cases he; exact ⟨x.1, x.2, rfl, rfl, hne, hx.2⟩
    · rintro ⟨r, s, rfl, rfl, hne, hr⟩
      refine ⟨_, ⟨(r, s), ⟨fun hp => ?_, hr⟩, if_neg hne⟩, rfl⟩
      have hp : r = .pawn := hp
      subst hp
      exact hne (M.count_pawn s)
  rw [map_kind_size_nonpawns, List.map_append, List.mem_append, hrest]
  unfold kingGroups
  by_cases hp : M.KingsPaired
  · rw [if_pos hp]
    simp only [List.map_cons, List.map_nil, List.mem_singleton, Prod.mk.injEq]
    constructor
    · rintro (⟨rfl, rfl⟩ | ⟨r, s, rfl, rfl, hne, hr⟩)
      · exact Or.inl ⟨rfl, rfl, hp⟩
      · exact Or.inr ⟨r, s, rfl, rfl, hne, fun h => absurd h hr⟩
    · rintro (⟨rfl, rfl, -⟩ | ⟨r, s, rfl, rfl, hne, hr⟩)
      · exact Or.inl ⟨rfl, rfl⟩
      · exact Or.inr ⟨r, s, rfl, rfl, hne, fun h => hr h hp⟩
  · rw [if_neg hp]
    simp only [List.map_cons, List.map_nil, List.mem_cons, List.not_mem_nil, or_false,
      Prod.mk.injEq]
    constructor
    · rintro ((⟨rfl, rfl⟩ | ⟨rfl, rfl⟩) | ⟨r, s, rfl, rfl, hne, hr⟩)
      · exact Or.inr ⟨_, _, rfl, (M.count_king _).symm, by decide, fun _ => hp⟩
      · exact Or.inr ⟨_, _, rfl, (M.count_king _).symm, by decide, fun _ => hp⟩
      · exact Or.inr ⟨r, s, rfl, rfl, hne, fun _ => hp⟩
    · rintro (⟨-, -, h⟩ | ⟨r, s, rfl, rfl, hne, hr⟩)
      · exact absurd h hp
      · by_cases hk : r = .king
        · subst hk
          rw [M.count_king]
          cases s
          · exact Or.inl (Or.inl ⟨rfl, rfl⟩)
          · exact Or.inl (Or.inr ⟨rfl, rfl⟩)
        · exact Or.inr ⟨r, s, rfl, rfl, hne, hk⟩

/-- The kinds and sizes of the non-pawn groups. -/
theorem kind_cases {g : IndexerPieceGroup} (hg : g ∈ M.nonpawns) :
    (g.kind = .kingPair ∧ g.size = 2 ∧ M.KingsPaired) ∨
      ∃ r s, g.kind = .pieces r s ∧ g.size = M.count s r ∧ g.size ≠ 0 ∧
        (r = .king → ¬ M.KingsPaired) :=
  mem_kind_size.mp (List.mem_map.mpr ⟨g, hg, rfl⟩)

theorem role_ne_pawn {g : IndexerPieceGroup} (hg : g ∈ M.nonpawns) {pc : Piece}
    (hpc : pc ∈ groupSlots g) : pc.role ≠ .pawn := by
  unfold groupSlots at hpc
  rcases kind_cases hg with ⟨hk, -⟩ | ⟨r, s, hk, hn, hne, -⟩
  · rw [hk] at hpc
    simp only [List.mem_cons, List.not_mem_nil, or_false] at hpc
    rcases hpc with rfl | rfl <;> simp
  · rw [hk] at hpc
    rw [(List.mem_replicate.mp hpc).2]
    rintro (rfl : r = .pawn)
    exact hne (hn.trans (M.count_pawn s))

theorem mem_groupSlots_pieces {g : IndexerPieceGroup} {r : Role} {s : EgtSide}
    (hk : g.kind = .pieces r s) (hn : g.size ≠ 0) {pc : Piece} :
    pc ∈ groupSlots g ↔ pc = ⟨s.color .white, r⟩ := by
  unfold groupSlots
  rw [hk]
  simp only [List.mem_replicate]
  exact ⟨fun h => h.2, fun h => ⟨hn, h⟩⟩

theorem mem_groupSlots_kingPair {g : IndexerPieceGroup} (hk : g.kind = .kingPair) {pc : Piece} :
    pc ∈ groupSlots g ↔ pc.role = .king := by
  unfold groupSlots
  rw [hk]
  obtain ⟨c, r⟩ := pc
  cases c <;> cases r <;> simp

/-- Every kind of piece that occurs has a group. -/
theorem exists_group {s : EgtSide} {r : Role} (hn : M.count s r ≠ 0) :
    ∃ g ∈ M.nonpawns, ⟨s.color .white, r⟩ ∈ groupSlots g := by
  by_cases hk : r = .king ∧ M.KingsPaired
  · obtain ⟨g, hg, he⟩ := List.mem_map.mp
      (mem_kind_size.mpr (Or.inl ⟨rfl, rfl, hk.2⟩))
    simp only [Prod.mk.injEq] at he
    exact ⟨g, hg, (mem_groupSlots_kingPair he.1).mpr hk.1⟩
  · obtain ⟨g, hg, he⟩ := List.mem_map.mp
      (mem_kind_size.mpr (Or.inr ⟨r, s, rfl, rfl, hn, fun h hp => hk ⟨h, hp⟩⟩))
    simp only [Prod.mk.injEq] at he
    exact ⟨g, hg, (mem_groupSlots_pieces he.1 (he.2 ▸ hn)).mpr rfl⟩

/-- Different groups have different kinds of pieces. -/
theorem pairwise_nonpawns : M.nonpawns.Pairwise
    fun g g' => ∀ pc, pc ∈ groupSlots g → ¬ pc ∈ groupSlots g' := by
  have hlist : (M.kingGroups ++ M.restGroups).Pairwise
      fun g g' => ∀ pc, pc ∈ groupSlots g → ¬ pc ∈ groupSlots g' := by
    have hrest : ∀ g ∈ M.restGroups, ∀ pc ∈ groupSlots g, pc.role ≠ .king := by
      intro g hg pc hpc
      obtain ⟨x, hx, h⟩ := List.mem_filterMap.mp hg
      split at h
      · cases h
      · cases h
        rw [(List.mem_replicate.mp hpc).2]
        have hne : ∀ y ∈ restKinds, y.1 ≠ .king := by decide
        exact hne _ (by assumption)
    rw [List.pairwise_append]
    refine ⟨?_, ?_, ?_⟩
    · unfold kingGroups
      split
      · exact List.pairwise_singleton _ _
      · rw [List.pairwise_cons]
        refine ⟨?_, List.pairwise_singleton _ _⟩
        intro g hg pc hpc
        rw [List.mem_singleton.mp hg]
        rw [(List.mem_replicate.mp hpc).2]
        decide
    · unfold restGroups
      refine List.Pairwise.filterMap (R := (· ≠ ·)) _ ?_ (show restKinds.Nodup by decide)
      rintro ⟨r, s⟩ ⟨r', s'⟩ hne b hb b' hb' pc hpc hpc'
      split at hb
      · cases hb
      · split at hb'
        · cases hb'
        · cases Option.some.inj hb; cases Option.some.inj hb'
          have h₁ := (List.mem_replicate.mp hpc).2
          have h₂ := (List.mem_replicate.mp hpc').2
          rw [h₁, Piece.mk.injEq, EgtSide.color_inj] at h₂
          exact hne (Prod.ext h₂.2 h₂.1)
    · intro g hg g' hg' pc hpc hpc'
      refine hrest g' hg' pc hpc' ?_
      unfold kingGroups at hg
      split at hg
      · rw [List.mem_singleton.mp hg] at hpc
        exact (mem_groupSlots_kingPair rfl).mp hpc
      · simp only [List.mem_cons, List.not_mem_nil, or_false] at hg
        rcases hg with rfl | rfl <;> rw [(List.mem_replicate.mp hpc).2]
  -- The slots depend on the kinds and sizes alone.
  have hmap := M.map_nonpawns fun x => groupSlots ⟨x.1, 0, 0, x.2⟩
  have hmap : M.nonpawns.map groupSlots = (M.kingGroups ++ M.restGroups).map groupSlots := hmap
  have := (List.pairwise_map (f := groupSlots) (l := M.kingGroups ++ M.restGroups)
    (R := fun a b => ∀ pc, pc ∈ a → ¬ pc ∈ b)).mpr hlist
  rw [← hmap, List.pairwise_map] at this
  exact this

end Material

/-! ### The squares of a board -/

/-- The squares of a pawn group on a board, from the highest rank. -/
def pawnChunk (b : Board) (g : IndexerPawnGroup) : List Square :=
  (pawnsOn (whiteSetup b none) g.file).reverse

/-- The squares of a non-pawn group on a board. -/
def pieceChunk (self : Indexer) (b : Board) (g : IndexerPieceGroup) : List Square :=
  match g.kind with
  | .pieces role side => self.sortSquares (b.byPiece ⟨side.color .white, role⟩).toList
  | .kingPair => (b.byPiece ⟨.white, .king⟩).toList ++ (b.byPiece ⟨.black, .king⟩).toList

namespace Indexer

variable (self : Indexer)

instance : Std.Total fun a b : Square => self.squareIndex b ≤ self.squareIndex a :=
  ⟨fun _ _ => le_total _ _⟩

instance : IsTrans Square fun a b => self.squareIndex b ≤ self.squareIndex a :=
  ⟨fun _ _ _ h h' => h'.trans h⟩

instance : Std.Antisymm fun a b : Square => self.squareIndex b ≤ self.squareIndex a :=
  ⟨fun _ _ h h' => self.squareIndex_injective (le_antisymm h' h)⟩

theorem sortSquares_perm (l : List Square) : (self.sortSquares l).Perm l :=
  List.perm_insertionSort _ l

theorem sortSquares_descending {l : List Square} (h : l.Nodup) :
    (self.sortSquares l).Pairwise fun s t => self.squareIndex t < self.squareIndex s := by
  have hs := List.pairwise_insertionSort
    (fun a b : Square => self.squareIndex b ≤ self.squareIndex a) l
  have hnd : (self.sortSquares l).Nodup := ((self.sortSquares_perm l).nodup_iff).mpr h
  exact (hs.and hnd).imp (fun h => lt_of_le_of_ne h.1
    (fun he => h.2 (self.squareIndex_injective he.symm)))

/-- Descending lists are what sorting gives. -/
theorem sortSquares_eq {l c : List Square} (hp : c.Perm l)
    (hc : c.Pairwise fun s t => self.squareIndex t < self.squareIndex s) :
    self.sortSquares l = c :=
  List.Perm.eq_of_pairwise' (r := fun a b => self.squareIndex b ≤ self.squareIndex a)
    (List.pairwise_insertionSort _ l) (hc.imp le_of_lt) ((self.sortSquares_perm l).trans hp.symm)

end Indexer

theorem byPiece_eq_singleton {b : Board} {pc : Piece} {k : Square} (hk : ∀ s, b s = some pc ↔ s = k) :
    (b.byPiece pc).toList = [k] := by
  rw [← List.perm_singleton]
  refine (List.perm_ext_iff_of_nodup (Bitboard.nodup_toList _) (List.nodup_singleton k)).mpr
    (fun s => ?_)
  rw [Bitboard.mem_toList, Board.byPiece_apply, decide_eq_true_eq, hk, List.mem_singleton]

namespace WhiteBoard

variable {M : Material} {b : Board} (h : WhiteBoard M b)

include h

/-- There is one king of each color. -/
theorem exists_king (c : Color) : ∃ k, ∀ s, b s = some ⟨c, .king⟩ ↔ s = k := by
  have hc := h.material.count (EgtSide.ofColor c .white) .king (by decide)
  rw [M.count_king] at hc
  obtain ⟨k, hk⟩ := List.length_eq_one_iff.mp hc
  refine ⟨k, fun s => ?_⟩
  have hmem : s ∈ (b.byPiece ⟨c, .king⟩).toList ↔ b s = some ⟨c, .king⟩ := by
    rw [Bitboard.mem_toList, Board.byPiece_apply, decide_eq_true_eq]
  have he : (⟨(EgtSide.ofColor c .white).color .white, .king⟩ : Piece) = ⟨c, .king⟩ := by
    rw [EgtSide.color_ofColor]
  rw [← hmem, ← he, ← List.mem_singleton, ← hk]
  rfl

theorem oneKing : OneKing b := h.exists_king

theorem pawnChunk_pairs {g : IndexerPawnGroup} (hg : g ∈ M.pawnGroups) (s : Square) (pc : Piece) :
    (s, pc) ∈ (pawnChunk b g).zip (pawnSlots g) ↔
      (b s = some pc ∧ pc.role = .pawn) ∧ s.file = g.file := by
  have horder : g.order = positionOrder (whiteSetup b none) g.file := by
    rw [h.material.words]; exact (Material.mem_pawnGroups.mp hg).1
  have hslots : pawnSlots g = (pawnChunk b g).map
      fun s => ⟨(sideAt (whiteSetup b none) s).color .white, .pawn⟩ := by
    unfold pawnSlots pawnChunk
    rw [horder, positionOrder, List.map_reverse, List.map_map, List.map_reverse]
    rfl
  rw [hslots, Chunks.mem_zip_map]
  unfold pawnChunk
  rw [List.mem_reverse, mem_pawnsOn]
  constructor
  · rintro ⟨⟨⟨c, hc⟩, hf⟩, rfl⟩
    have hcol := color_sideAt (p := whiteSetup b none) hc
    refine ⟨⟨?_, rfl⟩, hf⟩
    have hcol : (sideAt (whiteSetup b none) s).color .white = c := hcol
    rw [hcol]; exact hc
  · rintro ⟨⟨hs, hr⟩, hf⟩
    obtain ⟨c, r⟩ := pc
    have hr : r = .pawn := hr
    subst hr
    have hcol : (sideAt (whiteSetup b none) s).color .white = c :=
      color_sideAt (p := whiteSetup b none) hs
    exact ⟨⟨⟨c, hs⟩, hf⟩, by rw [hcol]⟩

theorem pawnChunk_spec {g : IndexerPawnGroup} (hg : g ∈ M.pawnGroups) :
    PawnChunk g (pawnChunk b g) where
  length_eq := by
    rw [pawnChunk, List.length_reverse, IndexerPawnGroup.size, (Material.mem_pawnGroups.mp hg).1,
      ← h.material.words, positionOrder, List.length_map]
  file := by
    intro s hs
    rw [pawnChunk, List.mem_reverse, mem_pawnsOn] at hs
    exact hs.2
  descending := by
    rw [pawnChunk, List.pairwise_reverse]
    exact ascending_pawnsOn (p := whiteSetup b none)
  ranks := by
    intro s hs
    rw [pawnChunk, List.mem_reverse, mem_pawnsOn] at hs
    obtain ⟨⟨c, hc⟩, -⟩ := hs
    exact h.ranks s _ hc rfl

theorem pieceChunk_pairs {g : IndexerPieceGroup} (hg : g ∈ M.nonpawns) (s : Square) (pc : Piece) :
    (s, pc) ∈ (pieceChunk M.indexer b g).zip (groupSlots g) ↔
      (b s = some pc ∧ pc.role ≠ .pawn) ∧ pc ∈ groupSlots g := by
  rcases Material.kind_cases hg with ⟨hk, -⟩ | ⟨r, side, hk, hn, hne, -⟩
  · obtain ⟨kw, hw⟩ := h.exists_king .white
    obtain ⟨kb, hb⟩ := h.exists_king .black
    rw [Material.mem_groupSlots_kingPair hk]
    unfold pieceChunk groupSlots
    rw [hk]
    simp only [byPiece_eq_singleton hw, byPiece_eq_singleton hb, List.singleton_append,
      List.zip_cons_cons, List.zip_nil_right, List.mem_cons, List.not_mem_nil, or_false,
      Prod.mk.injEq]
    constructor
    · rintro (⟨rfl, rfl⟩ | ⟨rfl, rfl⟩)
      · exact ⟨⟨(hw _).mpr rfl, by simp⟩, rfl⟩
      · exact ⟨⟨(hb _).mpr rfl, by simp⟩, rfl⟩
    · rintro ⟨⟨hs, -⟩, hr⟩
      obtain ⟨c, r⟩ := pc
      have hr : r = .king := hr
      subst hr
      cases c with
      | white => exact Or.inl ⟨(hw _).mp hs, rfl⟩
      | black => exact Or.inr ⟨(hb _).mp hs, rfl⟩
  · have hpawn : r ≠ .pawn := by
      rintro rfl
      exact hne (hn.trans (M.count_pawn side))
    have hlen : (M.indexer.sortSquares (b.byPiece ⟨side.color .white, r⟩).toList).length = g.size := by
      rw [(M.indexer.sortSquares_perm _).length_eq, hn, ← h.material.count side r hpawn]
      rfl
    rw [Material.mem_groupSlots_pieces hk hne]
    unfold pieceChunk groupSlots
    rw [hk]
    simp only
    rw [Chunks.mem_zip_replicate hlen, (M.indexer.sortSquares_perm _).mem_iff, Bitboard.mem_toList,
      Board.byPiece_apply, decide_eq_true_eq]
    constructor
    · rintro ⟨hs, rfl⟩; exact ⟨⟨hs, hpawn⟩, rfl⟩
    · rintro ⟨⟨hs, -⟩, rfl⟩; exact ⟨hs, rfl⟩

theorem pieceChunk_spec {g : IndexerPieceGroup} (hg : g ∈ M.nonpawns) :
    PieceChunk M.indexer g (pieceChunk M.indexer b g) := by
  rcases Material.kind_cases hg with ⟨hk, hn, -⟩ | ⟨r, side, hk, hn, hne, -⟩
  · obtain ⟨kw, hw⟩ := h.exists_king .white
    obtain ⟨kb, hb⟩ := h.exists_king .black
    refine ⟨?_, fun hne => absurd hk hne⟩
    unfold pieceChunk
    rw [hk, hn, byPiece_eq_singleton hw, byPiece_eq_singleton hb]
    rfl
  · have hpawn : r ≠ .pawn := by
      rintro rfl
      exact hne (hn.trans (M.count_pawn side))
    unfold pieceChunk
    rw [hk]
    refine ⟨?_, fun _ => M.indexer.sortSquares_descending (Bitboard.nodup_toList _)⟩
    rw [(M.indexer.sortSquares_perm _).length_eq, hn, ← h.material.count side r hpawn]
    rfl

theorem nodup_pieceChunk {g : IndexerPieceGroup} (hg : g ∈ M.nonpawns) :
    (pieceChunk M.indexer b g).Nodup := by
  rcases Material.kind_cases hg with ⟨hk, -⟩ | ⟨r, side, hk, -⟩
  · obtain ⟨kw, hw⟩ := h.exists_king .white
    obtain ⟨kb, hb⟩ := h.exists_king .black
    unfold pieceChunk
    rw [hk, byPiece_eq_singleton hw, byPiece_eq_singleton hb]
    have hne : kw ≠ kb := by
      rintro rfl
      have h₁ := (hw kw).mpr rfl
      have h₂ := (hb kw).mpr rfl
      rw [h₁] at h₂
      simp at h₂
    simpa using hne
  · unfold pieceChunk
    rw [hk]
    exact ((M.indexer.sortSquares_perm _).nodup_iff).mpr (Bitboard.nodup_toList _)

/-- The squares of the pawns, group by group. -/
theorem mem_pawns_iff (s : Square) (pc : Piece) :
    (s, pc) ∈ (M.pawnGroups.map (pawnChunk b)).flatten.zip (M.pawnGroups.flatMap pawnSlots) ↔
      b s = some pc ∧ pc.role = .pawn := by
  refine Chunks.mem_zip_flatMap_iff (D := fun g s _ => s.file = g.file)
    (R := fun s pc => b s = some pc ∧ pc.role = .pawn) ?_ (fun g hg s pc => h.pawnChunk_pairs hg s pc) ?_
  · intro g hg
    rw [(h.pawnChunk_spec hg).length_eq, pawnSlots, List.length_map, List.length_reverse]
    rfl
  · rintro s ⟨c, r⟩ ⟨hs, rfl : r = .pawn⟩
    refine ⟨⟨s.file, M.words s.file⟩, Material.mem_pawnGroups.mpr ⟨rfl, fun hnil => ?_⟩, rfl⟩
    have hmem : s ∈ pawnsOn (whiteSetup b none) s.file := mem_pawnsOn.mpr ⟨⟨c, hs⟩, rfl⟩
    have hnil : positionOrder (whiteSetup b none) s.file = [] := by
      rw [h.material.words]; exact hnil
    rw [positionOrder, List.map_eq_nil_iff] at hnil
    rw [hnil] at hmem
    exact absurd hmem List.not_mem_nil

theorem mem_pieces_iff (s : Square) (pc : Piece) :
    (s, pc) ∈ (M.nonpawns.map (pieceChunk M.indexer b)).flatten.zip
        (M.nonpawns.flatMap groupSlots) ↔
      b s = some pc ∧ pc.role ≠ .pawn := by
  refine Chunks.mem_zip_flatMap_iff (D := fun g _ pc => pc ∈ groupSlots g)
    (R := fun s pc => b s = some pc ∧ pc.role ≠ .pawn) ?_ (fun g hg s pc => h.pieceChunk_pairs hg s pc) ?_
  · intro g hg
    rw [(h.pieceChunk_spec hg).length_eq, groupSlots]
    rcases Material.kind_cases hg with ⟨hk, hn, -⟩ | ⟨r, side, hk, -⟩
    · rw [hk, hn]; rfl
    · rw [hk]; simp
  · rintro s ⟨c, r⟩ ⟨hs, hr⟩
    have hcount : M.count (EgtSide.ofColor c .white) r ≠ 0 := by
      rw [← h.material.count _ r hr]
      intro h0
      have hmem : s ∈ (b.byPiece ⟨c, r⟩).toList := by simp [hs]
      have he : (⟨(EgtSide.ofColor c .white).color .white, r⟩ : Piece) = ⟨c, r⟩ := by
        rw [EgtSide.color_ofColor]
      have hz : (b.byPiece ⟨c, r⟩).toList.length = 0 := by
        rw [← he]; exact h0
      rw [List.length_eq_zero_iff.mp hz] at hmem
      exact absurd hmem List.not_mem_nil
    obtain ⟨g, hg, hm⟩ := Material.exists_group hcount
    rw [EgtSide.color_ofColor] at hm
    exact ⟨g, hg, hm⟩

/-- **The squares of a board** of the material are arranged. -/
theorem arranged : Arranged M (M.pawnGroups.map (pawnChunk b))
    (M.nonpawns.map (pieceChunk M.indexer b)) where
  pawns := by
    rw [List.forall₂_map_right_iff, List.forall₂_same]
    exact fun g hg => h.pawnChunk_spec hg
  pieces := by
    rw [List.forall₂_map_right_iff, List.forall₂_same]
    exact fun g hg => h.pieceChunk_spec hg
  nodup := by
    rw [List.nodup_append]
    have hpawn : ∀ g ∈ M.pawnGroups, ∀ s ∈ pawnChunk b g,
        ∃ pc, (b s = some pc ∧ pc.role = .pawn) ∧ s.file = g.file := by
      intro g hg s hs
      rw [pawnChunk, List.mem_reverse, mem_pawnsOn] at hs
      obtain ⟨⟨c, hc⟩, hf⟩ := hs
      exact ⟨_, ⟨hc, rfl⟩, hf⟩
    have hpiece : ∀ g ∈ M.nonpawns, ∀ s ∈ pieceChunk M.indexer b g,
        ∃ pc, (b s = some pc ∧ pc.role ≠ .pawn) ∧ pc ∈ groupSlots g := by
      intro g hg s hs
      have hlen : (pieceChunk M.indexer b g).length = (groupSlots g).length := by
        rw [(h.pieceChunk_spec hg).length_eq, groupSlots]
        rcases Material.kind_cases hg with ⟨hk, hn, -⟩ | ⟨r, side, hk, -⟩
        · rw [hk, hn]; rfl
        · rw [hk]; simp
      have hfst : s ∈ ((pieceChunk M.indexer b g).zip (groupSlots g)).map Prod.fst := by
        rw [List.map_fst_zip hlen.le]; exact hs
      obtain ⟨⟨s', pc⟩, hmem, rfl⟩ := List.mem_map.mp hfst
      exact ⟨pc, (h.pieceChunk_pairs hg s' pc).mp hmem⟩
    refine ⟨?_, ?_, ?_⟩
    · refine Chunks.nodup_flatMap_chunks (D := fun g s _ => s.file = g.file)
        (R := fun s pc => b s = some pc ∧ pc.role = .pawn) ?_ hpawn ?_ ?_
      · rintro s pc pc' ⟨h₁, -⟩ ⟨h₂, -⟩
        rw [h₁] at h₂; exact Option.some.inj h₂
      · intro g _
        rw [pawnChunk, List.nodup_reverse]
        exact ascending_pawnsOn.nodup
      · exact Material.pairwise_pawnGroups.imp (fun hne s _ h₁ h₂ => hne (h₁.symm.trans h₂))
    · refine Chunks.nodup_flatMap_chunks (D := fun g _ pc => pc ∈ groupSlots g)
        (R := fun s pc => b s = some pc ∧ pc.role ≠ .pawn) ?_ hpiece
        (fun g hg => h.nodup_pieceChunk hg) ?_
      · rintro s pc pc' ⟨h₁, -⟩ ⟨h₂, -⟩
        rw [h₁] at h₂; exact Option.some.inj h₂
      · exact Material.pairwise_nonpawns.imp (fun hd _ pc h₁ => hd pc h₁)
    · intro s hs t ht he
      subst he
      obtain ⟨c, hc, hsc⟩ := List.mem_flatten.mp hs
      obtain ⟨g, hg, rfl⟩ := List.mem_map.mp hc
      obtain ⟨c', hc', hsc'⟩ := List.mem_flatten.mp ht
      obtain ⟨g', hg', rfl⟩ := List.mem_map.mp hc'
      obtain ⟨pc, ⟨h₁, h₂⟩, -⟩ := hpawn g hg s hsc
      obtain ⟨pc', ⟨h₃, h₄⟩, -⟩ := hpiece g' hg' s hsc'
      rw [h₁] at h₃
      cases h₃
      exact h₄ h₂

end WhiteBoard

/-! ### Arranged squares -/

namespace Arranged

variable {M : Material} {ps qs : List (List Square)} (h : Arranged M ps qs)

include h

theorem length_pawns : List.Forall₂ (fun g c => c.length = (pawnSlots g).length) M.pawnGroups ps :=
  h.pawns.imp (fun g c hc => by
    rw [hc.length_eq, pawnSlots, List.length_map, List.length_reverse]; rfl)

theorem length_pieces :
    List.Forall₂ (fun g c => c.length = (groupSlots g).length) M.nonpawns qs := by
  rw [List.forall₂_iff_zip]
  obtain ⟨hlen, hz⟩ := List.forall₂_iff_zip.mp h.pieces
  refine ⟨hlen, fun {g c} hm => ?_⟩
  rw [(hz hm).length_eq, groupSlots]
  rcases Material.kind_cases (List.of_mem_zip hm).1 with ⟨hk, hn, -⟩ | ⟨r, side, hk, -⟩
  · rw [hk, hn]; rfl
  · rw [hk]; simp

omit h in
theorem flatten_length {ι : Type} {f : ι → List Piece} {gs : List ι} {cs : List (List Square)}
    (h : List.Forall₂ (fun g c => c.length = (f g).length) gs cs) :
    cs.flatten.length = (gs.flatMap f).length := by
  induction h with
  | nil => rfl
  | cons hc _ ih =>
    rw [List.flatten_cons, List.flatMap_cons, List.length_append, List.length_append, ih, hc]

/-- The board of arranged squares. -/
theorem zip_slots : (ps.flatten ++ qs.flatten).zip M.indexer.piecesIfWhiteIsStm
    = ps.flatten.zip (M.pawnGroups.flatMap pawnSlots)
      ++ qs.flatten.zip (M.nonpawns.flatMap groupSlots) := by
  rw [M.slots_indexer, List.zip_append (flatten_length h.length_pawns)]

theorem place_eq_some_iff (s : Square) (pc : Piece) :
    place ((ps.flatten ++ qs.flatten).zip M.indexer.piecesIfWhiteIsStm) s = some pc ↔
      (s, pc) ∈ ps.flatten.zip (M.pawnGroups.flatMap pawnSlots) ∨
        (s, pc) ∈ qs.flatten.zip (M.nonpawns.flatMap groupSlots) := by
  rw [place_eq_some, h.zip_slots, List.mem_append]
  rw [List.map_fst_zip]
  · exact h.nodup
  · rw [M.slots_indexer, List.length_append, List.length_append, flatten_length h.length_pawns,
      flatten_length h.length_pieces]

/-- The board of arranged squares. -/
abbrev board (_ : Arranged M ps qs) : Board :=
  place ((ps.flatten ++ qs.flatten).zip M.indexer.piecesIfWhiteIsStm)

omit h in
theorem role_of_mem_pawns {s : Square} {pc : Piece}
    (hm : (s, pc) ∈ ps.flatten.zip (M.pawnGroups.flatMap pawnSlots)) : pc.role = .pawn := by
  obtain ⟨g, -, hpc⟩ := List.mem_flatMap.mp (List.of_mem_zip hm).2
  obtain ⟨side, -, rfl⟩ := List.mem_map.mp hpc
  rfl

omit h in
theorem role_of_mem_pieces {s : Square} {pc : Piece}
    (hm : (s, pc) ∈ qs.flatten.zip (M.nonpawns.flatMap groupSlots)) : pc.role ≠ .pawn := by
  obtain ⟨g, hg, hpc⟩ := List.mem_flatMap.mp (List.of_mem_zip hm).2
  exact Material.role_ne_pawn hg hpc

theorem mem_pawnChunk_iff {x : IndexerPawnGroup × List Square} (hx : x ∈ M.pawnGroups.zip ps)
    (s : Square) (pc : Piece) : (s, pc) ∈ x.2.zip (pawnSlots x.1) ↔
      (h.board s = some pc ∧ pc.role = .pawn) ∧ s.file = x.1.file := by
  rw [Chunks.mem_chunk_iff (D := fun g s _ => s.file = g.file) h.length_pawns ?_ ?_ hx,
    h.place_eq_some_iff]
  · refine and_congr_left (fun _ => ⟨fun hm => ⟨Or.inl hm, role_of_mem_pawns hm⟩, ?_⟩)
    rintro ⟨hm | hm, hr⟩
    · exact hm
    · exact absurd hr (role_of_mem_pieces hm)
  · intro y hy s pc hm
    exact ((List.forall₂_iff_zip.mp h.pawns).2 hy).file s (List.of_mem_zip hm).1
  · exact Material.pairwise_pawnGroups.imp (fun hne s _ h₁ h₂ => hne (h₁.symm.trans h₂))

theorem mem_pieceChunk_iff {x : IndexerPieceGroup × List Square} (hx : x ∈ M.nonpawns.zip qs)
    (s : Square) (pc : Piece) : (s, pc) ∈ x.2.zip (groupSlots x.1) ↔
      h.board s = some pc ∧ pc ∈ groupSlots x.1 := by
  rw [Chunks.mem_chunk_iff (D := fun g _ pc => pc ∈ groupSlots g) h.length_pieces ?_ ?_ hx,
    h.place_eq_some_iff]
  · refine and_congr_left (fun hpc => ⟨fun hm => Or.inr hm, ?_⟩)
    rintro (hm | hm)
    · exact absurd (role_of_mem_pawns hm)
        (Material.role_ne_pawn (List.of_mem_zip hx).1 hpc)
    · exact hm
  · exact fun y _ s pc hm => (List.of_mem_zip hm).2
  · exact Material.pairwise_nonpawns.imp (fun hd _ pc h₁ => hd pc h₁)

/-- Every square of a chunk carries a piece of its slots. -/
theorem exists_pawn {x : IndexerPawnGroup × List Square} (hx : x ∈ M.pawnGroups.zip ps)
    {s : Square} : s ∈ x.2 ↔ (∃ c, h.board s = some ⟨c, .pawn⟩) ∧ s.file = x.1.file := by
  have hlen := (List.forall₂_iff_zip.mp h.length_pawns).2 hx
  constructor
  · intro hs
    have hfst : s ∈ (x.2.zip (pawnSlots x.1)).map Prod.fst := by
      rw [List.map_fst_zip hlen.le]; exact hs
    obtain ⟨⟨s', pc⟩, hm, rfl⟩ := List.mem_map.mp hfst
    obtain ⟨⟨hb, hr⟩, hf⟩ := (h.mem_pawnChunk_iff hx s' pc).mp hm
    exact ⟨⟨pc.color, by rw [hb, ← hr]⟩, hf⟩
  · rintro ⟨⟨c, hc⟩, hf⟩
    exact (List.of_mem_zip ((h.mem_pawnChunk_iff hx s _).mpr ⟨⟨hc, rfl⟩, hf⟩)).1

/-- The chunk of a pawn group is what the board has on its file. -/
theorem pawnChunk_eq {x : IndexerPawnGroup × List Square} (hx : x ∈ M.pawnGroups.zip ps) :
    x.2 = pawnChunk h.board x.1 := by
  have hc := (List.forall₂_iff_zip.mp h.pawns).2 hx
  have : pawnsOn (whiteSetup h.board none) x.1.file = x.2.reverse := by
    refine pawnsOn_eq ?_ (fun s => ?_)
    · unfold Ascending
      rw [List.pairwise_reverse]
      exact hc.descending
    · rw [List.mem_reverse]
      exact h.exists_pawn hx
  rw [pawnChunk, this, List.reverse_reverse]

theorem positionOrder_eq {x : IndexerPawnGroup × List Square} (hx : x ∈ M.pawnGroups.zip ps) :
    positionOrder (whiteSetup h.board none) x.1.file = x.1.order := by
  have hlen := (List.forall₂_iff_zip.mp h.length_pawns).2 hx
  rw [pawnSlots, List.length_map, List.length_reverse] at hlen
  have hrev : x.2.map (sideAt (whiteSetup h.board none)) = x.1.order.reverse := by
    refine List.ext_getElem (by rw [List.length_map, hlen, List.length_reverse])
      (fun i h₁ h₂ => ?_)
    rw [List.length_map] at h₁
    have hslot : i < (pawnSlots x.1).length := by
      rw [pawnSlots, List.length_map]; exact h₂
    have hmem : (x.2[i], (pawnSlots x.1)[i]) ∈ x.2.zip (pawnSlots x.1) := by
      rw [← List.getElem_zip (h := by rw [List.length_zip]; omega)]
      exact List.getElem_mem _
    have hb := ((h.mem_pawnChunk_iff hx _ _).mp hmem).1.1
    rw [List.getElem_map, sideAt_eq (p := whiteSetup h.board none) hb]
    simp only [pawnSlots, List.getElem_map]
    exact EgtSide.ofColor_color _ _
  have hp := h.pawnChunk_eq hx
  rw [pawnChunk] at hp
  rw [positionOrder, ← List.reverse_inj, ← List.map_reverse, ← hp, hrev]

/-- The chunk of a group with one kind of pieces is what the board has of them. -/
theorem chunk_perm {x : IndexerPieceGroup × List Square} (hx : x ∈ M.nonpawns.zip qs) {r : Role}
    {side : EgtSide} (hk : x.1.kind = .pieces r side) :
    x.2.Perm (h.board.byPiece ⟨side.color .white, r⟩).toList := by
  have hne : x.1.size ≠ 0 := by
    rcases Material.kind_cases (List.of_mem_zip hx).1 with ⟨hk', -⟩ | ⟨_, _, -, -, hne, -⟩
    · rw [hk] at hk'; cases hk'
    · exact hne
  have hc := (List.forall₂_iff_zip.mp h.pieces).2 hx
  have hsub : x.2.Sublist qs.flatten := List.sublist_flatten_of_mem (List.of_mem_zip hx).2
  have hnd : x.2.Nodup := hsub.nodup (List.nodup_append.mp h.nodup).2.1
  refine (List.perm_ext_iff_of_nodup hnd (Bitboard.nodup_toList _)).mpr (fun s => ?_)
  rw [Bitboard.mem_toList, Board.byPiece_apply, decide_eq_true_eq]
  have hiff := h.mem_pieceChunk_iff hx s ⟨side.color .white, r⟩
  rw [Material.mem_groupSlots_pieces hk hne, groupSlots, hk] at hiff
  simp only [Chunks.mem_zip_replicate hc.length_eq, and_true] at hiff
  exact hiff

/-- The king pair's chunk is the squares of the kings. -/
theorem chunk_kings {x : IndexerPieceGroup × List Square} (hx : x ∈ M.nonpawns.zip qs)
    (hk : x.1.kind = .kingPair) : ∃ kw kb, x.2 = [kw, kb] ∧
      (∀ s, h.board s = some ⟨.white, .king⟩ ↔ s = kw) ∧
      ∀ s, h.board s = some ⟨.black, .king⟩ ↔ s = kb := by
  have hc := (List.forall₂_iff_zip.mp h.pieces).2 hx
  have hsize : x.1.size = 2 := by
    rcases Material.kind_cases (List.of_mem_zip hx).1 with ⟨-, hn, -⟩ | ⟨_, _, hk', -⟩
    · exact hn
    · rw [hk] at hk'; cases hk'
  obtain ⟨kw, kb, hkk⟩ := List.length_eq_two.mp (hc.length_eq.trans hsize)
  have hslots : groupSlots x.1 = [⟨.white, .king⟩, ⟨.black, .king⟩] := by
    unfold groupSlots; rw [hk]
  refine ⟨kw, kb, hkk, fun s => ?_, fun s => ?_⟩
  · have hiff := h.mem_pieceChunk_iff hx s ⟨.white, .king⟩
    rw [hkk, hslots] at hiff
    simp at hiff
    exact hiff.symm
  · have hiff := h.mem_pieceChunk_iff hx s ⟨.black, .king⟩
    rw [hkk, hslots] at hiff
    simp at hiff
    exact hiff.symm

theorem pieceChunk_eq {x : IndexerPieceGroup × List Square} (hx : x ∈ M.nonpawns.zip qs) :
    x.2 = pieceChunk M.indexer h.board x.1 := by
  have hc := (List.forall₂_iff_zip.mp h.pieces).2 hx
  unfold pieceChunk
  cases hk : x.1.kind with
  | pieces r side =>
    exact (M.indexer.sortSquares_eq (h.chunk_perm hx hk)
      (hc.descending (by rw [hk]; simp))).symm
  | kingPair =>
    obtain ⟨kw, kb, hkk, hw, hb⟩ := h.chunk_kings hx hk
    simp only [byPiece_eq_singleton hw, byPiece_eq_singleton hb, hkk, List.singleton_append]

/-- **Arranged squares** are the squares of their board. -/
theorem eq : ps = M.pawnGroups.map (pawnChunk h.board) ∧
    qs = M.nonpawns.map (pieceChunk M.indexer h.board) :=
  ⟨Chunks.eq_map_of_forall_mem_zip h.pawns.length_eq (fun _ hx => h.pawnChunk_eq hx),
    Chunks.eq_map_of_forall_mem_zip h.pieces.length_eq (fun _ hx => h.pieceChunk_eq hx)⟩

omit h in
theorem exists_mem_zip {ι κ : Type} {gs : List ι} {cs : List κ} (hlen : gs.length = cs.length)
    {g : ι} (hg : g ∈ gs) : ∃ c, (g, c) ∈ gs.zip cs := by
  have : g ∈ (gs.zip cs).map Prod.fst := by rw [List.map_fst_zip hlen.le]; exact hg
  obtain ⟨⟨g', c⟩, hm, rfl⟩ := List.mem_map.mp this
  exact ⟨c, hm⟩

/-- Arranged squares give a board of the material. -/
theorem whiteBoard : WhiteBoard M h.board where
  material := by
    refine ⟨fun f => ?_, fun side r hr => ?_⟩
    · by_cases hf : M.words f = []
      · rw [hf, positionOrder, List.map_eq_nil_iff, List.eq_nil_iff_forall_not_mem]
        intro s hs
        obtain ⟨⟨c, hc⟩, hsf⟩ := mem_pawnsOn.mp hs
        rcases (h.place_eq_some_iff s _).mp hc with hm | hm
        · rw [Chunks.zip_flatMap h.length_pawns, List.mem_flatMap] at hm
          obtain ⟨x, hx, hm⟩ := hm
          have hg := Material.mem_pawnGroups.mp (List.of_mem_zip hx).1
          have hfile := ((List.forall₂_iff_zip.mp h.pawns).2 hx).file s (List.of_mem_zip hm).1
          rw [← hfile, hsf] at hg
          exact hg.2 (hg.1.trans hf)
        · exact role_of_mem_pieces hm rfl
      · obtain ⟨c, hm⟩ := exists_mem_zip h.pawns.length_eq
          (Material.mem_pawnGroups (M := M) (g := ⟨f, M.words f⟩) |>.mpr ⟨rfl, hf⟩)
        exact h.positionOrder_eq hm
    · have hcolor : side.color (whiteSetup h.board none).turn = side.color .white := rfl
      rw [hcolor]
      show (h.board.byPiece ⟨side.color .white, r⟩).count = M.count side r
      by_cases hn : M.count side r = 0
      · rw [hn]
        refine List.length_eq_zero_iff.mpr (List.eq_nil_iff_forall_not_mem.mpr (fun s hs => ?_))
        rw [Bitboard.mem_toList, Board.byPiece_apply, decide_eq_true_eq] at hs
        rcases (h.place_eq_some_iff s _).mp hs with hm | hm
        · exact hr (role_of_mem_pawns hm)
        · obtain ⟨g, hg, hpc⟩ := List.mem_flatMap.mp (List.of_mem_zip hm).2
          rcases Material.kind_cases hg with ⟨hk, -⟩ | ⟨r', side', hk, hsz, hne, -⟩
          · rw [Material.mem_groupSlots_kingPair hk] at hpc
            have hpc : r = .king := hpc
            rw [hpc, M.count_king] at hn
            cases hn
          · rw [Material.mem_groupSlots_pieces hk hne, Piece.mk.injEq, EgtSide.color_inj] at hpc
            rw [hpc.1, hpc.2, ← hsz] at hn
            exact hne hn
      · obtain ⟨g, hg, hpc⟩ := Material.exists_group hn
        obtain ⟨c, hm⟩ := exists_mem_zip h.pieces.length_eq hg
        have hc := (List.forall₂_iff_zip.mp h.pieces).2 hm
        rcases Material.kind_cases hg with ⟨hk, -⟩ | ⟨r', side', hk, hsz, hne, -⟩
        · rw [Material.mem_groupSlots_kingPair hk] at hpc
          have hpc : r = .king := hpc
          obtain ⟨kw, kb, -, hw, hb⟩ := h.chunk_kings hm hk
          rw [hpc, M.count_king]
          cases side with
          | sideToMove => exact congrArg List.length (byPiece_eq_singleton hw)
          | sideNotToMove => exact congrArg List.length (byPiece_eq_singleton hb)
        · rw [Material.mem_groupSlots_pieces hk hne, Piece.mk.injEq, EgtSide.color_inj] at hpc
          rw [hpc.1, hpc.2, ← hsz, ← hc.length_eq]
          exact (h.chunk_perm hm hk).length_eq.symm
  ranks := by
    intro s pc hs hr
    rcases (h.place_eq_some_iff s pc).mp hs with hm | hm
    · rw [Chunks.zip_flatMap h.length_pawns, List.mem_flatMap] at hm
      obtain ⟨x, hx, hm⟩ := hm
      exact ((List.forall₂_iff_zip.mp h.pawns).2 hx).ranks s (List.of_mem_zip hm).1
    · exact absurd hr (role_of_mem_pieces hm)

end Arranged

/-- The squares of a board give the board back. -/
theorem WhiteBoard.place_eq {M : Material} {b : Board} (h : WhiteBoard M b) :
    h.arranged.board = b := by
  funext s
  refine Option.ext (fun pc => ?_)
  rw [h.arranged.place_eq_some_iff, h.mem_pawns_iff, h.mem_pieces_iff]
  by_cases hr : pc.role = .pawn <;> simp [hr]

end ChessEgt
