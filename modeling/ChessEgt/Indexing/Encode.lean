import ChessEgt.Indexing.Setups
import ChessEgt.Position

/-!
# Encoding positions

* `orient` — the transform to White's point of view, possibly with a reflection of the files;
* `positionToCoord_eq` — the coordinates that are extracted from a position;
* `reduceSymmetries_eq`, `sortCoord_eq` — their canonical form and order;
* `encodePosition_eq` — the encoding of a position is the index of its canonical board.
-/

namespace ChessEgt

open Rules Indexer

/-- The transform to White's point of view, possibly with a reflection of the files. -/
def orient (reflected pawnful : Bool) (turn : Color) : Transform :=
  (⟨if reflected then Symmetry.mirror else 1, false⟩ : Transform) * Transform.normal pawnful turn

namespace orient

variable (reflected pawnful : Bool) (turn : Color)

@[simp] theorem color_self : (orient reflected pawnful turn).color turn = .white := by
  unfold orient
  rw [Transform.mul_color, Transform.normal_color_self]; rfl

@[simp] theorem color_other : (orient reflected pawnful turn).color turn.other = .black := by
  rw [Transform.color_other, color_self]; rfl

theorem keepsPawns : (orient reflected true turn).KeepsPawns := by
  cases reflected <;> cases turn <;> decide

theorem flipFiles : (orient reflected pawnful turn).symmetry.flipFiles = reflected := by
  cases reflected <;> cases pawnful <;> cases turn <;> rfl

theorem swapAxes : (orient reflected pawnful turn).symmetry.swapAxes = false := by
  cases reflected <;> cases pawnful <;> cases turn <;> rfl

variable {reflected pawnful turn}

theorem fits {b : Board} (h : pawnful = false → Transform.Pawnless b) :
    (orient reflected pawnful turn).Fits b := by
  cases pawnful with
  | true => exact Or.inl (keepsPawns reflected turn)
  | false => exact Or.inr (h rfl)

end orient

theorem pawnsOn_congr {p q : Chess} (hb : p.board = q.board) (ht : p.turn = q.turn) (f : File) :
    pawnsOn p f = pawnsOn q f := by
  unfold pawnsOn
  rw [hb, ht]

theorem length_pawnsOn (p : Chess) (f : File) :
    (pawnsOn p f).length = (p.board.pawns.inter (Bitboard.fromFile f)).count := by
  unfold pawnsOn Bitboard.count
  simp only
  split
  · rw [List.length_reverse]
  · rfl

theorem HasMaterial.congr {M : Material} {p q : Chess} (h : HasMaterial M p)
    (hb : p.board = q.board) (ht : p.turn = q.turn) : HasMaterial M q where
  words f := by
    rw [← h.words f]
    unfold positionOrder sideAt
    rw [pawnsOn_congr hb ht, hb, ht]
  count s r hr := by rw [← hb, ← ht]; exact h.count s r hr

/-- The squares extracted for a non-pawn group, before they are sorted. -/
def Unsorted (b : Board) (g : IndexerPieceGroup) (c : List Square) : Prop :=
  match g.kind with
  | .pieces r side => c.Perm (b.byPiece ⟨side.color .white, r⟩).toList
  | .kingPair => ∃ kw kb, c = [kw, kb] ∧ b kw = some ⟨.white, .king⟩ ∧ b kb = some ⟨.black, .king⟩

/-! ### From positions to coordinates -/

section Extract

variable {M : Material} {p : Chess} {reflected : Bool}

/-- A position seen from White's side, oriented as requested. -/
abbrev oriented (M : Material) (reflected : Bool) (p : Chess) : Chess :=
  (orient reflected (decide (0 < M.nPawns)) p.turn).setup p

theorem oriented_turn : (oriented M reflected p).turn = .white :=
  orient.color_self _ _ _

theorem orient_fits (h : HasMaterial M (oriented M reflected p)) :
    (orient reflected (decide (0 < M.nPawns)) p.turn).Fits p.board := by
  refine orient.fits (fun hp => ?_)
  have hz : M.nPawns = 0 := by simpa using hp
  have := (orient reflected (decide (0 < M.nPawns)) p.turn).inv.pawnless_board
    (h.pawnless_iff.mpr hz)
  rwa [Transform.setup_board, Transform.inv_board] at this

theorem WhiteBoard.of_oriented (hv : Valid p) (h : HasMaterial M (oriented M reflected p)) :
    WhiteBoard M (oriented M reflected p).board where
  material := h.congr rfl oriented_turn
  ranks := (Transform.valid_setup (orient_fits h) hv).pawns

theorem pawnCoords_eq {file : File} {l : List Square}
    (hl : ∀ s ∈ l, ∃ c, p.board s = some ⟨c, .pawn⟩) :
    pawnCoords p file (l.map (sideAt p)) l
      = .ok (l.map fun s => ⟨p.turn.relativeRank s.rank, file⟩) := by
  induction l with
  | nil => rfl
  | cons s l ih =>
    obtain ⟨c, hc⟩ := hl s List.mem_cons_self
    have hside : p.board.byColor p.turn s = decide (sideAt p s = .sideToMove) := by
      rw [sideAt_eq hc]
      unfold EgtSide.ofColor Board.byColor
      rw [hc]
      by_cases h : c = p.turn <;> simp [h]
    rw [List.map_cons, pawnCoords, Run.ensure_eq hside, Run.ok_bind,
      ih (fun t ht => hl t (List.mem_cons_of_mem _ ht)), Run.ok_bind]
    rfl

theorem pawnGroupCoords_eq (h : HasMaterial M (oriented M reflected p)) {g : IndexerPawnGroup}
    (hg : g ∈ M.pawnGroups) : pawnGroupCoords reflected p g
      = .ok (pawnChunk (oriented M reflected p).board g) := by
  have hp : 0 < M.nPawns := by
    by_contra hz
    rw [Material.pawnGroups_of_pawnless (by omega)] at hg
    exact absurd hg List.not_mem_nil
  have hT : orient reflected (decide (0 < M.nPawns)) p.turn = orient reflected true p.turn := by
    rw [decide_eq_true hp]
  have hkeep := orient.keepsPawns reflected p.turn
  unfold oriented at h
  rw [hT] at h
  unfold oriented
  rw [hT]
  -- The file in the position that ends on the file of the group.
  have hfile : (orient reflected true p.turn).file (if reflected then g.file.rev else g.file)
      = g.file := by
    unfold Transform.file
    rw [orient.flipFiles]
    cases reflected <;> simp
  have hpawns := Transform.pawnsOn_setup (p := p) hkeep (if reflected then g.file.rev else g.file)
  rw [hfile] at hpawns
  have horder : g.order = positionOrder p (if reflected then g.file.rev else g.file) := by
    rw [← Transform.positionOrder_setup hkeep, hfile, h.words]
    exact (Material.mem_pawnGroups.mp hg).1
  have hlist : (if p.turn = .black then
        (p.board.pawns.inter (Bitboard.fromFile (if reflected then g.file.rev else g.file))).toList
      else (p.board.pawns.inter
        (Bitboard.fromFile (if reflected then g.file.rev else g.file))).toList.reverse)
      = (pawnsOn p (if reflected then g.file.rev else g.file)).reverse := by
    unfold pawnsOn
    simp only
    split
    · rw [List.reverse_reverse]
    · rfl
  have hcount : (p.board.pawns.inter
      (Bitboard.fromFile (if reflected then g.file.rev else g.file))).count = g.order.length := by
    rw [horder, positionOrder, List.length_map, length_pawnsOn]
  unfold pawnGroupCoords
  simp only
  rw [Run.ensure_eq hcount, Run.ok_bind, hlist]
  have hsides : g.order.reverse
      = (pawnsOn p (if reflected then g.file.rev else g.file)).reverse.map (sideAt p) := by
    rw [horder, positionOrder, List.map_reverse]
  rw [hsides, pawnCoords_eq (fun s hs => (mem_pawnsOn.mp (List.mem_reverse.mp hs)).1)]
  have hwhite : pawnsOn (whiteSetup ((orient reflected true p.turn).setup p).board none) g.file
      = pawnsOn ((orient reflected true p.turn).setup p) g.file :=
    pawnsOn_congr (p := whiteSetup ((orient reflected true p.turn).setup p).board none)
      (q := (orient reflected true p.turn).setup p) rfl (orient.color_self _ _ _).symm g.file
  unfold pawnChunk
  rw [hwhite, hpawns, ← List.map_reverse]
  congr 1
  refine List.map_congr_left (fun s hs => ?_)
  have hs := (mem_pawnsOn.mp (List.mem_reverse.mp hs)).2
  have hrank := hkeep.relativeRank p.turn s
  rw [orient.color_self] at hrank
  have hsq := hkeep.file_smul s
  rw [hs, hfile] at hsq
  exact Square.ext hrank.symm hsq.symm

theorem normalizedSquare_eq (s : Square) :
    M.indexer.normalizedSquare p.turn (if reflected then s.flipHorizontal else s)
      = (orient reflected (decide (0 < M.nPawns)) p.turn).symmetry • s := by
  unfold normalizedSquare
  have hn : M.indexer.nPawns = M.nPawns := rfl
  rw [hn]
  by_cases hp : 0 < M.nPawns
  · rw [if_pos hp, decide_eq_true hp]
    cases reflected <;> cases p.turn <;> rfl
  · rw [if_neg hp, decide_eq_false hp]
    cases reflected <;> cases p.turn <;> rfl

theorem pieceGroupCoords_eq (hv : Valid p) (h : HasMaterial M (oriented M reflected p))
    {g : IndexerPieceGroup} (hg : g ∈ M.nonpawns) :
    ∃ c, M.indexer.pieceGroupCoords reflected p g = .ok c ∧
      Unsorted (oriented M reflected p).board g c := by
  unfold pieceGroupCoords Unsorted
  rcases Material.kind_cases hg with ⟨hk, -⟩ | ⟨r, side, hk, hn, hne, -⟩
  · rw [hk]
    simp only [normalizedSquare_eq (M := M)]
    obtain ⟨k, hkk⟩ := hv.kings p.turn
    obtain ⟨k', hkk'⟩ := hv.kings p.turn.other
    have e : p.board.kingOf p.turn = some k :=
      Board.kingOf_eq_some ((hkk k).mpr rfl) (fun s hs => (hkk s).mp hs)
    have e' : p.board.kingOf p.turn.other = some k' :=
      Board.kingOf_eq_some ((hkk' k').mpr rfl) (fun s hs => (hkk' s).mp hs)
    refine ⟨[(orient reflected (decide (0 < M.nPawns)) p.turn).symmetry • k,
      (orient reflected (decide (0 < M.nPawns)) p.turn).symmetry • k'], ?_, _, _, rfl, ?_, ?_⟩
    · simp only [List.mapM_cons, List.mapM_nil, e, e', Run.expect_some, Run.ok_bind, Run.pure_eq_ok]
    · have := (orient reflected (decide (0 < M.nPawns)) p.turn).board_eq_some.mpr ((hkk k).mpr rfl)
      rwa [Transform.piece_mk, orient.color_self] at this
    · have := (orient reflected (decide (0 < M.nPawns)) p.turn).board_eq_some.mpr
        ((hkk' k').mpr rfl)
      rwa [Transform.piece_mk, orient.color_other] at this
  · rw [hk]
    simp only [normalizedSquare_eq (M := M), Board.byRole_inter_byColor]
    have hpawn : r ≠ .pawn := by
      rintro rfl
      exact hne (hn.trans (M.count_pawn side))
    have hpiece : (orient reflected (decide (0 < M.nPawns)) p.turn).piece ⟨side.color p.turn, r⟩
        = ⟨side.color .white, r⟩ := by
      cases side <;> simp
    have hperm := Transform.toList_byPiece_perm
      (orient reflected (decide (0 < M.nPawns)) p.turn) p.board ⟨side.color p.turn, r⟩
    rw [hpiece] at hperm
    have hcount : (p.board.byPiece ⟨side.color p.turn, r⟩).count = g.size := by
      have hc := h.count side r hpawn
      rw [oriented_turn, ← hpiece] at hc
      rw [hn, ← hc]
      exact (Transform.count_byPiece _ p.board _).symm
    rw [Run.ensure_eq hcount, Run.ok_bind]
    exact ⟨_, rfl, hperm.symm⟩

/-! ### The number of pieces -/

theorem WhiteBoard.mem_boardCoords {b : Board} (h : WhiteBoard M b) (s : Square) :
    s ∈ boardCoords M b ↔ b.occupied s = true := by
  have harr := h.arranged
  have hlen : (boardCoords M b).length = M.indexer.piecesIfWhiteIsStm.length := by
    unfold boardCoords
    rw [M.slots_indexer, List.length_append, List.length_append,
      Arranged.flatten_length harr.length_pawns, Arranged.flatten_length harr.length_pieces]
  rw [Board.occupied_apply, Option.isSome_iff_exists]
  have hfst : s ∈ boardCoords M b ↔ ∃ pc, (s, pc) ∈
      (boardCoords M b).zip M.indexer.piecesIfWhiteIsStm := by
    constructor
    · intro hs
      have : s ∈ ((boardCoords M b).zip M.indexer.piecesIfWhiteIsStm).map Prod.fst := by
        rw [List.map_fst_zip hlen.le]; exact hs
      obtain ⟨⟨s', pc⟩, hm, rfl⟩ := List.mem_map.mp this
      exact ⟨pc, hm⟩
    · rintro ⟨pc, hm⟩
      exact (List.of_mem_zip hm).1
  rw [hfst]
  refine exists_congr (fun pc => ?_)
  rw [boardCoords, harr.zip_slots, List.mem_append, h.mem_pawns_iff, h.mem_pieces_iff]
  by_cases hr : pc.role = .pawn <;> simp [hr]

theorem WhiteBoard.count_occupied {b : Board} (h : WhiteBoard M b) :
    b.occupied.count = M.nPieces := by
  have hperm : b.occupied.toList.Perm (boardCoords M b) :=
    (List.perm_ext_iff_of_nodup (Bitboard.nodup_toList _) h.arranged.nodup).mpr (fun s => by
      rw [Bitboard.mem_toList]; exact (h.mem_boardCoords s).symm)
  have hpawns := Material.length_pawnSquares h.arranged.pawns
  have hpieces : (M.nonpawns.map (pieceChunk M.indexer b)).flatten.length
      = ((M.kingGroups ++ M.restGroups).map (·.size)).sum := by
    rw [List.length_flatten, map_length_chunks h.arranged.pieces, Material.map_size_nonpawns]
  have hsum := M.sum_sizes_groups
  show b.occupied.toList.length = _
  rw [hperm.length_eq, boardCoords, List.length_append, hpawns, hpieces, hsum]

theorem Transform.count_occupied (g : Transform) (b : Board) :
    (g.board b).occupied.count = b.occupied.count := by
  have hperm : (g.board b).occupied.toList.Perm (b.occupied.toList.map (g.symmetry • ·)) := by
    refine (List.perm_ext_iff_of_nodup (Bitboard.nodup_toList _)
      ((Bitboard.nodup_toList _).map (MulAction.injective g.symmetry))).mpr (fun s => ?_)
    obtain ⟨s, rfl⟩ := MulAction.surjective g.symmetry s
    rw [List.mem_map]
    simp only [smul_left_cancel_iff, exists_eq_right, Bitboard.mem_toList, g.board_occupied]
  have := hperm.length_eq
  rwa [List.length_map] at this

theorem positionToCoord_eq (hv : Valid p) (h : HasMaterial M (oriented M reflected p)) :
    ∃ cs, M.indexer.positionToCoord reflected p
        = .ok ((M.pawnGroups.map (pawnChunk (oriented M reflected p).board)).flatten ++ cs.flatten) ∧
      List.Forall₂ (Unsorted (oriented M reflected p).board) M.nonpawns cs := by
  have hcount : p.board.occupied.count = M.indexer.nPieces := by
    have := (WhiteBoard.of_oriented hv h).count_occupied
    rwa [Transform.setup_board, Transform.count_occupied] at this
  have hpawns : M.indexer.pawns.mapM (pawnGroupCoords reflected p)
      = .ok (M.pawnGroups.map (pawnChunk (oriented M reflected p).board)) :=
    Run.mapM_eq_ok (fun g hg => pawnGroupCoords_eq h hg)
  have hpieces : ∀ gs : List IndexerPieceGroup, (∀ g ∈ gs, g ∈ M.nonpawns) →
      ∃ cs, gs.mapM (M.indexer.pieceGroupCoords reflected p) = .ok cs ∧
        List.Forall₂ (Unsorted (oriented M reflected p).board) gs cs := by
    intro gs
    induction gs with
    | nil => exact fun _ => ⟨[], rfl, .nil⟩
    | cons g gs ih =>
      intro hgs
      obtain ⟨c, hc, hu⟩ := pieceGroupCoords_eq hv h (hgs g List.mem_cons_self)
      obtain ⟨cs, hcs, hus⟩ := ih (fun g hg => hgs g (List.mem_cons_of_mem _ hg))
      refine ⟨c :: cs, ?_, .cons hu hus⟩
      rw [List.mapM_cons, hc, Run.ok_bind, hcs, Run.ok_bind]
      rfl
  obtain ⟨cs, hcs, hus⟩ := hpieces M.nonpawns (fun _ hg => hg)
  refine ⟨cs, ?_, hus⟩
  unfold positionToCoord
  have hcs : M.indexer.nonpawns.mapM (M.indexer.pieceGroupCoords reflected p) = .ok cs := hcs
  rw [Run.ensure_eq hcount, Run.ok_bind, hpawns, Run.ok_bind, hcs, Run.ok_bind]
  rfl

end Extract

/-! ### Canonical coordinates -/

/-- The reduction of coordinates applies the symmetry that makes the king pair canonical. -/
theorem reduceSymmetries_eq (kw kb : Square) (l : List Square) :
    reduceSymmetries (kw :: kb :: l) = .ok ((kw :: kb :: l).map (reducer kw kb • ·)) := by
  have hq : ∀ s : Square, quadrantFlips kw • s
      = ⟨if 3 < kw.rank.val then s.rank.rev else s.rank,
        if 3 < kw.file.val then s.file.rev else s.file⟩ := by
    intro s
    simp only [quadrantFlips, Symmetry.smul_def, Symmetry.apply, decide_eq_true_eq,
      Bool.false_eq_true, if_false]
  have hred : ∀ s : Square, reducer kw kb • s
      = if (quadrantFlips kw • kw).file < (quadrantFlips kw • kw).rank ∨
          ((quadrantFlips kw • kw).rank = (quadrantFlips kw • kw).file ∧
            (quadrantFlips kw • kb).file < (quadrantFlips kw • kb).rank)
        then ⟨(quadrantFlips kw • s).file, (quadrantFlips kw • s).rank⟩
        else quadrantFlips kw • s := by
    intro s
    by_cases hc : (quadrantFlips kw • kw).file < (quadrantFlips kw • kw).rank ∨
          ((quadrantFlips kw • kw).rank = (quadrantFlips kw • kw).file ∧
            (quadrantFlips kw • kb).file < (quadrantFlips kw • kb).rank)
    · rw [if_pos hc, reducer]
      simp only [decide_eq_true hc]
      rfl
    · rw [if_neg hc, reducer]
      simp only [decide_eq_false hc]
      rfl
  -- The flips come first; the axes are exchanged as the flipped kings demand.
  have hflips : reduceSymmetries (kw :: kb :: l) = .ok
      (if (quadrantFlips kw • kw).file < (quadrantFlips kw • kw).rank ∨
          ((quadrantFlips kw • kw).rank = (quadrantFlips kw • kw).file ∧
            (quadrantFlips kw • kb).file < (quadrantFlips kw • kb).rank)
        then ((kw :: kb :: l).map (quadrantFlips kw • ·)).map fun s => ⟨s.file, s.rank⟩
        else (kw :: kb :: l).map (quadrantFlips kw • ·)) := by
    simp only [hq]
    by_cases h₁ : 3 < kw.rank.val <;> by_cases h₂ : 3 < kw.file.val <;>
      simp [reduceSymmetries, Run.index, Run.expect, h₁, h₂, Function.comp_def]
  rw [hflips]
  congr 1
  simp only [hred]
  split
  · rw [List.map_map]; rfl
  · rfl

section Sorting

variable {M : Material} {b : Board} (h : WhiteBoard M b)

include h

/-- Sorting extracted squares gives the squares of the board. -/
theorem sortGroups_eq {gs : List IndexerPieceGroup} {cs : List (List Square)}
    (hgs : ∀ g ∈ gs, g ∈ M.nonpawns) (hu : List.Forall₂ (Unsorted b) gs cs) :
    M.indexer.sortGroups gs cs.flatten = (gs.map (pieceChunk M.indexer b)).flatten := by
  induction hu with
  | nil => rfl
  | @cons g c gs cs hc _ ih =>
    have hg := hgs g List.mem_cons_self
    have hchunk : (if isRepeated g then M.indexer.sortSquares c else c)
        = pieceChunk M.indexer b g ∧ c.length = g.size := by
      unfold Unsorted at hc
      rcases Material.kind_cases hg with ⟨hk, hn, -⟩ | ⟨r, side, hk, hn, hne, -⟩
      · rw [hk] at hc
        obtain ⟨kw, kb, rfl, hw, hb⟩ := hc
        obtain ⟨kw', hw'⟩ := h.exists_king .white
        obtain ⟨kb', hb'⟩ := h.exists_king .black
        refine ⟨?_, by rw [hn]; rfl⟩
        unfold isRepeated pieceChunk
        rw [hk]
        simp only [byPiece_eq_singleton hw', byPiece_eq_singleton hb']
        rw [(hw' kw).mp hw, (hb' kb).mp hb]
        simp
      · rw [hk] at hc
        simp only at hc
        have hpawn : r ≠ .pawn := by
          rintro rfl
          exact hne (hn.trans (M.count_pawn side))
        have hlen : c.length = g.size := by
          rw [hc.length_eq, hn, ← h.material.count side r hpawn]; rfl
        refine ⟨?_, hlen⟩
        have hsort : M.indexer.sortSquares c = pieceChunk M.indexer b g := by
          unfold pieceChunk
          rw [hk]
          exact M.indexer.sortSquares_eq
            ((M.indexer.sortSquares_perm _).trans hc.symm)
            (M.indexer.sortSquares_descending (Bitboard.nodup_toList _))
        by_cases hrep : isRepeated g = true
        · rw [if_pos hrep, hsort]
        · rw [if_neg hrep, ← hsort]
          -- A single square is sorted.
          have hone : c.length = 1 := by
            unfold isRepeated at hrep
            rw [hk] at hrep
            simp at hrep
            omega
          obtain ⟨s, rfl⟩ := List.length_eq_one_iff.mp hone
          rfl
    rw [List.flatten_cons, sortGroups, List.take_left' hchunk.2, List.drop_left' hchunk.2,
      ih (fun g hm => hgs g (List.mem_cons_of_mem _ hm)), hchunk.1, List.map_cons,
      List.flatten_cons]

theorem sortCoord_eq {cs : List (List Square)} (hu : List.Forall₂ (Unsorted b) M.nonpawns cs) :
    M.indexer.sortCoordRepeatedPieces ((M.pawnGroups.map (pawnChunk b)).flatten ++ cs.flatten)
      = boardCoords M b := by
  have hlen : (M.pawnGroups.map (pawnChunk b)).flatten.length = M.indexer.nPawns :=
    Material.length_pawnSquares h.arranged.pawns
  unfold sortCoordRepeatedPieces boardCoords
  rw [List.take_left' hlen, List.drop_left' hlen]
  congr 1
  exact sortGroups_eq h (fun _ hg => hg) hu

end Sorting

theorem Unsorted.transform {b : Board} {g : IndexerPieceGroup} {c : List Square}
    (h : Unsorted b g c) (s : Symmetry) :
    Unsorted ((⟨s, false⟩ : Transform).board b) g (c.map (s • ·)) := by
  have hpiece : ∀ pc, (⟨s, false⟩ : Transform).piece pc = pc := fun pc => rfl
  unfold Unsorted at h ⊢
  cases hk : g.kind with
  | pieces r side =>
    rw [hk] at h
    simp only at h ⊢
    exact (h.map _).trans
      (Transform.toList_byPiece_perm ⟨s, false⟩ b ⟨side.color .white, r⟩).symm
  | kingPair =>
    rw [hk] at h
    obtain ⟨kw, kb, rfl, hw, hb⟩ := h
    exact ⟨s • kw, s • kb, rfl, (Transform.board_eq_some ⟨s, false⟩).mpr hw,
      (Transform.board_eq_some ⟨s, false⟩).mpr hb⟩

end ChessEgt
