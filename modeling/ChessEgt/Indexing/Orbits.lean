import ChessEgt.Indexing.Decode

/-!
# Orbits of positions and indices

* `CanonicalSetup.transform_eq` — canonical setups are unique in their orbit, but for the
  diagonal reflection of boards whose kings both stand on the a1-h8 diagonal;
* `Indexes.diagonalSymmetric_eq` — the diagonal partner of an index;
* `Canonizes.eq_iff`, `Canonizes.partner_iff` — when two positions have the same index, or the
  indices of partners.
-/

namespace ChessEgt

open Rules Indexer

/-- Both kings stand on the a1-h8 diagonal. -/
def KingsDiagonal (b : Board) : Prop := ∀ c s, b s = some ⟨c, .king⟩ → s.rank = s.file

instance (b : Board) : Decidable (KingsDiagonal b) := by unfold KingsDiagonal; infer_instance

namespace Transform

/-- The reflection on the a1-h8 diagonal. -/
def diagonal : Transform := ⟨Symmetry.diagonal, false⟩

@[simp] theorem diagonal_mul_diagonal : diagonal * diagonal = 1 := by decide

theorem Fits.mul {g h : Transform} {b : Board} (hg : g.Fits (h.board b)) (hh : h.Fits b) :
    (g * h).Fits b := by
  rcases hh with hh | hh
  · rcases hg with hg | hg
    · left
      obtain ⟨⟨a, f, s⟩, c⟩ := g
      obtain ⟨⟨a', f', s'⟩, c'⟩ := h
      revert hg hh
      cases a <;> cases f <;> cases s <;> cases c <;> cases a' <;> cases f' <;> cases s' <;>
        cases c' <;> decide
    · right
      have := h.inv.pawnless_board hg
      rwa [inv_board] at this
  · exact Or.inr hh

theorem recolor_of_color {g : Transform} {c : Color} (h : g.color c = c) : g.recolor = false := by
  obtain ⟨s, r⟩ := g
  cases r with
  | false => rfl
  | true => exact absurd h (Color.other_ne c)

end Transform

theorem KingsDiagonal.board_diagonal {b : Board} (h : KingsDiagonal b) :
    KingsDiagonal (Transform.diagonal.board b) := by
  intro c s hs
  obtain ⟨s, rfl⟩ := MulAction.surjective Transform.diagonal.symmetry s
  exact (h c s ((Transform.board_eq_some _ (x := ⟨c, .king⟩)).mp hs)).symm

/-! ### Uniqueness of canonical setups -/

section Unique

variable {M : Material} {b b' : Board} {ep ep' : Option File}

theorem kingsDiagonal_iff {kw kb : Square} (h : WhiteBoard M b)
    (hw : b kw = some ⟨.white, .king⟩) (hb : b kb = some ⟨.black, .king⟩) :
    KingsDiagonal b ↔ OnDiagonal kw kb := by
  constructor
  · exact fun hd => ⟨hd _ _ hw, hd _ _ hb⟩
  · intro hd c s hs
    obtain ⟨k, hk⟩ := h.exists_king c
    rw [(hk s).mp hs]
    cases c with
    | white => rw [← (hk kw).mp hw]; exact hd.1
    | black => rw [← (hk kb).mp hb]; exact hd.2

/-- Reflections of the files exchange the kings' order in symmetric tables, and the pawns of the
    others. -/
theorem CanonicalSetup.not_mirror (hp : 0 < M.nPawns) (h : CanonicalSetup M b ep)
    (h' : CanonicalSetup M ((⟨Symmetry.mirror, false⟩ : Transform).board b) ep') : False := by
  have hmirror : HasMaterial M.mirrored
      ((⟨Symmetry.mirror, false⟩ : Transform).setup (whiteSetup b none)) :=
    h.white.material.setup_mirrored (by decide) rfl
  have hsymm : M.Symmetric :=
    ⟨hp, fun f => (hmirror.words f).symm.trans (h'.white.material.words f)⟩
  obtain ⟨kw, hw⟩ := h.white.exists_king .white
  obtain ⟨kb, hb⟩ := h.white.exists_king .black
  have hw := (hw kw).mpr rfl
  have hb := (hb kb).mpr rfl
  have hlt := (h.kings kw kb hw hb).2 hsymm
  have hlt' := (h'.kings (Symmetry.mirror • kw) (Symmetry.mirror • kb)
    ((Transform.board_eq_some (⟨Symmetry.mirror, false⟩ : Transform)).mpr hw)
    ((Transform.board_eq_some (⟨Symmetry.mirror, false⟩ : Transform)).mpr hb)).2 hsymm
  rw [squareIndex_mirror (decide_eq_true hsymm), squareIndex_mirror (decide_eq_true hsymm)] at hlt'
  have := M.indexer.squareIndex_lt kw
  omega

/-- **Canonical setups** are unique in their orbit, but for the diagonal reflection of boards
    without pawns whose kings stand on the diagonal. -/
theorem CanonicalSetup.transform_eq (h : CanonicalSetup M b ep) {g : Transform}
    (h' : CanonicalSetup M (g.board b) ep') (hg : g.Fits b) (hr : g.recolor = false) :
    g = 1 ∨ (M.nPawns = 0 ∧ g = Transform.diagonal ∧ KingsDiagonal b) := by
  obtain ⟨s, r⟩ := g
  simp only at hr
  subst hr
  rcases Nat.eq_zero_or_pos M.nPawns with hp | hp
  · obtain ⟨kw, hw⟩ := h.white.exists_king .white
    obtain ⟨kb, hb⟩ := h.white.exists_king .black
    have hw := (hw kw).mpr rfl
    have hb := (hb kb).mpr rfl
    have hk := ((h.kings kw kb hw hb).1 hp).1
    have hk' := ((h'.kings (s • kw) (s • kb)
      ((Transform.board_eq_some (⟨s, false⟩ : Transform)).mpr hw)
      ((Transform.board_eq_some (⟨s, false⟩ : Transform)).mpr hb)).1 hp).1
    rcases hk.eq_one hk' with rfl | ⟨rfl, hd⟩
    · exact Or.inl rfl
    · exact Or.inr ⟨hp, rfl, (kingsDiagonal_iff h.white hw hb).mpr hd⟩
  · left
    have hkeep : (⟨s, false⟩ : Transform).KeepsPawns := hg.resolve_right (fun hn => by
      have := h.white.material.pawnless_iff.mp hn
      omega)
    obtain ⟨a, f, x⟩ := s
    obtain ⟨h₁, h₂⟩ := hkeep
    simp only at h₁ h₂
    subst h₁ h₂
    cases f with
    | false => rfl
    | true => exact (h.not_mirror hp h').elim

end Unique

/-! ### Diagonal partners -/

namespace Indexes

variable {M : Material} {i j : ℕ} {b b' : Board} {ep ep' : Option File}

theorem ep_eq_none (h : Indexes M i b ep) (hp : M.nPawns = 0) : ep = none := by
  by_contra hep
  have := h.canonical.pawnful_of_ep hep
  omega

/-- The kings of an index without pawns, and its coordinates. -/
theorem exists_pair (h : Indexes M i b ep) (hp : M.nPawns = 0) :
    ∃ kw kb rest compacted cpidx, b kw = some ⟨.white, .king⟩ ∧ b kb = some ⟨.black, .king⟩ ∧
      boardCoords M b = kw :: kb :: rest ∧
      canonicalPairs[i / M.indexer.nonkingCombinations]? = some (kw, kb) ∧
      M.indexer.indexToCpidx i = .ok compacted ∧ unmapKings compacted = .ok cpidx ∧
      Compaction.uncompact cpidx = M.indexer.coordToPidx (boardCoords M b) := by
  have harr := h.canonical.white.arranged
  have hcoords : boardCoords M b = (M.nonpawns.map (pieceChunk M.indexer b)).flatten := by
    rw [boardCoords, Material.pawnGroups_of_pawnless hp]; rfl
  rw [Material.pawnGroups_of_pawnless hp] at harr
  obtain ⟨compacted, hslice⟩ := h.slice hp
  obtain ⟨cpidx, hunmap, hun⟩ := hslice.pawnless hp
  obtain ⟨kw, kb, qs, -, hqs, -⟩ := exists_kings hp harr
  obtain ⟨kw', hw⟩ := h.canonical.white.exists_king .white
  obtain ⟨kb', hb⟩ := h.canonical.white.exists_king .black
  have hfirst : [kw, kb] = [kw', kb'] := by
    have hcons := Material.nonpawns_of_pawnless hp (M := M)
    rw [hcons, List.map_cons, List.cons.injEq] at hqs
    rw [← hqs.1]
    show (b.byPiece ⟨.white, .king⟩).toList ++ (b.byPiece ⟨.black, .king⟩).toList = _
    rw [byPiece_eq_singleton hw, byPiece_eq_singleton hb]; rfl
  simp only [List.cons.injEq, and_true] at hfirst
  obtain ⟨rfl, rfl⟩ := hfirst
  refine ⟨kw, kb, qs.flatten, compacted, cpidx, (hw kw).mpr rfl, (hb kb).mpr rfl, ?_,
    hslice.pair hp kw kb qs hqs, hslice.cpidx, hunmap, ?_⟩
  · rw [hcoords, hqs]; rfl
  · rw [hun, hcoords]; rfl

theorem nonkingCombinations_ne_zero (hM : M.nPieces ≤ maxPieces) (hp : M.nPawns = 0) :
    M.indexer.nonkingCombinations ≠ 0 := by
  have hpos := nonpawnCombinations_pos hM
  rw [nonpawnCombinations_pawnless hp] at hpos
  rw [nonkingCombinations_pawnless hp]
  exact (Nat.pos_of_mul_pos_left hpos).ne'

/-- Indices of pawnful tables have no partner. -/
theorem diagonalSymmetric_pawnful (hp : 0 < M.nPawns) :
    M.indexer.diagonalSymmetric i = .ok none := by
  unfold diagonalSymmetric
  have : M.indexer.nPawns ≠ 0 := by
    show M.nPawns ≠ 0
    omega
  rw [if_pos this]
  rfl

/-- Indices with a king off the diagonal have no partner. -/
theorem diagonalSymmetric_none (hM : M.nPieces ≤ maxPieces) (hp : M.nPawns = 0)
    (h : Indexes M i b ep) (hd : ¬ KingsDiagonal b) :
    M.indexer.diagonalSymmetric i = .ok none := by
  obtain ⟨kw, kb, rest, compacted, cpidx, hw, hb, -, hpair, -⟩ := h.exists_pair hp
  rw [kingsDiagonal_iff h.canonical.white hw hb] at hd
  have hlook : Run.index kingsOnDiagonal (i / M.indexer.nonkingCombinations) = .ok false :=
    Run.index_eq (by
      rw [kingsOnDiagonal_eq, List.getElem?_map, hpair, Option.map_some, decide_eq_false hd])
  have hz : ¬ M.indexer.nPawns ≠ 0 := not_not.mpr hp
  unfold diagonalSymmetric
  rw [if_neg hz]
  simp only [Run.ensure_eq (nonkingCombinations_ne_zero hM hp), hlook, Run.pure_eq_ok, Run.ok_bind]
  rfl

/-- The partner of an index whose kings stand on the diagonal stands for the reflected board. -/
theorem diagonalSymmetric_some (hM : M.nPieces ≤ maxPieces) (hp : M.nPawns = 0)
    (h : Indexes M i b ep) (hd : KingsDiagonal b) : ∃ k,
      M.indexer.diagonalSymmetric i = .ok (some k) ∧ Indexes M k (Transform.diagonal.board b) none := by
  obtain ⟨kw, kb, rest, compacted, cpidx, hw, hb, hcoords, hpair, hcp, hunmap, hun⟩ :=
    h.exists_pair hp
  have hon := (kingsDiagonal_iff h.canonical.white hw hb).mp hd
  -- The reflected board is canonical.
  have hwhite : WhiteBoard M (Transform.diagonal.board b) := by
    have hmat : HasMaterial M (Transform.diagonal.setup (whiteSetup b none)) :=
      h.canonical.white.material.setup_pawnless Transform.diagonal hp
    exact ⟨hmat.congr rfl rfl, fun s pc hs hr =>
      absurd hr (hmat.pawnless_iff.mpr hp s pc hs)⟩
  have hcan : CanonicalSetup M (Transform.diagonal.board b) none := by
    refine ⟨hwhite, fun kw' kb' hw' hb' => ⟨fun _ => ?_, fun hs => ?_⟩, fun f hf => by cases hf⟩
    · obtain ⟨x, rfl⟩ := MulAction.surjective Symmetry.diagonal kw'
      obtain ⟨y, rfl⟩ := MulAction.surjective Symmetry.diagonal kb'
      obtain ⟨k, hk⟩ := h.canonical.white.exists_king .white
      obtain ⟨k', hk'⟩ := h.canonical.white.exists_king .black
      have hx := (Transform.board_eq_some Transform.diagonal (x := ⟨.white, .king⟩)).mp hw'
      have hy := (Transform.board_eq_some Transform.diagonal (x := ⟨.black, .king⟩)).mp hb'
      rw [(hk x).mp hx, ← (hk kw).mp hw, (hk' y).mp hy, ← (hk' kb).mp hb]
      obtain ⟨hc, ht⟩ := (h.canonical.kings kw kb hw hb).1 hp
      exact ⟨hon.canonical_diagonal hc, by rw [kingsTouch_smul]; exact ht⟩
    · have := hs.1
      omega
  obtain ⟨k, hk⟩ := hcan.exists_index hM
  refine ⟨k, ?_, hk⟩
  -- The reflected coordinates, sorted, are the coordinates of the reflected board.
  have hunsorted : List.Forall₂ (Unsorted (Transform.diagonal.board b)) M.nonpawns
      ((M.nonpawns.map (pieceChunk M.indexer b)).map (List.map (Symmetry.diagonal • ·))) := by
    rw [List.map_map, List.forall₂_map_right_iff, List.forall₂_same]
    intro g hg
    refine Unsorted.transform (b := b) ?_ Symmetry.diagonal
    unfold Unsorted pieceChunk
    cases hkind : g.kind with
    | pieces r side => exact M.indexer.sortSquares_perm _
    | kingPair =>
      obtain ⟨x, hx⟩ := h.canonical.white.exists_king .white
      obtain ⟨y, hy⟩ := h.canonical.white.exists_king .black
      refine ⟨x, y, ?_, (hx x).mpr rfl, (hy y).mpr rfl⟩
      simp only [byPiece_eq_singleton hx, byPiece_eq_singleton hy, List.singleton_append]
  have hsort := sortCoord_eq hwhite hunsorted
  rw [Material.pawnGroups_of_pawnless hp, List.map_nil, List.flatten_nil, List.nil_append,
    ← List.map_flatten] at hsort
  have hflat : (M.nonpawns.map (pieceChunk M.indexer b)).flatten = boardCoords M b := by
    rw [boardCoords, Material.pawnGroups_of_pawnless hp]; rfl
  rw [hflat] at hsort
  have hlook : Run.index kingsOnDiagonal (i / M.indexer.nonkingCombinations) = .ok true :=
    Run.index_eq (by
      rw [kingsOnDiagonal_eq, List.getElem?_map, hpair, Option.map_some, decide_eq_true hon])
  have hall : ((boardCoords M b).take 2).all (fun s => decide (s.rank = s.file)) = true := by
    rw [hcoords]
    simp [hon.1, hon.2]
  have hpos : 0 < cpidx.length := by
    rw [← Compaction.length_uncompact, hun, coordToPidx, List.length_map, hcoords]
    exact Nat.succ_pos _
  have hindex := hk.index
  unfold boardIndex pawnIndexOf at hindex
  rw [pawnMap_pawnless hp] at hindex
  simp only [Run.pure_eq_ok, Run.ok_bind, Nat.zero_mul, Nat.zero_add] at hindex
  obtain ⟨k', hslice, hk'⟩ := Run.bind_eq_ok.mp hindex
  rw [Except.ok.inj hk'] at hslice
  have hz : ¬ M.indexer.nPawns ≠ 0 := not_not.mpr hp
  have hz' : M.indexer.nPawns = 0 := hp
  unfold sliceIndex at hslice
  simp only [if_pos hz'] at hslice
  obtain ⟨pidx, hc₁, hc₂⟩ := Run.bind_eq_ok.mp hslice
  obtain ⟨mapped, hc₂, hc₃⟩ := Run.bind_eq_ok.mp hc₂
  unfold diagonalSymmetric
  rw [if_neg hz]
  simp only [Run.ensure_eq (nonkingCombinations_ne_zero hM hp), hlook, Run.pure_eq_ok, Run.ok_bind,
    hcp, hunmap, uncompactCpidx, Run.ensure_eq hpos, hun, pidxToCoord_coordToPidx, hall]
  have hmap : (boardCoords M b).map (fun s => (⟨s.file, s.rank⟩ : Square))
      = (boardCoords M b).map (Symmetry.diagonal • ·) := rfl
  simp only [hmap, hsort, hc₁, hc₂, hc₃, Run.ok_bind, Bool.not_true, Bool.false_eq_true, if_false,
    if_true, Run.ensure_eq]

/-- Every index has a partner or none. -/
theorem exists_diagonalSymmetric (hM : M.nPieces ≤ maxPieces) (h : Indexes M i b ep) :
    ∃ o, M.indexer.diagonalSymmetric i = .ok o := by
  rcases Nat.eq_zero_or_pos M.nPawns with hp | hp
  · by_cases hd : KingsDiagonal b
    · obtain ⟨k, hk, -⟩ := diagonalSymmetric_some hM hp h hd
      exact ⟨_, hk⟩
    · exact ⟨_, diagonalSymmetric_none hM hp h hd⟩
  · exact ⟨_, diagonalSymmetric_pawnful hp⟩

end Indexes

end ChessEgt
