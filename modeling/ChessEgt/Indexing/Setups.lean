import ChessEgt.Indexing.Codec

/-!
# Canonical setups and indices

* `CanonicalSetup` — the boards, with en passant files, that a table has indices for;
* `Indexes` — an index stands for a canonical setup;
* `exists_indexes`, `CanonicalSetup.exists_index` — every index stands for a canonical setup,
  and every canonical setup has an index;
* `Indexes.eq_setup`, `Indexes.eq_index` — the two determine each other.
-/

namespace ChessEgt

open Rules Compaction Indexer

/-- The boards, with en passant files, that a table has indices for. -/
structure CanonicalSetup (M : Material) (b : Board) (ep : Option File) : Prop where
  white : WhiteBoard M b
  kings : ∀ kw kb, b kw = some ⟨.white, .king⟩ → b kb = some ⟨.black, .king⟩ →
    (M.nPawns = 0 → CanonicalKings kw kb ∧ ¬ KingsTouch kw kb) ∧
      (M.Symmetric → M.indexer.squareIndex kb < M.indexer.squareIndex kw)
  victim : ∀ f, ep = some f → Victim b f

/-- The coordinates of a board, in the order of the slots. -/
def boardCoords (M : Material) (b : Board) : List Square :=
  (M.pawnGroups.map (pawnChunk b)).flatten ++ (M.nonpawns.map (pieceChunk M.indexer b)).flatten

/-- The number of a pawn configuration. -/
def pawnIndexOf (M : Material) (ranks : List ℕ) (ep : Option File) : Run ℕ :=
  match M.indexer.pawnMap with
  | none => pure 0
  | some pawnMap => pawnMap.index (ranks, ep)

/-- The index of a canonical board. -/
def boardIndex (M : Material) (b : Board) (ep : Option File) : Run ℕ := do
  let pawnIndex ← pawnIndexOf M (ranksOf ((boardCoords M b).take M.nPawns)) ep
  let index ← M.indexer.sliceIndex (boardCoords M b)
  pure (pawnIndex * M.indexer.nonpawnCombinations + index)

/-- The setup of a canonical board for either side to move. -/
def setupOf (M : Material) (b : Board) (ep : Option File) (turn : Color) : Setup :=
  (Transform.normal (decide (0 < M.nPawns)) turn).setup (whiteSetup b ep)

/-- An index stands for a canonical setup. -/
structure Indexes (M : Material) (i : ℕ) (b : Board) (ep : Option File) : Prop where
  canonical : CanonicalSetup M b ep
  lt : i < M.indexer.indexRange
  index : boardIndex M b ep = .ok i
  setup : ∀ turn, M.indexer.setupFromIndex i turn = .ok (setupOf M b ep turn)
  slice : M.nPawns = 0 → ∃ cpidx,
    SliceCode M [] (M.nonpawns.map (pieceChunk M.indexer b)) i cpidx

variable {M : Material} {ps qs : List (List Square)} {b : Board} {ep : Option File}

theorem CanonicalSetup.pawnful_of_ep (h : CanonicalSetup M b ep) (hep : ep ≠ none) :
    0 < M.nPawns := by
  obtain ⟨f, rfl⟩ := Option.ne_none_iff_exists'.mp hep
  rcases Nat.eq_zero_or_pos M.nPawns with hz | hp
  · exact absurd rfl (h.white.material.pawnless_iff.mpr hz ⟨4, f⟩ _ (h.victim f rfl).1)
  · exact hp

theorem nonpawnCombinations_pos (hM : M.nPieces ≤ maxPieces) :
    0 < M.indexer.nonpawnCombinations := by
  rcases Nat.eq_zero_or_pos M.nPawns with hp | hp
  · rw [nonpawnCombinations_pawnless hp]
    refine Nat.mul_pos (by decide) (List.prod_pos (fun x hx => ?_))
    obtain ⟨g, hg, rfl⟩ := List.mem_map.mp hx
    exact (Material.sound_restGroups hM hp g hg).pos
  · refine List.prod_pos (fun x hx => ?_)
    obtain ⟨g, hg, rfl⟩ := List.mem_map.mp hx
    have hg : g ∈ M.nonpawns := hg
    rw [Material.nonpawns_of_pawnful hp] at hg
    exact (Material.sound_assignedGroups hM g hg).pos

theorem pawnMap_pawnful (hp : 0 < M.nPawns) :
    M.indexer.pawnMap = some (PawnMap.new M.pawnGroups) := if_pos hp

theorem pawnMap_pawnless (hp : M.nPawns = 0) : M.indexer.pawnMap = none := if_neg (by omega)

theorem indexRange_pawnful (hp : 0 < M.nPawns) : M.indexer.indexRange
    = (PawnMap.configurations M.pawnGroups).length * M.indexer.nonpawnCombinations := by
  rw [← PawnMap.fromIndex_new]
  show (M.indexer.pawnMap).elim 1 _ * _ = _
  rw [pawnMap_pawnful hp]; rfl

theorem indexRange_pawnless (hp : M.nPawns = 0) :
    M.indexer.indexRange = M.indexer.nonpawnCombinations := by
  show (M.indexer.pawnMap).elim 1 _ * _ = _
  rw [pawnMap_pawnless hp, Option.elim_none, Nat.one_mul]
  rfl

/-! ### Decoding -/

/-- The setup of an index from the code of its slice, with pawns. -/
theorem setupFromIndex_pawnful (hM : M.nPieces ≤ maxPieces) (hp : 0 < M.nPawns)
    (h : Arranged M ps qs) {j : ℕ} {cpidx : List ℕ} (hc : SliceCode M ps qs j cpidx) {pi : ℕ}
    (hpi : (PawnMap.configurations M.pawnGroups)[pi]? = some (ranksOf ps.flatten, ep))
    (turn : Color) :
    M.indexer.setupFromIndex (pi * M.indexer.nonpawnCombinations + j) turn
      = .ok (M.indexer.coordToSetup ep (ps.flatten ++ qs.flatten) turn) := by
  have hpos := nonpawnCombinations_pos hM
  have hlen := (List.getElem?_eq_some_iff.mp hpi).1
  have hlt : pi * M.indexer.nonpawnCombinations + j < M.indexer.indexRange := by
    rw [indexRange_pawnful hp]
    have : (pi + 1) * M.indexer.nonpawnCombinations
        ≤ (PawnMap.configurations M.pawnGroups).length * M.indexer.nonpawnCombinations :=
      Nat.mul_le_mul_right _ hlen
    have hj := hc.lt
    rw [Nat.add_mul, Nat.one_mul] at this
    omega
  have hmod : (pi * M.indexer.nonpawnCombinations + j) % M.indexer.nonpawnCombinations = j := by
    rw [Nat.mul_comm, Nat.mul_add_mod, Nat.mod_eq_of_lt hc.lt]
  have hdiv : (pi * M.indexer.nonpawnCombinations + j) / M.indexer.nonpawnCombinations = pi := by
    rw [Nat.add_comm, Nat.add_mul_div_right _ _ hpos, Nat.div_eq_of_lt hc.lt, Nat.zero_add]
  have hpawns : ps.flatten.length = M.nPawns := Material.length_pawnSquares h.pawns
  have hpos₁ : 0 < (M.indexer.coordToPidx ps.flatten).length := by
    rw [coordToPidx, List.length_map, hpawns]; exact hp
  have hpos₂ : 0 < (compact (M.indexer.coordToPidx ps.flatten) ++ cpidx).length := by
    rw [List.length_append, length_compact]; omega
  have hdrop : (M.indexer.coordToPidx (ps.flatten ++ qs.flatten)).drop M.indexer.nPawns
      = M.indexer.coordToPidx qs.flatten := by
    unfold coordToPidx
    rw [List.map_append]
    exact List.drop_left' (by rw [List.length_map]; exact hpawns)
  unfold setupFromIndex
  rw [Run.ensure_eq hlt, Run.ok_bind, pawnMap_pawnful hp]
  simp only [hmod, hdiv]
  rw [Run.ensure_eq (by omega), Run.ok_bind, hc.cpidx, Run.ok_bind, PawnMap.fromIndex_new,
    Run.index_eq hpi, Run.ok_bind]
  simp only
  rw [pawnSquares_eq h.pawns, Run.ok_bind, compactPidx, Run.ensure_eq hpos₁, Run.ok_bind,
    Run.pure_eq_ok, Run.ok_bind, uncompactCpidx, Run.ensure_eq hpos₂, Run.ok_bind, Run.pure_eq_ok,
    Run.ok_bind, hc.pawnful hp, hdrop, pidxToCoord_coordToPidx, Run.ok_bind, Run.pure_eq_ok]

theorem setupFromIndex_pawnless (hp : M.nPawns = 0) {j : ℕ} {cpidx : List ℕ}
    (hc : SliceCode M [] qs j cpidx) (h : Arranged M [] qs) (turn : Color) :
    M.indexer.setupFromIndex j turn = .ok (M.indexer.coordToSetup none qs.flatten turn) := by
  have hlt : j < M.indexer.indexRange := by rw [indexRange_pawnless hp]; exact hc.lt
  obtain ⟨cpidx', hu, he⟩ := hc.pawnless hp
  rw [List.flatten_nil, List.nil_append] at he
  have hpos : 0 < cpidx'.length := by
    rw [← length_uncompact, he, coordToPidx, List.length_map]
    obtain ⟨kw, kb, qs', -, rfl, -⟩ := exists_kings hp h
    exact Nat.succ_pos _
  unfold setupFromIndex
  rw [Run.ensure_eq hlt, Run.ok_bind, pawnMap_pawnless hp]
  simp only
  rw [hc.cpidx, Run.ok_bind, hu, Run.ok_bind, uncompactCpidx, Run.ensure_eq hpos, Run.ok_bind,
    Run.pure_eq_ok, Run.ok_bind, he, pidxToCoord_coordToPidx, Run.ok_bind, Run.pure_eq_ok]

/-! ### Canonical setups and arranged squares -/

/-- The coordinates of the board of arranged squares. -/
theorem Arranged.boardCoords_eq (h : Arranged M ps qs) :
    boardCoords M h.board = ps.flatten ++ qs.flatten := by
  unfold boardCoords
  rw [← h.eq.1, ← h.eq.2]

/-- The kings of the board of arranged squares are in canonical order. -/
theorem Arranged.kings_iff (h : Arranged M ps qs) : KingsCanonical M qs ↔
    ∀ kw kb, h.board kw = some ⟨.white, .king⟩ → h.board kb = some ⟨.black, .king⟩ →
      (M.nPawns = 0 → CanonicalKings kw kb ∧ ¬ KingsTouch kw kb) ∧
        (M.Symmetric → M.indexer.squareIndex kb < M.indexer.squareIndex kw) := by
  constructor
  · intro hk kw kb hw hb
    by_cases hpair : M.KingsPaired
    · obtain ⟨g, hg, he⟩ := List.mem_map.mp
        (Material.mem_kind_size.mpr (Or.inl ⟨rfl, rfl, hpair⟩))
      rw [Prod.mk.injEq] at he
      obtain ⟨c, hm⟩ := exists_mem_zip h.pieces.length_eq hg
      obtain ⟨kw', kb', hkk, hw', hb'⟩ := h.chunk_kings hm he.1
      rw [(hw' kw).mp hw, (hb' kb).mp hb]
      exact hk _ hm he.1 kw' kb' hkk
    · exact ⟨fun hz => absurd (Or.inl hz) hpair, fun hs => absurd (Or.inr hs) hpair⟩
  · intro hk x hx hkind kw kb hkk
    obtain ⟨kw', kb', hkk', hw', hb'⟩ := h.chunk_kings hx hkind
    rw [hkk] at hkk'
    cases hkk'
    exact hk kw kb ((hw' kw).mpr rfl) ((hb' kb).mpr rfl)

/-- Arranged canonical squares with the number of their slice and of their configuration have an
    index. -/
theorem Arranged.indexes (hM : M.nPieces ≤ maxPieces) (h : Arranged M ps qs)
    (hk : KingsCanonical M qs) {j : ℕ} {cpidx : List ℕ} (hc : SliceCode M ps qs j cpidx) {pi : ℕ}
    (hpi : pawnIndexOf M (ranksOf ps.flatten) ep = .ok pi)
    (hpi' : if 0 < M.nPawns
      then (PawnMap.configurations M.pawnGroups)[pi]? = some (ranksOf ps.flatten, ep)
      else pi = 0 ∧ ep = none)
    (hv : ∀ f, ep = some f → Victim h.board f) :
    Indexes M (pi * M.indexer.nonpawnCombinations + j) h.board ep := by
  have hcan : CanonicalSetup M h.board ep := ⟨h.whiteBoard, h.kings_iff.mp hk, hv⟩
  have hsetup : ∀ turn, M.indexer.coordToSetup ep (ps.flatten ++ qs.flatten) turn
      = setupOf M h.board ep turn :=
    fun turn => coordToSetup_eq M.indexer ep _ turn (fun hep => hcan.pawnful_of_ep hep)
  have htake : (ps.flatten ++ qs.flatten).take M.nPawns = ps.flatten :=
    List.take_left' (Material.length_pawnSquares h.pawns)
  have hindex : boardIndex M h.board ep
      = .ok (pi * M.indexer.nonpawnCombinations + j) := by
    unfold boardIndex
    rw [h.boardCoords_eq, htake, hpi, Run.ok_bind, hc.index, Run.ok_bind, Run.pure_eq_ok]
  rcases Nat.eq_zero_or_pos M.nPawns with hp | hp
  · rw [if_neg (by omega)] at hpi'
    obtain ⟨rfl, rfl⟩ := hpi'
    have hps := h.pawns
    rw [Material.pawnGroups_of_pawnless hp, List.forall₂_nil_left_iff] at hps
    subst hps
    rw [Nat.zero_mul, Nat.zero_add] at hindex ⊢
    refine ⟨hcan, by rw [indexRange_pawnless hp]; exact hc.lt, hindex, fun turn => ?_,
      fun _ => ⟨cpidx, ?_⟩⟩
    · rw [← hsetup turn, setupFromIndex_pawnless hp hc h]
      rfl
    · rw [← h.eq.2]; exact hc
  · rw [if_pos hp] at hpi'
    refine ⟨hcan, ?_, hindex, fun turn => ?_, fun h0 => absurd h0 (by omega)⟩
    · rw [indexRange_pawnful hp]
      have hlen := (List.getElem?_eq_some_iff.mp hpi').1
      have : (pi + 1) * M.indexer.nonpawnCombinations
          ≤ (PawnMap.configurations M.pawnGroups).length * M.indexer.nonpawnCombinations :=
        Nat.mul_le_mul_right _ hlen
      have hj := hc.lt
      rw [Nat.add_mul, Nat.one_mul] at this
      omega
    · rw [← hsetup turn, setupFromIndex_pawnful hM hp h hc hpi']

/-- **Every canonical setup** has an index. -/
theorem CanonicalSetup.exists_index (hM : M.nPieces ≤ maxPieces) (h : CanonicalSetup M b ep) :
    ∃ i, Indexes M i b ep := by
  have harr := h.white.arranged
  have hboard := h.white.place_eq
  have hk : KingsCanonical M (M.nonpawns.map (pieceChunk M.indexer b)) := by
    rw [harr.kings_iff, hboard]; exact h.kings
  obtain ⟨j, cpidx, hc⟩ := harr.exists_sliceCode hM hk
  rcases Nat.eq_zero_or_pos M.nPawns with hp | hp
  · have hep : ep = none := by
      by_contra hep
      have := h.pawnful_of_ep hep
      omega
    have hpi : pawnIndexOf M (ranksOf (M.pawnGroups.map (pawnChunk b)).flatten) ep = .ok 0 := by
      unfold pawnIndexOf
      rw [pawnMap_pawnless hp]; rfl
    have := harr.indexes hM hk hc hpi (by rw [if_neg (by omega)]; exact ⟨rfl, hep⟩)
      (by rw [hboard]; exact h.victim)
    rw [hboard] at this
    exact ⟨_, this⟩
  · have hmem : (ranksOf (M.pawnGroups.map (pawnChunk b)).flatten, ep)
        ∈ PawnMap.configurations M.pawnGroups := by
      refine PawnMap.mem_configurations.mpr ⟨ranks_mem_rankLists harr.pawns, fun f hf => ?_⟩
      rw [harr.mem_victims_iff, hboard]
      exact h.victim f hf
    obtain ⟨pi, hpi'⟩ := List.getElem?_of_mem hmem
    have hpi : pawnIndexOf M (ranksOf (M.pawnGroups.map (pawnChunk b)).flatten) ep = .ok pi := by
      unfold pawnIndexOf
      rw [pawnMap_pawnful hp]
      exact PawnMap.index_configuration Material.nodup_files_pawnGroups hpi'
    have := harr.indexes hM hk hc hpi (by rw [if_pos hp]; exact hpi')
      (by rw [hboard]; exact h.victim)
    rw [hboard] at this
    exact ⟨_, this⟩

/-- The indices of the slice of a configuration stand for setups with its en passant file. -/
theorem exists_indexes_of_configuration (hM : M.nPieces ≤ maxPieces) (hp : 0 < M.nPawns)
    {slice j : ℕ} {ranks : List ℕ}
    (hconf : (PawnMap.configurations M.pawnGroups)[slice]? = some (ranks, ep))
    (hj : j < M.indexer.nonpawnCombinations) :
    ∃ b, Indexes M (slice * M.indexer.nonpawnCombinations + j) b ep := by
  obtain ⟨hranks, hvict⟩ := PawnMap.mem_configurations.mp (List.mem_of_getElem? hconf)
  obtain ⟨ps, hps, rfl⟩ := exists_pawnChunks hranks
  obtain ⟨qs, cpidx, harr, hk, hc⟩ := exists_arranged hM hps hj
  have hpi : pawnIndexOf M (ranksOf ps.flatten) ep = .ok slice := by
    unfold pawnIndexOf
    rw [pawnMap_pawnful hp]
    exact PawnMap.index_configuration Material.nodup_files_pawnGroups hconf
  exact ⟨_, harr.indexes hM hk hc hpi (by rw [if_pos hp]; exact hconf)
    (fun f hf => harr.mem_victims_iff.mp (hvict f hf))⟩

/-- **Every index** stands for a canonical setup. -/
theorem exists_indexes (hM : M.nPieces ≤ maxPieces) {i : ℕ} (hi : i < M.indexer.indexRange) :
    ∃ b ep, Indexes M i b ep := by
  have hpos := nonpawnCombinations_pos hM
  have hdm : i / M.indexer.nonpawnCombinations * M.indexer.nonpawnCombinations
      + i % M.indexer.nonpawnCombinations = i := Nat.div_add_mod' _ _
  have hmod : i % M.indexer.nonpawnCombinations < M.indexer.nonpawnCombinations :=
    Nat.mod_lt _ hpos
  rcases Nat.eq_zero_or_pos M.nPawns with hp | hp
  · have hps : List.Forall₂ PawnChunk M.pawnGroups [] := by
      rw [Material.pawnGroups_of_pawnless hp]; exact .nil
    obtain ⟨qs, cpidx, harr, hk, hc⟩ := exists_arranged hM hps hmod
    have hz : i / M.indexer.nonpawnCombinations = 0 := by
      rw [indexRange_pawnless hp] at hi
      exact Nat.div_eq_of_lt hi
    have hpi : pawnIndexOf M (ranksOf ([] : List (List Square)).flatten) none
        = .ok (i / M.indexer.nonpawnCombinations) := by
      unfold pawnIndexOf
      rw [pawnMap_pawnless hp, hz]; rfl
    have := harr.indexes hM hk hc hpi
      (by rw [if_neg (by omega)]; exact ⟨hz, rfl⟩) (fun f hf => by cases hf)
    rw [hdm] at this
    exact ⟨_, _, this⟩
  · have hlen : i / M.indexer.nonpawnCombinations
        < (PawnMap.configurations M.pawnGroups).length := by
      rw [indexRange_pawnful hp] at hi
      exact Nat.div_lt_of_lt_mul (by rw [Nat.mul_comm]; exact hi)
    obtain ⟨⟨ranks, ep⟩, hconf⟩ : ∃ c, (PawnMap.configurations M.pawnGroups)[
        i / M.indexer.nonpawnCombinations]? = some c := ⟨_, List.getElem?_eq_getElem hlen⟩
    obtain ⟨b, hb⟩ := exists_indexes_of_configuration hM hp hconf hmod
    rw [hdm] at hb
    exact ⟨b, ep, hb⟩

/-! ### Indices and setups determine each other -/

theorem setupOf_white (b : Board) (ep : Option File) :
    setupOf M b ep .white = whiteSetup b ep := by
  unfold setupOf Transform.setup whiteSetup
  ext1
  · exact Transform.one_board b
  · rfl
  · rfl
  · cases ep <;> rfl

theorem whiteSetup_injective {b b' : Board} {ep ep' : Option File}
    (h : whiteSetup b ep = whiteSetup b' ep') : b = b' ∧ ep = ep' := by
  refine ⟨congrArg Setup.board h, ?_⟩
  have := congrArg Setup.epSquare h
  simp only [whiteSetup] at this
  cases ep <;> cases ep' <;> simp_all

namespace Indexes

/-- An index stands for one setup. -/
theorem eq_setup {i : ℕ} {b' : Board} {ep' : Option File} (h : Indexes M i b ep)
    (h' : Indexes M i b' ep') : b = b' ∧ ep = ep' := by
  have := (h.setup .white).symm.trans (h'.setup .white)
  rw [setupOf_white, setupOf_white] at this
  exact whiteSetup_injective (Except.ok.inj this)

/-- A setup has one index. -/
theorem eq_index {i j : ℕ} (h : Indexes M i b ep) (h' : Indexes M j b ep) : i = j :=
  Except.ok.inj (h.index.symm.trans h'.index)

end Indexes

end ChessEgt
