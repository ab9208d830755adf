import ChessEgt.Retrograde.Links
import ChessEgt.Retrograde.Unmoves
import ChessEgt.Routing.Positions

/-!
# The graph of a pair of tables

* `Material.table` — the table of a material, `isMirrored_table` — how it sees its twin;
* `kingsOnLongDiagonal_board`, `bothKingsOnDiagonal_iff` — when both kings stand on a long
  diagonal;
* `exists_twinIndex`, `twinIndex_eq_iff` — the indices of linked positions in the twin table;
* `quietUnmoves_table` — the predecessors that the program emits from an index.
-/

namespace ChessEgt

open Rules Indexer

namespace Material

variable {M : Material}

/-- The table of a material. -/
def table (M : Material) : Egt := ⟨M.elements, M.indexer, M.name⟩

@[simp] theorem table_elements (M : Material) : M.table.elements = M.elements := rfl
@[simp] theorem table_indexer (M : Material) : M.table.indexer = M.indexer := rfl

theorem fromElements_table (hM : M.nPieces ≤ maxPieces) :
    Egt.fromElements M.elements = .ok M.table := by
  have hvalid := M.validElements hM
  have hmat := M.material_validElements hvalid
  have hsort : sortElements M.elements = M.elements := by
    rw [hvalid.sortElements_eq, hmat]
  have hindexer : Indexer.fromElements M.elements = .ok M.indexer := by
    rw [Indexer.fromElements_eq hvalid, hmat]
  have hname : computeTablename M.elements = .ok M.name := by
    rw [computeTablename_eq hvalid, hmat]
  unfold Egt.fromElements
  simp only [hsort, hindexer, hname, Run.ok_bind]
  rfl

/-- Whether the twin has to be reflected to be canonical. -/
def reflectsTwin (M : Material) : Bool := decide (¬ M.twin.Canonical)

/-- The material of the twin table. -/
@[irreducible] def partnerTable (M : Material) : Material := M.twin.canonical

theorem nPieces_partnerTable (M : Material) : M.partnerTable.nPieces = M.nPieces := by
  rw [partnerTable, nPieces_canonical, nPieces_twin]

theorem nPawns_partnerTable (M : Material) : M.partnerTable.nPawns = M.nPawns := by
  rw [partnerTable, nPawns_canonical, nPawns_twin]

theorem partnerTable_partnerTable (h : M.Canonical) : M.partnerTable.partnerTable = M := by
  unfold partnerTable
  exact (twin_canonical h).1

theorem reflectsTwin_partnerTable (h : M.Canonical) :
    M.partnerTable.reflectsTwin = M.reflectsTwin := by
  unfold partnerTable
  exact decide_eq_decide.mpr (not_congr (twin_canonical h).2)

theorem symmetric_mirrored : M.mirrored.Symmetric ↔ M.Symmetric := by
  unfold Symmetric
  rw [nPawns_mirrored]
  refine and_congr_right fun _ => ?_
  constructor
  · intro h f
    have := h f.rev
    simpa [mirrored] using this
  · intro h f
    have := h f.rev
    simpa [mirrored] using this

theorem symmetric_twin : M.twin.Symmetric ↔ M.Symmetric := by
  unfold Symmetric
  rw [nPawns_twin]
  refine and_congr_right fun _ => forall_congr' fun f => ?_
  constructor
  · intro h
    have := congrArg flipOrder h
    rwa [twin, flipOrder_flipOrder, flipOrder_flipOrder] at this
  · intro h
    exact congrArg flipOrder h

theorem symmetric_partnerTable : M.partnerTable.Symmetric ↔ M.Symmetric := by
  unfold partnerTable canonical
  split
  · exact symmetric_twin
  · exact symmetric_mirrored.trans symmetric_twin

end Material

theorem isMirrored_table {M : Material} (hM : M.nPieces ≤ maxPieces) :
    isMirrored M.table M.partnerTable.table = .ok M.reflectsTwin := by
  unfold isMirrored
  rw [Material.table_elements, Material.table_elements, PawnKey.fromElements_eq,
    PawnKey.fromElements_eq, PawnKey.twin_ofOrders]
  have h := PawnKey.canonicalized_ofOrders (M := M.twin) (by rw [Material.nPieces_twin]; exact hM)
  have hwords : (fun f => flipOrder (M.words f)) = M.twin.words := rfl
  have hkey : PawnKey.ofOrders M.twin.canonical.words = PawnKey.ofOrders M.partnerTable.words := by
    unfold Material.partnerTable
    rfl
  rw [hwords, h, Run.ok_bind]
  exact congrArg (· >>= fun _ => pure M.reflectsTwin) (Run.ensure_eq hkey _)

/-! ### Kings on a long diagonal -/

theorem kingsOnLongDiagonal_iff {kings : Bitboard} : kingsOnLongDiagonal kings = true ↔
    (∀ s, kings s = true → s.rank.val = s.file.val) ∨
      ∀ s, kings s = true → s.rank.val = 7 - s.file.val := by
  unfold kingsOnLongDiagonal
  simp only [Bool.or_eq_true, List.all_eq_true, Bitboard.mem_toList, decide_eq_true_eq]

/-- A symmetry keeps the long diagonals, or exchanges them. -/
theorem Symmetry.long_diagonals (g : Symmetry) :
    (∀ s : Square, ((g • s).rank.val = (g • s).file.val ↔ s.rank.val = s.file.val) ∧
      ((g • s).rank.val = 7 - (g • s).file.val ↔ s.rank.val = 7 - s.file.val)) ∨
    ∀ s : Square, ((g • s).rank.val = (g • s).file.val ↔ s.rank.val = 7 - s.file.val) ∧
      ((g • s).rank.val = 7 - (g • s).file.val ↔ s.rank.val = s.file.val) := by
  obtain ⟨a, f, x⟩ := g
  simp only [Symmetry.smul_def, Symmetry.apply]
  by_cases h : a = f
  · left
    rintro ⟨⟨r, hr⟩, ⟨c, hc⟩⟩
    subst h
    cases a <;> cases x <;>
      simp only [if_true, if_false, Bool.false_eq_true, Fin.val_rev, true_and] <;> omega
  · right
    rintro ⟨⟨r, hr⟩, ⟨c, hc⟩⟩
    cases a <;> cases f <;> cases x <;>
      first
        | exact absurd rfl h
        | (simp only [if_true, if_false, Bool.false_eq_true, Fin.val_rev] <;> omega)

/-- Symmetries keep kings on the long diagonals. -/
theorem kingsOnLongDiagonal_board (g : Transform) (b : Board) :
    kingsOnLongDiagonal ((g.board b).byRole .king) = kingsOnLongDiagonal (b.byRole .king) := by
  have hking : ∀ s, ((g.board b).byRole .king) (g.symmetry • s) = true
      ↔ (b.byRole .king) s = true := by
    intro s
    rw [Board.byRole_apply, Board.byRole_apply]
    constructor
    · rintro ⟨pc, hpc, hr⟩
      rw [Transform.board_smul, Option.map_eq_some_iff] at hpc
      obtain ⟨pc, hpc, rfl⟩ := hpc
      exact ⟨pc, hpc, by rwa [Transform.piece_role] at hr⟩
    · rintro ⟨pc, hpc, hr⟩
      exact ⟨g.piece pc, g.board_eq_some.mpr hpc, by rw [Transform.piece_role, hr]⟩
  have hall : ∀ P : Square → Prop, (∀ s, ((g.board b).byRole .king) s = true → P s) ↔
      ∀ s, (b.byRole .king) s = true → P (g.symmetry • s) := by
    intro P
    rw [(MulAction.surjective g.symmetry).forall]
    simp only [hking]
  rw [Bool.eq_iff_iff, kingsOnLongDiagonal_iff, kingsOnLongDiagonal_iff, hall, hall]
  rcases g.symmetry.long_diagonals with h | h
  · simp only [h]
  · simp only [h]
    exact or_comm

/-- Canonical kings on a long diagonal stand on the a1-h8 diagonal. -/
theorem bothKingsOnDiagonal_iff {M : Material} {b : Board} {ep : Option File}
    (h : CanonicalSetup M b ep) (hp : M.nPawns = 0) :
    bothKingsOnDiagonal (whiteSetup b ep) = true ↔ KingsDiagonal b := by
  have hking : ∀ s, (b.byRole .king) s = true ↔ ∃ c, b s = some ⟨c, .king⟩ := by
    intro s
    rw [Board.byRole_apply]
    constructor
    · rintro ⟨⟨c, r⟩, hpc, rfl⟩
      exact ⟨c, hpc⟩
    · rintro ⟨c, hc⟩
      exact ⟨_, hc, rfl⟩
  show kingsOnLongDiagonal (b.byRole .king) = true ↔ _
  rw [kingsOnLongDiagonal_iff]
  simp only [hking]
  constructor
  · rintro (hd | hd) c s hs
    · exact Fin.ext (hd s ⟨c, hs⟩)
    · -- A canonical king of White stands in the quadrant a1-d4.
      exfalso
      obtain ⟨kw, hw⟩ := h.white.exists_king .white
      obtain ⟨kb, hb⟩ := h.white.exists_king .black
      have hw := (hw kw).mpr rfl
      have hcan := ((h.kings kw kb hw ((hb kb).mpr rfl)).1 hp).1
      have := hd kw ⟨_, hw⟩
      have := hcan.1
      have := hcan.2.1
      omega
  · exact fun hd => Or.inl fun s ⟨c, hs⟩ => congrArg Fin.val (hd c s hs)

/-! ### Indices in the twin table -/

/-- A position with the material of the twin is oriented for the twin table. -/
theorem HasMaterial.oriented_partnerTable {M : Material} {r : Chess} (h : HasMaterial M.twin r) :
    HasMaterial M.partnerTable (ChessEgt.oriented M.partnerTable M.reflectsTwin r) := by
  unfold Material.partnerTable Material.reflectsTwin
  exact h.oriented_canonical

section

variable [Shakmaty]

/-- The index of a position of Black in the twin table. -/
def Material.twinIndex (M : Material) (r : Chess) : Run ℕ :=
  M.partnerTable.indexer.positionToIndexImpl M.reflectsTwin r

variable [LawfulShakmaty] {M : Material} {i j : ℕ} {b b' : Board} {ep ep' : Option File}
  {r : Chess}

/-- Positions of Black with the material of the twin have an index there. -/
theorem exists_twinIndex (hM : M.nPieces ≤ maxPieces) (hr : Accepted r) (hturn : r.turn = .black)
    (h : HasMaterial M.twin r) : ∃ k b ep s, M.twinIndex r = .ok k ∧
      Indexes M.partnerTable k b ep ∧ s ∈ M.partnerTable.views M.reflectsTwin b ∧
        r = view s (whiteSetup b ep) := by
  have hM' : M.partnerTable.nPieces ≤ maxPieces := by rwa [Material.nPieces_partnerTable]
  exact exists_view hM' hr hturn h.oriented_partnerTable

/-- The positions with an index of the twin table are the views of its position. -/
theorem twinIndex_eq_iff (hM : M.nPieces ≤ maxPieces) (hi : Indexes M.partnerTable i b ep)
    (hr : Accepted r) (hturn : r.turn = .black) (h : HasMaterial M.twin r) :
    M.twinIndex r = .ok i ↔
      ∃ s ∈ M.partnerTable.views M.reflectsTwin b, r = view s (whiteSetup b ep) := by
  have hM' : M.partnerTable.nPieces ≤ maxPieces := by rwa [Material.nPieces_partnerTable]
  exact positionToIndexImpl_eq_iff hM' hi hr hturn h.oriented_partnerTable

omit [Shakmaty] [LawfulShakmaty] in
theorem Indexes.hasMaterial (h : Indexes M i b ep) : HasMaterial M (whiteSetup b ep) :=
  h.canonical.white.material.congr rfl rfl

omit [Shakmaty] [LawfulShakmaty] in
/-- Views of a setup are accepted if it is. -/
theorem Indexes.accepted_view_iff {mirrored : Bool} {s : Symmetry} (h : Indexes M i b ep)
    (hs : s ∈ M.views mirrored b) :
    Accepted (view s (whiteSetup b ep)) ↔ Accepted (whiteSetup b ep) :=
  Accepted.setup_iff (p := whiteSetup b ep) (Material.fits_of_mem_views h.hasMaterial hs)

/-! ### The predecessors of an index -/

/-- Valid indices decode to their position without a check. -/
theorem Indexes.positionFromIndexUnchecked_eq (h : Indexes M j b ep)
    (ha : Accepted (whiteSetup b ep)) :
    M.table.positionFromIndexUnchecked j .white = .ok (whiteSetup b ep) := by
  show M.indexer.positionFromIndexUnchecked j .white = _
  unfold Indexer.positionFromIndexUnchecked
  rw [Run.ensure_eq h.lt, Run.ok_bind, h.setup .white, setupOf_white, Run.ok_bind,
    LawfulShakmaty.fromSetupUnchecked_eq _ rfl ha.valid.epStructure]
  rfl

omit [Shakmaty] [LawfulShakmaty] in
theorem pawns_isEmpty_iff {p : Chess} (h : HasMaterial M p) :
    p.board.pawns.isEmpty = true ↔ M.nPawns = 0 := by
  rw [← h.pawnless_iff, Bitboard.isEmpty_iff]
  constructor
  · intro hnone s pc hs hr
    have hs' : p.board.pawns s = true := Board.byRole_apply.mpr ⟨pc, hs, hr⟩
    rw [hnone s] at hs'
    cases hs'
  · intro hnone s
    rw [← Bool.not_eq_true]
    intro hs
    obtain ⟨pc, hpc, hr⟩ := Board.byRole_apply.mp hs
    exact hnone s pc hpc hr

/-- What is emitted for a predecessor: its index, and the diagonal partner of the index for
    sources without pawns whose kings are not both on a long diagonal. -/
def emittedAt (M : Material) (s : Chess) (k : ℕ) (o : Option ℕ) : List ℕ :=
  if M.nPawns = 0 ∧ bothKingsOnDiagonal s = false then k :: o.toList else [k]

omit [Shakmaty] [LawfulShakmaty] in
/-- What follows a choice follows both of its branches. -/
theorem Run.ite_bind {α β : Type} (c : Bool) (x y : Run α) (f : α → Run β) :
    (if c = true then x >>= f else y >>= f) = (if c = true then x else y) >>= f := by
  cases c <;> rfl

/-- **The predecessors** that are emitted from an index are those of its position. -/
theorem quietUnmoves_table (hM : M.nPieces ≤ maxPieces) (h : Indexes M j b ep)
    (ha : Accepted (whiteSetup b ep)) : ∃ (l : List Chess) (index : Chess → ℕ)
      (other : Chess → Option ℕ), l.Nodup ∧
      (∀ r, r ∈ l ↔ Accepted r ∧ QuietLink r (whiteSetup b ep)) ∧
      (∀ r ∈ l, M.twinIndex r = .ok (index r) ∧
        M.partnerTable.indexer.diagonalSymmetric (index r) = .ok (other r)) ∧
      quietUnmoves M.table M.partnerTable.table j M.reflectsTwin
        = .ok (l.flatMap fun r => emittedAt M (whiteSetup b ep) (index r) (other r)) := by
  have hM' : M.partnerTable.nPieces ≤ maxPieces := by rwa [Material.nPieces_partnerTable]
  have hempty := pawns_isEmpty_iff h.hasMaterial
  have hpawnless : M.table.isPawnless = decide (M.nPawns = 0) := rfl
  have htwin : M.partnerTable.table.isPawnless = decide (M.nPawns = 0) := by
    rw [← Material.nPawns_partnerTable]
    rfl
  -- The positions one quiet move before.
  obtain ⟨l, hl, hnodup, hmem⟩ : ∃ l, (if M.table.isPawnless then pawnlessQuietUnmoves
      (whiteSetup b ep) else pawnfulQuietUnmoves (whiteSetup b ep)) = .ok l ∧ l.Nodup ∧
      ∀ r, r ∈ l ↔ Accepted r ∧ QuietLink r (whiteSetup b ep) := by
    unfold QuietLink
    rw [hpawnless, ← ha.normalize_eq]
    by_cases hp : M.nPawns = 0
    · rw [decide_eq_true hp, if_pos rfl, ha.normalize_eq]
      obtain ⟨l, hl, hnodup, hmem⟩ := pawnlessQuietUnmoves_eq ha.valid (hempty.mpr hp)
      rw [ha.normalize_eq] at hmem
      exact ⟨l, hl, hnodup, hmem⟩
    · rw [decide_eq_false hp, if_neg Bool.false_ne_true, ha.normalize_eq]
      have hne : (whiteSetup b ep).board.pawns.isEmpty = false := by
        rw [← Bool.not_eq_true, hempty]
        exact hp
      obtain ⟨l, hl, hnodup, hmem⟩ := pawnfulQuietUnmoves_eq ha.valid hne
      rw [ha.normalize_eq] at hmem
      exact ⟨l, hl, hnodup, hmem⟩
  -- Their indices, and the partners of these.
  have hindex : ∀ r, ∃ k o, r ∈ l → M.twinIndex r = .ok k ∧
      M.partnerTable.indexer.diagonalSymmetric k = .ok o := by
    intro r
    by_cases hr : r ∈ l
    · obtain ⟨hacc, hlink⟩ := (hmem r).mp hr
      have hturn : r.turn = .black := by
        have := hlink.turn
        cases hc : r.turn with
        | white => rw [hc] at this; cases this
        | black => rfl
      obtain ⟨k, b', ep', s, hk, hk', -, -⟩ :=
        exists_twinIndex hM hacc hturn (hlink.hasMaterial_of h.hasMaterial)
      obtain ⟨o, ho⟩ := hk'.exists_diagonalSymmetric hM'
      exact ⟨k, o, fun _ => ⟨hk, ho⟩⟩
    · exact ⟨0, none, fun h => absurd h hr⟩
  choose index other hspec using hindex
  refine ⟨l, index, other, hnodup, hmem, hspec, ?_⟩
  have hrefl : ∀ r, (if M.reflectsTwin then M.partnerTable.table.reflectedPositionToIndex r
      else M.partnerTable.table.positionToIndex r) = M.twinIndex r := by
    intro r
    unfold Material.twinIndex Egt.reflectedPositionToIndex Egt.positionToIndex
      Indexer.reflectedPositionToIndex Indexer.positionToIndex
    cases M.reflectsTwin with
    | true => exact if_pos rfl
    | false => exact if_neg Bool.false_ne_true
  have hmirrored : Run.ensure (.ok M.reflectsTwin = isMirrored M.table M.partnerTable.table)
      "assertion failed: mirrored == is_mirrored(table, twin)" = .ok () :=
    Run.ensure_eq (isMirrored_table hM).symm _
  unfold quietUnmoves
  rw [h.positionFromIndexUnchecked_eq ha, Run.ok_bind, hmirrored, Run.ok_bind]
  simp only [Run.ite_bind, hl, hrefl, Run.ok_bind]
  rw [List.flatMap_def, Run.mapM_eq_ok (g := fun r => emittedAt M (whiteSetup b ep) (index r)
    (other r))]
  · rfl
  intro r hr
  obtain ⟨hk, ho⟩ := hspec r hr
  have ho' : M.partnerTable.table.diagonalSymmetric (index r) = .ok (other r) := ho
  rw [hk, Run.ok_bind, ho', htwin]
  unfold emittedAt
  by_cases hp : M.nPawns = 0
  · cases hd : bothKingsOnDiagonal (whiteSetup b ep) with
    | true => simp [hp]
    | false =>
      simp only [hp, decide_true, Bool.not_false, Bool.and_self, if_true, Run.ok_bind, and_self]
      cases other r <;> rfl
  · simp [hp]

end

end ChessEgt
