import ChessEgt.Indexing.RoundTrip
import ChessEgt.Routing.Quiet
import ChessEgt.Routing.Selectors
import ChessEgt.Storage.Reader

/-!
# Routing of positions

* `exists_hasMaterial`, `HasMaterial.unique` — every valid position has one material;
* `positionTableName_eq` — a position is routed to the table of the canonical orientation of it;
* `positionToIndexImpl_setup` — symmetric positions have the same index;
* `routing_exact` — a routed position has an index in the table that it is routed to.
-/

namespace ChessEgt

open Rules Indexer

section

variable {M : Material} {p q : Chess}

/-- A position has as many pieces as its material. -/
theorem HasMaterial.count_occupied (h : HasMaterial M p) (hv : Valid p) :
    p.board.occupied.count = M.nPieces := by
  have hwhite := (WhiteBoard.of_oriented hv h.oriented).count_occupied
  rwa [Transform.setup_board, Transform.count_occupied] at hwhite

/-- Names look at the counts of the pieces other than pawns only. -/
theorem formatName_congr (key : PawnKey) {count count' : EgtSide → Role → ℕ}
    (h : ∀ side role, role ≠ .pawn → count side role = count' side role) :
    formatName key count = formatName key count' := by
  have hside : ∀ side, sideName key count side = sideName key count' side := by
    intro side
    unfold sideName
    congr 1
    refine List.flatMap_congr fun role hrole => ?_
    rw [h side role (by simpa using (List.mem_filter.mp hrole).2)]
  unfold formatName
  simp only [hside]

/-- **Routing.** A position is routed to the table of the canonical orientation of its material. -/
theorem positionTableName_eq (hv : Valid p) (hM : M.nPieces ≤ maxPieces) (h : HasMaterial M p) :
    positionTableName p = .ok (M.canonical.name, decide (¬ M.Canonical)) := by
  have hcount : ∀ side role, role ≠ .pawn →
      ((p.board.byRole role).inter (p.board.byColor (side.color p.turn))).count
        = M.canonical.count side role := by
    intro side role hrole
    rw [Board.byRole_inter_byColor, h.count side role hrole]
    by_cases hc : M.Canonical
    · rw [Material.canonical_eq hc]
    · rw [Material.canonical_of_not hc]
      rfl
  have hcanonical : M.canonical.nPieces ≤ maxPieces := by rwa [Material.nPieces_canonical]
  have hpieces : ¬ maxPieces < p.board.occupied.count := by
    rw [h.count_occupied hv]
    omega
  have hkey : PawnKey.fromPosition p = PawnKey.ofOrders M.words := by
    rw [PawnKey.fromPosition_eq]
    exact congrArg PawnKey.ofOrders (funext h.words)
  unfold positionTableName
  rw [hv.castling, hkey, PawnKey.canonicalized_ofOrders hM]
  simp only [List.isEmpty_nil, Bool.not_true, Bool.false_eq_true, if_false, hpieces]
  rw [Run.ok_bind, formatName_congr _ hcount, formatName_eq hcanonical]
  rfl

/-! ### The material of a position -/

theorem length_pawnsOn_le (hv : Valid p) (f : File) : (pawnsOn p f).length ≤ 6 := by
  have hnodup : ((pawnsOn p f).map Square.rank).Nodup := by
    have hasc : Ascending p.turn (pawnsOn p f) := ascending_pawnsOn
    refine List.pairwise_map.mpr (List.Pairwise.imp (fun {s t} hlt heq => ?_) hasc)
    rw [heq] at hlt
    exact lt_irrefl _ hlt
  have hsub : ((pawnsOn p f).map Square.rank).toFinset
      ⊆ Finset.univ.filter fun r : Rank => r ≠ 0 ∧ r ≠ 7 := by
    intro r hr
    obtain ⟨s, hs, rfl⟩ := List.mem_map.mp (List.mem_toFinset.mp hr)
    obtain ⟨⟨c, hc⟩, -⟩ := mem_pawnsOn.mp hs
    exact Finset.mem_filter.mpr ⟨Finset.mem_univ _, hv.pawns s _ hc rfl⟩
  have hcard := Finset.card_le_card hsub
  rw [List.toFinset_card_of_nodup hnodup, List.length_map] at hcard
  exact hcard

theorem count_king_of_valid (hv : Valid p) (c : Color) :
    (p.board.byPiece ⟨c, .king⟩).count = 1 := by
  obtain ⟨k, hk⟩ := hv.kings c
  have hperm : (p.board.byPiece ⟨c, .king⟩).toList.Perm [k] := by
    refine (List.perm_ext_iff_of_nodup (Bitboard.nodup_toList _) (List.nodup_singleton k)).mpr
      fun s => ?_
    rw [Bitboard.mem_toList, Board.byPiece_apply, decide_eq_true_eq, hk, List.mem_singleton]
  exact hperm.length_eq

/-- Every valid position has a material. -/
theorem exists_hasMaterial (hv : Valid p) : ∃ M, HasMaterial M p := by
  let M : Material :=
    { words := positionOrder p
      count := fun side r => if r = .pawn then 0
        else (p.board.byPiece ⟨side.color p.turn, r⟩).count
      words_le := fun f => by
        unfold positionOrder
        rw [List.length_map]
        exact length_pawnsOn_le hv f
      count_pawn := fun side => if_pos rfl
      count_king := fun side => by
        rw [if_neg (by decide)]
        exact count_king_of_valid hv _ }
  exact ⟨M, fun f => rfl, fun side r hr => (if_neg hr).symm⟩

/-- Positions with one material have the same material. -/
theorem HasMaterial.unique {M' : Material} (h : HasMaterial M p) (h' : HasMaterial M' p) : M = M' := by
  refine Material.ext (funext fun f => (h.words f).symm.trans (h'.words f))
    (funext fun side => funext fun r => ?_)
  by_cases hr : r = .pawn
  · rw [hr, M.count_pawn, M'.count_pawn]
  · exact (h.count side r hr).symm.trans (h'.count side r hr)

/-- Materials without pawns have one orientation only. -/
theorem Material.canonical_of_pawnless (hp : M.nPawns = 0) : M.Canonical := by
  have hnil : ∀ f, M.words f = [] := by
    intro f
    have hzero : (M.words f).length = 0 :=
      List.sum_eq_zero_iff.mp hp _ (List.mem_map_of_mem (List.mem_finRange f))
    exact List.length_eq_zero_iff.mp hzero
  have hmirror : M.mirrored = M := Material.ext (funext fun f => (hnil f.rev).trans (hnil f).symm) rfl
  unfold Material.Canonical
  rw [orientation_eq_of_mirrored hmirror]
  decide

/-- A position is oriented for the canonical orientation of its material. -/
theorem HasMaterial.oriented_canonical (h : HasMaterial M p) :
    HasMaterial M.canonical (ChessEgt.oriented M.canonical (decide (¬ M.Canonical)) p) := by
  by_cases hc : M.Canonical
  · rw [decide_eq_false (not_not.mpr hc), Material.canonical_eq hc]
    exact h.oriented
  · -- Only materials with pawns have a side to be reflected to.
    have hp : 0 < M.nPawns := by
      by_contra hz
      exact hc (Material.canonical_of_pawnless (by omega))
    have hp' : 0 < M.mirrored.nPawns := by rwa [Material.nPawns_mirrored]
    unfold ChessEgt.oriented
    rw [decide_eq_true hc, Material.canonical_of_not hc, decide_eq_true hp']
    exact h.setup_mirrored (orient.keepsPawns true p.turn) (orient.flipFiles true true p.turn)

end

/-! ### Indices of symmetric positions -/

/-- Flips before a reduction are undone by it. -/
theorem reducer_flips {f : Symmetry} (hf : f.swapAxes = false) (k₀ k₁ : Square) :
    reducer (f • k₀) (f • k₁) * f = reducer k₀ k₁ := by
  have hquadrant : quadrantFlips (f • k₀) * f = quadrantFlips k₀ := by
    obtain ⟨a, b, x⟩ := f
    obtain rfl : x = false := hf
    obtain ⟨⟨r, hr⟩, ⟨c, hc⟩⟩ := k₀
    refine Symmetry.ext ?_ ?_ rfl
    · cases a with
      | false => exact Bool.false_xor _
      | true =>
        show (true ^^ decide (3 < ((⟨r, hr⟩ : Rank).rev).val)) = decide (3 < r)
        rw [Fin.val_rev, Bool.true_xor, ← decide_not]
        exact decide_eq_decide.mpr (by simp only; omega)
    · cases b with
      | false => exact Bool.false_xor _
      | true =>
        show (true ^^ decide (3 < ((⟨c, hc⟩ : File).rev).val)) = decide (3 < c)
        rw [Fin.val_rev, Bool.true_xor, ← decide_not]
        exact decide_eq_decide.mpr (by simp only; omega)
  have hsmul : ∀ k : Square, quadrantFlips (f • k₀) • f • k = quadrantFlips k₀ • k := by
    intro k
    rw [← mul_smul, hquadrant]
  have hranks := congrArg Symmetry.flipRanks hquadrant
  have hfiles := congrArg Symmetry.flipFiles hquadrant
  unfold reducer
  simp only [hsmul]
  obtain ⟨a, b, x⟩ := f
  obtain rfl : x = false := hf
  exact Symmetry.ext hranks hfiles rfl

section

variable {M : Material} {p : Chess} {t : Transform} {r r' : Bool}

theorem orient_swapAxes (r pawnful : Bool) (turn : Color) :
    (orient r pawnful turn).symmetry.swapAxes = false := by
  cases r <;> cases pawnful <;> cases turn <;> decide

/-- Flips and exchanges of the colors do not change how a position without pawns is encoded. -/
theorem EncodedBy.eq_mul (hp : M.nPawns = 0) {g g' : Transform} (hswap : t.symmetry.swapAxes = false)
    (hv : Valid p) (h : HasMaterial M (oriented M r p)) (hg : EncodedBy M r p g)
    (hg' : EncodedBy M r' (t.setup p) g') : g' * t = g := by
  have hwhite := WhiteBoard.of_oriented hv h
  unfold EncodedBy at hg hg'
  rw [if_neg (by omega)] at hg hg'
  obtain ⟨kw, kb, hw, hb, rfl⟩ := hg
  obtain ⟨kw', kb', hw', hb', rfl⟩ := hg'
  have hneg : decide (0 < M.nPawns) = false := decide_eq_false (by omega)
  unfold oriented at hw hb hw' hb' hwhite
  rw [hneg] at hw hb hw' hb' hwhite
  -- The flips from one orientation to the other.
  let o := orient r false p.turn
  let o' := orient r' false (t.setup p).turn
  let f : Transform := o' * t * o.inv
  have hfo : f * o = o' * t := by
    show o' * t * o.inv * o = o' * t
    rw [mul_assoc, Transform.inv_mul_self, mul_one]
  have hboard : o'.board (t.setup p).board = f.board (o.setup p).board := by
    show o'.board (t.board p.board) = f.board (o.board p.board)
    rw [← Transform.mul_board, ← Transform.mul_board, hfo]
  have hcolor : f.color .white = .white := by
    have hself : o.color p.turn = .white := orient.color_self _ _ _
    have hself' : o'.color (t.color p.turn) = .white := orient.color_self _ _ _
    rw [← hself, ← Transform.mul_color, hfo, Transform.mul_color, hself', hself]
  have hflips : f.symmetry.swapAxes = false := by
    have ho := orient_swapAxes r false p.turn
    have ho' := orient_swapAxes r' false (t.setup p).turn
    show (o'.symmetry * t.symmetry * (o.symmetry)⁻¹).swapAxes = false
    have ho : o.symmetry.swapAxes = false := ho
    have ho' : o'.symmetry.swapAxes = false := ho'
    generalize o.symmetry = a at ho
    generalize o'.symmetry = c at ho'
    generalize t.symmetry = b at hswap
    revert a b c
    decide +kernel
  -- The kings of the flipped position.
  have hking : ∀ {c : Color} {k k' : Square}, (o.setup p).board k = some ⟨c, .king⟩ →
      (o'.setup (t.setup p)).board k' = some ⟨c, .king⟩ → k' = f.symmetry • k := by
    intro c k k' hk hk'
    obtain ⟨x, rfl⟩ := MulAction.surjective f.symmetry k'
    have hx : (o.setup p).board x = some ⟨c, .king⟩ := by
      have hk'' : f.board (o.setup p).board (f.symmetry • x) = some ⟨c, .king⟩ := by
        rw [← hboard]
        exact hk'
      rw [← f.board_eq_some, Transform.piece_mk]
      have hc : f.color c = c := by
        cases c with
        | white => exact hcolor
        | black => rw [show Color.black = Color.white.other from rfl, Transform.color_other, hcolor]
      rw [hc]
      exact hk''
    obtain ⟨k₀, hk₀⟩ := hwhite.exists_king c
    rw [(hk₀ k).mp hk, (hk₀ x).mp hx]
  obtain rfl := hking hw hw'
  obtain rfl := hking hb hb'
  have hreducer := reducer_flips hflips kw kb
  have hsplit : (⟨reducer (f.symmetry • kw) (f.symmetry • kb), false⟩ : Transform) * f
      = ⟨reducer kw kb, false⟩ := by
    refine Transform.ext hreducer ?_
    have hrecolor : f.recolor = false := Transform.recolor_of_color hcolor
    show (false ^^ f.recolor) = false
    rw [hrecolor]
    rfl
  show (⟨reducer (f.symmetry • kw) (f.symmetry • kb), false⟩ : Transform) * o' * t
    = ⟨reducer kw kb, false⟩ * o
  rw [mul_assoc, ← hfo, ← mul_assoc, hsplit]

variable [Shakmaty] [LawfulShakmaty]

/-- **Symmetric positions** have the same index, unless the axes are exchanged without pawns. -/
theorem positionToIndexImpl_setup (hM : M.nPieces ≤ maxPieces) (hv : Valid p) (ht : t.Fits p.board)
    (hswap : M.nPawns = 0 → t.symmetry.swapAxes = false) (h : HasMaterial M (oriented M r p))
    (h' : HasMaterial M (oriented M r' (t.setup p))) :
    M.indexer.positionToIndexImpl r' (t.setup p) = M.indexer.positionToIndexImpl r p := by
  have hv' := Transform.valid_setup ht hv
  obtain ⟨g, i, b, ep, hi, hc, henc⟩ := positionToIndexImpl_eq hM hv h
  obtain ⟨g', i', b', ep', hi', hc', henc'⟩ := positionToIndexImpl_eq hM hv' h'
  have hnormal := Transform.normalize_eq (p := p) ht
  rw [hi, hi', Except.ok.injEq]
  rcases Nat.eq_zero_or_pos M.nPawns with hp | hp
  · -- Both are brought to one setup.
    have hmul := EncodedBy.eq_mul hp (hswap hp) hv h henc henc'
    have hset := hc'.setup
    rw [hnormal, ← Transform.mul_setup, hmul, hc.setup] at hset
    obtain ⟨rfl, rfl⟩ := whiteSetup_injective hset
    exact hc'.indexes.eq_index hc.indexes
  · rcases hc.of_transform hc' ht hnormal with heq | ⟨hz, -⟩
    · exact heq.symm
    · omega

end

/-! ### Routing -/

/-- The mirror image of a position. -/
def mirrorFiles (p : Chess) : Chess := (⟨Symmetry.mirror, false⟩ : Transform).setup p

/-- The position from the other side: the ranks are mirrored, and the colors are exchanged. -/
def flipColors (p : Chess) : Chess := (⟨Symmetry.flip, true⟩ : Transform).setup p

theorem HasMaterial.mirrorFiles {M : Material} {p : Chess} (h : HasMaterial M p) :
    HasMaterial M.mirrored (mirrorFiles p) := h.setup_mirrored (by decide) rfl

theorem HasMaterial.flipColors {M : Material} {p : Chess} (h : HasMaterial M p) :
    HasMaterial M (flipColors p) := h.setup (by decide) rfl

/-- A reflected orientation is the orientation of the mirror image. -/
theorem oriented_mirrorFiles (M : Material) (p : Chess) :
    oriented M true p = oriented M false (mirrorFiles p) := by
  have hcomm : ∀ (pawnful : Bool) (turn : Color), orient true pawnful turn
      = orient false pawnful turn * (⟨Symmetry.mirror, false⟩ : Transform) := by
    intro pawnful turn
    cases pawnful <;> cases turn <;> decide
  unfold oriented mirrorFiles
  rw [hcomm, Transform.mul_setup]
  rfl

/-- White king on a1 and black king on c1, Black to move. -/
def loneKings : Chess where
  board s := if s = ⟨0, 0⟩ then some ⟨.white, .king⟩
    else if s = ⟨0, 2⟩ then some ⟨.black, .king⟩ else none
  turn := .black
  castlingRights := []
  epSquare := none

theorem loneKings_board {s : Square} {pc : Piece} : loneKings.board s = some pc ↔
    s = ⟨0, 0⟩ ∧ pc = ⟨.white, .king⟩ ∨ s = ⟨0, 2⟩ ∧ pc = ⟨.black, .king⟩ := by
  show (if s = ⟨0, 0⟩ then some (⟨.white, .king⟩ : Piece)
    else if s = ⟨0, 2⟩ then some ⟨.black, .king⟩ else none) = some pc ↔ _
  split
  · next h => simp [h, eq_comm]
  · next h =>
    split
    · next h' => simp [h', eq_comm]
    · next h' => simp [h, h']

theorem valid_loneKings : Valid loneKings where
  castling := rfl
  kings c := by
    cases c with
    | white => exact ⟨⟨0, 0⟩, fun s => by rw [loneKings_board]; simp⟩
    | black => exact ⟨⟨0, 2⟩, fun s => by rw [loneKings_board]; simp⟩
  pawns s pc h hr := by
    rcases loneKings_board.mp h with ⟨-, rfl⟩ | ⟨-, rfl⟩ <;> cases hr
  opposite := by decide +kernel
  epStructure := by decide +kernel

theorem fits_mirror (b : Board) : (⟨Symmetry.mirror, false⟩ : Transform).Fits b :=
  Or.inl (by decide)

theorem fits_flip (b : Board) : (⟨Symmetry.flip, true⟩ : Transform).Fits b := Or.inl (by decide)

/-- A position is oriented, or mirrored, to the canonical orientation of its material. -/
theorem HasMaterial.canonical_mirrorFiles {M : Material} {p : Chess} (h : HasMaterial M p) :
    HasMaterial M.canonical (if decide (¬ M.Canonical) then ChessEgt.mirrorFiles p else p) := by
  by_cases hc : M.Canonical
  · rw [Material.canonical_eq hc, decide_eq_false (not_not.mpr hc)]
    exact h
  · rw [Material.canonical_of_not hc, decide_eq_true hc]
    exact h.mirrorFiles

section

variable [Shakmaty] [LawfulShakmaty] {M : Material} {p : Chess} {r r' : Bool}

theorem exists_index (hM : M.nPieces ≤ maxPieces) (hv : Valid p)
    (h : HasMaterial M (oriented M r p)) :
    ∃ i, M.indexer.positionToIndexImpl r p = .ok i ∧ i < M.indexer.indexRange := by
  obtain ⟨g, i, b, ep, hi, hc, henc⟩ := positionToIndexImpl_eq hM hv h
  exact ⟨i, hi, hc.indexes.lt⟩

theorem positionToIndexImpl_mirrorFiles (hM : M.nPieces ≤ maxPieces) (hv : Valid p)
    (h : HasMaterial M (oriented M r p)) (h' : HasMaterial M (oriented M r' (mirrorFiles p))) :
    M.indexer.positionToIndexImpl r' (mirrorFiles p) = M.indexer.positionToIndexImpl r p := by
  apply positionToIndexImpl_setup hM hv (fits_mirror _) _ h h'
  intro _
  rfl

theorem positionToIndexImpl_flipColors (hM : M.nPieces ≤ maxPieces) (hv : Valid p)
    (h : HasMaterial M (oriented M r p)) (h' : HasMaterial M (oriented M r' (flipColors p))) :
    M.indexer.positionToIndexImpl r' (flipColors p) = M.indexer.positionToIndexImpl r p := by
  apply positionToIndexImpl_setup hM hv (fits_flip _) _ h h'
  intro _
  rfl

omit [LawfulShakmaty] in
/-- A reader maps a position routed to its table to the index there. -/
theorem mapRoutedPositionToIndex_eq {reader : EgtFileReader} {i : ℕ}
    (hindexer : reader.egt.indexer = M.indexer) (hrange : reader.indexRange = M.indexer.indexRange)
    (hi : M.indexer.positionToIndexImpl r p = .ok i) (hlt : i < M.indexer.indexRange) :
    reader.mapRoutedPositionToIndex p r = .ok i := by
  have hcheck : reader.checkIndex i = .ok () := by
    unfold EgtFileReader.checkIndex
    rw [if_neg (by rw [hrange]; exact not_le.mpr hlt)]
  unfold EgtFileReader.mapRoutedPositionToIndex Egt.reflectedPositionToIndex Egt.positionToIndex
  rw [hindexer]
  cases r with
  | false =>
    have hi : M.indexer.positionToIndex p = .ok i := hi
    simp only [Bool.false_eq_true, if_false]
    rw [hi, Run.ok_bind, hcheck]
    rfl
  | true =>
    have hi : M.indexer.reflectedPositionToIndex p = .ok i := hi
    simp only [if_true]
    rw [hi, Run.ok_bind, hcheck]
    rfl

/-- **Routing** goes to the table of the material of the position or of its mirror image, and gives an
index of it. The position seen from the other side and the mirror image are routed to the same
index, and the index read from a reflected position is that of the mirror image. -/
theorem routing_exact (hv : Valid p) (hcount : p.board.occupied.count ≤ maxPieces) :
    ∃ (M : Material) (reflected : Bool) (i : ℕ), M.nPieces = p.board.occupied.count ∧ M.Canonical ∧
      positionTableName p = .ok (M.name, reflected) ∧
      TableId.parse M.name = .ok ⟨M.name⟩ ∧ parseElements M.name = .ok M.elements ∧
      HasMaterial M (if reflected then mirrorFiles p else p) ∧ i < M.indexer.indexRange ∧
      (∀ reader : EgtFileReader, reader.egt.indexer = M.indexer →
        reader.indexRange = M.indexer.indexRange →
          reader.mapRoutedPositionToIndex p reflected = .ok i) ∧
      (positionTableName (flipColors p) = .ok (M.name, reflected) ∧
        M.indexer.positionToIndexImpl reflected (flipColors p) = .ok i) ∧
      (∃ reflected', positionTableName (mirrorFiles p) = .ok (M.name, reflected') ∧
        M.indexer.positionToIndexImpl reflected' (mirrorFiles p) = .ok i) ∧
      ∀ N : Material, N.nPieces ≤ maxPieces → HasMaterial N (mirrorFiles p) →
        N.indexer.reflectedPositionToIndex p = N.indexer.positionToIndex (mirrorFiles p) := by
  obtain ⟨M, h⟩ := exists_hasMaterial hv
  have hpieces := h.count_occupied hv
  have hM : M.nPieces ≤ maxPieces := by omega
  have hM' : M.canonical.nPieces ≤ maxPieces := by rwa [Material.nPieces_canonical]
  have hmirrored : M.mirrored.nPieces ≤ maxPieces := by rwa [Material.nPieces_mirrored]
  have hcanonical := Material.Canonical.canonical M
  have hname := positionTableName_eq hv hM h
  have horiented := h.oriented_canonical
  obtain ⟨i, hi, hlt⟩ := exists_index hM' hv horiented
  -- The position from the other side, and the mirror image.
  have hvFlip : Valid (flipColors p) := Transform.valid_setup (fits_flip _) hv
  have hvMirror : Valid (mirrorFiles p) := Transform.valid_setup (fits_mirror _) hv
  have hnameFlip := positionTableName_eq hvFlip hM h.flipColors
  have hflipped := h.flipColors.oriented_canonical
  have hnameMirror := positionTableName_eq hvMirror hmirrored h.mirrorFiles
  have hmirror := h.mirrorFiles.oriented_canonical
  rw [Material.canonical_mirrored] at hnameMirror hmirror
  refine ⟨M.canonical, decide (¬ M.Canonical), i, by rw [Material.nPieces_canonical, hpieces],
    hcanonical, hname, TableSelector.parse_name.mpr ⟨_, hM', hcanonical, rfl⟩, parseElements_name hM',
    h.canonical_mirrorFiles, hlt, ?_, ⟨hnameFlip, ?_⟩, ⟨_, hnameMirror, ?_⟩, ?_⟩
  · intro reader hindexer hrange
    exact mapRoutedPositionToIndex_eq hindexer hrange hi hlt
  · rw [positionToIndexImpl_flipColors hM' hv horiented hflipped, hi]
  · rw [positionToIndexImpl_mirrorFiles hM' hv horiented hmirror, hi]
  · intro N hN hmat
    have htrue : HasMaterial N (oriented N true p) := by
      rw [oriented_mirrorFiles]
      exact hmat.oriented
    exact (positionToIndexImpl_mirrorFiles hN hv htrue hmat.oriented).symm

end

theorem routing_exact_loneKings : ∃ (M : Material) (reflected : Bool) (i : ℕ), M.nPieces = 2 ∧
    positionTableName loneKings = .ok (M.name, reflected) ∧ i < M.indexer.indexRange ∧
    @Indexer.positionToIndexImpl M.indexer rulesShakmaty reflected (flipColors loneKings) = .ok i := by
  let _ := rulesShakmaty
  have := lawful_rulesShakmaty
  have hcount : loneKings.board.occupied.count = 2 := by decide +kernel
  obtain ⟨M, reflected, i, hpieces, -, hname, -, -, -, hlt, -, ⟨-, hflip⟩, -⟩ :=
    routing_exact valid_loneKings (by rw [hcount]; decide)
  exact ⟨M, reflected, i, hpieces.trans hcount, hname, hlt, hflip⟩

end ChessEgt
