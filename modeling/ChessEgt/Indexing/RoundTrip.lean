import ChessEgt.Chess.Concrete
import ChessEgt.Indexing.Orbits

/-!
# Encoding and decoding

* `Canonizes.of_transform` — positions in one orbit have one index, or the indices of partners;
* `Indexes.positionToIndex_setupOf` — encoding undoes decoding;
* `decoding_sound_and_undone`, `indices_up_to_symmetry` — the two directions for every accepted
  material list.
-/

namespace ChessEgt

open Rules Indexer

variable {M : Material} {p q : Chess} {g g' : Transform} {i j : ℕ} {b b' : Board}
  {ep ep' : Option File} {turn : Color}

/-! ### Color normalization -/

/-- The position from White's point of view: if Black is to move, the colors are exchanged, and
    with pawns also the ranks. En passant squares stay if they can be captured on. -/
def colorNormalized (pawnful : Bool) (p : Chess) : Chess :=
  (Transform.normal pawnful p.turn).setup (normalize p)

theorem orient_false (pawnful : Bool) (turn : Color) :
    orient false pawnful turn = Transform.normal pawnful turn := one_mul _

theorem orient_true (pawnful : Bool) (turn : Color) : orient true pawnful turn
    = (⟨Symmetry.mirror, false⟩ : Transform) * Transform.normal pawnful turn := rfl

theorem normal_mul_normal (pawnful : Bool) (turn : Color) :
    Transform.normal pawnful turn * Transform.normal pawnful turn = 1 := by
  cases pawnful <;> cases turn <;> decide

theorem orient_setup_normalize (pawnful : Bool) : (orient false pawnful p.turn).setup (normalize p)
    = colorNormalized pawnful p := by
  rw [orient_false]; rfl

theorem HasMaterial.oriented (h : HasMaterial M p) : HasMaterial M (oriented M false p) := by
  rcases Nat.eq_zero_or_pos M.nPawns with hp | hp
  · exact h.setup_pawnless _ hp
  · unfold ChessEgt.oriented
    rw [decide_eq_true hp]
    exact h.setup (orient.keepsPawns _ _) (orient.flipFiles _ _ _)

theorem HasMaterial.normal_fits (h : HasMaterial M p) :
    (Transform.normal (decide (0 < M.nPawns)) p.turn).Fits p.board := by
  have := orient_fits h.oriented
  rwa [orient_false] at this

theorem setupOf_eq (b : Board) (ep : Option File) (turn : Color) : setupOf M b ep turn
    = (Transform.normal (decide (0 < M.nPawns)) turn).setup (whiteSetup b ep) := rfl

/-! ### Positions in one orbit -/

namespace Canonizes

theorem board_eq (h : Canonizes M g p i b ep) : b = g.board p.board :=
  (congrArg Setup.board h.setup).symm

/-- Positions with one index are images of each other. -/
theorem eq_of_index (h : Canonizes M g p i b ep) (h' : Canonizes M g' q i b' ep') :
    g.setup (normalize p) = g'.setup (normalize q) := by
  obtain ⟨rfl, rfl⟩ := h.indexes.eq_setup h'.indexes
  rw [h.setup, h'.setup]

/-- **Positions in one orbit** have one index, or the boards of diagonal partners. -/
theorem of_transform (h : Canonizes M g p i b ep) (h' : Canonizes M g' q j b' ep')
    {k : Transform} (hk : k.Fits p.board) (he : normalize q = k.setup (normalize p)) :
    i = j ∨ (M.nPawns = 0 ∧ KingsDiagonal b ∧ b' = Transform.diagonal.board b) := by
  have hb := h.board_eq
  have hsetup : (g' * (k * g.inv)).setup (whiteSetup b ep) = whiteSetup b' ep' := by
    rw [Transform.mul_setup, Transform.mul_setup, ← h.setup, Transform.inv_setup, ← he, h'.setup]
  have hboard : (g' * (k * g.inv)).board b = b' := congrArg Setup.board hsetup
  have hcolor : (g' * (k * g.inv)).color .white = .white := congrArg Setup.turn hsetup
  have hinv : g.inv.board b = p.board := by rw [hb, Transform.inv_board]
  have hfits : (g' * (k * g.inv)).Fits b := by
    refine Transform.Fits.mul ?_ (Transform.Fits.mul ?_ ?_)
    · have hq : q.board = k.board p.board := congrArg Setup.board he
      rw [Transform.mul_board, hinv, ← hq]
      exact h'.fits
    · rw [hinv]; exact hk
    · rw [hb]; exact h.fits.inv
  have hcan := h'.indexes.canonical
  rw [← hboard] at hcan
  rcases h.indexes.canonical.transform_eq hcan hfits (Transform.recolor_of_color hcolor) with
    hone | ⟨hp, hdiag, hd⟩
  · left
    rw [hone, Transform.one_setup] at hsetup
    obtain ⟨rfl, rfl⟩ := whiteSetup_injective hsetup
    exact h.indexes.eq_index h'.indexes
  · right
    rw [hdiag] at hboard
    exact ⟨hp, hd, hboard.symm⟩

end Canonizes

/-! ### Indices and orbits -/

/-- The decoded setup is the normalized position under the transform back to its side to move. -/
theorem Canonizes.setupOf_eq (h : Canonizes M g p i b ep) : setupOf M b ep p.turn
    = (Transform.normal (decide (0 < M.nPawns)) p.turn * g).setup (normalize p) := by
  rw [Transform.mul_setup, h.setup]; rfl

theorem Canonizes.accepted (h : Canonizes M g p i b ep) (hv : Valid p) :
    Accepted (setupOf M b ep turn) := by
  rw [h.indexes.canonical.accepted_setupOf, ← h.setup]
  exact (accepted_normalize hv).setup h.fits

/-- Positions of the table that agree up to a symmetry after color normalization are images of
    each other. -/
theorem normalize_eq_of_colorNormalized (hp : HasMaterial M p) (hq : HasMaterial M q)
    {s : Symmetry} (hs : (⟨s, false⟩ : Transform).Fits
      (colorNormalized (decide (0 < M.nPawns)) p).board)
    (h : colorNormalized (decide (0 < M.nPawns)) q
      = (⟨s, false⟩ : Transform).setup (colorNormalized (decide (0 < M.nPawns)) p)) :
    ∃ k : Transform, k.Fits p.board ∧ normalize q = k.setup (normalize p) := by
  refine ⟨(Transform.normal (decide (0 < M.nPawns)) q.turn) *
    ((⟨s, false⟩ : Transform) * Transform.normal (decide (0 < M.nPawns)) p.turn), ?_, ?_⟩
  · have hb : (colorNormalized (decide (0 < M.nPawns)) q).board
        = ((⟨s, false⟩ : Transform) * Transform.normal (decide (0 < M.nPawns)) p.turn).board
          p.board := by
      rw [h, Transform.mul_board]; rfl
    refine Transform.Fits.mul ?_ (hs.mul hp.normal_fits)
    rw [← hb]
    have := (hq.normal_fits).inv
    rwa [Transform.normal_inv] at this
  · have := congrArg (Transform.normal (decide (0 < M.nPawns)) q.turn).setup h
    rw [colorNormalized, ← Transform.mul_setup, normal_mul_normal, Transform.one_setup] at this
    rw [this, Transform.mul_setup, Transform.mul_setup]
    rfl

/-- Asymmetric tables with pawns: the indices of color-normalized positions. -/
theorem eq_iff_of_asymmetric (hn : 0 < M.nPawns) (hs : ¬ M.Symmetric)
    (hp : HasMaterial M p) (hq : HasMaterial M q) (h : Canonizes M g p i b ep)
    (hg : EncodedBy M false p g) (h' : Canonizes M g' q j b' ep') (hg' : EncodedBy M false q g') :
    i = j ↔ colorNormalized true p = colorNormalized true q := by
  unfold EncodedBy at hg hg'
  rw [if_pos hn, if_neg hs] at hg hg'
  subst hg hg'
  constructor
  · rintro rfl
    rw [← orient_setup_normalize, ← orient_setup_normalize]
    exact h.eq_of_index h'
  · intro he
    have hpos := decide_eq_true hn
    obtain ⟨k, hk, hkq⟩ := normalize_eq_of_colorNormalized hp hq (s := 1)
      (Or.inl (show (1 : Transform).KeepsPawns by decide))
      (by rw [hpos, ← he]; exact (Transform.one_setup _).symm)
    rcases h.of_transform h' hk hkq with hij | ⟨hz, -⟩
    · exact hij
    · omega

/-- Symmetric tables: the indices of color-normalized positions up to a reflection. -/
theorem eq_iff_of_symmetric (hs : M.Symmetric)
    (hp : HasMaterial M p) (hq : HasMaterial M q) (h : Canonizes M g p i b ep)
    (hg : EncodedBy M false p g) (h' : Canonizes M g' q j b' ep') (hg' : EncodedBy M false q g') :
    i = j ↔ colorNormalized true q = colorNormalized true p ∨
      colorNormalized true q
        = (⟨Symmetry.mirror, false⟩ : Transform).setup (colorNormalized true p) := by
  unfold EncodedBy at hg hg'
  rw [if_pos hs.1, if_pos hs] at hg hg'
  obtain ⟨r, rfl⟩ := hg
  obtain ⟨r', rfl⟩ := hg'
  have horient : ∀ (r : Bool) (p : Chess), (orient r true p.turn).setup (normalize p)
      = if r then (⟨Symmetry.mirror, false⟩ : Transform).setup (colorNormalized true p)
        else colorNormalized true p := by
    intro r p
    cases r with
    | false => exact orient_setup_normalize true
    | true => rw [orient_true, Transform.mul_setup]; rfl
  have hinv : ∀ p : Chess, (⟨Symmetry.mirror, false⟩ : Transform).setup
      ((⟨Symmetry.mirror, false⟩ : Transform).setup p) = p := by
    intro p
    have hmm : (⟨Symmetry.mirror, false⟩ : Transform) * ⟨Symmetry.mirror, false⟩ = 1 := by decide
    rw [← Transform.mul_setup, hmm, Transform.one_setup]
  constructor
  · rintro rfl
    have he := h.eq_of_index h'
    rw [horient, horient] at he
    cases r <;> cases r' <;> simp only [if_true, if_false, Bool.false_eq_true] at he
    · exact Or.inl he.symm
    · right; rw [he, hinv]
    · exact Or.inr he.symm
    · exact Or.inl (Transform.setup_injective _ he.symm)
  · intro he
    have hpos := decide_eq_true hs.1
    have hkq : ∃ k : Transform, k.Fits p.board ∧ normalize q = k.setup (normalize p) := by
      rcases he with he | he
      · exact normalize_eq_of_colorNormalized hp hq (s := 1)
          (Or.inl (show (1 : Transform).KeepsPawns by decide))
          (by rw [hpos, he]; exact (Transform.one_setup _).symm)
      · exact normalize_eq_of_colorNormalized hp hq (s := Symmetry.mirror)
          (Or.inl (by decide)) (by rw [hpos]; exact he)
    obtain ⟨k, hk, hkq⟩ := hkq
    rcases h.of_transform h' hk hkq with hij | ⟨hz, -⟩
    · exact hij
    · have := hs.1
      omega

/-- Tables without pawns: images of a position have its index or that of the partner. -/
theorem image_iff_of_pawnless (hM : M.nPieces ≤ maxPieces) (hn : M.nPawns = 0)
    (hp : HasMaterial M p) (hq : HasMaterial M q) (h : Canonizes M g p i b ep)
    (hg : EncodedBy M false p g) (h' : Canonizes M g' q j b' ep') (hg' : EncodedBy M false q g') :
    (∃ s : Symmetry, colorNormalized false q
      = (⟨s, false⟩ : Transform).setup (colorNormalized false p)) ↔
      j = i ∨ M.indexer.diagonalSymmetric i = .ok (some j) := by
  have hneg : decide (0 < M.nPawns) = false := decide_eq_false (by omega)
  have hpl : Transform.Pawnless p.board := hp.pawnless_iff.mpr hn
  have hep := h.indexes.ep_eq_none hn
  have hep' := h'.indexes.ep_eq_none hn
  subst hep hep'
  constructor
  · rintro ⟨s, hs⟩
    obtain ⟨k, hk, hkq⟩ := normalize_eq_of_colorNormalized hp hq (s := s)
      (by rw [hneg]; exact Or.inr (Transform.pawnless_board _ hpl)) (by rw [hneg]; exact hs)
    rcases h.of_transform h' hk hkq with hij | ⟨-, hd, rfl⟩
    · exact Or.inl hij.symm
    · right
      obtain ⟨k, hk, hkd⟩ := h.indexes.diagonalSymmetric_some hM hn hd
      rw [hk, hkd.eq_index h'.indexes]
  · -- Both positions are brought to one board by the symmetries that encode them.
    unfold EncodedBy at hg hg'
    rw [if_neg (by omega)] at hg hg'
    obtain ⟨kw, kb, -, -, rfl⟩ := hg
    obtain ⟨kw', kb', -, -, rfl⟩ := hg'
    have hset := h.setup
    have hset' := h'.setup
    rw [Transform.mul_setup, orient_setup_normalize] at hset hset'
    have himage : ∀ d : Symmetry, b' = (⟨d, false⟩ : Transform).board b →
        ∃ s : Symmetry, colorNormalized false q
          = (⟨s, false⟩ : Transform).setup (colorNormalized false p) := by
      rintro d rfl
      refine ⟨(reducer kw' kb')⁻¹ * (d * reducer kw kb), ?_⟩
      have hsplit : (⟨(reducer kw' kb')⁻¹ * (d * reducer kw kb), false⟩ : Transform)
          = (⟨reducer kw' kb', false⟩ : Transform).inv * (⟨d, false⟩ * ⟨reducer kw kb, false⟩) := rfl
      have hwhite : (⟨d, false⟩ : Transform).setup (whiteSetup b none)
          = whiteSetup ((⟨d, false⟩ : Transform).board b) none := rfl
      rw [hsplit, Transform.mul_setup, Transform.mul_setup, hset, hwhite, ← hset',
        Transform.inv_setup]
    rintro (rfl | hd)
    · obtain ⟨rfl, -⟩ := h.indexes.eq_setup h'.indexes
      exact himage 1 (Transform.one_board _).symm
    · have hdiag : KingsDiagonal b := by
        by_contra hnd
        rw [h.indexes.diagonalSymmetric_none hM hn hnd] at hd
        simp at hd
      obtain ⟨k, hk, hkd⟩ := h.indexes.diagonalSymmetric_some hM hn hdiag
      rw [hk] at hd
      obtain rfl : k = j := Option.some.inj (Except.ok.inj hd)
      obtain ⟨rfl, -⟩ := hkd.eq_setup h'.indexes
      exact himage Symmetry.diagonal rfl

theorem kingsDiagonal_setupOf (hn : M.nPawns = 0) (turn : Color) :
    KingsDiagonal (setupOf M b ep turn).board ↔ KingsDiagonal b := by
  have hneg : decide (0 < M.nPawns) = false := decide_eq_false (by omega)
  have hsymm : (Transform.normal false turn).symmetry = 1 := by cases turn <;> rfl
  have hpiece : ∀ c s, (setupOf M b ep turn).board s
      = some ⟨(Transform.normal false turn).color c, .king⟩ ↔ b s = some ⟨c, .king⟩ := by
    intro c s
    have := (Transform.normal false turn).board_eq_some (b := b) (s := s) (x := ⟨c, .king⟩)
    rw [hsymm, one_smul] at this
    rw [setupOf, hneg]
    exact this
  constructor
  · exact fun h c s hs => h _ s ((hpiece c s).mpr hs)
  · intro h c s hs
    obtain ⟨c, rfl⟩ : ∃ c', (Transform.normal false turn).color c' = c :=
      ⟨(Transform.normal false turn).inv.color c, by
        have := (Transform.normal false turn).inv.inv_color c
        rwa [Transform.inv_inv] at this⟩
    exact h c s ((hpiece c s).mp hs)

theorem setupOf_diagonal (hn : M.nPawns = 0) (turn : Color) :
    setupOf M (Transform.diagonal.board b) none turn
      = Transform.diagonal.setup (setupOf M b none turn) := by
  have hneg : decide (0 < M.nPawns) = false := decide_eq_false (by omega)
  have hcomm : Transform.normal false turn * Transform.diagonal
      = Transform.diagonal * Transform.normal false turn := by cases turn <;> decide
  have hwhite : whiteSetup (Transform.diagonal.board b) none
      = Transform.diagonal.setup (whiteSetup b none) := rfl
  rw [ChessEgt.setupOf_eq, ChessEgt.setupOf_eq, hneg, hwhite, ← Transform.mul_setup, hcomm,
    Transform.mul_setup]

/-- The diagonal partner of an index, if its kings stand on the diagonal, and of the partner. -/
theorem diagonalSymmetric_spec (hM : M.nPieces ≤ maxPieces) (hn : M.nPawns = 0)
    (h : Indexes M i b ep) (turn : Color) :
    ∃ o, M.indexer.diagonalSymmetric i = .ok o ∧
      (o.isSome ↔ KingsDiagonal (setupOf M b ep turn).board) ∧
      ∀ k, o = some k → k < M.indexer.indexRange ∧
        M.indexer.setupFromIndex k turn
          = .ok (Transform.diagonal.setup (setupOf M b ep turn)) ∧
        M.indexer.diagonalSymmetric k = .ok (some i) := by
  have hep := h.ep_eq_none hn
  subst hep
  rw [kingsDiagonal_setupOf hn]
  by_cases hd : KingsDiagonal b
  · obtain ⟨k, hk, hkd⟩ := h.diagonalSymmetric_some hM hn hd
    refine ⟨some k, hk, by simp [hd], fun k' hk' => ?_⟩
    obtain rfl := Option.some.inj hk'
    refine ⟨hkd.lt, by rw [hkd.setup, setupOf_diagonal hn], ?_⟩
    obtain ⟨i', hi', hid⟩ := hkd.diagonalSymmetric_some hM hn hd.board_diagonal
    rw [← Transform.mul_board, Transform.diagonal_mul_diagonal, Transform.one_board] at hid
    rw [hi', hid.eq_index h]
  · exact ⟨none, h.diagonalSymmetric_none hM hn hd, by simp [hd], fun k hk => by cases hk⟩

/-! ### Encoding undoes decoding -/

section

variable [Shakmaty] [LawfulShakmaty]

/-- The index of an accepted decoded setup is the index it was decoded from. -/
theorem Indexes.positionToIndex_setupOf (hM : M.nPieces ≤ maxPieces) (h : Indexes M i b ep)
    (ha : Accepted (setupOf M b ep turn)) :
    M.indexer.positionToIndex (setupOf M b ep turn) = .ok i := by
  obtain ⟨g, j, b', ep', hj, hc, henc⟩ :=
    positionToIndexImpl_eq hM ha.valid (h.canonical.hasMaterial turn).oriented
  refine hj.trans (congrArg _ ?_)
  have hsetup : (g * Transform.normal (decide (0 < M.nPawns)) turn).setup (whiteSetup b ep)
      = whiteSetup b' ep' := by
    rw [Transform.mul_setup, ← setupOf_eq, ← hc.setup, ha.normalize_eq]
  have hboard := congrArg Setup.board hsetup
  have hfits := hc.fits.mul (h.canonical.fits turn)
  have hcan := hc.indexes.canonical
  rw [← show _ = b' from hboard] at hcan
  have hone : g * Transform.normal (decide (0 < M.nPawns)) turn = 1 := by
    rcases h.canonical.transform_eq hcan hfits
      (Transform.recolor_of_color (congrArg Setup.turn hsetup)) with hone | ⟨hp, -, -⟩
    · exact hone
    · -- Canonical kings are not moved.
      unfold EncodedBy at henc
      rw [if_neg (by omega)] at henc
      obtain ⟨kw, kb, hw, hb, rfl⟩ := henc
      have horient : oriented M false (setupOf M b ep turn) = whiteSetup b ep := by
        unfold oriented
        rw [setupOf_turn, orient_false, setupOf_eq, ← Transform.mul_setup, normal_mul_normal,
          Transform.one_setup]
      rw [horient] at hw hb
      rw [reducer_eq_one ((h.canonical.kings kw kb hw hb).1 hp).1, setupOf_turn, orient_false,
        decide_eq_false (by omega)]
      show 1 * _ * _ = _
      rw [one_mul, normal_mul_normal]
  rw [hone, Transform.one_setup] at hsetup
  obtain ⟨rfl, rfl⟩ := whiteSetup_injective hsetup
  exact hc.indexes.eq_index h

/-- **Decoding** is injective, safe and undone by encoding. -/
theorem decoding_sound_and_undone (l : List EgtElement) (hl : validateElements l = .ok ()) :
    ∃ plan, Indexer.fromElements l = .ok plan ∧ ∀ turn,
      (∀ i < plan.indexRange, ∃ s, plan.setupFromIndex i turn = .ok s ∧
        s.turn = turn ∧ s.castlingRights = [] ∧
        HasMaterial (validateElements_eq_ok.mp hl).material s ∧ Rules.PawnRanks s.board ∧
        s.board.occupied.count = (l.map EgtElement.multiplicity).sum ∧
        (∃ r, positionFromSetup s = .ok r) ∧
        ∃ o, plan.positionFromIndex i turn = .ok o ∧
          (o.isSome ↔ ¬ KingAttacked s.board turn.other ∧ ∀ e, s.epSquare = some e →
            s.board e = none ∧ s.board (relativeSquare turn 6 e.file) = none ∧
              ∃ c, Legal s (.enPassant c e)) ∧
          ∀ p, o = some p → p = s ∧ plan.positionToIndex p = .ok i) ∧
      ∀ i < plan.indexRange, ∀ j < plan.indexRange,
        plan.setupFromIndex i turn = plan.setupFromIndex j turn → i = j := by
  classical
  have hvl := validateElements_eq_ok.mp hl
  have hM : hvl.material.nPieces ≤ maxPieces := by
    rw [hvl.nPieces_material]; exact hvl.total
  refine ⟨hvl.material.indexer, Indexer.fromElements_eq hvl, fun turn => ⟨fun i hi => ?_, ?_⟩⟩
  · obtain ⟨b, ep, h⟩ := exists_indexes hM hi
    refine ⟨_, h.setup turn, setupOf_turn turn, (h.canonical.sound turn).castling,
      h.canonical.hasMaterial turn, (h.canonical.sound turn).pawns, ?_,
      h.exists_positionFromSetup turn, _, h.positionFromIndex_eq turn, ?_, fun p hp => ?_⟩
    · rw [← hvl.nPieces_material, ← h.canonical.white.count_occupied]
      exact Transform.count_occupied _ b
    · rw [← h.canonical.accepted_iff turn]
      split
      next ha => simp [ha]
      next ha => simp [ha]
    · split at hp
      next ha =>
        obtain rfl := Option.some.inj hp
        exact ⟨rfl, h.positionToIndex_setupOf hM ha⟩
      next => cases hp
  · intro i hi j hj he
    obtain ⟨b, ep, h⟩ := exists_indexes hM hi
    obtain ⟨b', ep', h'⟩ := exists_indexes hM hj
    have he := Except.ok.inj ((h.setup turn).symm.trans (he.trans (h'.setup turn)))
    obtain ⟨rfl, rfl⟩ := whiteSetup_injective (Transform.setup_injective _ he)
    exact h.eq_index h'

end

/-- King and pawn against king. -/
def pawnEndgame : List EgtElement :=
  [.pieceGroup .king .sideNotToMove 1, .pawnGroup 4 ⟨[.sideToMove], by decide⟩,
    .pieceGroup .king .sideToMove 1]

theorem decoding_sound_and_undone_pawnEndgame : ∃ plan,
    Indexer.fromElements pawnEndgame = .ok plan ∧ ∀ i < plan.indexRange, ∃ s,
      plan.setupFromIndex i .black = .ok s ∧ s.turn = .black ∧ s.board.occupied.count = 3 := by
  obtain ⟨plan, hplan, h⟩ :=
    @decoding_sound_and_undone rulesShakmaty lawful_rulesShakmaty pawnEndgame rfl
  refine ⟨plan, hplan, fun i hi => ?_⟩
  obtain ⟨s, hs, hturn, -, -, -, hcount, -⟩ := (h .black).1 i hi
  exact ⟨s, hs, hturn, hcount⟩

section

variable [Shakmaty] [LawfulShakmaty]

/-- The index of a position of the table, and the position it decodes to. -/
theorem exists_canonizes (hM : M.nPieces ≤ maxPieces) (hv : Valid p) (h : HasMaterial M p) :
    ∃ g i b ep, M.indexer.positionToIndex p = .ok i ∧ Canonizes M g p i b ep ∧
      EncodedBy M false p g := positionToIndexImpl_eq hM hv h.oriented

/-- Decoding the index of a position gives a symmetric image of it. -/
theorem Canonizes.positionFromIndex_eq (h : Canonizes M g p i b ep) (hv : Valid p) :
    ∃ s : Symmetry, (⟨s, false⟩ : Transform).Fits p.board ∧
      M.indexer.positionFromIndex i p.turn
        = .ok (some ((⟨s, false⟩ : Transform).setup (normalize p))) := by
  have hset := h.setupOf_eq
  have hcolor : (Transform.normal (decide (0 < M.nPawns)) p.turn * g).color p.turn = p.turn := by
    rw [Transform.mul_color, h.color, Transform.normal_color_white]
  have hk : (⟨(Transform.normal (decide (0 < M.nPawns)) p.turn * g).symmetry, false⟩ : Transform)
      = Transform.normal (decide (0 < M.nPawns)) p.turn * g :=
    Transform.ext rfl (Transform.recolor_of_color hcolor).symm
  refine ⟨(Transform.normal (decide (0 < M.nPawns)) p.turn * g).symmetry, ?_, ?_⟩
  · rw [hk]
    refine Transform.Fits.mul ?_ h.fits
    rw [← h.board_eq]
    exact h.indexes.canonical.fits p.turn
  · rw [hk, ← hset]
    exact h.indexes.positionFromIndex_eq_some_iff.mpr ⟨rfl, h.accepted hv⟩

/-- **Indices** identify the positions of a table exactly up to symmetry. -/
theorem indices_up_to_symmetry (l : List EgtElement) (hl : validateElements l = .ok ()) :
    ∃ plan, Indexer.fromElements l = .ok plan ∧
      (∀ p, Valid p → HasMaterial (validateElements_eq_ok.mp hl).material p →
        ∃ i, plan.positionToIndex p = .ok i ∧ i < plan.indexRange ∧
          ∃ s : Symmetry, (⟨s, false⟩ : Transform).Fits p.board ∧
            plan.positionFromIndex i p.turn
              = .ok (some ((⟨s, false⟩ : Transform).setup (normalize p)))) ∧
      (∀ p q, Valid p → HasMaterial (validateElements_eq_ok.mp hl).material p →
        Valid q → HasMaterial (validateElements_eq_ok.mp hl).material q →
        ∀ i j, plan.positionToIndex p = .ok i → plan.positionToIndex q = .ok j →
          (0 < plan.nPawns → plan.symmetricPawns = false →
            (i = j ↔ colorNormalized true p = colorNormalized true q)) ∧
          (0 < plan.nPawns → plan.symmetricPawns = true →
            (i = j ↔ colorNormalized true q = colorNormalized true p ∨ colorNormalized true q
              = (⟨Symmetry.mirror, false⟩ : Transform).setup (colorNormalized true p))) ∧
          (plan.nPawns = 0 →
            ((∃ s : Symmetry, colorNormalized false q
                = (⟨s, false⟩ : Transform).setup (colorNormalized false p)) ↔
              j = i ∨ plan.diagonalSymmetric i = .ok (some j)))) ∧
      (plan.nPawns = 0 → ∀ i < plan.indexRange, ∀ turn,
        ∃ s o, plan.setupFromIndex i turn = .ok s ∧ plan.diagonalSymmetric i = .ok o ∧
          (o.isSome ↔ KingsDiagonal s.board) ∧
          ∀ k, o = some k → k < plan.indexRange ∧
            plan.setupFromIndex k turn = .ok (Transform.diagonal.setup s) ∧
            plan.diagonalSymmetric k = .ok (some i)) := by
  have hvl := validateElements_eq_ok.mp hl
  have hM : hvl.material.nPieces ≤ maxPieces := by
    rw [hvl.nPieces_material]; exact hvl.total
  refine ⟨hvl.material.indexer, Indexer.fromElements_eq hvl, fun p hv h => ?_,
    fun p q hv h hv' h' i j hi hj => ?_, fun hn i hi turn => ?_⟩
  · obtain ⟨g, i, b, ep, hi, hc, -⟩ := exists_canonizes hM hv h
    exact ⟨i, hi, hc.indexes.lt, hc.positionFromIndex_eq hv⟩
  · obtain ⟨g, i', b, ep, hi', hc, hg⟩ := exists_canonizes hM hv h
    obtain ⟨g', j', b', ep', hj', hc', hg'⟩ := exists_canonizes hM hv' h'
    obtain rfl := Except.ok.inj (hi.symm.trans hi')
    obtain rfl := Except.ok.inj (hj.symm.trans hj')
    exact ⟨fun hn hs => eq_iff_of_asymmetric hn (of_decide_eq_false hs) h h' hc hg hc' hg',
      fun _ hs => eq_iff_of_symmetric (of_decide_eq_true hs) h h' hc hg hc' hg',
      fun hn => image_iff_of_pawnless hM hn h h' hc hg hc' hg'⟩
  · obtain ⟨b, ep, h⟩ := exists_indexes hM hi
    obtain ⟨o, ho, hiff, hk⟩ := diagonalSymmetric_spec hM hn h turn
    exact ⟨_, o, h.setup turn, ho, hiff, hk⟩

end

/-- King and rook against king. -/
def rookEndgame : List EgtElement :=
  [.pieceGroup .king .sideToMove 1, .pieceGroup .rook .sideToMove 1,
    .pieceGroup .king .sideNotToMove 1]

theorem indices_up_to_symmetry_rookEndgame : ∃ plan,
    Indexer.fromElements rookEndgame = .ok plan ∧ plan.nPawns = 0 ∧
      ∀ i < plan.indexRange, ∃ s o, plan.setupFromIndex i .white = .ok s ∧
        plan.diagonalSymmetric i = .ok o ∧ (o.isSome ↔ KingsDiagonal s.board) := by
  obtain ⟨plan, hplan, -, -, h⟩ :=
    @indices_up_to_symmetry rulesShakmaty lawful_rulesShakmaty rookEndgame rfl
  have hn : plan.nPawns = 0 := by
    rw [Indexer.fromElements_eq (validateElements_eq_ok.mp rfl)] at hplan
    rw [← Except.ok.inj hplan]
    decide
  refine ⟨plan, hplan, hn, fun i hi => ?_⟩
  obtain ⟨s, o, hs, ho, hiff, -⟩ := h hn i hi .white
  exact ⟨s, o, hs, ho, hiff⟩

end ChessEgt
