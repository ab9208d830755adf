import ChessEgt.Indexing.Canonical

/-!
# Decoded positions

* `Accepted` — valid positions whose en passant square, if any, can be captured on;
* `CanonicalSetup.sound`, `CanonicalSetup.marked` — the setups of an index can only be invalid
  through checks, occupied en passant squares and illegal en passant captures;
* `Indexes.positionFromIndex_eq`, `Indexes.accepted_iff` — the positions that are decoded.
-/

namespace ChessEgt

open Rules Indexer

/-! ### Accepted positions -/

/-- A valid position whose en passant square, if any, can be captured on. -/
structure Accepted (p : Chess) : Prop where
  valid : Valid p
  legalEp : legalEp p = p.epSquare

namespace Accepted

variable {p : Chess}

theorem normalize_eq (h : Accepted p) : normalize p = p := normalize_eq_self.mpr h.legalEp

theorem setup (h : Accepted p) {g : Transform} (hg : g.Fits p.board) : Accepted (g.setup p) where
  valid := Transform.valid_setup hg h.valid
  legalEp := by rw [Transform.legalEp_eq hg, h.legalEp]; rfl

theorem setup_iff {g : Transform} (hg : g.Fits p.board) : Accepted (g.setup p) ↔ Accepted p := by
  constructor
  · intro h
    have := h.setup (g := g.inv) hg.inv
    rwa [Transform.inv_setup] at this
  · exact fun h => h.setup hg

end Accepted

theorem accepted_normalize {p : Chess} (hv : Valid p) : Accepted (normalize p) where
  valid := hv.normalize
  legalEp := legalEp_normalize p

/-! ### Sound setups -/

/-- The en passant square, if any, stands behind a pawn that may just have moved there. -/
def Marked (s : Setup) : Prop :=
  ∀ ep, s.epSquare = some ep → s.turn.relativeRank ep.rank = 5 ∧
    s.board (relativeSquare s.turn 4 ep.file) = some ⟨s.turn.other, .pawn⟩

namespace Transform

variable {g : Transform} {s : Setup}

theorem marked_setup (hg : g.Fits s.board) (h : Marked s) : Marked (g.setup s) := by
  intro ep hep
  rw [setup_epSquare, Option.map_eq_some_iff] at hep
  obtain ⟨ep, hep, rfl⟩ := hep
  obtain ⟨h₁, h₂⟩ := h ep hep
  have hk : g.KeepsPawns := hg.resolve_right (fun hn => hn _ _ h₂ rfl)
  rw [setup_turn, setup_board]
  refine ⟨by rw [hk.relativeRank, h₁], ?_⟩
  rw [← hk.relativeSquare, ← color_other]
  exact (g.board_eq_some (x := ⟨s.turn.other, .pawn⟩)).mpr h₂

theorem soundSetup_setup (hg : g.Fits s.board) (h : SoundSetup s) : SoundSetup (g.setup s) where
  castling := by simp [setup, h.castling]
  kings := oneKing_board h.kings
  pawns := pawnRanks_board hg h.pawns
  capturer := by
    intro ep hep
    rw [setup_epSquare, Option.map_eq_some_iff] at hep
    obtain ⟨ep, hep, rfl⟩ := hep
    obtain ⟨c, hc, ha⟩ := h.capturer ep hep
    exact ⟨g.symmetry • c, (g.board_eq_some (x := ⟨s.turn, .pawn⟩)).mpr hc,
      (attacks_iff hg hc c ep).mpr ha⟩

end Transform

namespace CanonicalSetup

variable {M : Material} {b : Board} {ep : Option File} (h : CanonicalSetup M b ep)

include h

theorem fits (turn : Color) : (Transform.normal (decide (0 < M.nPawns)) turn).Fits b := by
  refine Transform.normal_fits turn (fun hp => ?_)
  have hz : M.nPawns = 0 := by simpa using hp
  exact h.white.material.pawnless_iff.mpr hz

/-- Decoded setups are sound. -/
theorem sound (turn : Color) : SoundSetup (setupOf M b ep turn) := by
  refine Transform.soundSetup_setup (h.fits turn) ⟨rfl, h.white.oneKing, h.white.ranks, ?_⟩
  intro s hs
  obtain ⟨f, hf, rfl⟩ := Option.map_eq_some_iff.mp hs
  obtain ⟨-, -, -, f', hd, hp⟩ := h.victim f hf
  refine ⟨⟨4, f'⟩, hp, ?_, rfl⟩
  show fileDist ⟨4, f'⟩ ⟨5, f⟩ = 1
  rw [fileDist_comm]
  exact hd

theorem marked (turn : Color) : Marked (setupOf M b ep turn) := by
  refine Transform.marked_setup (h.fits turn) (fun s hs => ?_)
  obtain ⟨f, hf, rfl⟩ := Option.map_eq_some_iff.mp hs
  exact ⟨rfl, (h.victim f hf).1⟩

theorem hasMaterial (turn : Color) : HasMaterial M (setupOf M b ep turn) := by
  have hw : HasMaterial M (whiteSetup b ep) := h.white.material.congr rfl rfl
  rcases Nat.eq_zero_or_pos M.nPawns with hp | hp
  · exact hw.setup_pawnless _ hp
  · rw [setupOf, decide_eq_true hp]
    exact hw.setup (Transform.normal_keepsPawns turn) (Transform.normal_flipFiles _ _)

/-- Decoded setups are accepted if they are from White's point of view. -/
theorem accepted_setupOf (turn : Color) :
    Accepted (setupOf M b ep turn) ↔ Accepted (whiteSetup b ep) :=
  Accepted.setup_iff (p := whiteSetup b ep) (h.fits turn)

/-- What decides on the validity of a decoded setup. -/
theorem accepted_iff (turn : Color) :
    Accepted (setupOf M b ep turn) ↔
      ¬ KingAttacked (setupOf M b ep turn).board turn.other ∧
        ∀ e, (setupOf M b ep turn).epSquare = some e →
          (setupOf M b ep turn).board e = none ∧
          (setupOf M b ep turn).board (relativeSquare turn 6 e.file) = none ∧
          ∃ c, Legal (setupOf M b ep turn) (.enPassant c e) := by
  have hturn : (setupOf M b ep turn).turn = turn := Transform.normal_color_white _ _
  constructor
  · intro ha
    refine ⟨by have := ha.valid.opposite; rwa [hturn] at this, fun e he => ?_⟩
    obtain ⟨-, -, h₃, h₄⟩ := ha.valid.epStructure e he
    rw [hturn] at h₄
    have hl := ha.legalEp
    rw [he] at hl
    exact ⟨h₃, h₄, (legalEp_eq_some.mp hl).2⟩
  · rintro ⟨hopp, hep⟩
    have hs := h.sound turn
    refine ⟨⟨hs.castling, hs.kings, hs.pawns, by rw [hturn]; exact hopp, fun e he => ?_⟩, ?_⟩
    · obtain ⟨h₁, h₂⟩ := h.marked turn e he
      obtain ⟨h₃, h₄, -⟩ := hep e he
      exact ⟨h₁, h₂, h₃, by rw [hturn]; exact h₄⟩
    · cases he : (setupOf M b ep turn).epSquare with
      | none => exact legalEp_of_none he
      | some e => exact legalEp_eq_some.mpr ⟨he, (hep e he).2.2⟩

end CanonicalSetup

/-! ### Positions of indices -/

theorem setupOf_turn {M : Material} {b : Board} {ep : Option File} (turn : Color) :
    (setupOf M b ep turn).turn = turn := Transform.normal_color_white _ _

namespace Indexes

variable [Shakmaty] [LawfulShakmaty] {M : Material} {i : ℕ} {b : Board} {ep : Option File}

/-- The setup of an index is validated without failing. -/
theorem exists_positionFromSetup (h : Indexes M i b ep) (turn : Color) :
    ∃ r, positionFromSetup (setupOf M b ep turn) = .ok r :=
  ⟨_, positionFromSetup_eq (h.canonical.sound turn)⟩

open Classical in
/-- **Decoding** gives the setup of the index if it is accepted. -/
theorem positionFromIndex_eq (h : Indexes M i b ep) (turn : Color) :
    M.indexer.positionFromIndex i turn
      = .ok (if Accepted (setupOf M b ep turn) then some (setupOf M b ep turn) else none) := by
  have hlt := h.lt
  unfold positionFromIndex
  rw [if_neg (by omega), h.setup turn]
  obtain ⟨r, hr⟩ := h.exists_positionFromSetup turn
  have hiff : ∀ p, r = .ok p ↔ p = setupOf M b ep turn ∧ Accepted (setupOf M b ep turn) := by
    intro p
    have := positionFromSetup_eq_ok_iff (h.canonical.sound turn) (p := p)
    rw [hr] at this
    constructor
    · rintro rfl
      obtain ⟨hp, hv, hl⟩ := this.mp rfl
      exact ⟨hp, hv, hl⟩
    · rintro ⟨hp, ha⟩
      exact Except.ok.inj (this.mpr ⟨hp, ha.valid, ha.legalEp⟩)
  simp only [Run.pure_eq_ok, Run.ok_bind, hr]
  cases r with
  | ok p =>
    obtain ⟨rfl, ha⟩ := (hiff p).mp rfl
    simp only [if_pos ha]
  | error e =>
    have hna : ¬ Accepted (setupOf M b ep turn) :=
      fun ha => by cases (hiff _).mpr ⟨rfl, ha⟩
    simp only [if_neg hna]

theorem positionFromIndex_eq_some_iff (h : Indexes M i b ep) {turn : Color} {p : Chess} :
    M.indexer.positionFromIndex i turn = .ok (some p) ↔
      p = setupOf M b ep turn ∧ Accepted (setupOf M b ep turn) := by
  classical
  rw [h.positionFromIndex_eq]
  constructor
  · intro hp
    have hp := Except.ok.inj hp
    split at hp
    next ha => exact ⟨(Option.some.inj hp).symm, ha⟩
    next => cases hp
  · rintro ⟨rfl, ha⟩
    rw [if_pos ha]

end Indexes

end ChessEgt
