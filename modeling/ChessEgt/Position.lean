import ChessEgt.Error
import ChessEgt.Chess.Moves

/-!
# Validation of decoded setups

* `positionFromSetup`, `oppositeCheck`, `validEpSquare` — the minimal validation of the setups
  that the indexer produces, with the reason of a rejection;
* `positionFromSetup_eq` — what it decides, when the chess library follows the rules.
-/

namespace ChessEgt

inductive InvalidPosition where
  | oppositeCheck
  | epSquaresOccupied
  | illegalEpCapture
  deriving DecidableEq, Repr

section

variable [Shakmaty]

/-- Whether the player not to move is in check. Both kings must be present. -/
def oppositeCheck (board : Board) (turn : Color) : Run Bool := do
  let king ← Run.expect (board.kingOf turn.other) "tablebase setups supply both kings"
  pure !(Shakmaty.attacksTo board king turn board.occupied).isEmpty

/-- Structural en passant validity, independently of whether a legal capture exists. -/
def validEpSquare (setup : Setup) : Bool :=
  match setup.epSquare with
  | none => true
  | some ep =>
    if ep.rank ≠ setup.turn.relativeRank 5 then false
    else
      let pushedTo : Square := ⟨setup.turn.relativeRank 4, ep.file⟩
      let pushedFrom : Square := ⟨setup.turn.relativeRank 6, ep.file⟩
      decide (setup.board pushedTo = some ⟨setup.turn.other, .pawn⟩) &&
        !setup.board.occupied ep && !setup.board.occupied pushedFrom

/-- Validates a decoded setup, retaining the reason for rejected indices. -/
def positionFromSetup (setup : Setup) : Run (Except InvalidPosition Chess) := do
  if ← oppositeCheck setup.board setup.turn then
    return .error .oppositeCheck
  if let some ep := setup.epSquare then
    let capturers := (Shakmaty.attacksTo setup.board ep setup.turn setup.board.occupied).inter
      setup.board.pawns
    if capturers.isEmpty then
      throw (.error (.internal "EP target has no geometric pawn capturer"))
    if !validEpSquare setup then
      return .error .epSquaresOccupied
  let epSquare := setup.epSquare
  let position := Shakmaty.fromSetupUnchecked setup
  if Shakmaty.legalEpSquare position ≠ epSquare then
    return .error .illegalEpCapture
  return .ok position

end

/-! ### What the validation decides -/

open Rules

theorem validEpSquare_iff {s : Setup} : validEpSquare s = true ↔ EpStructure s := by
  unfold validEpSquare EpStructure
  cases h : s.epSquare with
  | none => simp
  | some ep =>
    simp only [Option.some.injEq, forall_eq', relativeSquare]
    have hr : ep.rank = s.turn.relativeRank 5 ↔ s.turn.relativeRank ep.rank = 5 :=
      ⟨fun h => by rw [h, Color.relativeRank_relativeRank],
        fun h => by rw [← h, Color.relativeRank_relativeRank]⟩
    by_cases hrank : ep.rank = s.turn.relativeRank 5
    · simp [hrank, and_assoc]
    · rw [if_pos hrank]
      simp only [Bool.false_eq_true, false_iff]
      exact fun h => hrank (hr.mpr h.1)

section

variable [Shakmaty] [LawfulShakmaty]

/-- The pawns that could capture on the en passant square by their geometry. -/
def HasCapturer (s : Setup) : Prop :=
  ∀ ep, s.epSquare = some ep → ∃ c, s.board c = some ⟨s.turn, .pawn⟩ ∧
    Attacks s.board.occupied ⟨s.turn, .pawn⟩ c ep

theorem oppositeCheck_eq {b : Board} (hk : OneKing b) (turn : Color) :
    oppositeCheck b turn = .ok (decide (KingAttacked b turn.other)) := by
  obtain ⟨k, hkk⟩ := hk turn.other
  have hking : b.kingOf turn.other = some k :=
    Board.kingOf_eq_some ((hkk k).mpr rfl) (fun s hs => (hkk s).mp hs)
  unfold oppositeCheck
  rw [hking, Run.expect_some, Run.ok_bind, Run.pure_eq_ok]
  congr 1
  rw [Bool.eq_iff_iff, decide_eq_true_eq, Bool.not_eq_true', ← Bool.not_eq_true,
    Bitboard.isEmpty_iff]
  simp only [← Bool.not_eq_true, LawfulShakmaty.attacksTo_iff, not_forall, not_not]
  constructor
  · rintro ⟨s, pc, hpc, hc, ha⟩
    refine ⟨k, (hkk k).mpr rfl, s, ?_⟩
    rw [attackedFrom_iff, Color.other_other]
    exact ⟨pc, hpc, hc, ha⟩
  · rintro ⟨k', hk', s, hs⟩
    rw [(hkk k').mp hk', attackedFrom_iff, Color.other_other] at hs
    exact ⟨s, hs⟩

/-- The setups that only their checks and their en passant squares can make invalid. -/
structure SoundSetup (s : Setup) : Prop where
  castling : s.castlingRights = []
  kings : OneKing s.board
  pawns : PawnRanks s.board
  capturer : HasCapturer s

/-- **The validation** of sound setups never fails: it rejects opposite checks, occupied en
    passant squares and illegal en passant captures, in this order, and accepts the rest. -/
theorem positionFromSetup_eq {s : Setup} (hs : SoundSetup s) :
    positionFromSetup s = .ok (
      if KingAttacked s.board s.turn.other then .error .oppositeCheck
      else if ¬ EpStructure s then .error .epSquaresOccupied
      else if legalEp s ≠ s.epSquare then .error .illegalEpCapture
      else .ok s) := by
  have hcap : ∀ ep, s.epSquare = some ep →
      ((Shakmaty.attacksTo s.board ep s.turn s.board.occupied).inter s.board.pawns).isEmpty
        = false := by
    intro ep hep
    obtain ⟨c, hc, ha⟩ := hs.capturer ep hep
    rw [← Bool.not_eq_true, Bitboard.isEmpty_iff]
    intro hall
    have := hall c
    rw [Bitboard.inter_apply, Bool.and_eq_false_iff, ← Bool.not_eq_true, ← Bool.not_eq_true,
      LawfulShakmaty.attacksTo_iff] at this
    rcases this with h | h
    · exact h ⟨_, hc, rfl, ha⟩
    · exact h (Board.byRole_apply.mpr ⟨_, hc, rfl⟩)
  unfold positionFromSetup
  rw [oppositeCheck_eq hs.kings, Run.ok_bind]
  by_cases hopp : KingAttacked s.board s.turn.other
  · simp [hopp]
  have hlast : ∀ (_ : EpStructure s),
      (do
        let epSquare := s.epSquare
        let position := Shakmaty.fromSetupUnchecked s
        if Shakmaty.legalEpSquare position ≠ epSquare then
          return .error .illegalEpCapture
        return .ok position : Run (Except InvalidPosition Chess))
      = .ok (if legalEp s ≠ s.epSquare then .error .illegalEpCapture else .ok s) := by
    intro hep
    have hv : Valid s := ⟨hs.castling, hs.kings, hs.pawns, hopp, hep⟩
    simp only [LawfulShakmaty.fromSetupUnchecked_eq s hs.castling hep,
      LawfulShakmaty.legalEpSquare_eq s hv]
    split <;> rfl
  cases hep : s.epSquare with
  | none =>
    have hst : EpStructure s := fun ep h => by rw [hep] at h; cases h
    have := hlast hst
    rw [hep] at this
    simpa [hopp, hst] using this
  | some ep =>
    by_cases hst : EpStructure s
    · have := hlast hst
      rw [hep] at this
      simpa [hopp, hst, hcap ep hep, validEpSquare_iff.mpr hst] using this
    · have hne : validEpSquare s = false := by
        rw [← Bool.not_eq_true, validEpSquare_iff]; exact hst
      simp [hopp, hst, hcap ep hep, hne]

/-- Accepted setups are the valid positions whose en passant square can be captured on. -/
theorem positionFromSetup_eq_ok_iff {s : Setup} (hs : SoundSetup s) {p : Chess} :
    positionFromSetup s = .ok (.ok p) ↔ p = s ∧ Valid s ∧ legalEp s = s.epSquare := by
  rw [positionFromSetup_eq hs]
  constructor
  · intro h
    have h := Except.ok.inj h
    split at h
    · cases h
    next hopp =>
      split at h
      · cases h
      next hst =>
        split at h
        · cases h
        next hep =>
          rw [not_not] at hst hep
          exact ⟨(Except.ok.inj h).symm, ⟨hs.castling, hs.kings, hs.pawns, hopp, hst⟩, hep⟩
  · rintro ⟨rfl, hv, hep⟩
    rw [if_neg hv.opposite, if_neg (not_not.mpr hv.epStructure), if_neg (not_not.mpr hep)]

end

end ChessEgt
