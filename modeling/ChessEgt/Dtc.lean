import ChessEgt.Library.Game
import ChessEgt.Chess.Moves

/-!
# Distance to conversion

* `ConversionType`, `DtcOutcome`, `DtcOutcome.cmp`, `moveValue` — the outcomes of the program;
* `game`, `dtcOutcome` — chess as a conversion game, and the true outcome of a position;
* `dtcOutcome_transform`, `dtcOutcome_normalize` — the true outcome is invariant under the
  symmetries that fit a position, and under dropping en passant squares nobody can capture on.
-/

namespace ChessEgt

/-- What ends a phase of play. -/
inductive ConversionType where
  | promotion
  | capture
  | checkmate
  deriving DecidableEq, Repr

namespace ConversionType

/-- The position in the order of declaration. -/
def toNat : ConversionType → ℕ
  | promotion => 0
  | capture => 1
  | checkmate => 2

theorem toNat_injective : Function.Injective toNat := by
  intro a b; cases a <;> cases b <;> decide

instance : LinearOrder ConversionType := LinearOrder.lift' toNat toNat_injective

theorem le_iff {a b : ConversionType} : a ≤ b ↔ a.toNat ≤ b.toNat := Iff.rfl

/-- The conversion types in the order in which losses are decided. -/
def descending : List ConversionType := [checkmate, capture, promotion]

theorem descending_pairwise : descending.Pairwise (· > ·) := by decide

theorem mem_descending (ct : ConversionType) : ct ∈ descending := by cases ct <;> decide

end ConversionType

/-- Win, draw or loss for the side to move, with the type and the distance of the conversion. -/
abbrev DtcOutcome := Outcome ConversionType

/-- The order of outcomes as the program compares them. -/
def DtcOutcome.cmp : DtcOutcome → DtcOutcome → Ordering
  | .win ct₁ n₁, .win ct₂ n₂ => (compare n₂ n₁).then (compare ct₁ ct₂)
  | .draw, .draw => .eq
  | .loss ct₁ n₁, .loss ct₂ n₂ => (compare n₁ n₂).then (compare ct₂ ct₁)
  | .win _ _, .draw => .gt
  | .draw, .win _ _ => .lt
  | .win _ _, .loss _ _ => .gt
  | .loss _ _, .win _ _ => .lt
  | .draw, .loss _ _ => .gt
  | .loss _ _, .draw => .lt

/-- The program's comparison is the preference of the side to move. -/
theorem DtcOutcome.cmp_eq_compare (a b : DtcOutcome) : DtcOutcome.cmp a b = compare a b := by
  cases a with
  | draw =>
    cases b with
    | draw => exact (compare_eq_iff_eq.mpr rfl).symm
    | win k n => exact (compare_lt_iff_lt.mpr (lt_of_le_not_ge trivial id)).symm
    | loss k n => exact (compare_gt_iff_gt.mpr (lt_of_le_not_ge trivial id)).symm
  | win k n =>
    cases b with
    | draw => exact (compare_gt_iff_gt.mpr (lt_of_le_not_ge trivial id)).symm
    | loss k' n' => exact (compare_gt_iff_gt.mpr (lt_of_le_not_ge trivial id)).symm
    | win k' n' =>
      simp only [cmp]
      rcases lt_trichotomy n n' with h | rfl | h
      · rw [compare_gt_iff_gt.mpr h, eq_comm]
        exact compare_gt_iff_gt.mpr (Outcome.win_lt_win.mpr (Or.inl h))
      · rw [compare_eq_iff_eq.mpr rfl, Ordering.then]
        rcases lt_trichotomy k k' with h | rfl | h
        · rw [compare_lt_iff_lt.mpr h, eq_comm]
          exact compare_lt_iff_lt.mpr (Outcome.win_lt_win.mpr (Or.inr ⟨rfl, h⟩))
        · rw [compare_eq_iff_eq.mpr rfl, compare_eq_iff_eq.mpr rfl]
        · rw [compare_gt_iff_gt.mpr h, eq_comm]
          exact compare_gt_iff_gt.mpr (Outcome.win_lt_win.mpr (Or.inr ⟨rfl, h⟩))
      · rw [compare_lt_iff_lt.mpr h, eq_comm]
        exact compare_lt_iff_lt.mpr (Outcome.win_lt_win.mpr (Or.inl h))
  | loss k n =>
    cases b with
    | draw => exact (compare_lt_iff_lt.mpr (lt_of_le_not_ge trivial id)).symm
    | win k' n' => exact (compare_lt_iff_lt.mpr (lt_of_le_not_ge trivial id)).symm
    | loss k' n' =>
      simp only [cmp]
      rcases lt_trichotomy n n' with h | rfl | h
      · rw [compare_lt_iff_lt.mpr h, eq_comm]
        exact compare_lt_iff_lt.mpr (Outcome.loss_lt_loss.mpr (Or.inl h))
      · rw [compare_eq_iff_eq.mpr rfl, Ordering.then]
        rcases lt_trichotomy k k' with h | rfl | h
        · rw [compare_gt_iff_gt.mpr h, eq_comm]
          exact compare_gt_iff_gt.mpr (Outcome.loss_lt_loss.mpr (Or.inr ⟨rfl, h⟩))
        · rw [compare_eq_iff_eq.mpr rfl, compare_eq_iff_eq.mpr rfl]
        · rw [compare_lt_iff_lt.mpr h, eq_comm]
          exact compare_lt_iff_lt.mpr (Outcome.loss_lt_loss.mpr (Or.inr ⟨rfl, h⟩))
      · rw [compare_gt_iff_gt.mpr h, eq_comm]
        exact compare_gt_iff_gt.mpr (Outcome.loss_lt_loss.mpr (Or.inl h))

/-- The value of a position for the side to move after playing `m`, given the outcome of the
    successor. -/
def moveValue (m : Move) (successorOutcome : DtcOutcome) : DtcOutcome :=
  if m.isCapture || m.isPromotion then
    let ct := if m.isCapture then ConversionType.capture else ConversionType.promotion
    match successorOutcome with
    | .loss _ _ => .win ct 1
    | .draw => .draw
    | .win _ _ => .loss ct 1
  else
    match successorOutcome with
    | .loss ct n => .win ct (n + 1)
    | .draw => .draw
    | .win ct n => .loss ct (n + 1)

/-- The conversion that a move is, if any. -/
def conversionType (m : Move) : Option ConversionType :=
  if m.isCapture then some .capture else if m.isPromotion then some .promotion else none

theorem conversionType_eq_none {m : Move} : conversionType m = none ↔ m.isQuiet = true := by
  unfold conversionType Move.isQuiet
  cases m.isCapture <;> cases m.isPromotion <;> simp

theorem conversionType_isSome {m : Move} :
    (conversionType m).isSome = (m.isCapture || m.isPromotion) := by
  unfold conversionType
  cases m.isCapture <;> cases m.isPromotion <;> simp

theorem moveValue_eq (m : Move) (o : DtcOutcome) :
    moveValue m o = Outcome.moveValue (conversionType m) o := by
  unfold moveValue conversionType
  cases m.isCapture <;> cases m.isPromotion <;> cases o <;> rfl

/-! ### Chess as a conversion game -/

instance : Fintype Move :=
  Fintype.ofEquiv ((Role × Square × Option Role × Square × Option Role) ⊕ (Square × Square))
    { toFun := fun x => match x with
        | .inl (r, s, c, t, pr) => .normal r s c t pr
        | .inr (s, t) => .enPassant s t
      invFun := fun m => match m with
        | .normal r s c t pr => .inl (r, s, c, t, pr)
        | .enPassant s t => .inr (s, t)
      left_inv := fun x => by rcases x with ⟨r, s, c, t, pr⟩ | ⟨s, t⟩ <;> rfl
      right_inv := fun m => by cases m <;> rfl }

open Rules

/-- The game of chess, for positions without castling rights. -/
noncomputable def game : ConversionGame Chess Move ConversionType where
  moves p := (Set.toFinite {m | Legal p m}).toFinset
  play := play
  kind := conversionType
  check := InCheck
  mate := .checkmate

@[simp] theorem game_kind : game.kind = conversionType := rfl
@[simp] theorem game_play : game.play = play := rfl

@[simp] theorem mem_game_moves {p : Chess} {m : Move} : m ∈ game.moves p ↔ Legal p m := by
  rw [game, Set.Finite.mem_toFinset]; rfl

theorem game_moves_eq_empty {p : Chess} (hm : ∀ m, ¬ Legal p m) : game.moves p = ∅ :=
  Finset.eq_empty_of_forall_notMem (fun m h => hm m (mem_game_moves.mp h))

/-- The true outcome of a position. -/
noncomputable def dtcOutcome (p : Chess) : DtcOutcome := game.dtc p

/-- Valid positions that agree up to a symmetry that fits them, and up to normalization. -/
def SameUpToSymmetry (p q : Chess) : Prop :=
  Valid p ∧ Valid q ∧ ∃ g : Transform, g.Fits p.board ∧ normalize q = g.setup (normalize p)

theorem game_bisimulation : game.Bisimulation SameUpToSymmetry where
  symm := by
    rintro p q ⟨hp, hq, g, hg, h⟩
    refine ⟨hq, hp, g.inv, ?_, by rw [h, Transform.inv_setup]⟩
    have hb : q.board = g.board p.board := congrArg Setup.board h
    rw [hb]; exact hg.inv
  check := by
    rintro p q ⟨-, -, g, hg, h⟩ hc
    have hc' : InCheck (g.setup (normalize p)) := (Transform.inCheck_iff hg).mpr hc
    rw [← h] at hc'
    exact hc'
  move := by
    rintro p q ⟨hp, hq, g, hg, h⟩ m hm
    rw [mem_game_moves] at hm
    have hm' : Legal q (g.move m) := by
      rw [← legal_normalize, h]
      exact (Transform.legal_iff (p := normalize p) hg m).mpr (legal_normalize.mpr hm)
    refine ⟨g.move m, mem_game_moves.mpr hm', ?_, hp.play hm, hq.play hm', g, hg.play hm.1, ?_⟩
    · simp only [game_kind, conversionType, Transform.move_isCapture, Transform.move_isPromotion]
    · have hplay : play q (g.move m) = g.setup (play p m) := by
        rw [← play_normalize q, h,
          Transform.play_eq (p := normalize p) hg (legal_normalize.mpr hm).1, play_normalize]
      show normalize (play q (g.move m)) = g.setup (normalize (play p m))
      rw [hplay, Transform.normalize_eq (hg.play hm.1)]

/-- Positions that agree up to symmetry have the same outcome. -/
theorem dtcOutcome_eq {p q : Chess} (h : SameUpToSymmetry p q) : dtcOutcome p = dtcOutcome q :=
  ConversionGame.dtc_eq_of_bisimulation game_bisimulation h

theorem SameUpToSymmetry.of_transform {p : Chess} (hp : Valid p) {g : Transform}
    (hg : g.Fits p.board) : SameUpToSymmetry p (g.setup p) :=
  ⟨hp, Transform.valid_setup hg hp, g, hg, Transform.normalize_eq hg⟩

theorem SameUpToSymmetry.of_normalize {p q : Chess} (hp : Valid p) (hq : Valid q)
    (h : normalize q = normalize p) : SameUpToSymmetry p q := by
  refine ⟨hp, hq, ⟨1, false⟩, Or.inl (by decide), ?_⟩
  rw [h, Transform.setup]
  ext1
  · funext s
    have : (⟨1, false⟩ : Transform).piece = id := by
      funext x; simp [Transform.piece, Transform.color]
    simp [Transform.board, this]
  · simp [Transform.color]
  · simp
  · simp

theorem dtcOutcome_transform {p : Chess} (hp : Valid p) {g : Transform} (hg : g.Fits p.board) :
    dtcOutcome (g.setup p) = dtcOutcome p :=
  (dtcOutcome_eq (.of_transform hp hg)).symm

theorem dtcOutcome_normalize {p : Chess} (hp : Valid p) :
    dtcOutcome (normalize p) = dtcOutcome p :=
  (dtcOutcome_eq (.of_normalize hp hp.normalize (normalize_normalize p))).symm

/-! ### The recursion of the true outcome -/

theorem dtcOutcome_checkmate {p : Chess} (hm : ∀ m, ¬ Legal p m) (hc : InCheck p) :
    dtcOutcome p = .loss .checkmate 0 :=
  game.dtc_isDtc.checkmate p (game_moves_eq_empty hm) hc

theorem dtcOutcome_stalemate {p : Chess} (hm : ∀ m, ¬ Legal p m) (hc : ¬ InCheck p) :
    dtcOutcome p = .draw :=
  game.dtc_isDtc.stalemate p (game_moves_eq_empty hm) hc

/-- The outcome of a position with legal moves is the best value over them. -/
theorem dtcOutcome_isGreatest {p : Chess} {m₀ : Move} (h₀ : Legal p m₀) :
    IsGreatest {v | ∃ m, Legal p m ∧ v = moveValue m (dtcOutcome (play p m))} (dtcOutcome p) := by
  have h := game.dtc_isDtc.best p ⟨m₀, mem_game_moves.mpr h₀⟩
  have hset : (fun m => Outcome.moveValue (game.kind m) (game.dtc (game.play p m))) ''
      (game.moves p : Set Move)
      = {v | ∃ m, Legal p m ∧ v = moveValue m (dtcOutcome (play p m))} := by
    ext v
    constructor
    · rintro ⟨m, hm, rfl⟩
      exact ⟨m, mem_game_moves.mp hm, by rw [moveValue_eq]; rfl⟩
    · rintro ⟨m, hm, rfl⟩
      exact ⟨m, mem_game_moves.mpr hm, by rw [moveValue_eq]; rfl⟩
  rwa [hset] at h

/-- A win or loss is only given to positions where it can be forced in that many plies. -/
theorem dtcOutcome_forced (p : Chess) :
    (∀ k n, dtcOutcome p = .win k n → game.ForcedWin n p) ∧
      (∀ k n, dtcOutcome p = .loss k n → game.ForcedLoss n p) :=
  ⟨game.dtc_isDtc.win_forced p, game.dtc_isDtc.loss_forced p⟩

end ChessEgt
