import Mathlib

/-!
# Outcomes with a distance and a kind

The value of a position of a two-player game whose plays end in a *conversion*: the player
to move wins, draws or loses, and a decided outcome carries the kind of the conversion that
ends the phase and the number of plies until it.

* `Outcome κ` — win, draw or loss, with kinds in an arbitrary linear order `κ`;
* `Outcome.Le` — the preference of the player to move: quick wins, then draws, then slow
  losses; at equal distance a winner prefers the greater kind, a loser the smaller one;
* `moveValue` — the value of a move in terms of the outcome of its successor.
-/

/-- The outcome of a position for the player to move. -/
inductive Outcome (κ : Type*) where
  | win (kind : κ) (plies : ℕ)
  | draw
  | loss (kind : κ) (plies : ℕ)
  deriving DecidableEq, Repr

namespace Outcome

variable {κ : Type*}

/-- The number of plies of a decided outcome. -/
def plies? : Outcome κ → Option ℕ
  | win _ n => some n
  | draw => none
  | loss _ n => some n

/-- The outcome is a win for the player to move. -/
def IsWin : Outcome κ → Prop
  | win _ _ => True
  | _ => False

/-- The outcome is a loss for the player to move. -/
def IsLoss : Outcome κ → Prop
  | loss _ _ => True
  | _ => False

instance : DecidablePred (@IsWin κ) := fun o => by
  cases o <;> unfold IsWin <;> infer_instance

instance : DecidablePred (@IsLoss κ) := fun o => by
  cases o <;> unfold IsLoss <;> infer_instance

@[simp] theorem isWin_win (k : κ) (n : ℕ) : (win k n).IsWin := trivial
@[simp] theorem not_isWin_draw : ¬ (draw : Outcome κ).IsWin := id
@[simp] theorem not_isWin_loss (k : κ) (n : ℕ) : ¬ (loss k n).IsWin := id
@[simp] theorem isLoss_loss (k : κ) (n : ℕ) : (loss k n).IsLoss := trivial
@[simp] theorem not_isLoss_draw : ¬ (draw : Outcome κ).IsLoss := id
@[simp] theorem not_isLoss_win (k : κ) (n : ℕ) : ¬ (win k n).IsLoss := id

theorem isWin_iff {o : Outcome κ} : o.IsWin ↔ ∃ k n, o = win k n := by
  cases o <;> simp [IsWin]

theorem isLoss_iff {o : Outcome κ} : o.IsLoss ↔ ∃ k n, o = loss k n := by
  cases o <;> simp [IsLoss]

@[simp] theorem plies?_win (k : κ) (n : ℕ) : (win k n).plies? = some n := rfl
@[simp] theorem plies?_draw : (draw : Outcome κ).plies? = none := rfl
@[simp] theorem plies?_loss (k : κ) (n : ℕ) : (loss k n).plies? = some n := rfl

theorem plies?_eq_none {o : Outcome κ} : o.plies? = none ↔ o = draw := by
  cases o <;> simp

/-! ### The preference order -/

section Order

variable [LinearOrder κ]

/-- `a.Le b`: the player to move likes `b` at least as much as `a`. -/
def Le : Outcome κ → Outcome κ → Prop
  | loss k n, loss k' n' => n < n' ∨ (n = n' ∧ k' ≤ k)
  | loss _ _, _ => True
  | draw, loss _ _ => False
  | draw, _ => True
  | win k n, win k' n' => n' < n ∨ (n = n' ∧ k ≤ k')
  | win _ _, _ => False

instance : DecidableRel (@Le κ _) := fun a b => by
  cases a <;> cases b <;> unfold Le <;> infer_instance

theorem le_total' (a b : Outcome κ) : a.Le b ∨ b.Le a := by
  cases a with
  | win k n =>
    cases b with
    | win k' n' =>
      simp only [Le]
      rcases lt_trichotomy n n' with h | rfl | h
      · exact Or.inr (Or.inl h)
      · rcases le_total k k' with hk | hk
        · exact Or.inl (Or.inr ⟨rfl, hk⟩)
        · exact Or.inr (Or.inr ⟨rfl, hk⟩)
      · exact Or.inl (Or.inl h)
    | draw => exact Or.inr trivial
    | loss k' n' => exact Or.inr trivial
  | draw => cases b <;> simp [Le]
  | loss k n =>
    cases b with
    | win k' n' => exact Or.inl trivial
    | draw => exact Or.inl trivial
    | loss k' n' =>
      simp only [Le]
      rcases lt_trichotomy n n' with h | rfl | h
      · exact Or.inl (Or.inl h)
      · rcases le_total k k' with hk | hk
        · exact Or.inr (Or.inr ⟨rfl, hk⟩)
        · exact Or.inl (Or.inr ⟨rfl, hk⟩)
      · exact Or.inr (Or.inl h)

theorem le_trans' {a b c : Outcome κ} (hab : a.Le b) (hbc : b.Le c) : a.Le c := by
  cases a <;> cases b <;> cases c <;> simp only [Le] at * <;>
    first
      | (rcases hab with h | ⟨rfl, h⟩ <;> rcases hbc with h' | ⟨rfl, h'⟩
         · exact Or.inl (by omega)
         · exact Or.inl h
         · exact Or.inl h'
         · exact Or.inr ⟨rfl, by first | exact le_trans h h' | exact le_trans h' h⟩)

theorem le_antisymm' {a b : Outcome κ} (hab : a.Le b) (hba : b.Le a) : a = b := by
  cases a <;> cases b <;> simp only [Le] at hab hba <;>
    first
      | rfl
      | (rcases hab with h | ⟨rfl, h⟩ <;> rcases hba with h' | ⟨h'', h'⟩
         · omega
         · omega
         · omega
         · rw [le_antisymm h h'])

instance : LinearOrder (Outcome κ) where
  le := Le
  le_refl a := by cases a <;> simp [Le]
  le_trans _ _ _ := le_trans'
  le_antisymm _ _ := le_antisymm'
  le_total := le_total'
  toDecidableLE := inferInstanceAs (DecidableRel (@Le κ _))

theorem le_def {a b : Outcome κ} : a ≤ b ↔ a.Le b := Iff.rfl

@[simp] theorem win_le_win {k k' : κ} {n n' : ℕ} :
    win k n ≤ win k' n' ↔ n' < n ∨ (n = n' ∧ k ≤ k') := Iff.rfl
@[simp] theorem loss_le_loss {k k' : κ} {n n' : ℕ} :
    loss k n ≤ loss k' n' ↔ n < n' ∨ (n = n' ∧ k' ≤ k) := Iff.rfl
@[simp] theorem draw_le_win {k : κ} {n : ℕ} : draw ≤ win k n := trivial
@[simp] theorem loss_le_draw {k : κ} {n : ℕ} : loss k n ≤ draw := trivial
@[simp] theorem loss_le_win {k k' : κ} {n n' : ℕ} : loss k n ≤ win k' n' := trivial
@[simp] theorem not_win_le_draw {k : κ} {n : ℕ} : ¬ win k n ≤ draw := id
@[simp] theorem not_draw_le_loss {k : κ} {n : ℕ} : ¬ draw ≤ loss k n := id
@[simp] theorem not_win_le_loss {k k' : κ} {n n' : ℕ} : ¬ win k n ≤ loss k' n' := id

theorem win_lt_win {k k' : κ} {n n' : ℕ} :
    win k n < win k' n' ↔ n' < n ∨ (n = n' ∧ k < k') := by
  rw [lt_iff_le_not_ge, win_le_win, win_le_win]
  constructor
  · rintro ⟨h | ⟨rfl, -⟩, hn⟩
    · exact Or.inl h
    · exact Or.inr ⟨rfl, lt_of_not_ge (fun hk => hn (Or.inr ⟨rfl, hk⟩))⟩
  · rintro (h | ⟨rfl, h⟩)
    · exact ⟨Or.inl h, fun hn => by rcases hn with hn | ⟨hn, -⟩ <;> omega⟩
    · exact ⟨Or.inr ⟨rfl, h.le⟩, by rintro (hn | ⟨-, hk⟩); exacts [lt_irrefl _ hn, hk.not_gt h]⟩

theorem loss_lt_loss {k k' : κ} {n n' : ℕ} :
    loss k n < loss k' n' ↔ n < n' ∨ (n = n' ∧ k' < k) := by
  rw [lt_iff_le_not_ge, loss_le_loss, loss_le_loss]
  constructor
  · rintro ⟨h | ⟨rfl, -⟩, hn⟩
    · exact Or.inl h
    · exact Or.inr ⟨rfl, lt_of_not_ge (fun hk => hn (Or.inr ⟨rfl, hk⟩))⟩
  · rintro (h | ⟨rfl, h⟩)
    · exact ⟨Or.inl h, fun hn => by rcases hn with hn | ⟨hn, -⟩ <;> omega⟩
    · exact ⟨Or.inr ⟨rfl, h.le⟩, by rintro (hn | ⟨-, hk⟩); exacts [lt_irrefl _ hn, hk.not_gt h]⟩

/-- Whatever is at least a win in `n` plies is a win in at most `n` plies. -/
theorem win_le_iff {k : κ} {n : ℕ} {o : Outcome κ} :
    win k n ≤ o ↔ ∃ k' n', o = win k' n' ∧ (n' < n ∨ (n = n' ∧ k ≤ k')) := by
  cases o <;> simp

/-- Whatever is at most a loss in `n` plies is a loss in at most `n` plies. -/
theorem le_loss_iff {k : κ} {n : ℕ} {o : Outcome κ} :
    o ≤ loss k n ↔ ∃ k' n', o = loss k' n' ∧ (n' < n ∨ (n' = n ∧ k ≤ k')) := by
  cases o <;> simp

end Order

/-! ### The value of a move -/

/-- The value of a move for the player making it, from the outcome of the successor for the
    opponent.  A conversion (of some kind) resets the distance to one ply; a quiet move adds
    one ply to the successor's distance. -/
def moveValue : Option κ → Outcome κ → Outcome κ
  | some k, loss _ _ => win k 1
  | some _, draw => draw
  | some k, win _ _ => loss k 1
  | none, loss k n => win k (n + 1)
  | none, draw => draw
  | none, win k n => loss k (n + 1)

@[simp] theorem moveValue_some_loss (k k' : κ) (n : ℕ) :
    moveValue (some k) (loss k' n) = win k 1 := rfl
@[simp] theorem moveValue_some_win (k k' : κ) (n : ℕ) :
    moveValue (some k) (win k' n) = loss k 1 := rfl
@[simp] theorem moveValue_draw (k : Option κ) : moveValue k (draw : Outcome κ) = draw := by
  cases k <;> rfl
@[simp] theorem moveValue_none_loss (k : κ) (n : ℕ) :
    moveValue none (loss k n) = win k (n + 1) := rfl
@[simp] theorem moveValue_none_win (k : κ) (n : ℕ) :
    moveValue none (win k n) = loss k (n + 1) := rfl

theorem moveValue_eq_draw {k : Option κ} {o : Outcome κ} : moveValue k o = draw ↔ o = draw := by
  cases k <;> cases o <;> simp [moveValue]

theorem moveValue_isWin {k : Option κ} {o : Outcome κ} : (moveValue k o).IsWin ↔ o.IsLoss := by
  cases k <;> cases o <;> simp [moveValue]

theorem moveValue_isLoss {k : Option κ} {o : Outcome κ} : (moveValue k o).IsLoss ↔ o.IsWin := by
  cases k <;> cases o <;> simp [moveValue]

/-- A quiet move has a decided value of `n` plies exactly when its successor is decided one
    ply earlier. -/
theorem moveValue_none_eq_win {o : Outcome κ} {k : κ} {n : ℕ} :
    moveValue none o = win k n ↔ ∃ m, n = m + 1 ∧ o = loss k m := by
  cases o with
  | win k' n' => simp
  | draw => simp
  | loss k' n' =>
    simp only [moveValue_none_loss, win.injEq, loss.injEq]
    constructor
    · rintro ⟨rfl, rfl⟩; exact ⟨n', rfl, rfl, rfl⟩
    · rintro ⟨m, rfl, rfl, rfl⟩; exact ⟨rfl, rfl⟩

theorem moveValue_none_eq_loss {o : Outcome κ} {k : κ} {n : ℕ} :
    moveValue none o = loss k n ↔ ∃ m, n = m + 1 ∧ o = win k m := by
  cases o with
  | loss k' n' => simp
  | draw => simp
  | win k' n' =>
    simp only [moveValue_none_win, loss.injEq, win.injEq]
    constructor
    · rintro ⟨rfl, rfl⟩; exact ⟨n', rfl, rfl, rfl⟩
    · rintro ⟨m, rfl, rfl, rfl⟩; exact ⟨rfl, rfl⟩

end Outcome
