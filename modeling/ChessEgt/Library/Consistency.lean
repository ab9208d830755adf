import ChessEgt.Library.Outcome

/-!
# Locally consistent outcome assignments

A *local system* is a set of nodes whose moves are either quiet, leading to another node, or
conversions, leaving the system with a known result.  An assignment of outcomes is consistent
at a node when the node carries its terminal outcome, or the best value over its moves.

* `Consistent.eq_of_closed` — two assignments that are consistent on a set of nodes closed
  under quiet moves agree on it: cycles of quiet moves support no second fixpoint, because a
  decided outcome always rests on one decided a ply earlier;
* `Consistent.win_iff`, `Consistent.loss_iff` — what a decided outcome says about the moves.
-/

/-- A move of a local system. -/
inductive Edge (N κ : Type*) where
  | quiet (target : N)
  | conversion (kind : κ) (result : Outcome κ)

namespace Edge

variable {N κ : Type*}

/-- The value of a move under an assignment of outcomes to the nodes. -/
def value (o : N → Outcome κ) : Edge N κ → Outcome κ
  | quiet t => Outcome.moveValue none (o t)
  | conversion k r => Outcome.moveValue (some k) r

@[simp] theorem value_quiet (o : N → Outcome κ) (t : N) :
    (quiet t : Edge N κ).value o = Outcome.moveValue none (o t) := rfl
@[simp] theorem value_conversion (o : N → Outcome κ) (k : κ) (r : Outcome κ) :
    (conversion k r : Edge N κ).value o = Outcome.moveValue (some k) r := rfl

end Edge

open Outcome

variable {N κ : Type*} [LinearOrder κ]

/-- The assignment `o` is consistent at `i`: a node without moves has its terminal outcome,
    any other node the greatest value over its moves. -/
structure Consistent (edges : N → Set (Edge N κ)) (terminal : N → Outcome κ)
    (o : N → Outcome κ) (i : N) : Prop where
  terminal_eq : edges i = ∅ → o i = terminal i
  isGreatest : (edges i).Nonempty → IsGreatest (Edge.value o '' edges i) (o i)

namespace Consistent

variable {edges : N → Set (Edge N κ)} {terminal : N → Outcome κ} {o o' : N → Outcome κ} {i : N}

theorem value_le (h : Consistent edges terminal o i) {e : Edge N κ} (he : e ∈ edges i) :
    e.value o ≤ o i :=
  (h.isGreatest ⟨e, he⟩).2 ⟨e, he, rfl⟩

theorem exists_value_eq (h : Consistent edges terminal o i) (hne : (edges i).Nonempty) :
    ∃ e ∈ edges i, e.value o = o i :=
  (h.isGreatest hne).1

/-- If every move of a node has the same value under both assignments, so has the node. -/
theorem eq_of_values (h : Consistent edges terminal o i) (h' : Consistent edges terminal o' i)
    (hv : ∀ e ∈ edges i, e.value o' = e.value o) : o' i = o i := by
  rcases (edges i).eq_empty_or_nonempty with he | hne
  · rw [h.terminal_eq he, h'.terminal_eq he]
  · have himg : Edge.value o' '' edges i = Edge.value o '' edges i := Set.image_congr hv
    have hg := h'.isGreatest hne
    rw [himg] at hg
    exact hg.unique (h.isGreatest hne)

/-- A node lost at `n` plies passes its outcome to any assignment that agrees below `n`. -/
theorem loss_transfer {V : Set N} {k : κ} {n : ℕ}
    (h : Consistent edges terminal o i) (h' : Consistent edges terminal o' i)
    (hclosed : ∀ t, Edge.quiet t ∈ edges i → t ∈ V)
    (ih : ∀ j ∈ V, ∀ m < n, (o j).plies? = some m → o' j = o j)
    (hi : o i = loss k n) : o' i = o i := by
  apply eq_of_values h h'
  intro e he
  have hle := h.value_le he
  rw [hi, le_loss_iff] at hle
  obtain ⟨k', n', hval, hn⟩ := hle
  cases e with
  | conversion k r => rfl
  | quiet t =>
    rw [Edge.value_quiet, moveValue_none_eq_loss] at hval
    obtain ⟨m, hm, hot⟩ := hval
    have := ih t (hclosed t he) m (by omega) (by rw [hot, plies?_win])
    rw [Edge.value_quiet, Edge.value_quiet, this]

/-- A node won at `n` plies is won at least as well under any assignment that agrees
    below `n`. -/
theorem win_transfer {V : Set N} {k : κ} {n : ℕ} (hterm : ∀ j, ¬ (terminal j).IsWin)
    (h : Consistent edges terminal o i) (h' : Consistent edges terminal o' i)
    (hclosed : ∀ t, Edge.quiet t ∈ edges i → t ∈ V)
    (ih : ∀ j ∈ V, ∀ m < n, (o j).plies? = some m → o' j = o j)
    (hi : o i = win k n) : win k n ≤ o' i := by
  rcases (edges i).eq_empty_or_nonempty with he | hne
  · have := hterm i
    rw [← h.terminal_eq he, hi] at this
    exact absurd trivial this
  · obtain ⟨e, he, hval⟩ := h.exists_value_eq hne
    have hle := h'.value_le he
    cases e with
    | conversion k' r => rwa [Edge.value_conversion, ← Edge.value_conversion o, hval, hi] at hle
    | quiet t =>
      rw [hi, Edge.value_quiet, moveValue_none_eq_win] at hval
      obtain ⟨m, rfl, hot⟩ := hval
      rw [Edge.value_quiet, ih t (hclosed t he) m (by omega) (by rw [hot, plies?_loss]), hot,
        moveValue_none_loss] at hle
      exact hle

/-- **Uniqueness.** Two assignments consistent on a set closed under quiet moves agree on it. -/
theorem eq_of_closed {V : Set N} (hterm : ∀ j, ¬ (terminal j).IsWin)
    (h : ∀ j ∈ V, Consistent edges terminal o j) (h' : ∀ j ∈ V, Consistent edges terminal o' j)
    (hclosed : ∀ j ∈ V, ∀ t, Edge.quiet t ∈ edges j → t ∈ V) : ∀ j ∈ V, o' j = o j := by
  -- Induction on the distance: both assignments are decided at `n` plies by the same nodes.
  have key : ∀ n, (∀ j ∈ V, (o j).plies? = some n → o' j = o j) ∧
      (∀ j ∈ V, (o' j).plies? = some n → o j = o' j) := by
    intro n
    induction n using Nat.strong_induction_on with
    | _ n ih =>
      have ih₁ : ∀ j ∈ V, ∀ m < n, (o j).plies? = some m → o' j = o j :=
        fun j hj m hm => (ih m hm).1 j hj
      have ih₂ : ∀ j ∈ V, ∀ m < n, (o' j).plies? = some m → o j = o' j :=
        fun j hj m hm => (ih m hm).2 j hj
      -- One direction for an arbitrary ordered pair of assignments.
      have half : ∀ a b : N → Outcome κ, (∀ j ∈ V, Consistent edges terminal a j) →
          (∀ j ∈ V, Consistent edges terminal b j) →
          (∀ j ∈ V, ∀ m < n, (a j).plies? = some m → b j = a j) →
          (∀ j ∈ V, ∀ m < n, (b j).plies? = some m → a j = b j) →
          ∀ j ∈ V, (a j).plies? = some n → b j = a j := by
        intro a b ha hb hab hba j hj hp
        cases haj : a j with
        | draw => rw [haj] at hp; simp at hp
        | loss k m =>
          rw [haj, plies?_loss, Option.some.injEq] at hp
          subst hp
          rw [← haj]
          exact loss_transfer (ha j hj) (hb j hj) (hclosed j hj) hab haj
        | win k m =>
          rw [haj, plies?_win, Option.some.injEq] at hp
          subst hp
          have hle := win_transfer hterm (ha j hj) (hb j hj) (hclosed j hj) hab haj
          obtain ⟨k', m', hbj, hcmp⟩ := win_le_iff.mp hle
          rcases hcmp with hlt | ⟨rfl, hk⟩
          · -- A quicker win in `b` would already be shared.
            have := hba j hj m' hlt (by rw [hbj, plies?_win])
            rw [haj, hbj, win.injEq] at this
            omega
          · have hback := win_transfer hterm (hb j hj) (ha j hj) (hclosed j hj) hba hbj
            rw [haj, win_le_win] at hback
            rw [hbj, le_antisymm (hback.resolve_left (lt_irrefl _)).2 hk]
      exact ⟨half o o' h h' ih₁ ih₂, half o' o h' h ih₂ ih₁⟩
  intro j hj
  cases hoj : (o j).plies? with
  | some n => exact (key n).1 j hj hoj
  | none =>
    cases hoj' : (o' j).plies? with
    | some n => exact ((key n).2 j hj hoj').symm
    | none => rw [plies?_eq_none.mp hoj, plies?_eq_none.mp hoj']

/-- A node is won exactly when some move wins it, and then its outcome is the best such
    value. -/
theorem isWin_iff (hterm : ∀ j, ¬ (terminal j).IsWin) (h : Consistent edges terminal o i) :
    (o i).IsWin ↔ ∃ e ∈ edges i, (e.value o).IsWin := by
  constructor
  · intro hw
    rcases (edges i).eq_empty_or_nonempty with he | hne
    · rw [h.terminal_eq he] at hw
      exact absurd hw (hterm i)
    · obtain ⟨e, he, hval⟩ := h.exists_value_eq hne
      exact ⟨e, he, by rwa [hval]⟩
  · rintro ⟨e, he, hw⟩
    obtain ⟨k, n, hval⟩ := Outcome.isWin_iff.mp hw
    have hle := h.value_le he
    rw [hval, win_le_iff] at hle
    obtain ⟨k', n', ho, -⟩ := hle
    rw [ho]; exact isWin_win _ _

/-- A node with moves is lost exactly when every move loses. -/
theorem isLoss_iff (h : Consistent edges terminal o i) (hne : (edges i).Nonempty) :
    (o i).IsLoss ↔ ∀ e ∈ edges i, (e.value o).IsLoss := by
  constructor
  · intro hl e he
    obtain ⟨k, n, ho⟩ := Outcome.isLoss_iff.mp hl
    have hle := h.value_le he
    rw [ho, le_loss_iff] at hle
    obtain ⟨k', n', hval, -⟩ := hle
    rw [hval]; exact isLoss_loss _ _
  · intro hall
    obtain ⟨e, he, hval⟩ := h.exists_value_eq hne
    rw [← hval]; exact hall e he

end Consistent
