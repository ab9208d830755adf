import Mathlib

/-!
# Errors and panics

A run of a fallible function of the program returns a value, returns an error, or panics: an
index out of bounds, a subtraction below zero, a failed assertion, an unwrapped `None`.
-/

namespace ChessEgt

/-- The errors of the modelled functions. -/
inductive EgtError where
  | invalidEndgameName (name : List Char) (reason : String)
  | unsupportedPosition (reason : String)
  | corruptedOutcome (value index : ℕ)
  | consistencyCheckFailed (endgame : List Char) (index : ℕ) (reason : String)
  | indexOutOfRange (index range : ℕ)
  | fileNotFound (name : List Char)
  | dependencyUnavailable (dependency : List Char) (source : EgtError)
  | invalidStorageLocation (reason : String)
  | storage (reason : String)
  | json (reason : String)
  | io (reason : String)
  | internal (reason : String)
  deriving Repr, DecidableEq

/-- A run that did not return a value. -/
inductive Fault where
  | error (e : EgtError)
  | panicked (reason : String)
  deriving Repr, DecidableEq

/-- A run of a fallible function. -/
abbrev Run := Except Fault

namespace Run

variable {α β : Type}

/-- An assertion. -/
def ensure (c : Prop) [Decidable c] (reason : String) : Run Unit :=
  if c then .ok () else .error (.panicked reason)

/-- Unwraps an option. -/
def expect (o : Option α) (reason : String) : Run α :=
  match o with
  | some a => .ok a
  | none => .error (.panicked reason)

/-- An element of an array. -/
def index (l : List α) (i : ℕ) : Run α := expect l[i]? "index out of bounds"

/-- A write to a place of an array. -/
def store (l : List α) (i : ℕ) (a : α) : Run (List α) :=
  if i < l.length then .ok (l.set i a) else .error (.panicked "index out of bounds")

/-- A subtraction of unsigned numbers. -/
def sub (a b : ℕ) : Run ℕ :=
  if b ≤ a then .ok (a - b) else .error (.panicked "attempt to subtract with overflow")

/-- A fallible function whose error is not a panic. -/
def ofExcept (x : Except EgtError α) : Run α :=
  match x with
  | .ok a => .ok a
  | .error e => .error (.error e)

theorem ensure_eq {c : Prop} [Decidable c] (h : c) (reason : String) :
    ensure c reason = .ok () := if_pos h

theorem expect_some (a : α) (reason : String) : expect (some a) reason = .ok a := rfl

theorem index_eq {l : List α} {i : ℕ} {a : α} (h : l[i]? = some a) : index l i = .ok a := by
  rw [index, h, expect_some]

theorem store_eq {l : List α} {i : ℕ} (h : i < l.length) (a : α) :
    store l i a = .ok (l.set i a) := if_pos h

theorem sub_eq {a b : ℕ} (h : b ≤ a) : sub a b = .ok (a - b) := if_pos h

@[simp] theorem ok_bind (a : α) (f : α → Run β) : ((.ok a : Run α) >>= f) = f a := rfl

@[simp] theorem error_bind (fault : Fault) (f : α → Run β) :
    ((.error fault : Run α) >>= f) = .error fault := rfl

@[simp] theorem map_ok (f : α → β) (a : α) : (f <$> (.ok a : Run α)) = .ok (f a) := rfl

@[simp] theorem pure_eq_ok (a : α) : (pure a : Run α) = .ok a := rfl

theorem bind_eq_ok {x : Run α} {f : α → Run β} {b : β} :
    x >>= f = .ok b ↔ ∃ a, x = .ok a ∧ f a = .ok b := by
  cases x with
  | ok a => exact ⟨fun h => ⟨a, rfl, h⟩, fun ⟨_, h, hf⟩ => (Except.ok.inj h) ▸ hf⟩
  | error e =>
    constructor
    · intro h; cases h
    · rintro ⟨_, h, -⟩; cases h

/-- A list of runs that all succeed. -/
theorem mapM_eq_ok {f : α → Run β} {g : α → β} {l : List α} (h : ∀ a ∈ l, f a = .ok (g a)) :
    l.mapM f = .ok (l.map g) := by
  induction l with
  | nil => rfl
  | cons a l ih =>
    rw [List.mapM_cons, h a List.mem_cons_self, ok_bind,
      ih (fun b hb => h b (List.mem_cons_of_mem _ hb)), ok_bind]
    rfl

/-- A list of runs fails if one of them does. -/
theorem mapM_forall₂ (f : α → Run β) (l : List α) :
    (∃ bs, l.mapM f = .ok bs ∧ List.Forall₂ (fun a b => f a = .ok b) l bs) ∨
      (∃ e, l.mapM f = .error e) ∧ ∃ a ∈ l, ∃ e, f a = .error e := by
  induction l with
  | nil => exact Or.inl ⟨[], rfl, .nil⟩
  | cons a l ih =>
    rw [List.mapM_cons]
    rcases ha : f a with e | b
    · exact Or.inr ⟨⟨e, rfl⟩, a, List.mem_cons_self, e, ha⟩
    rcases ih with ⟨bs, hbs, hall⟩ | ⟨⟨e, he⟩, a', ha', e', he'⟩
    · refine Or.inl ⟨b :: bs, ?_, .cons ha hall⟩
      rw [hbs]
      rfl
    · refine Or.inr ⟨⟨e, ?_⟩, a', List.mem_cons_of_mem _ ha', e', he'⟩
      rw [he]
      rfl

end Run

end ChessEgt
