import Mathlib

/-!
# Operations on a state that may fail

An operation leaves a state also when it fails.

* `Op` — operations, and what their steps do to a state;
* `Op.Triple` — from states with a property to results and states with a property;
* `Op.Triple.bind`, `Op.Triple.foldlM`, `Op.Triple.forM` — the rules.
-/

namespace ChessEgt

/-- An operation on a state, with a value or a fault. -/
abbrev Op (ε σ : Type) := ExceptT ε (StateM σ)

namespace Op

variable {ε σ α β γ : Type} {m : Op ε σ α} {f : α → Op ε σ β} {s s' : σ}

/-- What an operation returns, and the state that it leaves. -/
def exec (m : Op ε σ α) (s : σ) : Except ε α × σ := m s

@[simp] theorem exec_pure (a : α) (s : σ) : exec (pure a : Op ε σ α) s = (.ok a, s) := rfl

@[simp] theorem exec_throw (e : ε) (s : σ) : exec (throw e : Op ε σ α) s = (.error e, s) := rfl

@[simp] theorem exec_get (s : σ) : exec (get : Op ε σ σ) s = (.ok s, s) := rfl

@[simp] theorem exec_set (s s' : σ) : exec (set s' : Op ε σ PUnit) s = (.ok ⟨⟩, s') := rfl

@[simp] theorem exec_modify (f : σ → σ) (s : σ) :
    exec (modify f : Op ε σ PUnit) s = (.ok ⟨⟩, f s) := rfl

@[simp] theorem exec_lift (x : Except ε α) (s : σ) :
    exec (liftM x : Op ε σ α) s = (x, s) := rfl

theorem exec_bind (m : Op ε σ α) (f : α → Op ε σ β) (s : σ) : exec (m >>= f) s =
    match exec m s with
    | (.ok a, s') => exec (f a) s'
    | (.error e, s') => (.error e, s') := by
  show (ExceptT.bindCont f (m s).1) (m s).2 = _
  unfold exec
  rcases m s with ⟨a | e, s'⟩ <;> rfl

/-- The rest of an operation runs from the state that a successful step leaves. -/
theorem exec_bind_ok {a : α} (h : exec m s = (.ok a, s')) : exec (m >>= f) s = exec (f a) s' := by
  rw [exec_bind, h]

theorem exec_bind_error {e : ε} (h : exec m s = (.error e, s')) :
    exec (m >>= f) s = (.error e, s') := by
  rw [exec_bind, h]

/-! ### Triples -/

/-- From states with `P`, an operation leaves a result and a state with `Q`. -/
def Triple (P : σ → Prop) (m : Op ε σ α) (Q : Except ε α → σ → Prop) : Prop :=
  ∀ s, P s → Q (exec m s).1 (exec m s).2

/-- What holds after a value, and after a fault. -/
def Post (I : α → σ → Prop) (E : ε → σ → Prop) : Except ε α → σ → Prop
  | .ok a, s => I a s
  | .error e, s => E e s

/-- The same property of states, whatever the result. -/
abbrev Keeps (P : σ → Prop) (m : Op ε σ α) : Prop := Triple P m fun _ => P

namespace Triple

variable {P P' : σ → Prop} {Q Q' : Except ε α → σ → Prop} {R : Except ε β → σ → Prop}

theorem of_exec (h : ∀ s, P s → ∃ x s', exec m s = (x, s') ∧ Q x s') : Triple P m Q := by
  intro s hs
  obtain ⟨x, s', he, hq⟩ := h s hs
  rw [he]
  exact hq

theorem exists_exec (h : Triple P m Q) (hs : P s) : ∃ x s', exec m s = (x, s') ∧ Q x s' :=
  ⟨_, _, rfl, h s hs⟩

theorem weaken (h : Triple P m Q) (hp : ∀ s, P' s → P s) (hq : ∀ x s, Q x s → Q' x s) :
    Triple P' m Q' := fun s hs => hq _ _ (h s (hp s hs))

protected theorem pure {a : α} (h : ∀ s, P s → Q (.ok a) s) : Triple P (pure a) Q := h

protected theorem throw {e : ε} (h : ∀ s, P s → Q (.error e) s) : Triple P (throw e) Q := h

protected theorem lift {x : Except ε α} (h : ∀ s, P s → Q x s) : Triple P (liftM x) Q := h

protected theorem get {Q : Except ε σ → σ → Prop} (h : ∀ s, P s → Q (.ok s) s) :
    Triple P (get : Op ε σ σ) Q := h

protected theorem set {Q : Except ε PUnit → σ → Prop} (h : ∀ s, P s → Q (.ok ⟨⟩) s') :
    Triple P (set s' : Op ε σ PUnit) Q := h

protected theorem modify {Q : Except ε PUnit → σ → Prop} {g : σ → σ}
    (h : ∀ s, P s → Q (.ok ⟨⟩) (g s)) : Triple P (modify g : Op ε σ PUnit) Q := h

/-- **Sequencing**: the rest runs from what a successful step leaves, and a fault ends the run. -/
protected theorem bind (hm : Triple P m Q) (hok : ∀ a, Triple (Q (.ok a)) (f a) R)
    (herror : ∀ e s, Q (.error e) s → R (.error e) s) : Triple P (m >>= f) R := by
  intro s hs
  have h := hm s hs
  rw [exec_bind]
  rcases he : exec m s with ⟨a | e, s'⟩
  · rw [he] at h
    exact herror a s' h
  · rw [he] at h
    exact hok e s' h

/-- A step that reads the state. -/
theorem get_bind {f : σ → Op ε σ β} (h : ∀ s, P s → R (exec (f s) s).1 (exec (f s) s).2) :
    Triple P (get >>= f) R := h

/-- **A loop** keeps a property of what it has gathered. -/
theorem foldlM {l : List γ} {f : β → γ → Op ε σ β} {I : β → σ → Prop} {E : ε → σ → Prop}
    (h : ∀ b, ∀ c ∈ l, Triple (I b) (f b c) (Post I E)) (b : β) :
    Triple (I b) (l.foldlM f b) (Post I E) := by
  induction l generalizing b with
  | nil => exact Triple.pure fun s hs => hs
  | cons c l ih =>
    rw [List.foldlM_cons]
    refine Triple.bind (h b c List.mem_cons_self) (fun b' => ?_) fun e s he => he
    exact ih (fun b c hc => h b c (List.mem_cons_of_mem _ hc)) b'

theorem forM {l : List γ} {f : γ → Op ε σ PUnit} {Q : Except ε PUnit → σ → Prop}
    (h : ∀ c ∈ l, Triple P (f c) fun x s => x = .ok ⟨⟩ ∧ P s) (hq : ∀ s, P s → Q (.ok ⟨⟩) s) :
    Triple P (l.forM f) Q := by
  induction l with
  | nil => exact Triple.pure hq
  | cons c l ih =>
    show Triple P (f c >>= fun _ => l.forM f) Q
    refine Triple.bind (h c List.mem_cons_self) (fun a => ?_) fun e s he => ?_
    · exact (ih fun c hc => h c (List.mem_cons_of_mem _ hc)).weaken (fun s hs => hs.2)
        fun _ _ hq => hq
    · cases he.1

end Triple

end Op

end ChessEgt
