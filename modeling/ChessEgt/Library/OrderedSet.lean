import Mathlib

/-!
# Ordered sets with a fallible comparison

A set is a list in strictly increasing order, into which items are inserted one after the other.
The comparison may fail; `OrderedSet.collect_eq` says that on items where it follows a linear
order it never does, and that the set holds exactly the inserted items.
-/

namespace OrderedSet

variable {ε α κ : Type} (cmp : α → α → Except ε Ordering)

/-- Inserts an item in its place, unless an equal one is there. -/
def insert (a : α) : List α → Except ε (List α)
  | [] => .ok [a]
  | b :: set => do
    match ← cmp a b with
    | .lt => pure (a :: b :: set)
    | .eq => pure (b :: set)
    | .gt => do
      let set ← insert a set
      pure (b :: set)

/-- Inserts items into the empty set. -/
def collect (items : List α) : Except ε (List α) :=
  items.foldlM (fun set a => insert cmp a set) []

/-- On the items with `P` the comparison is the comparison of keys that tell the items apart. -/
structure Follows (P : α → Prop) (key : α → κ) (ord : κ → κ → Ordering) : Prop where
  cmp_eq : ∀ {a b}, P a → P b → cmp a b = .ok (ord (key a) (key b))
  injective : ∀ {a b}, P a → P b → key a = key b → a = b

variable {cmp} {P : α → Prop} {key : α → κ} {ord : κ → κ → Ordering} [Std.TransCmp ord]
  [Std.LawfulEqCmp ord]

/-- Items in strictly increasing order. -/
def Increasing (key : α → κ) (ord : κ → κ → Ordering) (set : List α) : Prop :=
  set.Pairwise fun a b => ord (key a) (key b) = .lt

theorem insert_eq (h : Follows cmp P key ord) {a : α} (ha : P a) {set : List α}
    (hset : ∀ b ∈ set, P b) (hinc : Increasing key ord set) :
    ∃ set', insert cmp a set = .ok set' ∧ Increasing key ord set' ∧
      ∀ x, x ∈ set' ↔ x = a ∨ x ∈ set := by
  induction set with
  | nil => exact ⟨[a], rfl, List.pairwise_singleton _ _, fun x => by simp⟩
  | cons b set ih =>
    have hb := hset b List.mem_cons_self
    have hcons := List.pairwise_cons.mp hinc
    rw [insert, h.cmp_eq ha hb]
    show ∃ set', (match ord (key a) (key b) with
      | .lt => pure (a :: b :: set)
      | .eq => pure (b :: set)
      | .gt => do
        let set ← insert cmp a set
        pure (b :: set) : Except ε (List α)) = .ok set' ∧ _
    cases hord : ord (key a) (key b) with
    | lt =>
      refine ⟨a :: b :: set, rfl, List.pairwise_cons.mpr ⟨fun c hc => ?_, hinc⟩, fun x => ?_⟩
      · rcases List.mem_cons.mp hc with rfl | hc
        · exact hord
        · exact Std.TransCmp.lt_trans hord (hcons.1 c hc)
      · exact List.mem_cons
    | eq =>
      refine ⟨b :: set, rfl, hinc, fun x => ?_⟩
      have hab := h.injective ha hb (Std.LawfulEqCmp.eq_of_compare hord)
      rw [hab, List.mem_cons]
      exact ⟨Or.inr, fun hx => hx.elim Or.inl id⟩
    | gt =>
      obtain ⟨set', hset', hinc', hmem⟩ := ih (fun c hc => hset c (List.mem_cons_of_mem _ hc)) hcons.2
      refine ⟨b :: set', ?_, List.pairwise_cons.mpr ⟨fun c hc => ?_, hinc'⟩, fun x => ?_⟩
      · simp only [hset']
        rfl
      · rcases (hmem c).mp hc with rfl | hc
        · exact Std.OrientedCmp.lt_of_gt hord
        · exact hcons.1 c hc
      · rw [List.mem_cons, hmem, List.mem_cons]
        exact or_left_comm

/-- **Collecting** items sorts them without repetitions. -/
theorem collect_eq (h : Follows cmp P key ord) {items : List α} (hitems : ∀ a ∈ items, P a) :
    ∃ set, collect cmp items = .ok set ∧ Increasing key ord set ∧ ∀ x, x ∈ set ↔ x ∈ items := by
  -- What is collected behind a set that is already there.
  have hrun : ∀ (items set : List α), (∀ a ∈ items, P a) → (∀ b ∈ set, P b) →
      Increasing key ord set → ∃ set', items.foldlM (fun set a => insert cmp a set) set = .ok set' ∧
        Increasing key ord set' ∧ ∀ x, x ∈ set' ↔ x ∈ items ∨ x ∈ set := by
    intro items
    induction items with
    | nil => exact fun set _ _ hinc => ⟨set, rfl, hinc, fun x => by simp⟩
    | cons a items ih =>
      intro set hitems hset hinc
      have ha := hitems a List.mem_cons_self
      obtain ⟨set₁, hins, hinc₁, hmem₁⟩ := insert_eq h ha hset hinc
      have hset₁ : ∀ b ∈ set₁, P b := by
        intro b hb
        rcases (hmem₁ b).mp hb with rfl | hb
        · exact ha
        · exact hset b hb
      obtain ⟨set₂, hfold, hinc₂, hmem₂⟩ :=
        ih set₁ (fun b hb => hitems b (List.mem_cons_of_mem _ hb)) hset₁ hinc₁
      refine ⟨set₂, ?_, hinc₂, fun x => ?_⟩
      · rw [List.foldlM_cons, hins]
        exact hfold
      · rw [hmem₂, hmem₁, List.mem_cons]
        exact ⟨fun hx => by tauto, fun hx => by tauto⟩
  obtain ⟨set, hfold, hinc, hmem⟩ := hrun items [] hitems
    (fun b hb => absurd hb List.not_mem_nil) List.Pairwise.nil
  exact ⟨set, hfold, hinc, fun x => by rw [hmem]; simp⟩

end OrderedSet
