import Mathlib

/-!
# Selections with repetition

`Multichoose.selections k l` lists the ways to take `k` items of `l` in their order, each any
number of times; `mem_selections` says which lists these are: those with a multiplicity for each
item.
-/

namespace Multichoose

variable {α : Type*}

/-- The selections of `k` items, with repetition, in the order of the list. -/
def selections : ℕ → List α → List (List α)
  | 0, _ => [[]]
  | k + 1, l => l.tails.flatMap fun rest =>
    match rest with
    | [] => []
    | a :: rest => (selections k (a :: rest)).map (a :: ·)

/-- The items, each with its multiplicity. -/
def repeated (m : α → ℕ) (l : List α) : List α := l.flatMap fun a => List.replicate (m a) a

theorem repeated_congr {m m' : α → ℕ} {l : List α} (h : ∀ a ∈ l, m a = m' a) :
    repeated m l = repeated m' l := List.flatMap_congr (fun a ha => by rw [h a ha])

@[simp] theorem repeated_nil (m : α → ℕ) : repeated m [] = [] := rfl

theorem repeated_cons (m : α → ℕ) (a : α) (l : List α) :
    repeated m (a :: l) = List.replicate (m a) a ++ repeated m l := rfl

theorem repeated_append (m : α → ℕ) (l l' : List α) :
    repeated m (l ++ l') = repeated m l ++ repeated m l' := List.flatMap_append

theorem repeated_zero {m : α → ℕ} {l : List α} (h : ∀ a ∈ l, m a = 0) : repeated m l = [] := by
  rw [repeated, List.flatMap_eq_nil_iff]
  intro a ha
  rw [h a ha, List.replicate_zero]

theorem mem_selections_succ {k : ℕ} {l c : List α} : c ∈ selections (k + 1) l ↔
    ∃ before a rest c', l = before ++ a :: rest ∧ c = a :: c' ∧ c' ∈ selections k (a :: rest) := by
  rw [selections, List.mem_flatMap]
  constructor
  · rintro ⟨tail, htail, hc⟩
    obtain ⟨before, rfl⟩ := (List.mem_tails _ _).mp htail
    cases tail with
    | nil => exact absurd hc List.not_mem_nil
    | cons a rest =>
      obtain ⟨c', hc', rfl⟩ := List.mem_map.mp hc
      exact ⟨before, a, rest, c', rfl, rfl, hc'⟩
  · rintro ⟨before, a, rest, c', rfl, rfl, hc'⟩
    exact ⟨a :: rest, (List.mem_tails _ _).mpr (List.suffix_append _ _),
      List.mem_map.mpr ⟨c', hc', rfl⟩⟩

/-- The first item that is taken at all. -/
theorem exists_first {m : α → ℕ} {l : List α} (h : repeated m l ≠ []) :
    ∃ before a rest, l = before ++ a :: rest ∧ (∀ x ∈ before, m x = 0) ∧ m a ≠ 0 := by
  induction l with
  | nil => exact absurd rfl h
  | cons a l ih =>
    by_cases ha : m a = 0
    · rw [repeated_cons, ha, List.replicate_zero, List.nil_append] at h
      obtain ⟨before, b, rest, rfl, hbefore, hb⟩ := ih h
      exact ⟨a :: before, b, rest, rfl, List.forall_mem_cons.mpr ⟨ha, hbefore⟩, hb⟩
    · exact ⟨[], a, l, rfl, fun x hx => absurd hx List.not_mem_nil, ha⟩

open Classical in
/-- **The selections** are the lists of items with multiplicities. -/
theorem mem_selections {k : ℕ} {l : List α} (hl : l.Nodup) {c : List α} :
    c ∈ selections k l ↔ c.length = k ∧ ∃ m : α → ℕ, c = repeated m l := by
  induction k generalizing l c with
  | zero =>
    rw [selections, List.mem_singleton, List.length_eq_zero_iff]
    refine ⟨fun h => ⟨h, fun _ => 0, ?_⟩, fun h => h.1⟩
    rw [h, repeated_zero fun _ _ => rfl]
  | succ k ih =>
    rw [mem_selections_succ]
    constructor
    · rintro ⟨before, a, rest, c', rfl, rfl, hc'⟩
      obtain ⟨-, hrest, hdisj⟩ := List.nodup_append.mp hl
      obtain ⟨hlen, m, rfl⟩ := (ih hrest).mp hc'
      have ha := (List.nodup_cons.mp hrest).1
      refine ⟨by rw [List.length_cons, hlen], fun x => if x ∈ before then 0
        else if x = a then m a + 1 else m x, ?_⟩
      have hbefore : repeated (fun x => if x ∈ before then 0
          else if x = a then m a + 1 else m x) before = [] :=
        repeated_zero fun x hx => if_pos hx
      have hnot : a ∉ before := fun hm => hdisj a hm a List.mem_cons_self rfl
      rw [repeated_append, hbefore, List.nil_append, repeated_cons, repeated_cons, if_neg hnot,
        if_pos rfl, List.replicate_succ, List.cons_append]
      congr 2
      refine repeated_congr fun x hx => ?_
      have hx' : x ∉ before := fun hm => hdisj x hm x (List.mem_cons_of_mem _ hx) rfl
      have hne : x ≠ a := fun he => ha (he ▸ hx)
      rw [if_neg hx', if_neg hne]
    · rintro ⟨hlen, m, rfl⟩
      have hne : repeated m l ≠ [] := by
        intro h0
        rw [h0, List.length_nil] at hlen
        omega
      obtain ⟨before, a, rest, rfl, hbefore, hma⟩ := exists_first hne
      obtain ⟨-, hrest, -⟩ := List.nodup_append.mp hl
      have ha := (List.nodup_cons.mp hrest).1
      obtain ⟨n, hn⟩ := Nat.exists_eq_succ_of_ne_zero hma
      have hsplit : repeated m (before ++ a :: rest)
          = a :: repeated (Function.update m a n) (a :: rest) := by
        rw [repeated_append, repeated_zero hbefore, List.nil_append, repeated_cons, repeated_cons,
          hn, List.replicate_succ, Function.update_self, List.cons_append]
        congr 2
        refine repeated_congr fun x hx => ?_
        have hxa : x ≠ a := fun he => ha (he ▸ hx)
        rw [Function.update_of_ne hxa]
      refine ⟨before, a, rest, _, rfl, hsplit, (ih hrest).mpr ⟨?_, _, rfl⟩⟩
      rw [hsplit, List.length_cons] at hlen
      omega

end Multichoose
