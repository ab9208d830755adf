import Mathlib

/-!
# Numbering items by insertion

Items are numbered in the order of their insertion; a second table maps the key of an item back
to its number.  `IndexTable.toIndex_build` says that the two tables are inverse when no key
repeats.
-/

/-- Items by number, and numbers by key. -/
structure IndexTable (α : Type*) where
  fromIndex : List α
  toIndex : ℕ → Option ℕ

namespace IndexTable

variable {α : Type*} (key : α → ℕ)

/-- No items. -/
def empty : IndexTable α := ⟨[], fun _ => none⟩

/-- Gives an item the next number. -/
def insert (t : IndexTable α) (a : α) : IndexTable α where
  fromIndex := t.fromIndex ++ [a]
  toIndex := Function.update t.toIndex (key a) (some t.fromIndex.length)

/-- Inserts items one after the other. -/
def insertAll (t : IndexTable α) (l : List α) : IndexTable α := l.foldl (insert key) t

variable {key}

theorem insertAll_append (t : IndexTable α) (l l' : List α) :
    t.insertAll key (l ++ l') = (t.insertAll key l).insertAll key l' := List.foldl_append

@[simp] theorem fromIndex_insertAll (t : IndexTable α) (l : List α) :
    (t.insertAll key l).fromIndex = t.fromIndex ++ l := by
  induction l generalizing t with
  | nil => exact (List.append_nil _).symm
  | cons a l ih =>
    show ((t.insert key a).insertAll key l).fromIndex = _
    rw [ih]
    simp [insert]

/-- With distinct keys, looking up a key finds the number of its item. -/
theorem toIndex_build {l : List α} (h : (l.map key).Nodup) {k i : ℕ} :
    ((empty : IndexTable α).insertAll key l).toIndex k = some i
      ↔ ∃ a, l[i]? = some a ∧ key a = k := by
  induction l using List.reverseRecOn generalizing i with
  | nil => simp [insertAll, empty]
  | append_singleton l a ih =>
    rw [List.map_append, List.nodup_append] at h
    have ih := fun i => ih h.1 (i := i)
    rw [insertAll_append]
    show (Function.update _ (key a) _) k = _ ↔ _
    have hlen : ((empty : IndexTable α).insertAll key l).fromIndex.length = l.length := by
      simp [empty]
    rw [hlen]
    by_cases hk : k = key a
    · subst hk
      rw [Function.update_self, Option.some.injEq]
      constructor
      · rintro rfl
        exact ⟨a, by simp, rfl⟩
      · rintro ⟨b, hb, hkey⟩
        by_contra hne
        have hi : i < l.length := by
          have := (List.getElem?_eq_some_iff.mp hb).1
          rw [List.length_append, List.length_singleton] at this
          omega
        rw [List.getElem?_append_left hi] at hb
        exact h.2.2 _ (List.mem_map.mpr ⟨b, List.mem_of_getElem? hb, hkey⟩) _ (by simp) rfl
    · rw [Function.update_of_ne hk, ih]
      constructor
      · rintro ⟨b, hb, hkey⟩
        have hi := (List.getElem?_eq_some_iff.mp hb).1
        exact ⟨b, by rw [List.getElem?_append_left hi, hb], hkey⟩
      · rintro ⟨b, hb, hkey⟩
        have hi : i < l.length := by
          by_contra hge
          rw [List.getElem?_append_right (by omega)] at hb
          obtain ⟨hlt, heq⟩ := List.getElem?_eq_some_iff.mp hb
          simp only [List.length_singleton] at hlt
          have : a = b := by
            rw [← heq]; simp
          exact hk (by rw [← hkey, this])
        rw [List.getElem?_append_left hi] at hb
        exact ⟨b, hb, hkey⟩

end IndexTable
