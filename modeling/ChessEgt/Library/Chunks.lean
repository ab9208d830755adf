import Mathlib

/-!
# Chunks of slots

Items own consecutive slots of a list and the values placed in them; every slot-value pair of an
item lies in the domain of the item, and the domains are disjoint.

* `mem_zip_flatMap_iff` — chunks that hold exactly the pairs of their domains hold all of them;
* `mem_chunk_iff` — a pair lies in the chunk of an item if it lies anywhere and in its domain;
* `nodup_flatMap_chunks` — chunks of distinct values are distinct together.
-/

namespace Chunks

variable {ι α β : Type*}

theorem mem_zip_map {h : α → β} {c : List α} {a : α} {b : β} :
    (a, b) ∈ c.zip (c.map h) ↔ a ∈ c ∧ b = h a := by
  induction c with
  | nil => simp
  | cons x c ih =>
    rw [List.map_cons, List.zip_cons_cons, List.mem_cons, ih, List.mem_cons, Prod.mk.injEq]
    constructor
    · rintro (⟨rfl, rfl⟩ | ⟨h₁, h₂⟩)
      · exact ⟨Or.inl rfl, rfl⟩
      · exact ⟨Or.inr h₁, h₂⟩
    · rintro ⟨rfl | h₁, rfl⟩
      · exact Or.inl ⟨rfl, rfl⟩
      · exact Or.inr ⟨h₁, rfl⟩

theorem mem_zip_replicate {c : List α} {n : ℕ} (hn : c.length = n) {a : α} {b x : β} :
    (a, b) ∈ c.zip (List.replicate n x) ↔ a ∈ c ∧ b = x := by
  rw [← hn, ← List.map_const', mem_zip_map]

theorem zip_flatMap {slot : ι → List β} {items : List ι} {cs : List (List α)}
    (hlen : List.Forall₂ (fun i c => c.length = (slot i).length) items cs) :
    cs.flatten.zip (items.flatMap slot) = (items.zip cs).flatMap fun x => x.2.zip (slot x.1) := by
  induction hlen with
  | nil => rfl
  | cons h _ ih =>
    rw [List.flatten_cons, List.flatMap_cons, List.zip_append h, ih, List.zip_cons_cons,
      List.flatMap_cons]

/-- A list matched with the items by a function of them. -/
theorem eq_map_of_forall_mem_zip {f : ι → α} {items : List ι} {cs : List α}
    (hlen : items.length = cs.length) (h : ∀ x ∈ items.zip cs, x.2 = f x.1) :
    cs = items.map f := by
  induction items generalizing cs with
  | nil => rw [List.length_nil, eq_comm, List.length_eq_zero_iff] at hlen; exact hlen
  | cons i items ih =>
    obtain ⟨c, cs, rfl⟩ := List.exists_cons_of_length_eq_add_one hlen.symm
    rw [List.zip_cons_cons, List.forall_mem_cons] at h
    rw [List.map_cons, ← h.1, ← ih (by simpa using hlen) h.2]

theorem zip_map_self (f : ι → α) (items : List ι) :
    items.zip (items.map f) = items.map fun i => (i, f i) := by
  induction items with
  | nil => rfl
  | cons i items ih => rw [List.map_cons, List.zip_cons_cons, ih, List.map_cons]

theorem exists_of_mem_right {R : ι → α → Prop} {l : List ι} {l' : List α}
    (h : List.Forall₂ R l l') {a : α} (ha : a ∈ l') : ∃ i ∈ l, R i a := by
  induction h with
  | nil => exact absurd ha List.not_mem_nil
  | @cons i _ _ _ hi _ ih =>
    rcases List.mem_cons.mp ha with rfl | ha
    · exact ⟨i, List.mem_cons_self, hi⟩
    · obtain ⟨j, hj, hR⟩ := ih ha
      exact ⟨j, List.mem_cons_of_mem _ hj, hR⟩

section

variable {slot : ι → List β} {D : ι → α → β → Prop} {items : List ι}

/-- Chunks that hold exactly the pairs of their domains hold all pairs. -/
theorem mem_zip_flatMap_iff {chunk : ι → List α} {R : α → β → Prop}
    (hlen : ∀ i ∈ items, (chunk i).length = (slot i).length)
    (hmem : ∀ i ∈ items, ∀ a b, (a, b) ∈ (chunk i).zip (slot i) ↔ R a b ∧ D i a b)
    (hcover : ∀ a b, R a b → ∃ i ∈ items, D i a b) {a : α} {b : β} :
    (a, b) ∈ (items.map chunk).flatten.zip (items.flatMap slot) ↔ R a b := by
  rw [zip_flatMap (by rw [List.forall₂_map_right_iff, List.forall₂_same]; exact hlen),
    zip_map_self, List.flatMap_map, List.mem_flatMap]
  constructor
  · rintro ⟨i, hi, h⟩
    exact ((hmem i hi a b).mp h).1
  · intro h
    obtain ⟨i, hi, hd⟩ := hcover a b h
    exact ⟨i, hi, (hmem i hi a b).mpr ⟨h, hd⟩⟩

/-- A pair lies in the chunk of an item if it lies anywhere and in the domain of the item. -/
theorem mem_chunk_iff {cs : List (List α)}
    (hlen : List.Forall₂ (fun i c => c.length = (slot i).length) items cs)
    (hdom : ∀ x ∈ items.zip cs, ∀ a b, (a, b) ∈ x.2.zip (slot x.1) → D x.1 a b)
    (hdisj : items.Pairwise fun i j => ∀ a b, D i a b → ¬ D j a b) {x : ι × List α}
    (hx : x ∈ items.zip cs) {a : α} {b : β} :
    (a, b) ∈ x.2.zip (slot x.1) ↔ (a, b) ∈ cs.flatten.zip (items.flatMap slot) ∧ D x.1 a b := by
  refine ⟨fun h => ⟨?_, hdom x hx a b h⟩, ?_⟩
  · rw [zip_flatMap hlen, List.mem_flatMap]
    exact ⟨x, hx, h⟩
  rw [zip_flatMap hlen, List.mem_flatMap]
  rintro ⟨⟨y, hy, h⟩, hd⟩
  have hdy := hdom y hy a b h
  clear hdom
  induction hlen with
  | nil => exact absurd hx List.not_mem_nil
  | @cons i c items cs _ _ ih =>
    rw [List.zip_cons_cons, List.mem_cons] at hx hy
    obtain ⟨hi, hdisj⟩ := List.pairwise_cons.mp hdisj
    have hfst : ∀ z ∈ items.zip cs, z.1 ∈ items := fun z hz => (List.of_mem_zip hz).1
    rcases hx with rfl | hx <;> rcases hy with rfl | hy
    · exact h
    · exact absurd hdy (hi y.1 (hfst y hy) a b hd)
    · exact absurd hd (hi x.1 (hfst x hx) a b hdy)
    · exact ih hdisj hx hy

/-- Chunks of distinct values with disjoint domains are distinct together. -/
theorem nodup_flatMap_chunks {chunk : ι → List α} {R : α → β → Prop}
    (hfun : ∀ a b b', R a b → R a b' → b = b')
    (hval : ∀ i ∈ items, ∀ a ∈ chunk i, ∃ b, R a b ∧ D i a b)
    (hnd : ∀ i ∈ items, (chunk i).Nodup)
    (hdisj : items.Pairwise fun i j => ∀ a b, D i a b → ¬ D j a b) :
    (items.map chunk).flatten.Nodup := by
  rw [← List.flatMap_def, List.nodup_flatMap]
  refine ⟨hnd, hdisj.imp_of_mem (fun {i j} hi hj h => ?_)⟩
  rw [Function.onFun, List.disjoint_left]
  intro a ha ha'
  obtain ⟨b, hb, hd⟩ := hval i hi a ha
  obtain ⟨b', hb', hd'⟩ := hval j hj a ha'
  rw [hfun a b' b hb' hb] at hd'
  exact h a b hd hd'

end

theorem forall₂_getElem? {α β : Type*} {R : α → β → Prop} {l : List α} {l' : List β}
    (h : List.Forall₂ R l l') {i : ℕ} {a : α} {b : β} (ha : l[i]? = some a) (hb : l'[i]? = some b) :
    R a b := by
  induction h generalizing i with
  | nil => cases ha
  | cons hr _ ih =>
    cases i with
    | zero =>
      rw [← Option.some.inj ha, ← Option.some.inj hb]
      exact hr
    | succ i => exact ih ha hb

/-- An element can only go because an equal one stays. -/
theorem mem_destutter' {α : Type*} [DecidableEq α] {a x : α} {l : List α} :
    x ∈ l.destutter' (· ≠ ·) a ↔ x ∈ a :: l := by
  induction l generalizing a with
  | nil => rfl
  | cons b l ih =>
    by_cases hab : a ≠ b
    · rw [List.destutter'_cons_pos _ hab, List.mem_cons, ih, ← List.mem_cons]
    · rw [List.destutter'_cons_neg _ hab, ih, not_not.mp hab]
      simp

theorem mem_destutter {α : Type*} [DecidableEq α] {x : α} {l : List α} :
    x ∈ l.destutter (· ≠ ·) ↔ x ∈ l := by
  cases l with
  | nil => rfl
  | cons a l => rw [List.destutter_cons', mem_destutter']

end Chunks
