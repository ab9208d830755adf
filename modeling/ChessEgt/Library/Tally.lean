import Mathlib

/-!
# Tallies

Ordered maps from keys to counts, added entry by entry.

* `Tally` — the maps, a commutative monoid under addition;
* `Tally.getElem?_add` — the sum, key by key;
* `Tally.maxKey?_of_add` — the largest key of a sum is the largest of a summand that has it;
* `Tally.weight`, `Tally.weight_add` — the sum of all counts.
-/

namespace ChessEgt

/-- An ordered map from keys to counts. -/
abbrev Tally (K V : Type) [Ord K] := Std.ExtTreeMap K V compare

namespace Tally

variable {K V : Type} [LinearOrder K] [Std.TransOrd K]

instance : Zero (Tally K V) := ⟨∅⟩

@[simp] theorem getElem?_zero (k : K) : (0 : Tally K V)[k]? = none :=
  Std.ExtTreeMap.getElem?_empty

theorem mem_iff_getElem? {m : Tally K V} {k : K} : k ∈ m ↔ ∃ v, m[k]? = some v := by
  rw [← Option.isSome_iff_exists, Std.ExtTreeMap.isSome_getElem?_iff_mem]

variable [Std.LawfulEqOrd K]

/-- The largest key is a key, and no key is larger. -/
theorem maxKey?_eq_some {m : Tally K V} {k : K} :
    m.maxKey? = some k ↔ k ∈ m ∧ ∀ k' ∈ m, k' ≤ k := by
  rw [Std.ExtTreeMap.maxKey?_eq_some_iff_mem_and_forall]
  simp only [Ordering.isLE_iff_ne_gt, compare_le_iff_le]

theorem le_maxKey {m : Tally K V} {k k' : K} (h : m.maxKey? = some k) (hk : k' ∈ m) : k' ≤ k :=
  (maxKey?_eq_some.mp h).2 k' hk

section Addition

variable [AddCommMonoid V]

/-- One more entry, added to the count that the key already has. -/
def addEntry (m : Tally K V) (k : K) (v : V) : Tally K V :=
  m.alter k fun o => some (o.getD 0 + v)

instance : Add (Tally K V) := ⟨fun a b => b.foldl addEntry a⟩

theorem getElem?_addEntry (m : Tally K V) (k k' : K) (v : V) :
    (m.addEntry k v)[k']? = if k = k' then some (m[k]?.getD 0 + v) else m[k']? := by
  rw [addEntry, Std.ExtTreeMap.getElem?_alter]
  simp only [Std.LawfulEqOrd.compare_eq_iff_eq]

/-- Adding the entries of a list without repeated keys. -/
theorem getElem?_foldl (l : List (K × V)) (hl : l.Pairwise fun a b => a.1 ≠ b.1)
    (m : Tally K V) (k : K) :
    (l.foldl (fun m p => m.addEntry p.1 p.2) m)[k]? =
      Option.merge (· + ·) m[k]? ((l.find? (·.1 = k)).map (·.2)) := by
  induction l generalizing m with
  | nil => simp
  | cons p l ih =>
    obtain ⟨hp, hl⟩ := List.pairwise_cons.mp hl
    rw [List.foldl_cons, ih hl, getElem?_addEntry]
    by_cases hk : p.1 = k
    · subst hk
      have hnone : l.find? (·.1 = p.1) = none := by
        rw [List.find?_eq_none]
        intro q hq
        simpa using (hp q hq).symm
      rw [if_pos rfl, hnone, List.find?_cons_of_pos (by simp)]
      cases m[p.1]? <;> simp
    · rw [if_neg hk, List.find?_cons_of_neg (by simpa using hk)]

/-- The sum has the counts of both summands at each key. -/
theorem getElem?_add (a b : Tally K V) (k : K) :
    (a + b)[k]? = Option.merge (· + ·) a[k]? b[k]? := by
  have hkeys : b.toList.Pairwise fun p q => p.1 ≠ q.1 := by
    refine b.distinct_keys_toList.imp fun h => ?_
    rwa [Std.LawfulEqOrd.compare_eq_iff_eq] at h
  show (b.foldl addEntry a)[k]? = _
  rw [Std.ExtTreeMap.foldl_eq_foldl_toList, getElem?_foldl _ hkeys]
  congr 1
  -- Both sides are the count of `k` in `b`.
  cases hb : b[k]? with
  | none =>
    rw [Option.map_eq_none_iff, List.find?_eq_none]
    intro p hp
    have hp' := Std.ExtTreeMap.mem_toList_iff_getElem?_eq_some.mp hp
    intro hk
    rw [decide_eq_true_eq] at hk
    rw [hk, hb] at hp'
    cases hp'
  | some v =>
    have hmem : (k, v) ∈ b.toList := Std.ExtTreeMap.mem_toList_iff_getElem?_eq_some.mpr hb
    obtain ⟨p, hp⟩ : ∃ p, b.toList.find? (·.1 = k) = some p :=
      Option.isSome_iff_exists.mp (List.find?_isSome.mpr ⟨(k, v), hmem, by simp⟩)
    have hpk : p.1 = k := by simpa using List.find?_some hp
    have hpb := Std.ExtTreeMap.mem_toList_iff_getElem?_eq_some.mp (List.mem_of_find?_eq_some hp)
    rw [hpk, hb] at hpb
    rw [hp, Option.map_some, Option.some.inj hpb]

instance : AddCommMonoid (Tally K V) where
  add_assoc x y z := by
    refine Std.ExtTreeMap.ext_getElem? fun k => ?_
    simp only [getElem?_add]
    cases x[k]? <;> cases y[k]? <;> cases z[k]? <;> simp [add_assoc]
  zero_add a := by
    refine Std.ExtTreeMap.ext_getElem? fun k => ?_
    rw [getElem?_add, getElem?_zero, Option.merge_none_left]
  add_zero a := by
    refine Std.ExtTreeMap.ext_getElem? fun k => ?_
    rw [getElem?_add, getElem?_zero, Option.merge_none_right]
  add_comm a b := by
    refine Std.ExtTreeMap.ext_getElem? fun k => ?_
    simp only [getElem?_add]
    cases a[k]? <;> cases b[k]? <;> simp [add_comm]
  nsmul := nsmulRec

theorem mem_add {a b : Tally K V} {k : K} : k ∈ a + b ↔ k ∈ a ∨ k ∈ b := by
  simp only [mem_iff_getElem?, getElem?_add]
  cases a[k]? <;> cases b[k]? <;> simp

/-- A largest key of a sum that is a key of a summand is the largest there. -/
theorem maxKey?_of_add {a b : Tally K V} {k : K} (h : (a + b).maxKey? = some k) (hk : k ∈ a) :
    a.maxKey? = some k :=
  maxKey?_eq_some.mpr ⟨hk, fun _ h' => le_maxKey h (mem_add.mpr (Or.inl h'))⟩

end Addition

/-! ### The sum of all counts -/

/-- The sum of all counts, as numbers. -/
def weight (f : V → ℕ) (m : Tally K V) : ℕ := (m.toList.map fun p => f p.2).sum

/-- The sum of all counts, over any set that has all keys. -/
theorem weight_eq_sum (f : V → ℕ) (m : Tally K V) (s : Finset K) (hs : ∀ k ∈ m, k ∈ s) :
    m.weight f = ∑ k ∈ s, m[k]?.elim 0 f := by
  have hkeys : (m.toList.map (·.1)).Nodup := by
    rw [Std.ExtTreeMap.map_fst_toList_eq_keys]
    exact m.nodup_keys
  have hlist : (m.toList.map fun p => f p.2).sum
      = ((m.toList.map (·.1)).map fun k => m[k]?.elim 0 f).sum := by
    rw [List.map_map]
    refine congrArg List.sum (List.map_congr_left fun p hp => ?_)
    rw [Function.comp_apply, Std.ExtTreeMap.mem_toList_iff_getElem?_eq_some.mp hp]
    rfl
  rw [weight, hlist, ← List.sum_toFinset _ hkeys]
  refine Finset.sum_subset (fun k hk => hs k ?_) (fun k _ hk => ?_)
  · rw [List.mem_toFinset, Std.ExtTreeMap.map_fst_toList_eq_keys, Std.ExtTreeMap.mem_keys] at hk
    exact hk
  · rw [List.mem_toFinset, Std.ExtTreeMap.map_fst_toList_eq_keys, Std.ExtTreeMap.mem_keys] at hk
    rw [Std.ExtTreeMap.getElem?_eq_none hk]
    rfl

theorem le_weight {f : V → ℕ} {m : Tally K V} {k : K} {v : V} (h : m[k]? = some v) :
    f v ≤ m.weight f :=
  List.single_le_sum (fun _ _ => Nat.zero_le _) _
    (List.mem_map_of_mem (Std.ExtTreeMap.mem_toList_iff_getElem?_eq_some.mpr h))

/-- Where the counts of each key add up, so do their sums. -/
theorem weight_add [AddCommMonoid V] {f : V → ℕ} {a b : Tally K V}
    (h : ∀ (k : K) (x y : V), a[k]? = some x → b[k]? = some y → f (x + y) = f x + f y) :
    (a + b).weight f = a.weight f + b.weight f := by
  let s := ((a + b).toList.map (·.1)).toFinset
  have hs : ∀ k, k ∈ a + b → k ∈ s := fun k hk => by
    rwa [List.mem_toFinset, Std.ExtTreeMap.map_fst_toList_eq_keys, Std.ExtTreeMap.mem_keys]
  rw [weight_eq_sum f _ s hs, weight_eq_sum f a s (fun k hk => hs k (mem_add.mpr (Or.inl hk))),
    weight_eq_sum f b s (fun k hk => hs k (mem_add.mpr (Or.inr hk))), ← Finset.sum_add_distrib]
  refine Finset.sum_congr rfl fun k _ => ?_
  rw [getElem?_add]
  cases ha : a[k]? with
  | none => simp
  | some x =>
    cases hb : b[k]? with
    | none => simp
    | some y => exact h k x y ha hb

end Tally

end ChessEgt
