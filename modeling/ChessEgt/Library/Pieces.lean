import Mathlib

/-!
# Pieces of a list

A list cut into pieces of one length, the last of which may be shorter.

* `pieces` — the pieces, and `pieces_cons`, `flatten_pieces`, `getElem?_pieces`;
* `pieces_append` — cutting after a multiple of the length does not change the pieces;
* `flatMap_pieces` — pieces of larger pieces.
-/

namespace ChessEgt

namespace Pieces

variable {α : Type*} {n : ℕ}

/-- The number of pieces. -/
def count (n length : ℕ) : ℕ := (length + n - 1) / n

/-- The pieces of length `n`. -/
def pieces (n : ℕ) (l : List α) : List (List α) :=
  (List.range (count n l.length)).map fun k => (l.drop (k * n)).take n

theorem count_zero (hn : 0 < n) : count n 0 = 0 := by
  unfold count
  exact Nat.div_eq_of_lt (by omega)

theorem lt_count {k length : ℕ} (hn : 0 < n) : k < count n length ↔ k * n < length := by
  unfold count
  rw [Nat.lt_div_iff_mul_lt hn]
  omega

theorem count_add (hn : 0 < n) {length : ℕ} : count n (n + length) = count n length + 1 := by
  unfold count
  rw [show n + length + n - 1 = length + n - 1 + n by omega, Nat.add_div_right _ hn]

theorem count_eq_one (hn : 0 < n) {length : ℕ} (h : 0 < length) (hle : length ≤ n) :
    count n length = 1 := by
  unfold count
  exact Nat.div_eq_of_lt_le (by omega) (by omega)

@[simp] theorem length_pieces (l : List α) : (pieces n l).length = count n l.length := by
  rw [pieces, List.length_map, List.length_range]

theorem pieces_nil (hn : 0 < n) : pieces n ([] : List α) = [] := by
  rw [pieces, List.length_nil, count_zero hn]
  rfl

theorem getElem?_pieces (hn : 0 < n) (l : List α) {k : ℕ} (hk : k * n < l.length) :
    (pieces n l)[k]? = some ((l.drop (k * n)).take n) := by
  rw [pieces, List.getElem?_map, List.getElem?_range ((lt_count hn).mpr hk)]
  rfl

/-- The first piece and the others. -/
theorem pieces_cons (hn : 0 < n) {l : List α} (hl : l ≠ []) :
    pieces n l = l.take n :: pieces n (l.drop n) := by
  have hpos := List.length_pos_iff.mpr hl
  have hcount : count n l.length = count n (l.drop n).length + 1 := by
    rw [List.length_drop]
    rcases Nat.lt_or_ge l.length n with h | h
    · rw [count_eq_one hn hpos h.le, Nat.sub_eq_zero_of_le h.le, count_zero hn]
    · rw [← count_add hn, Nat.add_sub_cancel' h]
  rw [pieces, hcount, List.range_succ_eq_map, List.map_cons, List.map_map, Nat.zero_mul,
    List.drop_zero, pieces]
  congr 1
  refine List.map_congr_left fun k _ => ?_
  rw [Function.comp_apply, List.drop_drop, Nat.succ_mul, Nat.add_comm n]

/-- Induction on the pieces. -/
theorem induction (hn : 0 < n) {P : List α → Prop} (nil : P [])
    (cons : ∀ l, l ≠ [] → P (l.drop n) → P l) (l : List α) : P l := by
  induction h : l.length using Nat.strong_induction_on generalizing l with
  | _ m ih =>
    by_cases hl : l = []
    · rw [hl]; exact nil
    · have hpos := List.length_pos_iff.mpr hl
      refine cons l hl (ih _ ?_ _ rfl)
      rw [List.length_drop]
      omega

theorem flatten_pieces (hn : 0 < n) (l : List α) : (pieces n l).flatten = l := by
  induction l using induction hn with
  | nil => rw [pieces_nil hn]; rfl
  | cons l hl ih => rw [pieces_cons hn hl, List.flatten_cons, ih, List.take_append_drop]

/-- The results of the pieces, put together, at an index. -/
theorem getElem?_flatMap {ρ β : Type*} (hn : 0 < n) {f : ρ → List β} {l : List α} {rs : List ρ}
    (h : List.Forall₂ (fun p r => (f r).length = p.length) (pieces n l) rs) :
    (rs.flatMap f).length = l.length ∧
      ∀ i v, (rs.flatMap f)[i]? = some v → ∃ r, rs[i / n]? = some r ∧ v ∈ f r := by
  induction l using induction hn generalizing rs with
  | nil =>
    rw [pieces_nil hn, List.forall₂_nil_left_iff] at h
    subst h
    exact ⟨rfl, fun i v h => by simp at h⟩
  | cons l hl ih =>
    rw [pieces_cons hn hl, List.forall₂_cons_left_iff] at h
    obtain ⟨r, rs, hr, h, rfl⟩ := h
    obtain ⟨hlen, hget⟩ := ih h
    rw [List.length_take] at hr
    rw [List.length_drop] at hlen
    rw [List.flatMap_cons]
    refine ⟨by rw [List.length_append, hr, hlen]; omega, fun i v hv => ?_⟩
    by_cases hi : i < (f r).length
    · rw [List.getElem?_append_left hi] at hv
      refine ⟨r, ?_, List.mem_of_getElem? hv⟩
      rw [Nat.div_eq_of_lt (by omega)]
      rfl
    · rw [List.getElem?_append_right (by omega)] at hv
      obtain ⟨hlt, -⟩ := List.getElem?_eq_some_iff.mp hv
      -- There are further pieces only after a whole one.
      obtain ⟨r', hr', hmem⟩ := hget _ v hv
      refine ⟨r', ?_, hmem⟩
      rw [show (f r).length = n by omega] at hr'
      rwa [← Nat.sub_add_cancel (show n ≤ i by omega), Nat.add_div_right _ hn,
        List.getElem?_cons_succ]

theorem length_le_of_mem (hn : 0 < n) {l p : List α} (hp : p ∈ pieces n l) :
    p ≠ [] ∧ p.length ≤ n := by
  obtain ⟨k, hk, rfl⟩ := List.mem_map.mp hp
  have hk := (lt_count hn).mp (List.mem_range.mp hk)
  refine ⟨fun h => ?_, List.length_take_le _ _⟩
  have := congrArg List.length h
  rw [List.length_take, List.length_drop, List.length_nil] at this
  omega

/-- Cutting after a multiple of the length does not change the pieces. -/
theorem pieces_append (hn : 0 < n) {a : List α} (ha : n ∣ a.length) (b : List α) :
    pieces n (a ++ b) = pieces n a ++ pieces n b := by
  induction a using induction hn with
  | nil => rw [pieces_nil hn]; rfl
  | cons a hne ih =>
    have hle : n ≤ a.length := Nat.le_of_dvd (List.length_pos_iff.mpr hne) ha
    rw [pieces_cons hn hne, pieces_cons hn (by simp [hne]), List.take_append_of_le_length hle,
      List.drop_append_of_le_length hle, ih, List.cons_append]
    rw [List.length_drop]
    exact Nat.dvd_sub ha (dvd_refl n)

/-- Pieces of larger pieces. -/
theorem flatMap_pieces (hn : 0 < n) {m : ℕ} (hm : 0 < m) (l : List α) :
    (pieces (m * n) l).flatMap (pieces n) = pieces n l := by
  have hmn : 0 < m * n := Nat.mul_pos hm hn
  induction l using induction hmn with
  | nil => rw [pieces_nil hmn, pieces_nil hn]; rfl
  | cons l hl ih =>
    rw [pieces_cons hmn hl, List.flatMap_cons, ih]
    rcases Nat.lt_or_ge l.length (m * n) with h | h
    · rw [List.take_of_length_le h.le, List.drop_of_length_le h.le, pieces_nil hn,
        List.append_nil]
    · rw [← pieces_append hn, List.take_append_drop]
      rw [List.length_take, Nat.min_eq_left h]
      exact Dvd.intro_left m rfl

end Pieces

end ChessEgt
