import ChessEgt.Library.Compaction

/-!
# The combinatorial number system

Strictly descending lists of `k` numbers below `n` (`Combinadics.unrank`) against the numbers
below `n.choose k` (`Combinadics.rank`): the leading number of a list is the greatest whose
binomial coefficient does not exceed the rank.
-/

namespace Combinadics

open Compaction (Descending)

/-- The rank of a strictly descending list. -/
def rank : List ℕ → ℕ
  | [] => 0
  | c :: cs => c.choose (cs.length + 1) + rank cs

/-- The strictly descending list of `k` numbers below `n` of a rank. -/
def unrank : ℕ → ℕ → ℕ → List ℕ
  | 0, _, _ => []
  | k + 1, n, x =>
    let c := Nat.findGreatest (fun c => c.choose (k + 1) ≤ x) (n - 1)
    c :: unrank k c (x - c.choose (k + 1))

@[simp] theorem length_unrank (k n x : ℕ) : (unrank k n x).length = k := by
  induction k generalizing n x with
  | zero => rfl
  | succ k ih => rw [unrank, List.length_cons, ih]

theorem rank_lt {n : ℕ} {l : List ℕ} (hd : Descending l) (hn : ∀ c ∈ l, c < n) :
    rank l < n.choose l.length := by
  induction l generalizing n with
  | nil => simp [rank]
  | cons c cs ih =>
    obtain ⟨hc, hcs⟩ := List.pairwise_cons.mp hd
    have hlt := ih hcs (n := c) hc
    have hle : (c + 1).choose (cs.length + 1) ≤ n.choose (cs.length + 1) :=
      Nat.choose_le_choose _ (hn c List.mem_cons_self)
    rw [Nat.choose_succ_succ'] at hle
    rw [rank, List.length_cons]
    omega

/-- The leading number of a rank is the greatest whose binomial coefficient does not exceed
    it. -/
theorem findGreatest_eq {n k x c : ℕ} (hc : c < n) (hle : c.choose (k + 1) ≤ x)
    (hlt : x < (c + 1).choose (k + 1)) :
    Nat.findGreatest (fun c => c.choose (k + 1) ≤ x) (n - 1) = c := by
  rw [Nat.findGreatest_eq_iff]
  refine ⟨by omega, fun _ => hle, fun m hm _ hmx => ?_⟩
  have := Nat.choose_le_choose (k + 1) (show c + 1 ≤ m by omega)
  omega

theorem exists_leading {n k x : ℕ} (hx : x < n.choose (k + 1)) :
    ∃ c < n, c.choose (k + 1) ≤ x ∧ x < (c + 1).choose (k + 1) := by
  have hn : 0 < n := by
    rcases Nat.eq_zero_or_pos n with rfl | h
    · simp at hx
    · exact h
  refine ⟨Nat.findGreatest (fun c => c.choose (k + 1) ≤ x) (n - 1), ?_, ?_, ?_⟩
  · have := Nat.findGreatest_le (P := fun c => c.choose (k + 1) ≤ x) (n - 1)
    omega
  · exact Nat.findGreatest_spec (P := fun c => c.choose (k + 1) ≤ x) (Nat.zero_le _) (by simp)
  · by_contra hge
    rw [not_lt] at hge
    by_cases hlast : Nat.findGreatest (fun c => c.choose (k + 1) ≤ x) (n - 1) + 1 ≤ n - 1
    · have := Nat.le_findGreatest (P := fun c => c.choose (k + 1) ≤ x) hlast hge
      omega
    · have hle := Nat.findGreatest_le (P := fun c => c.choose (k + 1) ≤ x) (n - 1)
      rw [show Nat.findGreatest (fun c => c.choose (k + 1) ≤ x) (n - 1) + 1 = n by omega] at hge
      omega

/-- Ranks below `n.choose k` have strictly descending lists below `n`. -/
theorem unrank_spec {k n x : ℕ} (hx : x < n.choose k) :
    Descending (unrank k n x) ∧ (∀ c ∈ unrank k n x, c < n) ∧ rank (unrank k n x) = x := by
  induction k generalizing n x with
  | zero =>
    simp only [Nat.choose_zero_right] at hx
    exact ⟨List.Pairwise.nil, by simp [unrank], by simp [unrank, rank]; omega⟩
  | succ k ih =>
    obtain ⟨c, hc, hle, hlt⟩ := exists_leading hx
    rw [unrank, findGreatest_eq hc hle hlt]
    rw [Nat.choose_succ_succ'] at hlt
    obtain ⟨hd, hb, hr⟩ := ih (n := c) (x := x - c.choose (k + 1)) (by omega)
    refine ⟨List.pairwise_cons.mpr ⟨hb, hd⟩, ?_, ?_⟩
    · intro d hdm
      rcases List.mem_cons.mp hdm with rfl | hdm
      · exact hc
      · exact (hb d hdm).trans hc
    · rw [rank, length_unrank, hr]
      omega

theorem unrank_rank {n : ℕ} {l : List ℕ} (hd : Descending l) (hn : ∀ c ∈ l, c < n) :
    unrank l.length n (rank l) = l := by
  induction l generalizing n with
  | nil => rfl
  | cons c cs ih =>
    obtain ⟨hc, hcs⟩ := List.pairwise_cons.mp hd
    have hlt := rank_lt hcs hc
    rw [List.length_cons, unrank, rank, findGreatest_eq (hn c List.mem_cons_self)
      (Nat.le_add_right _ _) (by rw [Nat.choose_succ_succ']; omega), Nat.add_sub_cancel_left,
      ih hcs hc]

end Combinadics
