import ChessEgt.Words

/-!
# Opposed-pawn flags

The opposed flags of both sides of a file determine the color order of its pawns.

* `stmFlags`, `sntmFlags` — the flags as recursions over the order;
* `pawnFlags_eq` — the program's flags, read in each side's direction;
* `pawnFlags_injective` — both lists of flags determine the order.
-/

namespace ChessEgt

open EgtSide

/-- The flags of the side to move, in ascending order. -/
def stmFlags : List EgtSide → List Bool
  | [] => []
  | sideToMove :: w => decide (w.head? = some sideNotToMove) :: stmFlags w
  | sideNotToMove :: w => stmFlags w

/-- The flags of the other side, in ascending order, after a pawn `prev`. -/
def sntmFlags : Option EgtSide → List EgtSide → List Bool
  | _, [] => []
  | prev, sideNotToMove :: w => decide (prev = some sideToMove) :: sntmFlags (some sideNotToMove) w
  | _, sideToMove :: w => sntmFlags (some sideToMove) w

theorem length_stmFlags (w : List EgtSide) : (stmFlags w).length = w.count sideToMove := by
  induction w with
  | nil => rfl
  | cons a w ih => cases a <;> simp [stmFlags, ih]

theorem length_sntmFlags (prev : Option EgtSide) (w : List EgtSide) :
    (sntmFlags prev w).length = w.count sideNotToMove := by
  induction w generalizing prev with
  | nil => rfl
  | cons a w ih => cases a <;> simp [sntmFlags, ih]

theorem count_add_count (w : List EgtSide) :
    w.count sideToMove + w.count sideNotToMove = w.length := by
  induction w with
  | nil => rfl
  | cons a w ih =>
    rw [List.count_cons, List.count_cons, List.length_cons]
    cases a <;> simp <;> omega

/-- The first flag after a pawn of the side to move is set. -/
theorem head_sntmFlags (w : List EgtSide) {b : Bool} {l : List Bool}
    (h : sntmFlags (some sideToMove) w = b :: l) : b = true := by
  induction w with
  | nil => cases h
  | cons a w ih =>
    cases a with
    | sideToMove => exact ih h
    | sideNotToMove =>
      simp only [sntmFlags, decide_true, List.cons.injEq] at h
      exact h.1.symm

/-- Orders with the same flags are equal, if a preceding pawn of the side to move is opposed in
    both or in none. -/
theorem eq_of_flags {w v : List EgtSide} {prev : Option EgtSide} (hstm : stmFlags w = stmFlags v)
    (hsntm : sntmFlags prev w = sntmFlags prev v)
    (hprev : prev = some sideToMove →
      (w.head? = some sideNotToMove ↔ v.head? = some sideNotToMove)) : w = v := by
  induction w generalizing v prev with
  | nil =>
    cases v with
    | nil => rfl
    | cons b v => cases b <;> simp [stmFlags, sntmFlags] at hstm hsntm
  | cons a w ih =>
    -- Different first pawns: the first flag of the other side tells whether `prev` precedes it.
    have hne : ∀ {w v : List EgtSide}, sntmFlags prev (sideToMove :: w)
        = sntmFlags prev (sideNotToMove :: v) → prev = some sideToMove := by
      intro w v h
      rw [sntmFlags, sntmFlags] at h
      exact of_decide_eq_true (head_sntmFlags w h)
    cases v with
    | nil => cases a <;> simp [stmFlags, sntmFlags] at hstm hsntm
    | cons b v =>
      cases a with
      | sideToMove =>
        cases b with
        | sideToMove =>
          simp only [stmFlags, List.cons.injEq, decide_eq_decide] at hstm
          rw [ih hstm.2 hsntm (fun _ => hstm.1)]
        | sideNotToMove => exact absurd (hprev (hne hsntm)) (by simp)
      | sideNotToMove =>
        cases b with
        | sideToMove => exact absurd (hprev (hne hsntm.symm)) (by simp)
        | sideNotToMove =>
          simp only [stmFlags] at hstm
          simp only [sntmFlags, List.cons.injEq] at hsntm
          rw [ih hstm hsntm.2 (fun h => by cases h)]

/-! ### The program's flags -/

theorem filterMap_stmFlags (order : List EgtSide) :
    ((List.range order.length).filterMap fun i =>
      if order[i]? = some sideToMove then some ((order[i + 1]?).any (· ≠ sideToMove)) else none)
      = stmFlags order := by
  induction order with
  | nil => rfl
  | cons a w ih =>
    rw [List.length_cons, List.range_succ_eq_map, List.filterMap_cons, List.filterMap_map]
    simp only [List.getElem?_cons_zero, List.getElem?_cons_succ, Function.comp_def, ih]
    cases a with
    | sideNotToMove => simp [stmFlags]
    | sideToMove =>
      simp only [if_true, stmFlags, List.cons.injEq, and_true]
      cases w with
      | nil => rfl
      | cons b w => cases b <;> simp

theorem filterMap_sntmFlags (prev : Option EgtSide) (order : List EgtSide) :
    ((List.range order.length).filterMap fun i =>
      if order[i]? = some sideNotToMove then
        some ((if i = 0 then prev else order[i - 1]?).any (· ≠ sideNotToMove)) else none)
      = sntmFlags prev order := by
  induction order generalizing prev with
  | nil => rfl
  | cons a w ih =>
    rw [List.length_cons, List.range_succ_eq_map, List.filterMap_cons, List.filterMap_map]
    have hshift : ∀ i, ((if i + 1 = 0 then prev else (a :: w)[i + 1 - 1]?) : Option EgtSide)
        = if i = 0 then some a else w[i - 1]? := by
      intro i
      cases i <;> simp
    simp only [List.getElem?_cons_zero, List.getElem?_cons_succ, Function.comp_def, hshift, ih,
      Nat.succ_eq_add_one]
    cases a with
    | sideToMove => simp [sntmFlags]
    | sideNotToMove =>
      simp only [if_true, sntmFlags, List.cons.injEq, and_true]
      rcases prev with _ | b
      · rfl
      · cases b <;> simp

theorem pawnFlags_sideToMove (order : List EgtSide) :
    pawnFlags order sideToMove = stmFlags order := by
  rw [← filterMap_stmFlags, pawnFlags]
  simp

theorem pawnFlags_sideNotToMove (order : List EgtSide) :
    pawnFlags order sideNotToMove = (sntmFlags none order).reverse := by
  rw [← filterMap_sntmFlags, pawnFlags]
  simp

theorem length_pawnFlags (order : List EgtSide) (side : EgtSide) :
    (pawnFlags order side).length = order.count side := by
  cases side with
  | sideToMove => rw [pawnFlags_sideToMove, length_stmFlags]
  | sideNotToMove => rw [pawnFlags_sideNotToMove, List.length_reverse, length_sntmFlags]

/-- **The flags** of both sides determine the order of the pawns. -/
theorem eq_of_pawnFlags {w v : List EgtSide} (h : ∀ side, pawnFlags w side = pawnFlags v side) :
    w = v := by
  have hstm := h sideToMove
  have hsntm := h sideNotToMove
  rw [pawnFlags_sideToMove, pawnFlags_sideToMove] at hstm
  rw [pawnFlags_sideNotToMove, pawnFlags_sideNotToMove, List.reverse_inj] at hsntm
  exact eq_of_flags hstm hsntm (fun he => by cases he)

/-! ### Reading a word back from its flags -/

/-- The set bits of a word are the pawns of the side not to move. -/
theorem countOnes_eq {n word : ℕ} (hword : word < 1 <<< n) :
    countOnes word = ((List.range n).map (wordSide word)).count sideNotToMove := by
  rw [Nat.one_shiftLeft] at hword
  have hbits : ∀ m, n ≤ m → ((List.range m).filter word.testBit).length
      = ((List.range n).map (wordSide word)).count sideNotToMove := by
    intro m hm
    have hside : ((List.range n).map (wordSide word)).count sideNotToMove
        = ((List.range n).filter word.testBit).length := by
      rw [List.count_eq_countP, List.countP_map, List.countP_eq_length_filter]
      congr 1
      refine List.filter_congr (fun i _ => ?_)
      simp only [Function.comp_apply, wordSide, and_shiftLeft_eq_zero]
      cases word.testBit i <;> rfl
    rw [hside]
    induction m, hm using Nat.le_induction with
    | base => rfl
    | succ m hm ih =>
      have hhigh : word.testBit m = false :=
        Nat.testBit_lt_two_pow (hword.trans_le (Nat.pow_le_pow_right (by omega) hm))
      rw [List.range_succ, List.filter_append, List.length_append, ih]
      simp [hhigh]
  unfold countOnes
  rcases Nat.lt_or_ge (word.log2 + 1) n with h | h
  · -- No bit above the leading one is set.
    rw [← hbits n le_rfl]
    have hsplit : ∀ k, word.log2 + 1 ≤ k →
        ((List.range k).filter word.testBit).length
          = ((List.range (word.log2 + 1)).filter word.testBit).length := by
      intro k hk
      induction k, hk using Nat.le_induction with
      | base => rfl
      | succ k hk ih =>
        have hhigh : word.testBit k = false :=
          Nat.testBit_lt_two_pow (lt_of_lt_of_le Nat.lt_log2_self
            (Nat.pow_le_pow_right (by omega) hk))
        rw [List.range_succ, List.filter_append, List.length_append, ih]
        simp [hhigh]
    rw [hsplit n h.le]
  · exact hbits _ h

/-- Every order of a file is the sequence of the sides of some word. -/
theorem exists_word (order : List EgtSide) :
    ∃ word < 1 <<< order.length, (List.range order.length).map (wordSide word) = order := by
  refine ⟨fileWord order - 2 ^ order.length, ?_, ?_⟩
  · have h₁ := fileWord_lt order
    have h₂ := le_fileWord order
    rw [Nat.one_shiftLeft]
    rw [Nat.pow_succ] at h₁
    omega
  · conv_rhs => rw [← map_wordSide order]
    refine List.map_congr_left (fun i hi => ?_)
    rw [List.mem_range] at hi
    have hbit : (fileWord order - 2 ^ order.length).testBit i = (fileWord order).testBit i := by
      have h₂ := le_fileWord order
      have hsum : fileWord order = 2 ^ order.length + (fileWord order - 2 ^ order.length) := by
        omega
      rw [hsum, Nat.testBit_two_pow_add_gt hi]
      congr 1
      omega
    simp only [wordSide, and_shiftLeft_eq_zero, hbit]

/-- **Reading a file**: the flags of an order of at most six pawns give the order back. -/
theorem parseFile_pawnFlags (file : File) (order : List EgtSide) (hlen : order.length ≤ 6) :
    parseFile file (pawnFlags order sideToMove) (pawnFlags order sideNotToMove)
      = .ok (if order = [] then none else some (.pawnGroup file ⟨order, hlen⟩)) := by
  have hsum := count_add_count order
  unfold parseFile
  simp only [length_pawnFlags, hsum]
  by_cases hnil : order = []
  · simp [hnil]
  have hne : order.length ≠ 0 := fun h => hnil (List.length_eq_zero_iff.mp h)
  rw [if_neg hne, dif_neg (by omega), if_neg hnil]
  generalize hfind : (List.range (1 <<< order.length)).findSome? _ = found
  cases found with
  | none =>
    -- The word of the order itself would have been found.
    exfalso
    obtain ⟨word, hword, hmap⟩ := exists_word order
    rw [List.findSome?_eq_none_iff] at hfind
    have := hfind word (List.mem_range.mpr hword)
    rw [if_neg (not_not.mpr (by rw [countOnes_eq hword, hmap]))] at this
    simp only [hmap] at this
    simp at this
  | some found =>
    obtain ⟨word, -, hw⟩ := List.exists_of_findSome?_eq_some hfind
    by_cases hones : countOnes word ≠ order.count sideNotToMove
    · rw [if_pos hones] at hw; cases hw
    rw [if_neg hones] at hw
    simp only [Option.ite_none_right_eq_some, Option.some.injEq] at hw
    obtain ⟨⟨h₁, h₂⟩, rfl⟩ := hw
    have heq : (List.range order.length).map (wordSide word) = order := by
      refine eq_of_pawnFlags (fun side => ?_)
      cases side with
      | sideToMove => exact h₁
      | sideNotToMove => exact h₂
    simp only [heq]

end ChessEgt
