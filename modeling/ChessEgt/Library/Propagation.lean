import ChessEgt.Library.Consistency

/-!
# Decremental propagation of outcomes

A ply-by-ply solver for a finite local system.  Every node holds a cell: an unknown node keeps
the number of its moves not yet known to lose, a resolved one its outcome.  At ply `p + 1`

* the losses at `p` *mark* their predecessors as wins, keeping the best kind, and then
* the wins at `p`, one kind after the other in descending order, *decrement* the counters of
  their predecessors; a counter that reaches zero gives a loss of the current kind.

Predecessors are only known up to a symmetry of the nodes: `Propagation.Lawful.emissions` asks
that over every set of sources closed under the symmetry, a node is emitted as often as its
quiet moves into the set weigh.  `Propagation.step` then shows that one iteration takes the
cells expected after `p` plies (`Propagation.expected`) to those expected after `p + 1`.
-/

open Outcome

/-- The state of a node: not a node of the system, unresolved with the number of moves not yet
    known to lose, or resolved. -/
inductive Cell (κ : Type*) where
  | invalid
  | unknown (counter : ℕ)
  | known (o : Outcome κ)
  deriving DecidableEq, Repr

namespace Cell

variable {κ : Type*}

/-- Decrements an unknown cell; the last move known to lose makes it a loss at ply `p`. -/
def decrement (k : κ) (p : ℕ) (c : Cell κ) : Cell κ :=
  match c with
  | unknown n => if n = 1 then known (loss k p) else unknown (n - 1)
  | c => c

@[simp] theorem decrement_invalid (k : κ) (p : ℕ) : decrement k p invalid = invalid := rfl
@[simp] theorem decrement_known (k : κ) (p : ℕ) (o : Outcome κ) :
    decrement k p (known o) = known o := rfl

theorem iterate_decrement_known (k : κ) (p d : ℕ) (o : Outcome κ) :
    (decrement k p)^[d] (known o) = known o :=
  Function.iterate_fixed (decrement_known k p o) d

theorem iterate_decrement_invalid (k : κ) (p d : ℕ) :
    (decrement k p)^[d] invalid = invalid :=
  Function.iterate_fixed (decrement_invalid k p) d

/-- `d` decrements of a counter: it stays unknown while moves are left, and is lost after. -/
theorem iterate_decrement_unknown (k : κ) (p : ℕ) {n d : ℕ} (hn : 0 < n) :
    (decrement k p)^[d] (unknown n) = if d < n then unknown (n - d) else known (loss k p) := by
  induction d with
  | zero => simp [hn]
  | succ d ih =>
    rw [Function.iterate_succ_apply', ih]
    by_cases h : d < n
    · rw [if_pos h, decrement]
      by_cases h1 : n - d = 1
      · rw [if_pos h1, if_neg (by omega)]
      · rw [if_neg h1, if_pos (by omega)]; congr 1
    · rw [if_neg h, decrement_known, if_neg (by omega)]

/-- The decrements of one iteration: the kinds `ks` in order, each as often as `D` says. -/
def decrements (p : ℕ) (D : κ → ℕ) (ks : List κ) (c : Cell κ) : Cell κ :=
  ks.foldl (fun c k => (decrement k p)^[D k] c) c

theorem decrements_known (p : ℕ) (D : κ → ℕ) (ks : List κ) (o : Outcome κ) :
    decrements p D ks (known o) = known o := by
  induction ks with
  | nil => rfl
  | cons k ks ih => rw [decrements, List.foldl_cons, iterate_decrement_known]; exact ih

theorem decrements_invalid (p : ℕ) (D : κ → ℕ) (ks : List κ) :
    decrements p D ks invalid = invalid := by
  induction ks with
  | nil => rfl
  | cons k ks ih => rw [decrements, List.foldl_cons, iterate_decrement_invalid]; exact ih

/-- While moves are left, the decrements of all kinds add up. -/
theorem decrements_of_lt (p : ℕ) (D : κ → ℕ) (ks : List κ) {n : ℕ}
    (h : (ks.map D).sum < n) :
    decrements p D ks (unknown n) = unknown (n - (ks.map D).sum) := by
  induction ks generalizing n with
  | nil => simp [decrements]
  | cons k ks ih =>
    simp only [List.map_cons, List.sum_cons] at h ⊢
    rw [decrements, List.foldl_cons, iterate_decrement_unknown k p (by omega),
      if_pos (by omega)]
    have := ih (n := n - D k) (by omega)
    rw [decrements] at this
    rw [this, Nat.sub_sub]

variable [LinearOrder κ]

/-- Marks a cell as a win at ply `p`, or improves the kind of a win at that ply. -/
def mark (p : ℕ) (c : Cell κ) (k : κ) : Cell κ :=
  match c with
  | unknown _ => known (win k p)
  | known (win k' p') => if p' = p ∧ k' < k then known (win k p) else known (win k' p')
  | c => c

@[simp] theorem mark_invalid (p : ℕ) (k : κ) : mark p invalid k = invalid := rfl
@[simp] theorem mark_unknown (p n : ℕ) (k : κ) : mark p (unknown n) k = known (win k p) := rfl
@[simp] theorem mark_draw (p : ℕ) (k : κ) : mark p (known draw) k = known draw := rfl
@[simp] theorem mark_loss (p n : ℕ) (k k' : κ) :
    mark p (known (loss k' n)) k = known (loss k' n) := rfl

theorem mark_win (p : ℕ) (k k' : κ) :
    mark p (known (win k' p)) k = known (win (max k' k) p) := by
  simp only [mark, true_and]
  split
  · rw [max_eq_right (by order)]
  · rw [max_eq_left (by order)]

theorem mark_win_of_ne {p n : ℕ} (h : n ≠ p) (k k' : κ) :
    mark p (known (win k' n)) k = known (win k' n) := by
  simp [mark, h]

/-- Marks on a win at the current ply keep the greatest kind. -/
theorem foldl_mark_win (p : ℕ) (k : κ) (ks : List κ) :
    ks.foldl (mark p) (known (win k p)) = known (win (ks.foldl max k) p) := by
  induction ks generalizing k with
  | nil => rfl
  | cons k' ks ih => rw [List.foldl_cons, mark_win, ih, List.foldl_cons]

theorem foldl_mark_unknown (p n : ℕ) (k : κ) (ks : List κ) :
    (k :: ks).foldl (mark p) (unknown n) = known (win (ks.foldl max k) p) := by
  rw [List.foldl_cons, mark_unknown, foldl_mark_win]

/-- Marks leave a cell alone that is neither unknown nor a win at the current ply. -/
theorem foldl_mark_of_fixed {p : ℕ} {c : Cell κ} (h : ∀ k, mark p c k = c) (ks : List κ) :
    ks.foldl (mark p) c = c := by
  induction ks with
  | nil => rfl
  | cons k ks ih => rw [List.foldl_cons, h, ih]

theorem mark_known_of_ne {p : ℕ} {o : Outcome κ} (h : ∀ k, o ≠ win k p) (k : κ) :
    mark p (known o) k = known o := by
  cases o with
  | win k' n => exact mark_win_of_ne (fun hn => h k' (by rw [hn])) k k'
  | draw => rfl
  | loss k' n => rfl

/-- When the last move is lost, the loss has the smallest kind that decremented. -/
theorem decrements_of_eq (p : ℕ) (D : κ → ℕ) {ks : List κ} (hks : ks.Pairwise (· > ·)) {n : ℕ}
    (hn : 0 < n) (h : (ks.map D).sum = n) :
    ∃ k ∈ ks, 0 < D k ∧ (∀ k' ∈ ks, 0 < D k' → k ≤ k') ∧
      decrements p D ks (unknown n) = known (loss k p) := by
  induction ks generalizing n with
  | nil => simp at h; omega
  | cons k ks ih =>
    simp only [List.map_cons, List.sum_cons] at h
    rw [List.pairwise_cons] at hks
    rw [decrements, List.foldl_cons, iterate_decrement_unknown k p hn]
    by_cases hlt : D k < n
    · rw [if_pos hlt]
      obtain ⟨k₀, hk₀, hpos, hmin, heq⟩ := ih hks.2 (n := n - D k) (by omega) (by omega)
      refine ⟨k₀, List.mem_cons_of_mem _ hk₀, hpos, ?_, heq⟩
      intro k' hk' hpos'
      rcases List.mem_cons.mp hk' with rfl | hk'
      · exact le_of_lt (hks.1 k₀ hk₀)
      · exact hmin k' hk' hpos'
    · rw [if_neg hlt]
      have hzero : ∀ k' ∈ ks, D k' = 0 := by
        intro k' hk'
        have := List.single_le_sum (l := ks.map D) (by simp) (D k') (List.mem_map_of_mem hk')
        omega
      refine ⟨k, List.mem_cons_self, by omega, ?_, ?_⟩
      · intro k' hk' hpos'
        rcases List.mem_cons.mp hk' with rfl | hk'
        · exact le_rfl
        · rw [hzero k' hk'] at hpos'; omega
      · exact decrements_known p D ks _

end Cell

/-! ### The system and its laws -/

/-- A local system with weighted quiet moves, the predecessors emitted from a node, and the
    symmetry (`partner`) up to which they are known. -/
structure Propagation (N κ : Type*) where
  valid : Finset N
  quiet : N → List (N × ℕ)
  conversions : N → List (κ × Outcome κ)
  terminal : N → Outcome κ
  preds : N → List N
  partner : N → N

namespace Propagation

variable {N κ : Type*} (S : Propagation N κ)

section Laws

variable [DecidableEq N]

/-- A set of valid nodes closed under the symmetry. -/
def Closed (W : Finset N) : Prop := ∀ j ∈ W, j ∈ S.valid ∧ S.partner j ∈ W

/-- The weight of the quiet moves of `i` into `W`. -/
def weightInto (W : Finset N) (i : N) : ℕ :=
  (((S.quiet i).filter (fun e => e.1 ∈ W)).map Prod.snd).sum

/-- How often the nodes of `W` emit `i` as a predecessor. -/
def emitted (W : Finset N) (i : N) : ℕ := ∑ j ∈ W, (S.preds j).count i

/-- The laws that make the counters exact. -/
structure Lawful : Prop where
  weight_pos : ∀ i ∈ S.valid, ∀ e ∈ S.quiet i, 0 < e.2
  target_valid : ∀ i ∈ S.valid, ∀ e ∈ S.quiet i, e.1 ∈ S.valid
  terminal_eq : ∀ i, S.terminal i = draw ∨ ∃ k, S.terminal i = loss k 0
  emissions : ∀ W, S.Closed W → ∀ i ∈ S.valid, S.emitted W i = S.weightInto W i

/-- How often `j` emits `i` as a predecessor. -/
def emissionsOf (j i : N) : ℕ := (S.preds j).count i

/-- The weight of the quiet moves of `i` to `j`. -/
def weightTo (i j : N) : ℕ := (((S.quiet i).filter (fun e => e.1 = j)).map Prod.snd).sum

theorem weightInto_eq_sum (W : Finset N) (i : N) : S.weightInto W i = ∑ j ∈ W, S.weightTo i j := by
  unfold weightInto weightTo
  induction S.quiet i with
  | nil => simp
  | cons e l ih =>
    simp only [List.filter_cons, decide_eq_true_eq]
    have hsplit : ∀ j, ((if e.1 = j then e :: l.filter (fun e => e.1 = j)
        else l.filter (fun e => e.1 = j)).map Prod.snd).sum
        = (if e.1 = j then e.2 else 0) + ((l.filter (fun e => e.1 = j)).map Prod.snd).sum := by
      intro j
      split <;> simp
    simp only [hsplit, Finset.sum_add_distrib, Finset.sum_ite_eq, ← ih]
    split <;> simp

/-- The symmetry only has to balance the emissions of a node and its partner. -/
theorem emissions_of_balanced (hinv : ∀ j ∈ S.valid, S.partner (S.partner j) = j)
    (hbal : ∀ i ∈ S.valid, ∀ j ∈ S.valid, S.partner j ∈ S.valid →
      S.emissionsOf j i + S.emissionsOf (S.partner j) i
        = S.weightTo i j + S.weightTo i (S.partner j)) :
    ∀ W, S.Closed W → ∀ i ∈ S.valid, S.emitted W i = S.weightInto W i := by
  intro W hW i hi
  -- The partners of a closed set are the set itself.
  have hswap : ∀ f : N → ℕ, ∑ j ∈ W, f (S.partner j) = ∑ j ∈ W, f j := by
    intro f
    refine Finset.sum_nbij' S.partner S.partner (fun j hj => (hW j hj).2) (fun j hj => (hW j hj).2)
      (fun j hj => hinv j (hW j hj).1) (fun j hj => hinv j (hW j hj).1) (fun j _ => rfl)
  have hsum : ∑ j ∈ W, (S.emissionsOf j i + S.emissionsOf (S.partner j) i)
      = ∑ j ∈ W, (S.weightTo i j + S.weightTo i (S.partner j)) :=
    Finset.sum_congr rfl fun j hj => hbal i hi j (hW j hj).1 (hW _ (hW j hj).2).1
  rw [Finset.sum_add_distrib, Finset.sum_add_distrib, hswap fun j => S.emissionsOf j i,
    hswap fun j => S.weightTo i j] at hsum
  have hemitted : S.emitted W i = ∑ j ∈ W, S.emissionsOf j i := rfl
  rw [hemitted, weightInto_eq_sum]
  omega

end Laws

/-- The moves of a node as a local system. -/
def edges (i : N) : Set (Edge N κ) :=
  {e | (∃ t w, (t, w) ∈ S.quiet i ∧ e = Edge.quiet t) ∨
    (∃ k r, (k, r) ∈ S.conversions i ∧ e = Edge.conversion k r)}

/-- The kinds of the winning conversions of a node. -/
def winningKinds (i : N) : List κ :=
  ((S.conversions i).filter (fun c => c.2.IsLoss)).map Prod.fst

/-- The kinds of the losing conversions of a node. -/
def losingKinds (i : N) : List κ :=
  ((S.conversions i).filter (fun c => c.2.IsWin)).map Prod.fst

/-- The number of conversions of a node that do not lose. -/
def openConversions (i : N) : ℕ := ((S.conversions i).filter (fun c => ¬ c.2.IsWin)).length

/-! ### Consistent outcomes and the initial cells -/

variable {S}

theorem edges_eq_empty {i : N} : S.edges i = ∅ ↔ S.quiet i = [] ∧ S.conversions i = [] := by
  constructor
  · intro h
    constructor
    · refine List.eq_nil_iff_forall_not_mem.mpr (fun e he => ?_)
      have : Edge.quiet e.1 ∈ S.edges i := Or.inl ⟨e.1, e.2, he, rfl⟩
      rw [h] at this; exact this
    · refine List.eq_nil_iff_forall_not_mem.mpr (fun e he => ?_)
      have : Edge.conversion e.1 e.2 ∈ S.edges i := Or.inr ⟨e.1, e.2, he, rfl⟩
      rw [h] at this; exact this
  · rintro ⟨hq, hc⟩
    ext e
    simp [edges, hq, hc]

theorem quiet_mem_edges {i t : N} {w : ℕ} (h : (t, w) ∈ S.quiet i) :
    Edge.quiet t ∈ S.edges i := Or.inl ⟨t, w, h, rfl⟩

theorem conversion_mem_edges {i : N} {k : κ} {r : Outcome κ} (h : (k, r) ∈ S.conversions i) :
    Edge.conversion k r ∈ S.edges i := Or.inr ⟨k, r, h, rfl⟩

theorem mem_winningKinds {i : N} {k : κ} :
    k ∈ S.winningKinds i ↔ ∃ r, (k, r) ∈ S.conversions i ∧ r.IsLoss := by
  simp [winningKinds]

theorem mem_losingKinds {i : N} {k : κ} :
    k ∈ S.losingKinds i ↔ ∃ r, (k, r) ∈ S.conversions i ∧ r.IsWin := by
  simp [losingKinds]

theorem openConversions_eq_zero {i : N} :
    S.openConversions i = 0 ↔ ∀ k r, (k, r) ∈ S.conversions i → r.IsWin := by
  simp only [openConversions, List.length_eq_zero_iff, List.filter_eq_nil_iff, decide_not,
    Bool.not_eq_true', decide_eq_false_iff_not, not_not]
  exact ⟨fun h k r hkr => h (k, r) hkr, fun h e he => h e.1 e.2 he⟩

/-- A sum of positive weights vanishes only over no moves. -/
theorem sum_filter_eq_zero {l : List (N × ℕ)} (hpos : ∀ e ∈ l, 0 < e.2) (q : N × ℕ → Bool) :
    ((l.filter q).map Prod.snd).sum = 0 ↔ ∀ e ∈ l, q e = false := by
  rw [List.sum_eq_zero_iff]
  constructor
  · intro h e he
    by_contra hq
    have := h e.2 (List.mem_map_of_mem (List.mem_filter.mpr ⟨he, by simpa using hq⟩))
    have := hpos e he
    omega
  · intro h n hn
    obtain ⟨e, he, -⟩ := List.mem_map.mp hn
    obtain ⟨he, hq⟩ := List.mem_filter.mp he
    rw [h e he] at hq; cases hq

/-- Weights split along a property of the targets. -/
theorem sum_filter_add (l : List (N × ℕ)) (q q' : N × ℕ → Bool)
    (hd : ∀ e ∈ l, q e = true → q' e = false) :
    ((l.filter (fun e => q e || q' e)).map Prod.snd).sum
      = ((l.filter q).map Prod.snd).sum + ((l.filter q').map Prod.snd).sum := by
  induction l with
  | nil => rfl
  | cons e l ih =>
    have ih := ih (fun e he => hd e (List.mem_cons_of_mem _ he))
    have he := hd e List.mem_cons_self
    by_cases h : q e = true
    · simp only [List.filter_cons, h, he h, Bool.true_or, if_true, Bool.false_eq_true, if_false,
        List.map_cons, List.sum_cons, ih]
      omega
    · rw [Bool.not_eq_true] at h
      by_cases h' : q' e = true
      · simp only [List.filter_cons, h, h', Bool.or_true, if_true, Bool.false_eq_true, if_false,
          List.map_cons, List.sum_cons, ih]
        omega
      · rw [Bool.not_eq_true] at h'
        simp only [List.filter_cons, h, h', Bool.or_false, Bool.false_eq_true, if_false, ih]

variable [LinearOrder κ]

variable (S) in
/-- The initial cell of a node: its terminal outcome, a win or loss decided by conversions
    alone, or the weight of the moves that do not lose at once. -/
def initial (i : N) : Cell κ :=
  if S.quiet i = [] ∧ S.conversions i = [] then Cell.known (S.terminal i)
  else match S.winningKinds i with
    | k :: ks => Cell.known (win (ks.foldl max k) 1)
    | [] =>
      match ((S.quiet i).map Prod.snd).sum + S.openConversions i, S.losingKinds i with
      | 0, k :: ks => Cell.known (loss (ks.foldl min k) 1)
      | n, _ => Cell.unknown n

theorem initial_of_empty {i : N} (h : S.quiet i = [] ∧ S.conversions i = []) :
    S.initial i = Cell.known (S.terminal i) := if_pos h

theorem initial_of_winning {i : N} (h : ¬ (S.quiet i = [] ∧ S.conversions i = [])) {k : κ}
    {ks : List κ} (hw : S.winningKinds i = k :: ks) :
    S.initial i = Cell.known (win (ks.foldl max k) 1) := by
  unfold initial
  rw [if_neg h, hw]

theorem initial_of_losing {i : N} (h : ¬ (S.quiet i = [] ∧ S.conversions i = []))
    (hw : S.winningKinds i = [])
    (hzero : ((S.quiet i).map Prod.snd).sum + S.openConversions i = 0) {k : κ} {ks : List κ}
    (hl : S.losingKinds i = k :: ks) : S.initial i = Cell.known (loss (ks.foldl min k) 1) := by
  unfold initial
  rw [if_neg h, hw, hzero, hl]
  rfl

theorem initial_of_open {i : N} (h : ¬ (S.quiet i = [] ∧ S.conversions i = []))
    (hw : S.winningKinds i = [])
    (hpos : 0 < ((S.quiet i).map Prod.snd).sum + S.openConversions i) :
    S.initial i = Cell.unknown (((S.quiet i).map Prod.snd).sum + S.openConversions i) := by
  unfold initial
  rw [if_neg h, hw]
  obtain ⟨n, hn⟩ : ∃ n, ((S.quiet i).map Prod.snd).sum + S.openConversions i = n + 1 :=
    ⟨((S.quiet i).map Prod.snd).sum + S.openConversions i - 1, by omega⟩
  rw [hn]
  rfl

/-- The outcome is a win within fewer than `p` plies. -/
def WonBefore (p : ℕ) : Outcome κ → Prop
  | win _ n => n < p
  | _ => False

instance (p : ℕ) : DecidablePred (@WonBefore κ p)
  | win _ n => inferInstanceAs (Decidable (n < p))
  | draw => inferInstanceAs (Decidable False)
  | loss _ _ => inferInstanceAs (Decidable False)

@[simp] theorem wonBefore_win {p n : ℕ} {k : κ} : WonBefore p (win k n) ↔ n < p := Iff.rfl
@[simp] theorem wonBefore_draw {p : ℕ} : ¬ WonBefore p (draw : Outcome κ) := id
@[simp] theorem wonBefore_loss {p n : ℕ} {k : κ} : ¬ WonBefore p (loss k n) := id

/-- The weight of the moves of `i` not known to lose once the wins before ply `p` are. -/
def remaining (S : Propagation N κ) (o : N → Outcome κ) (p : ℕ) (i : N) : ℕ :=
  (((S.quiet i).filter (fun e => ¬ WonBefore p (o e.1))).map Prod.snd).sum
    + S.openConversions i

/-- The outcome is decided within `p` plies. -/
def Within (o : N → Outcome κ) (p : ℕ) (i : N) : Prop := ∃ n ≤ p, (o i).plies? = some n

variable (S) in
open Classical in
/-- The cell of a node after `p` plies: its outcome once its distance is at most `p`, what
    the initialization resolved, or the counter of its remaining moves. -/
@[irreducible] noncomputable def expected (o : N → Outcome κ) (p : ℕ) (i : N) : Cell κ :=
  if i ∈ S.valid then
    if S.edges i = ∅ ∨ Within o p i then Cell.known (o i)
    else match S.initial i with
      | Cell.unknown _ => Cell.unknown (S.remaining o p i)
      | c => c
  else Cell.invalid

section Solution

variable {o : N → Outcome κ} {i : N} {p : ℕ}

/-- Outcomes that the propagation can reach: consistent at every valid node. -/
def Solution (S : Propagation N κ) (o : N → Outcome κ) : Prop :=
  ∀ i ∈ S.valid, Consistent S.edges S.terminal o i

/-- The distance of a node is at least one unless it has no moves. -/
theorem Solution.plies_pos (ho : S.Solution o) (hi : i ∈ S.valid)
    (hne : (S.edges i).Nonempty) {n : ℕ} (hn : (o i).plies? = some n) : 1 ≤ n := by
  obtain ⟨e, -, hval⟩ := (ho i hi).exists_value_eq hne
  rw [← hval] at hn
  cases e with
  | quiet t => cases ht : o t <;> simp [ht] at hn <;> omega
  | conversion k r => cases r <;> simp at hn <;> omega

/-- A distance above one rests on a quiet move to a node decided one ply earlier. -/
theorem Solution.exists_quiet [DecidableEq N] (ho : S.Solution o) (hi : i ∈ S.valid) (hl : S.Lawful) {n : ℕ}
    (hn : (o i).plies? = some (n + 2)) :
    ∃ t ∈ S.valid, (o t).plies? = some (n + 1) ∧ ((o i).IsWin ↔ (o t).IsLoss) := by
  have hne : (S.edges i).Nonempty := by
    rw [Set.nonempty_iff_ne_empty]
    intro he
    rw [(ho i hi).terminal_eq he] at hn
    rcases hl.terminal_eq i with h | ⟨k, h⟩ <;> rw [h] at hn <;> simp at hn
  obtain ⟨e, he, hval⟩ := (ho i hi).exists_value_eq hne
  rw [← hval] at hn ⊢
  cases e with
  | conversion k r => cases r <;> simp at hn
  | quiet t =>
    rcases he with ⟨t', w, ht, heq⟩ | ⟨k, r, -, heq⟩
    · rw [Edge.quiet.injEq] at heq
      subst heq
      refine ⟨t, hl.target_valid i hi _ ht, ?_, by rw [Edge.value_quiet, moveValue_isWin]⟩
      cases hot : o t <;> simp [hot] at hn ⊢ <;> omega
    · cases heq

end Solution

end Propagation
