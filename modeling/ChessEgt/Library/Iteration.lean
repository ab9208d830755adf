import ChessEgt.Library.Propagation

/-!
# One iteration of the propagation

The cells expected after `p` plies, marked by the losses at `p` and decremented by the wins at
`p`, are the cells expected after `p + 1` plies (`Propagation.step`); an iteration at a ply
without decided nodes is the last one (`Propagation.Solution.no_later_plies`).
-/

open Outcome

/-! ### Greatest and least elements of a fold -/

section Fold

variable {κ : Type*} [LinearOrder κ]

theorem foldl_max_isGreatest (k : κ) (ks : List κ) :
    IsGreatest {k' | k' ∈ k :: ks} (ks.foldl max k) := by
  induction ks generalizing k with
  | nil => simp [isGreatest_singleton]
  | cons k' ks ih =>
    obtain ⟨hmem, hub⟩ := ih (max k k')
    rw [List.foldl_cons]
    constructor
    · rcases List.mem_cons.mp hmem with h | h
      · rcases max_choice k k' with hc | hc
        · rw [hc] at h; rw [hc, h]; exact List.mem_cons_self
        · rw [hc] at h; rw [hc, h]; exact List.mem_cons_of_mem _ List.mem_cons_self
      · exact List.mem_cons_of_mem _ (List.mem_cons_of_mem _ h)
    · intro x hx
      have hm := hub (a := max k k') List.mem_cons_self
      rcases List.mem_cons.mp hx with rfl | hx
      · exact le_trans (le_max_left _ _) hm
      · rcases List.mem_cons.mp hx with rfl | hx
        · exact le_trans (le_max_right _ _) hm
        · exact hub (List.mem_cons_of_mem _ hx)

theorem foldl_min_isLeast (k : κ) (ks : List κ) :
    IsLeast {k' | k' ∈ k :: ks} (ks.foldl min k) :=
  @foldl_max_isGreatest κᵒᵈ _ k ks

end Fold

namespace Propagation

variable {N κ : Type*} [LinearOrder κ] {S : Propagation N κ} {o : N → Outcome κ} {i : N}

/-! ### The initial cells -/

theorem remaining_zero (o : N → Outcome κ) (i : N) :
    S.remaining o 0 i = ((S.quiet i).map Prod.snd).sum + S.openConversions i := by
  have hall : ∀ e ∈ S.quiet i, decide (¬ WonBefore 0 (o e.1)) = true := by
    intro e _
    cases o e.1 <;> simp [WonBefore]
  rw [remaining, List.filter_eq_self.mpr hall]

/-- The four ways in which a node is initialized. -/
theorem initial_cases [DecidableEq N] (hl : S.Lawful) (hi : i ∈ S.valid) (o : N → Outcome κ) :
    (S.edges i = ∅ ∧ S.initial i = Cell.known (S.terminal i)) ∨
    ((S.edges i).Nonempty ∧ ∃ k, IsGreatest {k | k ∈ S.winningKinds i} k ∧
      S.initial i = Cell.known (win k 1)) ∨
    ((S.edges i).Nonempty ∧ S.winningKinds i = [] ∧ S.quiet i = [] ∧ S.openConversions i = 0 ∧
      ∃ k, IsLeast {k | k ∈ S.losingKinds i} k ∧ S.initial i = Cell.known (loss k 1)) ∨
    ((S.edges i).Nonempty ∧ S.winningKinds i = [] ∧ 0 < S.remaining o 0 i ∧
      S.initial i = Cell.unknown (S.remaining o 0 i)) := by
  unfold initial
  by_cases he : S.edges i = ∅
  · exact Or.inl ⟨he, by rw [if_pos (edges_eq_empty.mp he)]⟩
  have hne : (S.edges i).Nonempty := Set.nonempty_iff_ne_empty.mpr he
  rw [edges_eq_empty] at he
  rw [if_neg he]
  refine Or.inr ?_
  cases hw : S.winningKinds i with
  | cons k ks => exact Or.inl ⟨hne, _, foldl_max_isGreatest k ks, rfl⟩
  | nil =>
    refine Or.inr ?_
    simp only [← remaining_zero o i]
    cases hr : S.remaining o 0 i with
    | succ n => exact Or.inr ⟨hne, trivial, Nat.succ_pos n, rfl⟩
    | zero =>
      rw [remaining_zero, Nat.add_eq_zero_iff] at hr
      have hq : S.quiet i = [] := by
        refine List.eq_nil_iff_forall_not_mem.mpr (fun e hmem => ?_)
        have := List.sum_eq_zero_iff.mp hr.1 e.2 (List.mem_map_of_mem hmem)
        have := hl.weight_pos i hi e hmem
        omega
      have hwin := openConversions_eq_zero.mp hr.2
      cases hlk : S.losingKinds i with
      | cons k ks => exact Or.inl ⟨hne, trivial, hq, hr.2, _, foldl_min_isLeast k ks, rfl⟩
      | nil =>
        -- A node with moves, all of them losing conversions, has a losing kind.
        exfalso
        refine he ⟨hq, List.eq_nil_iff_forall_not_mem.mpr (fun e hmem => ?_)⟩
        have : e.1 ∈ S.losingKinds i := mem_losingKinds.mpr ⟨e.2, hmem, hwin e.1 e.2 hmem⟩
        rw [hlk] at this; exact absurd this List.not_mem_nil

/-! ### What consistent outcomes say about the moves -/

section Moves

variable [DecidableEq N]

/-- Without winning conversions, a node is won at `p + 1` exactly over the losses at `p`. -/
theorem Solution.win_iff (ho : S.Solution o) (hl : S.Lawful) (hi : i ∈ S.valid)
    (hw : S.winningKinds i = []) {k : κ} {p : ℕ} (hk : o i = win k p) :
    ∃ t w n, p = n + 1 ∧ (t, w) ∈ S.quiet i ∧ o t = loss k n := by
  have hne : (S.edges i).Nonempty := by
    rw [Set.nonempty_iff_ne_empty]
    intro he
    rw [(ho i hi).terminal_eq he] at hk
    rcases hl.terminal_eq i with h | ⟨k', h⟩ <;> rw [h] at hk <;> cases hk
  obtain ⟨e, he, hval⟩ := (ho i hi).exists_value_eq hne
  rw [hk] at hval
  rcases he with ⟨t, w, ht, rfl⟩ | ⟨k', r, hr, rfl⟩
  · obtain ⟨n, hn, hot⟩ := moveValue_none_eq_win.mp hval
    exact ⟨t, w, n, hn, ht, hot⟩
  · have hloss : r.IsLoss := by
      rw [← moveValue_isWin (k := some k')]
      rw [Edge.value_conversion] at hval
      rw [hval]; exact isWin_win _ _
    have := mem_winningKinds.mpr ⟨r, hr, hloss⟩
    rw [hw] at this; exact absurd this List.not_mem_nil

theorem Solution.le_of_quiet (ho : S.Solution o) (hi : i ∈ S.valid) {t : N} {w : ℕ}
    (ht : (t, w) ∈ S.quiet i) : moveValue none (o t) ≤ o i :=
  (ho i hi).value_le (quiet_mem_edges ht)

theorem Solution.le_of_conversion (ho : S.Solution o) (hi : i ∈ S.valid) {k : κ} {r : Outcome κ}
    (hr : (k, r) ∈ S.conversions i) : moveValue (some k) r ≤ o i :=
  (ho i hi).value_le (conversion_mem_edges hr)

/-- A loss has only moves that lose, at that distance or before. -/
theorem Solution.loss_moves (ho : S.Solution o) (hi : i ∈ S.valid) {k : κ} {p : ℕ}
    (hk : o i = loss k p) :
    (∀ t w, (t, w) ∈ S.quiet i → ∃ k' n, o t = win k' n ∧ n + 1 ≤ p ∧ (n + 1 = p → k ≤ k')) ∧
    (∀ k' r, (k', r) ∈ S.conversions i → r.IsWin ∧ 1 ≤ p ∧ (p = 1 → k ≤ k')) := by
  constructor
  · intro t w ht
    have hle := ho.le_of_quiet hi ht
    rw [hk, le_loss_iff] at hle
    obtain ⟨k', n', hval, hc⟩ := hle
    obtain ⟨m, rfl, hot⟩ := moveValue_none_eq_loss.mp hval
    refine ⟨k', m, hot, by omega, fun hm => ?_⟩
    rcases hc with hlt | ⟨-, hle⟩
    · omega
    · exact hle
  · intro k' r hr
    have hle := ho.le_of_conversion hi hr
    rw [hk, le_loss_iff] at hle
    obtain ⟨k₁, n', hval, hc⟩ := hle
    have hwin : r.IsWin := by
      rw [← moveValue_isLoss (k := some k'), hval]; exact isLoss_loss _ _
    obtain ⟨k₂, n₂, rfl⟩ := Outcome.isWin_iff.mp hwin
    rw [moveValue_some_win, loss.injEq] at hval
    obtain ⟨rfl, rfl⟩ := hval
    refine ⟨hwin, by omega, fun hp => ?_⟩
    rcases hc with hlt | ⟨-, hle⟩
    · omega
    · exact hle

/-- A loss is attained: by a quiet move one ply earlier, or by a conversion at ply one. -/
theorem Solution.loss_attained (ho : S.Solution o) (hi : i ∈ S.valid)
    (hne : (S.edges i).Nonempty) {k : κ} {p : ℕ} (hk : o i = loss k p) :
    (∃ t w n, p = n + 1 ∧ (t, w) ∈ S.quiet i ∧ o t = win k n) ∨
    (p = 1 ∧ ∃ r, (k, r) ∈ S.conversions i ∧ r.IsWin) := by
  obtain ⟨e, he, hval⟩ := (ho i hi).exists_value_eq hne
  rw [hk] at hval
  rcases he with ⟨t, w, ht, rfl⟩ | ⟨k', r, hr, rfl⟩
  · obtain ⟨n, hn, hot⟩ := moveValue_none_eq_loss.mp hval
    exact Or.inl ⟨t, w, n, hn, ht, hot⟩
  · rw [Edge.value_conversion] at hval
    have hwin : r.IsWin := by
      rw [← moveValue_isLoss (k := some k'), hval]; exact isLoss_loss _ _
    obtain ⟨k₂, n₂, rfl⟩ := Outcome.isWin_iff.mp hwin
    rw [moveValue_some_win, loss.injEq] at hval
    obtain ⟨rfl, rfl⟩ := hval
    exact Or.inr ⟨rfl, _, hr, hwin⟩

/-- A node all of whose moves lose is lost. -/
theorem Solution.isLoss_of_moves (ho : S.Solution o) (hi : i ∈ S.valid)
    (hne : (S.edges i).Nonempty) (hq : ∀ t w, (t, w) ∈ S.quiet i → (o t).IsWin)
    (hc : ∀ k r, (k, r) ∈ S.conversions i → r.IsWin) : (o i).IsLoss := by
  rw [(ho i hi).isLoss_iff hne]
  rintro e (⟨t, w, ht, rfl⟩ | ⟨k, r, hr, rfl⟩)
  · exact moveValue_isLoss.mpr (hq t w ht)
  · exact moveValue_isLoss.mpr (hc k r hr)

/-- Above ply one, an undecided ply leaves nothing to decide later. -/
theorem Solution.no_later_plies (ho : S.Solution o) (hl : S.Lawful) {p : ℕ}
    (hnone : ∀ j ∈ S.valid, (o j).plies? ≠ some (p + 1)) :
    ∀ n > p, ∀ j ∈ S.valid, (o j).plies? ≠ some n := by
  intro n hn
  induction n, hn using Nat.le_induction with
  | base => exact hnone
  | succ n hn ih =>
    intro j hj hjn
    obtain ⟨m, rfl⟩ : ∃ m, n = m + 1 := ⟨n - 1, by omega⟩
    obtain ⟨t, ht, hp, -⟩ := ho.exists_quiet hj hl hjn
    exact ih t ht hp

end Moves

/-! ### The expected cells -/

theorem expected_of_not_valid (hi : i ∉ S.valid) (p : ℕ) :
    S.expected o p i = Cell.invalid := by
  rw [expected, if_neg hi]

theorem expected_of_within (hi : i ∈ S.valid) {p : ℕ}
    (h : S.edges i = ∅ ∨ Within o p i) : S.expected o p i = Cell.known (o i) := by
  rw [expected, if_pos hi, if_pos h]

theorem expected_of_not_within (hi : i ∈ S.valid) {p : ℕ}
    (h : ¬ (S.edges i = ∅ ∨ Within o p i)) :
    S.expected o p i = match S.initial i with
      | Cell.unknown _ => Cell.unknown (S.remaining o p i)
      | c => c := by
  unfold expected
  rw [if_pos hi]
  exact (if_neg h).trans (by cases S.initial i <;> rfl)

/-- A node with an unknown initial cell that is still undecided holds its counter. -/
theorem expected_unknown (hi : i ∈ S.valid) {p n : ℕ}
    (h : ¬ (S.edges i = ∅ ∨ Within o p i)) (hin : S.initial i = Cell.unknown n) :
    S.expected o p i = Cell.unknown (S.remaining o p i) := by
  rw [expected_of_not_within hi h, hin]

/-! ### Counters across one ply -/

/-- The outcome is a win at ply `p`. -/
def WonAt (p : ℕ) : Outcome κ → Prop
  | win _ n => n = p
  | _ => False

omit [LinearOrder κ] in
@[simp] theorem wonAt_win {p n : ℕ} {k : κ} : WonAt p (win k n) ↔ n = p := Iff.rfl
omit [LinearOrder κ] in
@[simp] theorem wonAt_draw {p : ℕ} : ¬ WonAt p (draw : Outcome κ) := id
omit [LinearOrder κ] in
@[simp] theorem wonAt_loss {p n : ℕ} {k : κ} : ¬ WonAt p (loss k n) := id

omit [LinearOrder κ] in
theorem wonAt_iff {p : ℕ} {x : Outcome κ} : WonAt p x ↔ ∃ k, x = win k p := by
  cases x <;> simp

instance (p : ℕ) : DecidablePred (@WonAt κ p)
  | win _ n => inferInstanceAs (Decidable (n = p))
  | draw => inferInstanceAs (Decidable False)
  | loss _ _ => inferInstanceAs (Decidable False)

/-- The weight of the quiet moves of `i` to nodes won at ply `p` with kind `k`. -/
def weightWonAt (S : Propagation N κ) (o : N → Outcome κ) (p : ℕ) (k : κ) (i : N) : ℕ :=
  (((S.quiet i).filter (fun e => o e.1 = win k p)).map Prod.snd).sum

/-- A counter drops by the weight of the moves to nodes won at the ply passed. -/
theorem remaining_succ (o : N → Outcome κ) (p : ℕ) (i : N) :
    S.remaining o p i = S.remaining o (p + 1) i
      + (((S.quiet i).filter (fun e => WonAt p (o e.1))).map Prod.snd).sum := by
  have hsplit : (S.quiet i).filter (fun e => decide (¬ WonBefore p (o e.1)))
      = (S.quiet i).filter (fun e => decide (¬ WonBefore (p + 1) (o e.1)) || decide (WonAt p (o e.1))) := by
    refine List.filter_congr (fun e _ => ?_)
    cases o e.1 with
    | win k n => rw [Bool.eq_iff_iff]; simp; omega
    | draw => simp
    | loss k n => simp
  rw [remaining, remaining, hsplit, sum_filter_add]
  · omega
  · intro e _ he
    cases h : o e.1 with
    | win k n => simp [h] at he ⊢; omega
    | draw => simp
    | loss k n => simp

/-- The moves to nodes won at a ply split by the kind of the win. -/
theorem sum_weightWonAt (o : N → Outcome κ) (p : ℕ) (i : N) {ks : List κ} (hnd : ks.Nodup) :
    (ks.map (fun k => S.weightWonAt o p k i)).sum
      = (((S.quiet i).filter (fun e => ∃ k ∈ ks, o e.1 = win k p)).map Prod.snd).sum := by
  induction ks with
  | nil => simp
  | cons k ks ih =>
    rw [List.nodup_cons] at hnd
    rw [List.map_cons, List.sum_cons, ih hnd.2, weightWonAt, ← sum_filter_add]
    · congr 2
      refine List.filter_congr (fun e _ => ?_)
      simp
    · intro e _ he
      simp only [decide_eq_true_eq] at he
      simp only [he, win.injEq, and_true, exists_eq_right, decide_eq_false_iff_not]
      rintro ⟨k', hk', rfl⟩
      exact hnd.1 hk'

/-- With all kinds listed, the weights of all kinds account for the whole drop. -/
theorem remaining_eq_add (o : N → Outcome κ) (p : ℕ) (i : N) {ks : List κ} (hnd : ks.Nodup)
    (hall : ∀ k, k ∈ ks) :
    S.remaining o p i
      = S.remaining o (p + 1) i + (ks.map (fun k => S.weightWonAt o p k i)).sum := by
  rw [remaining_succ, sum_weightWonAt o p i hnd]
  congr 3
  refine List.filter_congr (fun e _ => ?_)
  congr 1
  rw [wonAt_iff]
  exact propext ⟨fun ⟨k, h⟩ => ⟨k, hall k, h⟩, fun ⟨k, _, h⟩ => ⟨k, h⟩⟩

section Step

variable [DecidableEq N]

/-- A node with a winning conversion is won at ply one. -/
theorem Solution.win_of_winningKind (ho : S.Solution o) (hl : S.Lawful) (hi : i ∈ S.valid)
    {k : κ} (hk : k ∈ S.winningKinds i) : ∃ k', k ≤ k' ∧ o i = win k' 1 := by
  obtain ⟨r, hr, hloss⟩ := mem_winningKinds.mp hk
  obtain ⟨k₂, n₂, rfl⟩ := Outcome.isLoss_iff.mp hloss
  have hle := ho.le_of_conversion hi hr
  rw [moveValue_some_loss, win_le_iff] at hle
  obtain ⟨k', n, hoi, hc⟩ := hle
  have hpos := ho.plies_pos hi ⟨_, conversion_mem_edges hr⟩ (n := n) (by simp [hoi])
  have hn : n = 1 := by omega
  subst hn
  exact ⟨k', (hc.resolve_left (lt_irrefl _)).2, hoi⟩

/-- From the first ply on, an undecided node has an unknown initial cell. -/
theorem Solution.initial_unknown (ho : S.Solution o) (hl : S.Lawful) (hi : i ∈ S.valid)
    (h : ¬ (S.edges i = ∅ ∨ Within o 1 i)) :
    (S.edges i).Nonempty ∧ S.winningKinds i = [] ∧
      S.initial i = Cell.unknown (S.remaining o 0 i) := by
  rcases initial_cases hl hi o with ⟨he, -⟩ | ⟨hne, k, hk, -⟩ | ⟨hne, hw, hq, hc, -⟩ | ⟨hne, hw, -, h⟩
  · exact absurd (Or.inl he) h
  · obtain ⟨k', -, hoi⟩ := ho.win_of_winningKind hl hi hk.1
    exact absurd (Or.inr ⟨1, le_rfl, by simp [hoi]⟩) h
  · have hconv := openConversions_eq_zero.mp hc
    have hloss := ho.isLoss_of_moves hi hne (by simp [hq]) hconv
    obtain ⟨k', n, hoi⟩ := Outcome.isLoss_iff.mp hloss
    rcases ho.loss_attained hi hne hoi with ⟨t, w, -, -, ht, -⟩ | ⟨rfl, -⟩
    · rw [hq] at ht; exact absurd ht List.not_mem_nil
    · exact absurd (Or.inr ⟨1, le_rfl, by simp [hoi]⟩) h
  · exact ⟨hne, hw, h⟩

/-- The cells expected before the first iteration are the initial ones. -/
theorem Solution.expected_zero (ho : S.Solution o) (hl : S.Lawful) (hi : i ∈ S.valid) :
    S.expected o 0 i = S.initial i := by
  by_cases he : S.edges i = ∅
  · rw [expected_of_within hi (Or.inl he), (ho i hi).terminal_eq he]
    rcases initial_cases hl hi o with ⟨-, h⟩ | ⟨hne, -⟩ | ⟨hne, -⟩ | ⟨hne, -⟩
    · exact h.symm
    all_goals exact absurd he hne.ne_empty
  · have hnw : ¬ (S.edges i = ∅ ∨ Within o 0 i) := by
      rintro (h | ⟨n, hn, hp⟩)
      · exact he h
      · have := ho.plies_pos hi (Set.nonempty_iff_ne_empty.mpr he) hp
        omega
    rw [expected_of_not_within hi hnw]
    rcases initial_cases hl hi o with ⟨h, -⟩ | ⟨-, k, -, h⟩ | ⟨-, -, -, -, k, -, h⟩ | ⟨-, -, -, h⟩
    · exact absurd h he
    all_goals rw [h]

/-- From the first ply on, a cell is the outcome, or open if the outcome is not yet decided. -/
theorem Solution.expected_cases (ho : S.Solution o) (hl : S.Lawful) (hi : i ∈ S.valid) {p : ℕ}
    (hp : 1 ≤ p) : S.expected o p i = Cell.known (o i) ∨
      (¬ Within o p i ∧ S.expected o p i = Cell.unknown (S.remaining o p i)) := by
  by_cases hw : S.edges i = ∅ ∨ Within o p i
  · exact Or.inl (expected_of_within hi hw)
  · refine Or.inr ⟨fun h => hw (Or.inr h), ?_⟩
    have hone : ¬ (S.edges i = ∅ ∨ Within o 1 i) := by
      rintro (he | ⟨n, hn, hply⟩)
      · exact hw (Or.inl he)
      · exact hw (Or.inr ⟨n, hn.trans hp, hply⟩)
    exact expected_unknown hi hw (ho.initial_unknown hl hi hone).2.2

/-- The nodes expected to hold a loss at the last ply are the ones lost at it. -/
theorem Solution.expected_eq_loss_iff (ho : S.Solution o) (hl : S.Lawful) {k : κ} {p : ℕ} :
    S.expected o p i = Cell.known (loss k p) ↔ i ∈ S.valid ∧ o i = loss k p := by
  by_cases hi : i ∈ S.valid
  swap
  · simp [expected_of_not_valid hi, hi]
  by_cases hw : S.edges i = ∅ ∨ Within o p i
  · simp [expected_of_within hi hw, hi]
  · have hne : ¬ o i = loss k p := fun h => hw (Or.inr ⟨p, le_rfl, by simp [h]⟩)
    simp only [hi, hne, and_false, iff_false]
    rw [expected_of_not_within hi hw]
    rcases initial_cases hl hi o with ⟨h, -⟩ | ⟨-, k', -, h⟩ | ⟨hne', hwk, hq, hc, k', -, h⟩ | ⟨-, -, -, h⟩
    · exact absurd (Or.inl h) hw
    · simp [h]
    · -- A loss by conversions alone is a loss at ply one, not before.
      rw [h]
      simp only [Cell.known.injEq, loss.injEq, not_and]
      rintro - rfl
      have := ho.initial_unknown hl hi hw
      rw [h] at this; exact absurd this.2.2 (by simp)
    · simp [h]

/-- The nodes expected to hold a win at the last ply are the ones won at it. -/
theorem Solution.expected_eq_win_iff (ho : S.Solution o) (hl : S.Lawful) {k : κ} {p : ℕ} :
    S.expected o p i = Cell.known (win k p) ↔ i ∈ S.valid ∧ o i = win k p := by
  by_cases hi : i ∈ S.valid
  swap
  · simp [expected_of_not_valid hi, hi]
  by_cases hw : S.edges i = ∅ ∨ Within o p i
  · simp [expected_of_within hi hw, hi]
  · have hne : ¬ o i = win k p := fun h => hw (Or.inr ⟨p, le_rfl, by simp [h]⟩)
    simp only [hi, hne, and_false, iff_false]
    rw [expected_of_not_within hi hw]
    rcases initial_cases hl hi o with ⟨h, -⟩ | ⟨-, k', -, h⟩ | ⟨-, -, -, -, k', -, h⟩ | ⟨-, -, -, h⟩
    · exact absurd (Or.inl h) hw
    · rw [h]
      simp only [Cell.known.injEq, win.injEq, not_and]
      rintro - rfl
      have := ho.initial_unknown hl hi hw
      rw [h] at this; exact absurd this.2.2 (by simp)
    · simp [h]
    · simp [h]

/-- No counter is above the weight of all moves that do not lose at once. -/
theorem remaining_le (o : N → Outcome κ) (p : ℕ) (i : N) :
    S.remaining o p i ≤ ((S.quiet i).map Prod.snd).sum + S.openConversions i := by
  unfold remaining
  refine Nat.add_le_add_right (List.Sublist.sum_le_sum ?_ fun _ _ => Nat.zero_le _) _
  exact List.filter_sublist.map Prod.snd

/-- An undecided node has a move left. -/
theorem Solution.remaining_pos (ho : S.Solution o) (hl : S.Lawful) (hi : i ∈ S.valid) {p n : ℕ}
    (h : ¬ (S.edges i = ∅ ∨ Within o p i)) (hin : S.initial i = Cell.unknown n) :
    0 < S.remaining o p i := by
  have hne : (S.edges i).Nonempty := Set.nonempty_iff_ne_empty.mpr fun he => h (Or.inl he)
  have hpos : 0 < S.remaining o 0 i := by
    rcases initial_cases hl hi o with ⟨-, heq⟩ | ⟨-, k, -, heq⟩ | ⟨-, -, -, -, k, -, heq⟩ |
      ⟨-, -, hpos, -⟩
    · rw [hin] at heq; cases heq
    · rw [hin] at heq; cases heq
    · rw [hin] at heq; cases heq
    · exact hpos
  by_contra hzero
  have hp : 0 < p := by
    by_contra hp
    obtain rfl : p = 0 := by omega
    exact hzero hpos
  rw [remaining, not_lt, Nat.le_zero, Nat.add_eq_zero_iff,
    sum_filter_eq_zero (hl.weight_pos i hi), openConversions_eq_zero] at hzero
  have hquiet : ∀ t w, (t, w) ∈ S.quiet i → ∃ k n, o t = win k n ∧ n < p := by
    intro t w ht
    have hbefore := hzero.1 (t, w) ht
    simp only [decide_eq_false_iff_not, not_not] at hbefore
    cases hot : o t with
    | win k n => rw [hot] at hbefore; exact ⟨k, n, rfl, hbefore⟩
    | draw => rw [hot] at hbefore; exact absurd hbefore wonBefore_draw
    | loss k n => rw [hot] at hbefore; exact absurd hbefore wonBefore_loss
  have hloss := ho.isLoss_of_moves hi hne
    (fun t w ht => by obtain ⟨k, n, hot, -⟩ := hquiet t w ht; rw [hot]; exact isWin_win _ _) hzero.2
  obtain ⟨k, n, hoi⟩ := Outcome.isLoss_iff.mp hloss
  -- The loss is attained within the plies that have been looked at.
  rcases ho.loss_attained hi hne hoi with ⟨t, w, m, hn, ht, hot⟩ | ⟨hn, -⟩
  · obtain ⟨k', m', hot', hlt⟩ := hquiet t w ht
    rw [hot, win.injEq] at hot'
    exact h (Or.inr ⟨n, by omega, by simp [hoi]⟩)
  · exact h (Or.inr ⟨n, by omega, by simp [hoi]⟩)

/-! ### Emissions over the nodes of one outcome -/

theorem mem_filter_outcome {x : Outcome κ} {j : N} :
    j ∈ S.valid.filter (fun j => o j = x) ↔ j ∈ S.valid ∧ o j = x := Finset.mem_filter

/-- The nodes with a given outcome form a closed set when the outcome respects the symmetry. -/
theorem closed_filter (hpart : ∀ j ∈ S.valid, S.partner j ∈ S.valid ∧ o (S.partner j) = o j)
    (x : Outcome κ) : S.Closed (S.valid.filter (fun j => o j = x)) := by
  intro j hj
  rw [Finset.mem_filter] at hj
  obtain ⟨hv, hx⟩ := hpart j hj.1
  exact ⟨hj.1, Finset.mem_filter.mpr ⟨hv, by rw [hx, hj.2]⟩⟩

/-- Over the nodes of a given outcome, a node is emitted as often as its moves to them weigh. -/
theorem emitted_filter (hl : S.Lawful)
    (hpart : ∀ j ∈ S.valid, S.partner j ∈ S.valid ∧ o (S.partner j) = o j)
    (hi : i ∈ S.valid) (x : Outcome κ) :
    S.emitted (S.valid.filter (fun j => o j = x)) i
      = (((S.quiet i).filter (fun e => o e.1 = x)).map Prod.snd).sum := by
  rw [hl.emissions _ (closed_filter hpart x) i hi, weightInto]
  congr 2
  refine List.filter_congr (fun e he => ?_)
  simp [hl.target_valid i hi e he]

/-- A node is emitted by some source of a given outcome exactly when it has a quiet move to
    one. -/
theorem exists_emitter_iff (hl : S.Lawful)
    (hpart : ∀ j ∈ S.valid, S.partner j ∈ S.valid ∧ o (S.partner j) = o j)
    (hi : i ∈ S.valid) (x : Outcome κ) :
    (∃ j ∈ S.valid, o j = x ∧ i ∈ S.preds j) ↔ ∃ t w, (t, w) ∈ S.quiet i ∧ o t = x := by
  have hsum := emitted_filter hl hpart hi x
  constructor
  · rintro ⟨j, hj, hx, hmem⟩
    by_contra hnone
    have hzero : S.emitted (S.valid.filter (fun j => o j = x)) i = 0 := by
      rw [hsum, sum_filter_eq_zero (hl.weight_pos i hi)]
      intro e he
      rw [decide_eq_false_iff_not]
      exact fun h => hnone ⟨e.1, e.2, he, h⟩
    rw [emitted, Finset.sum_eq_zero_iff] at hzero
    have := hzero j (Finset.mem_filter.mpr ⟨hj, hx⟩)
    rw [List.count_eq_zero] at this
    exact this hmem
  · rintro ⟨t, w, ht, hx⟩
    by_contra hnone
    have hzero : S.emitted (S.valid.filter (fun j => o j = x)) i = 0 := by
      rw [emitted, Finset.sum_eq_zero_iff]
      intro j hj
      rw [Finset.mem_filter] at hj
      rw [List.count_eq_zero]
      exact fun hmem => hnone ⟨j, hj.1, hj.2, hmem⟩
    rw [hsum, sum_filter_eq_zero (hl.weight_pos i hi)] at hzero
    have := hzero (t, w) ht
    simp [hx] at this

/-! ### The iteration -/

/-- A node already decided, or decided by its initialization, keeps its cell until ply
    `p + 1`, except that marks may improve the kind of a win at ply one. -/
theorem mark_decrements_within {p : ℕ} (hw : S.edges i = ∅ ∨ Within o p i)
    (hi : i ∈ S.valid) (ho : S.Solution o) (hl : S.Lawful) (D : κ → ℕ) (ks marks : List κ) :
    Cell.decrements (p + 1) D ks (marks.foldl (Cell.mark (p + 1)) (Cell.known (o i)))
      = Cell.known (o i) := by
  have hfix : ∀ k, o i ≠ win k (p + 1) := by
    intro k hk
    rcases hw with he | ⟨n, hn, hp⟩
    · rw [(ho i hi).terminal_eq he] at hk
      rcases hl.terminal_eq i with h | ⟨k', h⟩ <;> rw [h] at hk <;> cases hk
    · rw [hk, plies?_win, Option.some.injEq] at hp
      omega
  rw [Cell.foldl_mark_of_fixed (Cell.mark_known_of_ne hfix), Cell.decrements_known]

/-- **One iteration.**  Marks by the losses at ply `p` and decrements by the wins at `p`, kind
    by kind in descending order, turn the cells expected after `p` plies into those expected
    after `p + 1`. -/
theorem step (hl : S.Lawful) (ho : S.Solution o)
    (hpart : ∀ j ∈ S.valid, S.partner j ∈ S.valid ∧ o (S.partner j) = o j)
    {ks : List κ} (hks : ks.Pairwise (· > ·)) (hall : ∀ k, k ∈ ks) (p : ℕ) (i : N)
    {marks : List κ} (hmarks : ∀ k, k ∈ marks ↔ ∃ j ∈ S.valid, o j = loss k p ∧ i ∈ S.preds j)
    {D : κ → ℕ}
    (hD : ∀ k, D k = S.emitted (S.valid.filter (fun j => o j = win k p)) i) :
    Cell.decrements (p + 1) D ks (marks.foldl (Cell.mark (p + 1)) (S.expected o p i))
      = S.expected o (p + 1) i := by
  by_cases hi : i ∈ S.valid
  swap
  · rw [expected_of_not_valid hi, expected_of_not_valid hi,
      Cell.foldl_mark_of_fixed (Cell.mark_invalid (p + 1)), Cell.decrements_invalid]
  -- Decided earlier: nothing changes.
  by_cases hw : S.edges i = ∅ ∨ Within o p i
  · have hw' : S.edges i = ∅ ∨ Within o (p + 1) i :=
      hw.imp_right (fun ⟨n, hn, h⟩ => ⟨n, by omega, h⟩)
    rw [expected_of_within hi hw, expected_of_within hi hw',
      mark_decrements_within hw hi ho hl]
  have hmarks' : ∀ k, k ∈ marks ↔ ∃ t w, (t, w) ∈ S.quiet i ∧ o t = loss k p :=
    fun k => (hmarks k).trans (exists_emitter_iff hl hpart hi (loss k p))
  have hD' : ∀ k, D k = S.weightWonAt o p k i :=
    fun k => (hD k).trans (emitted_filter hl hpart hi (win k p))
  have hnd : ks.Nodup := hks.imp (fun h => ne_of_gt h)
  -- A mark is a quiet move to a loss, so the node is won at ply `p + 1`, at least as well.
  have hmarked : ∀ k ∈ marks, ∃ k', k ≤ k' ∧ o i = win k' (p + 1) := by
    intro k hk
    obtain ⟨t, w, ht, hot⟩ := (hmarks' k).mp hk
    have hle := ho.le_of_quiet hi ht
    rw [hot, moveValue_none_loss, win_le_iff] at hle
    obtain ⟨k', n, hoi, hc⟩ := hle
    have hn : n = p + 1 := by
      by_contra hne
      exact hw (Or.inr ⟨n, by omega, by simp [hoi]⟩)
    subst hn
    exact ⟨k', (hc.resolve_left (lt_irrefl _)).2, hoi⟩
  rcases initial_cases hl hi o with ⟨he, -⟩ | ⟨hne, k₀, hk₀, hin⟩ | ⟨hne, hwk, hq, hc, k₀, hk₀, hin⟩ |
    ⟨hne, hwk, hpos, hin⟩
  · exact absurd (Or.inl he) hw
  · -- Won at ply one by a conversion; `p = 0`, and mates in one may improve the kind.
    obtain ⟨k', hk', hoi⟩ := ho.win_of_winningKind hl hi hk₀.1
    have hp : p = 0 := by
      by_contra hne
      exact hw (Or.inr ⟨1, by omega, by simp [hoi]⟩)
    subst hp
    rw [expected_of_not_within hi hw, hin, expected_of_within hi (Or.inr ⟨1, le_rfl, by simp [hoi]⟩)]
    simp only
    rw [Cell.foldl_mark_win, Cell.decrements_known]
    congr 1
    -- The best of the conversion kinds and the marks is the kind of the outcome.
    have hgr := foldl_max_isGreatest k₀ marks
    have hle : marks.foldl max k₀ ≤ k' := by
      rcases List.mem_cons.mp hgr.1 with h | h
      · rw [h]; exact hk'
      · obtain ⟨k₂, hk₂, hoi₂⟩ := hmarked _ h
        rw [hoi, win.injEq] at hoi₂
        rw [hoi₂.1]; exact hk₂
    have hge : k' ≤ marks.foldl max k₀ := by
      obtain ⟨e, he, hval⟩ := (ho i hi).exists_value_eq hne
      rw [hoi] at hval
      rcases he with ⟨t, w, ht, rfl⟩ | ⟨k₂, r, hr, rfl⟩
      · obtain ⟨n, hn, hot⟩ := moveValue_none_eq_win.mp hval
        obtain rfl : n = 0 := by omega
        exact hgr.2 (List.mem_cons_of_mem _ ((hmarks' k').mpr ⟨t, w, ht, hot⟩))
      · rw [Edge.value_conversion] at hval
        have hloss : r.IsLoss := by
          rw [← moveValue_isWin (k := some k₂), hval]; exact isWin_win _ _
        obtain ⟨k₃, n₃, rfl⟩ := Outcome.isLoss_iff.mp hloss
        rw [moveValue_some_loss, win.injEq] at hval
        rw [← hval.1]
        exact le_trans (hk₀.2 (mem_winningKinds.mpr ⟨_, hr, hloss⟩)) (hgr.2 List.mem_cons_self)
    rw [hoi, le_antisymm hle hge]
  · -- Lost at ply one by conversions alone: no quiet moves, so no marks.
    have hconv := openConversions_eq_zero.mp hc
    have hloss := ho.isLoss_of_moves hi hne (by simp [hq]) hconv
    obtain ⟨k', n, hoi⟩ := Outcome.isLoss_iff.mp hloss
    have hnone : marks = [] := by
      rw [List.eq_nil_iff_forall_not_mem]
      intro k hk
      obtain ⟨k₂, -, h⟩ := hmarked k hk
      rw [hoi] at h; cases h
    rcases ho.loss_attained hi hne hoi with ⟨t, w, -, -, ht, -⟩ | ⟨rfl, r, hr, hwin⟩
    · rw [hq] at ht; exact absurd ht List.not_mem_nil
    rw [expected_of_not_within hi hw, hin, hnone,
      expected_of_within hi (Or.inr ⟨1, by omega, by simp [hoi]⟩), List.foldl_nil,
      Cell.decrements_known, hoi]
    -- The kind is the least of the losing conversions.
    have hle : k' ≤ k₀ := by
      obtain ⟨r₀, hr₀, -⟩ := mem_losingKinds.mp hk₀.1
      exact ((ho.loss_moves hi hoi).2 k₀ r₀ hr₀).2.2 rfl
    rw [le_antisymm hle (hk₀.2 (mem_losingKinds.mpr ⟨r, hr, hwin⟩))]
  · -- Unknown: either marked, or decremented.
    rw [expected_unknown hi hw hin]
    cases hm : marks with
    | cons k marks' =>
      rw [Cell.foldl_mark_unknown, Cell.decrements_known]
      have hgr := foldl_max_isGreatest k marks'
      rw [← hm] at hgr
      obtain ⟨k', hk', hoi⟩ := hmarked _ hgr.1
      obtain ⟨t, w, n, hn, ht, hot⟩ := ho.win_iff hl hi hwk hoi
      obtain rfl : n = p := by omega
      have hge := hgr.2 ((hmarks' k').mpr ⟨t, w, ht, hot⟩)
      rw [expected_of_within hi (Or.inr ⟨n + 1, le_rfl, by simp [hoi]⟩), hoi, le_antisymm hk' hge]
    | nil =>
      rw [List.foldl_nil]
      have hnowin : ∀ k, o i ≠ win k (p + 1) := by
        intro k hoi
        obtain ⟨t, w, n, hn, ht, hot⟩ := ho.win_iff hl hi hwk hoi
        obtain rfl : n = p := by omega
        have := (hmarks' k).mpr ⟨t, w, ht, hot⟩
        rw [hm] at this; exact absurd this List.not_mem_nil
      have hsum : S.remaining o p i = S.remaining o (p + 1) i + (ks.map D).sum := by
        rw [remaining_eq_add o p i hnd hall]
        congr 2
        exact List.map_congr_left (fun k _ => (hD' k).symm)
      by_cases hzero : S.remaining o (p + 1) i = 0
      · -- Every move loses now: a loss at ply `p + 1`, of the last kind that decremented.
        rw [remaining, Nat.add_eq_zero_iff, sum_filter_eq_zero (hl.weight_pos i hi)] at hzero
        have hconv := openConversions_eq_zero.mp hzero.2
        have hquiet : ∀ t w, (t, w) ∈ S.quiet i → ∃ k n, o t = win k n ∧ n ≤ p := by
          intro t w ht
          have h := hzero.1 (t, w) ht
          simp only [decide_eq_false_iff_not, not_not] at h
          cases hot : o t with
          | win k n => rw [hot, wonBefore_win] at h; exact ⟨k, n, rfl, by omega⟩
          | draw => rw [hot] at h; exact absurd h wonBefore_draw
          | loss k n => rw [hot] at h; exact absurd h wonBefore_loss
        have hloss := ho.isLoss_of_moves hi hne
          (fun t w ht => by obtain ⟨k, n, h, -⟩ := hquiet t w ht; rw [h]; exact isWin_win _ _) hconv
        obtain ⟨k, n, hoi⟩ := Outcome.isLoss_iff.mp hloss
        have hn : p + 1 ≤ n := by
          by_contra hlt
          exact hw (Or.inr ⟨n, by omega, by simp [hoi]⟩)
        have hat : ∃ t w, n = p + 1 ∧ (t, w) ∈ S.quiet i ∧ o t = win k p := by
          rcases ho.loss_attained hi hne hoi with ⟨t, w, m, hm', ht, hot⟩ | ⟨hn1, -⟩
          · obtain ⟨k₂, m₂, hot₂, hle⟩ := hquiet t w ht
            rw [hot, win.injEq] at hot₂
            obtain rfl : m = p := by omega
            exact ⟨t, w, hm', ht, hot⟩
          · -- At ply one only conversions decide, and then the node was initialized as a loss.
            exfalso
            have hp0 : p = 0 := by omega
            subst hp0
            have hrem : S.remaining o 0 i = S.openConversions i := by
              have hq : S.quiet i = [] := by
                refine List.eq_nil_iff_forall_not_mem.mpr (fun e he => ?_)
                obtain ⟨k₂, m₂, hot₂, hle, -⟩ := (ho.loss_moves hi hoi).1 e.1 e.2 he
                have hm0 : m₂ = 0 := by omega
                subst hm0
                have hv := hl.target_valid i hi e he
                by_cases hem : S.edges e.1 = ∅
                · rw [(ho e.1 hv).terminal_eq hem] at hot₂
                  rcases hl.terminal_eq e.1 with h | ⟨k₃, h⟩ <;> rw [h] at hot₂ <;> cases hot₂
                · have := ho.plies_pos hv (Set.nonempty_iff_ne_empty.mpr hem) (n := 0)
                    (by simp [hot₂])
                  omega
              simp [remaining, hq]
            rw [hrem, hzero.2] at hpos
            exact lt_irrefl _ hpos
        obtain ⟨t, w, rfl, ht, hot⟩ := hat
        have hrem0 : S.remaining o (p + 1) i = 0 := by
          rw [remaining, Nat.add_eq_zero_iff, sum_filter_eq_zero (hl.weight_pos i hi)]
          exact hzero
        have hDpos : ∀ k', 0 < D k' ↔ ∃ t w, (t, w) ∈ S.quiet i ∧ o t = win k' p := by
          intro k'
          rw [hD' k', weightWonAt, Nat.pos_iff_ne_zero, Ne,
            sum_filter_eq_zero (hl.weight_pos i hi)]
          simp
        obtain ⟨k₁, -, hk₁pos, hk₁min, heq⟩ := Cell.decrements_of_eq (p + 1) D hks
          (n := S.remaining o p i) (by
            have := (hDpos k).mpr ⟨t, w, ht, hot⟩
            have := List.single_le_sum (l := ks.map D) (by simp) (D k)
              (List.mem_map_of_mem (hall k))
            omega) (by omega)
        rw [heq, expected_of_within hi (Or.inr ⟨p + 1, le_rfl, by simp [hoi]⟩), hoi]
        -- Both kinds are least among the wins at `p` that the node moves to.
        have hle : k₁ ≤ k := hk₁min k (hall k) ((hDpos k).mpr ⟨t, w, ht, hot⟩)
        have hge : k ≤ k₁ := by
          obtain ⟨t₁, w₁, ht₁, hot₁⟩ := (hDpos k₁).mp hk₁pos
          obtain ⟨k₂, m₂, hot₂, -, hk₂⟩ := (ho.loss_moves hi hoi).1 t₁ w₁ ht₁
          rw [hot₁, win.injEq] at hot₂
          rw [hot₂.1]; exact hk₂ (by omega)
        rw [le_antisymm hle hge]
      · -- Some move is still open, so the node stays unknown.
        have hw' : ¬ (S.edges i = ∅ ∨ Within o (p + 1) i) := by
          rintro (he | ⟨n, hn, hp⟩)
          · exact hw (Or.inl he)
          · have hn' : n = p + 1 := by
              by_contra hne'
              exact hw (Or.inr ⟨n, by omega, hp⟩)
            subst hn'
            cases hoi : o i with
            | draw => rw [hoi] at hp; simp at hp
            | win k n =>
              rw [hoi, plies?_win, Option.some.injEq] at hp
              subst hp
              exact hnowin k hoi
            | loss k n =>
              rw [hoi, plies?_loss, Option.some.injEq] at hp
              subst hp
              apply hzero
              obtain ⟨hq, hc⟩ := ho.loss_moves hi hoi
              rw [remaining, Nat.add_eq_zero_iff, sum_filter_eq_zero (hl.weight_pos i hi),
                openConversions_eq_zero]
              refine ⟨fun e he => ?_, fun k' r hr => (hc k' r hr).1⟩
              obtain ⟨k', m, hot, hm', -⟩ := hq e.1 e.2 he
              simp only [hot, decide_eq_false_iff_not, not_not, wonBefore_win]
              omega
        rw [Cell.decrements_of_lt (p + 1) D ks (by omega), expected_unknown hi hw' hin]
        congr 1
        omega

end Step

end Propagation
