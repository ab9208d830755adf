import ChessEgt.Library.Iteration

/-!
# Nodes that propagate alike

Two nodes of a propagation system are alike when they have the same conversions and quiet moves of
the same weights to nodes of the same outcomes.  The propagation gives them the same cells.

* `Propagation.Alike` — the nodes have the same outcomes and moves;
* `Propagation.Alike.expected_eq` — the same cells are expected;
* `Propagation.Alike.weightWonAt_eq`, `Cell.foldl_mark_congr` — they are decremented as often, and
  marked alike.
-/

open Outcome

namespace Cell

variable {κ : Type*} [LinearOrder κ]

/-- Marks only depend on the set of kinds. -/
theorem foldl_mark_congr (p : ℕ) {ks ks' : List κ} (h : ∀ k, k ∈ ks ↔ k ∈ ks') (c : Cell κ) :
    ks.foldl (mark p) c = ks'.foldl (mark p) c := by
  have hmax : ∀ {k k' : κ} {ks ks' : List κ}, (∀ x, x ∈ k :: ks ↔ x ∈ k' :: ks') →
      ks.foldl max k = ks'.foldl max k' := by
    intro k k' ks ks' hmem
    have hset : {x | x ∈ k :: ks} = {x | x ∈ k' :: ks'} := Set.ext hmem
    have hgr := foldl_max_isGreatest k ks
    rw [hset] at hgr
    exact hgr.unique (foldl_max_isGreatest k' ks')
  have hwin : ∀ k, ks.foldl (mark p) (known (win k p)) = ks'.foldl (mark p) (known (win k p)) := by
    intro k
    rw [foldl_mark_win, foldl_mark_win, hmax fun x => ?_]
    rw [List.mem_cons, List.mem_cons, h]
  cases c with
  | invalid => rw [foldl_mark_of_fixed (mark_invalid p), foldl_mark_of_fixed (mark_invalid p)]
  | unknown n =>
    cases ks with
    | nil =>
      have hnil : ks' = [] := List.eq_nil_iff_forall_not_mem.mpr fun k hk =>
        List.not_mem_nil ((h k).mpr hk)
      rw [hnil]
    | cons k ks =>
      cases ks' with
      | nil => exact absurd ((h k).mp List.mem_cons_self) List.not_mem_nil
      | cons k' ks' => rw [foldl_mark_unknown, foldl_mark_unknown, hmax h]
  | known o =>
    cases o with
    | draw => rw [foldl_mark_of_fixed (mark_draw p), foldl_mark_of_fixed (mark_draw p)]
    | loss k n =>
      rw [foldl_mark_of_fixed fun k' => mark_loss p n k' k,
        foldl_mark_of_fixed fun k' => mark_loss p n k' k]
    | win k n =>
      by_cases hn : n = p
      · subst hn
        exact hwin k
      · rw [foldl_mark_of_fixed fun k' => mark_win_of_ne hn k' k,
          foldl_mark_of_fixed fun k' => mark_win_of_ne hn k' k]

end Cell

namespace Propagation

variable {N κ : Type*}

/-- The nodes have the same outcomes and moves. -/
structure Alike (S : Propagation N κ) (o : N → Outcome κ) (i j : N) : Prop where
  valid : i ∈ S.valid ↔ j ∈ S.valid
  outcome : o i = o j
  terminal : S.terminal i = S.terminal j
  quiet : ((S.quiet i).map fun e => (o e.1, e.2)).Perm ((S.quiet j).map fun e => (o e.1, e.2))
  conversions : (S.conversions i).Perm (S.conversions j)

namespace Alike

variable {S : Propagation N κ} {o : N → Outcome κ} {i j : N}

theorem nil_iff (h : S.Alike o i j) :
    S.quiet i = [] ∧ S.conversions i = [] ↔ S.quiet j = [] ∧ S.conversions j = [] := by
  have hq : S.quiet i = [] ↔ S.quiet j = [] := by
    rw [← List.length_eq_zero_iff, ← List.length_eq_zero_iff]
    have hlen := h.quiet.length_eq
    rw [List.length_map, List.length_map] at hlen
    rw [hlen]
  have hc : S.conversions i = [] ↔ S.conversions j = [] := by
    rw [← List.length_eq_zero_iff, ← List.length_eq_zero_iff, h.conversions.length_eq]
  rw [hq, hc]

theorem edges_eq_empty (h : S.Alike o i j) : S.edges i = ∅ ↔ S.edges j = ∅ := by
  rw [Propagation.edges_eq_empty, Propagation.edges_eq_empty, h.nil_iff]

/-- Weights of moves to nodes with a property of the outcomes. -/
theorem sum_filter_eq (h : S.Alike o i j) (q : Outcome κ → Bool) :
    (((S.quiet i).filter fun e => q (o e.1)).map Prod.snd).sum
      = (((S.quiet j).filter fun e => q (o e.1)).map Prod.snd).sum := by
  have hsum := ((h.quiet.filter fun e => q e.1).map Prod.snd).sum_eq
  simp only [List.filter_map, List.map_map] at hsum
  exact hsum

theorem openConversions_eq (h : S.Alike o i j) : S.openConversions i = S.openConversions j :=
  (h.conversions.filter _).length_eq

theorem remaining_eq (h : S.Alike o i j) (p : ℕ) : S.remaining o p i = S.remaining o p j := by
  unfold remaining
  rw [h.openConversions_eq]
  congr 1
  exact h.sum_filter_eq fun r => decide (¬ WonBefore p r)

/-- The nodes move to the same outcomes. -/
theorem exists_quiet_iff (h : S.Alike o i j) (r : Outcome κ) :
    (∃ t w, (t, w) ∈ S.quiet i ∧ o t = r) ↔ ∃ t w, (t, w) ∈ S.quiet j ∧ o t = r := by
  have hhalf : ∀ {i j}, ((S.quiet i).map fun e => (o e.1, e.2)).Perm
      ((S.quiet j).map fun e => (o e.1, e.2)) → (∃ t w, (t, w) ∈ S.quiet i ∧ o t = r) →
        ∃ t w, (t, w) ∈ S.quiet j ∧ o t = r := by
    rintro i j hperm ⟨t, w, ht, rfl⟩
    have hmem := hperm.subset (List.mem_map_of_mem ht)
    obtain ⟨e, he, heq⟩ := List.mem_map.mp hmem
    exact ⟨e.1, e.2, he, congrArg Prod.fst heq⟩
  exact ⟨hhalf h.quiet, hhalf h.quiet.symm⟩

variable [LinearOrder κ]

theorem weightWonAt_eq (h : S.Alike o i j) (p : ℕ) (k : κ) :
    S.weightWonAt o p k i = S.weightWonAt o p k j :=
  h.sum_filter_eq fun r => decide (r = win k p)

theorem initial_eq (h : S.Alike o i j) : S.initial i = S.initial j := by
  have hwin : (S.winningKinds i).Perm (S.winningKinds j) := (h.conversions.filter _).map _
  have hlose : (S.losingKinds i).Perm (S.losingKinds j) := (h.conversions.filter _).map _
  have hmax : ∀ {k k' : κ} {ks ks' : List κ}, (k :: ks).Perm (k' :: ks') →
      ks.foldl max k = ks'.foldl max k' := by
    intro k k' ks ks' hperm
    have hset : {x | x ∈ k :: ks} = {x | x ∈ k' :: ks'} := Set.ext fun x => hperm.mem_iff
    have hgr := foldl_max_isGreatest k ks
    rw [hset] at hgr
    exact hgr.unique (foldl_max_isGreatest k' ks')
  have hmin : ∀ {k k' : κ} {ks ks' : List κ}, (k :: ks).Perm (k' :: ks') →
      ks.foldl min k = ks'.foldl min k' := by
    intro k k' ks ks' hperm
    have hset : {x | x ∈ k :: ks} = {x | x ∈ k' :: ks'} := Set.ext fun x => hperm.mem_iff
    have hle := foldl_min_isLeast k ks
    rw [hset] at hle
    exact hle.unique (foldl_min_isLeast k' ks')
  have hsum : ((S.quiet i).map Prod.snd).sum = ((S.quiet j).map Prod.snd).sum := by
    have hall := h.sum_filter_eq fun _ => true
    simpa using hall
  unfold initial
  rw [h.terminal, hsum, h.openConversions_eq]
  by_cases hnil : S.quiet j = [] ∧ S.conversions j = []
  · rw [if_pos hnil, if_pos (h.nil_iff.mpr hnil)]
  rw [if_neg hnil, if_neg fun hi => hnil (h.nil_iff.mp hi)]
  cases hi : S.winningKinds i with
  | cons k ks =>
    cases hj : S.winningKinds j with
    | cons k' ks' =>
      rw [hi, hj] at hwin
      dsimp only
      rw [hmax hwin]
    | nil =>
      rw [hi, hj] at hwin
      cases hwin.eq_nil
  | nil =>
    rw [hi] at hwin
    rw [hwin.symm.eq_nil]
    dsimp only
    cases hi : S.losingKinds i with
    | cons k ks =>
      cases hj : S.losingKinds j with
      | cons k' ks' =>
        rw [hi, hj] at hlose
        cases ((S.quiet j).map Prod.snd).sum + S.openConversions j with
        | zero => exact congrArg (fun k => Cell.known (loss k 1)) (hmin hlose)
        | succ n => rfl
      | nil =>
        rw [hi, hj] at hlose
        cases hlose.eq_nil
    | nil =>
      rw [hi] at hlose
      rw [hlose.symm.eq_nil]

/-- The same cells are expected. -/
theorem expected_eq (h : S.Alike o i j) (p : ℕ) : S.expected o p i = S.expected o p j := by
  have hwithin : S.edges i = ∅ ∨ Within o p i ↔ S.edges j = ∅ ∨ Within o p j := by
    unfold Within
    rw [h.edges_eq_empty, h.outcome]
  by_cases hj : j ∈ S.valid
  swap
  · rw [expected_of_not_valid hj, expected_of_not_valid fun hi => hj (h.valid.mp hi)]
  have hi := h.valid.mpr hj
  by_cases hw : S.edges j = ∅ ∨ Within o p j
  · rw [expected_of_within hj hw, expected_of_within hi (hwithin.mpr hw), h.outcome]
  · rw [expected_of_not_within hj hw, expected_of_not_within hi fun hw' => hw (hwithin.mp hw'),
      h.initial_eq, h.remaining_eq]

end Alike

end Propagation
