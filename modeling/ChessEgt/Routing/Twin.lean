import ChessEgt.Indexing.Plan
import ChessEgt.Layout

/-!
# Twins and canonical orientations

* `Material.twin` — the material seen from the side that is not to move;
* `Material.orientation` — how a material compares with its mirror image; `Material.canonical`
  is the one of the two that does not compare greater;
* `canonicalized_ofOrders` — the program's canonical orientation is this one;
* `Material.twin_canonical` — twins of canonical materials come in pairs, with one reflection
  flag for both directions.
-/

namespace ChessEgt

/-! ### Comparisons and their converse -/

theorem compareOfLessAndEq_swap {α : Type*} [LinearOrder α] (a b : α) [Decidable (a < b)]
    [Decidable (b < a)] [DecidableEq α] :
    compareOfLessAndEq b a = (compareOfLessAndEq a b).swap := by
  unfold compareOfLessAndEq
  rcases lt_trichotomy a b with h | rfl | h
  · rw [if_pos h, if_neg (lt_asymm h), if_neg (ne_of_gt h)]; rfl
  · rw [if_neg (lt_irrefl _), if_neg (lt_irrefl _), if_pos rfl]; rfl
  · rw [if_pos h, if_neg (lt_asymm h), if_neg (ne_of_gt h)]; rfl

theorem compareOfLessAndEq_eq_eq {α : Type*} [LinearOrder α] {a b : α} [Decidable (a < b)]
    [DecidableEq α] : compareOfLessAndEq a b = .eq ↔ a = b := by
  unfold compareOfLessAndEq
  by_cases h : a < b
  · rw [if_pos h]
    exact ⟨fun he => Ordering.noConfusion he, fun he => absurd he h.ne⟩
  · rw [if_neg h]
    by_cases he : a = b
    · simp [he]
    · simp [he]

theorem PawnKey.cmp_swap (a b : PawnKey) : b.cmp a = (a.cmp b).swap :=
  compareOfLessAndEq_swap a.toList b.toList

theorem PawnKey.cmp_eq_eq {a b : PawnKey} : a.cmp b = .eq ↔ a = b := by
  unfold PawnKey.cmp
  rw [compareOfLessAndEq_eq_eq, PawnKey.toList, PawnKey.toList, List.ofFn_inj]
  exact ⟨fun h => PawnKey.ext h, fun h => by rw [h]⟩

/-- Reflecting the files of a side reverses their comparison with the reflection. -/
theorem compareReflection_reverse (files : List File) :
    compareReflection (files.reverse.map Fin.rev) = (compareReflection files).swap := by
  unfold compareReflection
  rw [← compareOfLessAndEq_swap]
  have hval : ∀ l : List File, (l.map Fin.rev).map Fin.val = l.map fun f => 7 - f.val := by
    intro l
    rw [List.map_map]
    refine List.map_congr_left (fun f _ => ?_)
    simp only [Function.comp_apply, Fin.val_rev]
    omega
  have hback : ∀ l : List File, ((l.map Fin.rev).map fun f => 7 - f.val) = l.map Fin.val := by
    intro l
    rw [← hval, List.map_map, List.map_map]
    refine List.map_congr_left (fun f _ => ?_)
    rw [Function.comp_apply, Function.comp_apply, Fin.rev_rev]
  rw [hval, ← List.map_reverse, List.reverse_reverse, hback]

/-! ### Materials seen from the other side -/

namespace Material

variable {M : Material}

/-- The material with the sides exchanged. -/
def twin (M : Material) : Material where
  words f := flipOrder (M.words f)
  count s r := M.count s.reverse r
  words_le f := by rw [length_flipOrder]; exact M.words_le f
  count_pawn s := M.count_pawn s.reverse
  count_king s := M.count_king s.reverse

@[simp] theorem twin_twin (M : Material) : M.twin.twin = M := by
  ext1
  · exact funext fun f => flipOrder_flipOrder _
  · exact funext fun s => by simp [twin]

theorem twin_mirrored (M : Material) : M.mirrored.twin = M.twin.mirrored := rfl

@[simp] theorem nPawns_twin (M : Material) : M.twin.nPawns = M.nPawns := by
  unfold nPawns
  congr 1
  exact List.map_congr_left (fun f _ => length_flipOrder _)

@[simp] theorem nPieces_twin (M : Material) : M.twin.nPieces = M.nPieces := by
  unfold nPieces
  rw [nPawns_twin]
  congr 1
  simp only [pieceKinds, twin, EgtSide.reverse, List.flatMap_cons, List.flatMap_nil,
    List.append_nil, List.cons_append, List.nil_append, List.map_cons, List.map_nil,
    List.sum_cons, List.sum_nil]
  omega

/-- The files of the pawns of a side. -/
def files (M : Material) (side : EgtSide) : List File :=
  (List.finRange 8).flatMap fun f => List.replicate ((M.words f).count side) f

theorem files_twin (M : Material) (side : EgtSide) :
    M.twin.files side = M.files side.reverse := by
  refine List.flatMap_congr (fun f _ => ?_)
  show List.replicate ((flipOrder (M.words f)).count side) f = _
  rw [count_flipOrder]

theorem files_mirrored (M : Material) (side : EgtSide) :
    M.mirrored.files side = (M.files side).reverse.map Fin.rev := by
  unfold files mirrored
  rw [List.reverse_flatMap, List.map_flatMap, List.finRange_reverse, List.flatMap_map]
  refine List.flatMap_congr (fun f _ => ?_)
  simp

/-- How a material compares with its mirror image. -/
def orientation (M : Material) : Ordering :=
  (compareFileReflection (M.files .sideToMove) (M.files .sideNotToMove)).then
    ((PawnKey.ofOrders M.words).cmp (PawnKey.ofOrders M.mirrored.words))

theorem orientation_mirrored (M : Material) : M.mirrored.orientation = M.orientation.swap := by
  unfold orientation compareFileReflection
  rw [files_mirrored, files_mirrored, compareReflection_reverse, compareReflection_reverse,
    mirrored_mirrored, PawnKey.cmp_swap (PawnKey.ofOrders M.words)]
  simp only [Ordering.swap_then]

/-- Only symmetric materials compare equal to their mirror image. -/
theorem mirrored_eq_of_orientation (h : M.orientation = .eq) : M.mirrored = M := by
  unfold orientation at h
  rw [Ordering.then_eq_eq, PawnKey.cmp_eq_eq, PawnKey.ofOrders_injective.eq_iff] at h
  exact Material.ext h.2.symm rfl

theorem orientation_eq_of_mirrored (h : M.mirrored = M) : M.orientation = .eq := by
  have := M.orientation_mirrored
  rw [h] at this
  revert this
  cases M.orientation <;> decide

/-- The material is in its canonical orientation. -/
def Canonical (M : Material) : Prop := M.orientation ≠ .gt

instance (M : Material) : Decidable M.Canonical := by unfold Canonical; infer_instance

/-- The canonical one of a material and its mirror image. -/
def canonical (M : Material) : Material := if M.Canonical then M else M.mirrored

theorem canonical_eq (h : M.Canonical) : M.canonical = M := if_pos h

theorem canonical_of_not (h : ¬ M.Canonical) : M.canonical = M.mirrored := if_neg h

theorem mirrored_canonical_of_not (h : ¬ M.Canonical) : M.mirrored.Canonical := by
  unfold Canonical at h ⊢
  rw [orientation_mirrored, not_not.mp h]
  decide

theorem Canonical.canonical (M : Material) : M.canonical.Canonical := by
  by_cases h : M.Canonical
  · rw [canonical_eq h]; exact h
  · rw [canonical_of_not h]; exact mirrored_canonical_of_not h

/-- A material and its mirror image have one canonical orientation. -/
theorem canonical_mirrored (M : Material) : M.mirrored.canonical = M.canonical := by
  by_cases h : M.Canonical
  · rw [canonical_eq h]
    by_cases h' : M.mirrored.Canonical
    · -- Both are canonical only if they are equal.
      rw [canonical_eq h']
      refine mirrored_eq_of_orientation ?_
      unfold Canonical at h h'
      rw [orientation_mirrored] at h'
      revert h h'
      cases M.orientation <;> decide
    · rw [canonical_of_not h', mirrored_mirrored]
  · rw [canonical_of_not h, canonical_eq (mirrored_canonical_of_not h)]

theorem nPieces_canonical (M : Material) : M.canonical.nPieces = M.nPieces := by
  unfold canonical
  split
  · rfl
  · exact nPieces_mirrored M

theorem nPawns_canonical (M : Material) : M.canonical.nPawns = M.nPawns := by
  unfold canonical
  split
  · rfl
  · exact nPawns_mirrored M

/-- **Twins** come in pairs: the twin of the canonical twin is the material itself, and either
    both directions reflect the files or none does. -/
theorem twin_canonical (h : M.Canonical) : M.twin.canonical.twin.canonical = M ∧
    (M.twin.canonical.twin.Canonical ↔ M.twin.Canonical) := by
  by_cases ht : M.twin.Canonical
  · rw [canonical_eq ht, twin_twin]
    exact ⟨canonical_eq h, iff_of_true h ht⟩
  · rw [canonical_of_not ht, ← twin_mirrored, twin_twin]
    refine ⟨by rw [canonical_mirrored, canonical_eq h], iff_of_false (fun hm => ?_) ht⟩
    -- A symmetric material has a symmetric twin, which is canonical.
    have heq : M.mirrored = M := by
      have := canonical_mirrored M
      rwa [canonical_eq hm, canonical_eq h] at this
    refine ht ?_
    unfold Canonical
    rw [orientation_eq_of_mirrored (by rw [← twin_mirrored, heq])]
    decide

end Material

/-! ### The program's canonical orientation -/

theorem length_files_le (M : Material) (side : EgtSide) :
    (M.files side).length ≤ M.nPawns := by
  unfold Material.files Material.nPawns
  rw [List.length_flatMap]
  refine List.sum_le_sum (fun f _ => ?_)
  rw [List.length_replicate]
  exact List.count_le_length

theorem PawnKey.canonicalized_ofOrders {M : Material} (hM : M.nPieces ≤ maxPieces) :
    (PawnKey.ofOrders M.words).canonicalized
      = .ok (PawnKey.ofOrders M.canonical.words, decide (¬ M.Canonical)) := by
  have hcap : ∀ side, (M.files side).length ≤ 6 := by
    intro side
    have h₁ := length_files_le M side
    have h₂ := Material.nPawns_le hM
    unfold maxPieces at h₂
    omega
  unfold canonicalized
  simp only [pawnFiles_ofOrders]
  rw [Run.ensure_eq ⟨hcap .sideToMove, hcap .sideNotToMove⟩, Run.ok_bind]
  by_cases h : M.Canonical
  · rw [Material.canonical_eq h, decide_eq_false (not_not.mpr h)]
    exact if_pos h
  · rw [Material.canonical_of_not h, decide_eq_true h]
    exact if_neg h

end ChessEgt
