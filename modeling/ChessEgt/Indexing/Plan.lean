import ChessEgt.Indexing.Slice
import ChessEgt.Words

/-!
# The indexing plan of a material

* `Material.indexer` — the plan, without the errors of its construction;
* `fromElements_eq` — the construction succeeds on valid material lists and gives this plan;
* `sound_groups`, `map_size_nonpawns` — the metadata of its groups.
-/

namespace ChessEgt

namespace Material

variable (M : Material)

/-! ### The groups -/

/-- The pawn groups, by file. -/
def pawnGroups : List IndexerPawnGroup :=
  (List.finRange 8).filterMap fun f => if M.words f = [] then none else some ⟨f, M.words f⟩

/-- A pawnful material whose pawns are invariant under the reflection of the files. -/
def Symmetric : Prop := 0 < M.nPawns ∧ ∀ f, M.words f.rev = M.words f

instance : Decidable M.Symmetric := by unfold Symmetric; infer_instance

/-- The kings form one group. -/
def KingsPaired : Prop := M.nPawns = 0 ∨ M.Symmetric

instance : Decidable M.KingsPaired := by unfold KingsPaired; infer_instance

/-- The groups of the kings, before their squares are computed. -/
def kingGroups : List IndexerPieceGroup :=
  if M.KingsPaired then [⟨.kingPair, 0, 0, 2⟩]
  else [⟨.pieces .king .sideToMove, 0, 0, 1⟩, ⟨.pieces .king .sideNotToMove, 0, 0, 1⟩]

/-- The kinds of pieces other than pawns and kings, in indexing order. -/
def restKinds : List (Role × EgtSide) :=
  [.queen, .rook, .bishop, .knight].flatMap fun r => [(r, .sideToMove), (r, .sideNotToMove)]

/-- The groups behind the kings, before their squares are computed. -/
def restGroups : List IndexerPieceGroup :=
  restKinds.filterMap fun k =>
    if M.count k.2 k.1 = 0 then none else some ⟨.pieces k.1 k.2, 0, 0, M.count k.2 k.1⟩

/-- The squares left after the pawns are assigned to the groups in order. -/
def assignedGroups : List IndexerPieceGroup :=
  Indexer.assignSquares (64 - M.nPawns) (M.kingGroups ++ M.restGroups)

/-- The non-pawn groups of the plan. -/
def nonpawns : List IndexerPieceGroup :=
  if M.nPawns = 0 then Indexer.lookUpKings M.assignedGroups else M.assignedGroups

/-- **The indexing plan** of a material. -/
def indexer : Indexer where
  nPieces := M.nPieces
  nPawns := M.nPawns
  indexRange := ((if 0 < M.nPawns then some (PawnMap.new M.pawnGroups) else none).elim 1
    fun map => map.table.fromIndex.length) * (M.nonpawns.map (·.combinations)).prod
  symmetricPawns := decide M.Symmetric
  piecesIfWhiteIsStm := M.elements.flatMap Indexer.elementPieces
  pawns := M.pawnGroups
  nonpawns := M.nonpawns
  pawnMap := if 0 < M.nPawns then some (PawnMap.new M.pawnGroups) else none
  nonpawnCombinations := (M.nonpawns.map (·.combinations)).prod
  nonkingCombinations :=
    if M.nPawns = 0 then ((M.nonpawns.drop 1).map (·.combinations)).prod else 0

/-! ### The construction -/

theorem sum_sizes_pawnGroups : (M.pawnGroups.map IndexerPawnGroup.size).sum = M.nPawns := by
  unfold pawnGroups nPawns
  induction (List.finRange 8) with
  | nil => rfl
  | cons f l ih =>
    by_cases h : M.words f = []
    · rw [List.filterMap_cons_none (by rw [if_pos h]), ih, List.map_cons, List.sum_cons, h]
      simp
    · rw [List.filterMap_cons_some (by rw [if_neg h]), List.map_cons, List.sum_cons, ih,
        List.map_cons, List.sum_cons]
      rfl

theorem filterMap_pawnGroup : M.elements.filterMap Indexer.pawnGroup? = M.pawnGroups := by
  have h₂ : M.pieceElements.filterMap Indexer.pawnGroup? = [] := by
    rw [List.filterMap_eq_nil_iff]
    intro e he
    obtain ⟨r, s, m, rfl, -⟩ := mem_pieceElements.mp he
    rfl
  rw [elements, List.filterMap_append, h₂, List.append_nil, pawnElements,
    List.filterMap_filterMap, pawnGroups]
  refine List.filterMap_congr (fun f _ => ?_)
  split <;> rfl

/-- The piece groups in indexing order, before the kings are paired. -/
theorem filterMap_pieceGroup : M.elements.filterMap Indexer.pieceGroup?
    = ⟨.pieces .king .sideToMove, 0, 0, 1⟩ :: ⟨.pieces .king .sideNotToMove, 0, 0, 1⟩
      :: M.restGroups := by
  have h₁ : M.pawnElements.filterMap Indexer.pieceGroup? = [] := by
    rw [List.filterMap_eq_nil_iff]
    intro e he
    obtain ⟨f, o, rfl, -⟩ := mem_pawnElements.mp he
    rfl
  rw [elements, List.filterMap_append, h₁, List.nil_append, pieceElements,
    List.filterMap_filterMap]
  have hk : pieceKinds = (.king, .sideToMove) :: (.king, .sideNotToMove) :: restKinds := rfl
  rw [hk, List.filterMap_cons_some (b := ⟨.pieces .king .sideToMove, 0, 0, 1⟩),
    List.filterMap_cons_some (b := ⟨.pieces .king .sideNotToMove, 0, 0, 1⟩), restGroups]
  · congr 2
    refine List.filterMap_congr (fun k _ => ?_)
    split <;> rfl
  all_goals simp [M.count_king, Indexer.pieceGroup?]

theorem isSymmetric_iff :
    (decide (0 < M.nPawns) && (PawnKey.fromElements M.elements).isSymmetric) = decide M.Symmetric := by
  rw [Bool.eq_iff_iff, Bool.and_eq_true, decide_eq_true_eq, decide_eq_true_eq,
    PawnKey.fromElements_eq, PawnKey.isSymmetric_ofOrders]
  rfl

variable {M}

theorem sum_restGroups : (M.restGroups.map (·.size)).sum
    = (restKinds.map fun k => M.count k.2 k.1).sum := by
  unfold restGroups
  induction restKinds with
  | nil => rfl
  | cons k l ih =>
    by_cases h : M.count k.2 k.1 = 0
    · rw [List.filterMap_cons_none (by rw [if_pos h]), ih, List.map_cons, List.sum_cons, h,
        Nat.zero_add]
    · rw [List.filterMap_cons_some (by rw [if_neg h]), List.map_cons, List.sum_cons, ih,
        List.map_cons, List.sum_cons]

theorem sum_kingGroups : (M.kingGroups.map (·.size)).sum = 2 := by
  unfold kingGroups; split <;> rfl

theorem sum_sizes_groups : M.nPawns + ((M.kingGroups ++ M.restGroups).map (·.size)).sum
    = M.nPieces := by
  rw [List.map_append, List.sum_append, sum_kingGroups, sum_restGroups, nPieces]
  have hk : pieceKinds = (.king, .sideToMove) :: (.king, .sideNotToMove) :: restKinds := rfl
  rw [hk, List.map_cons, List.map_cons, List.sum_cons, List.sum_cons, M.count_king, M.count_king]
  omega

theorem size_le_of_mem (hM : M.nPieces ≤ maxPieces) {g : IndexerPieceGroup}
    (hg : g ∈ M.kingGroups ++ M.restGroups) : g.size ≤ maxPieces := by
  have h₁ := List.le_sum_of_mem (List.mem_map_of_mem (f := fun g : IndexerPieceGroup => g.size) hg)
  have h₂ := M.sum_sizes_groups
  omega

theorem nPawns_le (hM : M.nPieces ≤ maxPieces) : M.nPawns + 2 ≤ maxPieces := by
  have h₁ := M.sum_sizes_groups
  have h₂ := M.sum_kingGroups
  rw [List.map_append, List.sum_append] at h₁
  omega

theorem sum_sizes_le (hM : M.nPieces ≤ maxPieces) :
    ((M.kingGroups ++ M.restGroups).map (·.size)).sum ≤ 64 - M.nPawns := by
  have h₁ := M.sum_sizes_groups
  have : maxPieces = 8 := rfl
  omega

/-- The groups of the plan have the metadata of the squares left to them. -/
theorem sound_assignedGroups (hM : M.nPieces ≤ maxPieces) :
    ∀ g ∈ M.assignedGroups, Indexer.Sound g :=
  Indexer.sound_assignSquares (Nat.sub_le _ _) (fun _ hg => size_le_of_mem hM hg)
    (sum_sizes_le hM)

end Material

namespace Indexer

/-- **The construction of the plan** fails exactly on invalid material lists. -/
theorem fromElements_eq {l : List EgtElement} (h : ValidElements l) :
    fromElements l = .ok h.material.indexer := by
  have hM : h.material.nPieces ≤ maxPieces := by rw [h.nPieces_material]; exact h.total
  have hgroups : ∀ M : Material, (if decide (M.nPawns = 0) || decide M.Symmetric then
      pairKings (⟨.pieces .king .sideToMove, 0, 0, 1⟩
        :: ⟨.pieces .king .sideNotToMove, 0, 0, 1⟩ :: M.restGroups)
      else ⟨.pieces .king .sideToMove, 0, 0, 1⟩
        :: ⟨.pieces .king .sideNotToMove, 0, 0, 1⟩ :: M.restGroups)
      = M.kingGroups ++ M.restGroups := by
    intro M
    have hiff : (decide (M.nPawns = 0) || decide M.Symmetric) = true ↔ M.KingsPaired := by
      rw [Bool.or_eq_true, decide_eq_true_eq, decide_eq_true_eq]; rfl
    unfold Material.kingGroups
    by_cases hp : M.KingsPaired
    · rw [if_pos (hiff.mpr hp), if_pos hp]; rfl
    · rw [if_neg (fun he => hp (hiff.mp he)), if_neg hp]; rfl
  have hnp := Material.nPawns_le hM
  have hmax : maxPieces = 8 := rfl
  unfold fromElements
  rw [validateElements_eq_ok.mpr h]
  show (do
    let _ ← (Run.ofExcept (.ok ()) : Run Unit)
    _) = _
  rw [show (Run.ofExcept (.ok ()) : Run Unit) = .ok () from rfl, Run.ok_bind]
  simp only [h.sortElements_eq, Material.filterMap_pawnGroup, Material.filterMap_pieceGroup,
    Material.sum_sizes_pawnGroups, Material.isSymmetric_iff, Material.sum_multiplicity_elements,
    hgroups]
  rw [Run.sub_eq (by omega), Run.ok_bind, computePieceSquares_eq (Nat.sub_le _ _)
    (fun g hg => Material.size_le_of_mem hM hg) (Material.sum_sizes_le hM), Run.ok_bind]
  rfl

/-- Only valid material lists have a plan. -/
theorem validElements_of_fromElements {l : List EgtElement} {self : Indexer}
    (h : fromElements l = .ok self) : ValidElements l := by
  rw [← validateElements_eq_ok]
  unfold fromElements at h
  cases hv : validateElements l with
  | ok u => rfl
  | error e => rw [hv] at h; cases h

end Indexer

end ChessEgt
