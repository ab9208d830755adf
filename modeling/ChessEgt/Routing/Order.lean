import ChessEgt.Library.OrderedSet
import ChessEgt.Routing.Oriented

/-!
# The order of table identities

`TableId.cmp` compares the identities of tables as their keys: pieces, pawns, the name without
markers, and the material. `TableId.cmp_follows` says so, and that keys tell tables apart.
-/

namespace ChessEgt

namespace EgtElement

theorem cmp_swap (a b : EgtElement) : a.cmp b = (b.cmp a).swap := by
  cases a with
  | pawnGroup f o =>
    cases b with
    | pawnGroup f' o' =>
      simp only [cmp, Ordering.swap_then]
      rw [Std.OrientedOrd.eq_swap (a := f) (b := f'), compareOfLessAndEq_swap o'.val o.val]
    | pieceGroup r s m => rfl
  | pieceGroup r s m =>
    cases b with
    | pawnGroup f o => rfl
    | pieceGroup r' s' m' =>
      simp only [cmp, Ordering.swap_then]
      rw [Std.OrientedOrd.eq_swap (a := r') (b := r), Std.OrientedOrd.eq_swap (a := s) (b := s'),
        Std.OrientedOrd.eq_swap (a := m) (b := m')]

theorem isLE_cmp {a b : EgtElement} : (a.cmp b).isLE ↔ a.le b := by
  unfold le
  cases a.cmp b <;> decide

instance : Std.OrientedCmp cmp := ⟨@cmp_swap⟩

instance : Std.TransCmp cmp where
  isLE_trans h h' := isLE_cmp.mpr (trans_of le (isLE_cmp.mp h) (isLE_cmp.mp h'))

instance : Std.LawfulEqCmp cmp where
  compare_self {a} := by
    have h := cmp_swap a a
    cases hcmp : a.cmp a with
    | eq => rfl
    | lt => rw [hcmp] at h; cases h
    | gt => rw [hcmp] at h; cases h
  eq_of_compare {a b} h := by
    refine antisymm (r := le) (isLE_cmp.mp ?_) (isLE_cmp.mp ?_)
    · rw [h]; rfl
    · rw [cmp_swap, h]; rfl

end EgtElement

/-! ### Keys -/

namespace TableId

/-- What identities are ordered by. -/
structure Key where
  nPieces : ℕ
  nPawns : ℕ
  name : List ℕ
  elements : List EgtElement

def key (id : TableId) : Key where
  nPieces := id.nPieces
  nPawns := id.nPawns
  name := nameKey id.name
  elements :=
    match id.parsedElements with
    | .ok elements => elements
    | .error _ => []

/-- Keys are compared by their fields. -/
def Key.cmp : Key → Key → Ordering :=
  compareLex (compareLex (compareLex (compareOn Key.nPieces) (compareOn Key.nPawns))
    (Ordering.byKey Key.name (List.compareLex compare)))
    (Ordering.byKey Key.elements (List.compareLex EgtElement.cmp))

theorem Key.cmp_eq (a b : Key) : a.cmp b = (((compare a.nPieces b.nPieces).then
    (compare a.nPawns b.nPawns)).then (List.compareLex compare a.name b.name)).then
      (List.compareLex EgtElement.cmp a.elements b.elements) := rfl

instance : Std.TransCmp Key.cmp := by
  unfold Key.cmp
  infer_instance

instance : Std.LawfulEqCmp Key.cmp where
  compare_self {a} := by
    rw [Key.cmp_eq]
    simp only [Std.ReflCmp.compare_self, Ordering.then]
  eq_of_compare {a b} h := by
    rw [Key.cmp_eq] at h
    simp only [Ordering.then_eq_eq, Std.LawfulEqCmp.compare_eq_iff_eq] at h
    cases a
    cases b
    simp only at h
    rw [h.1.1.1, h.1.1.2, h.1.2, h.2]

/-- A table of a material. -/
def Named (id : TableId) : Prop := ∃ M : Material, M.nPieces ≤ maxPieces ∧ id = ⟨M.name⟩

theorem parsedElements_name {M : Material} (hM : M.nPieces ≤ maxPieces) :
    (⟨M.name⟩ : TableId).parsedElements = .ok M.elements := parseElements_name hM

/-- **The order** of the tables of materials is that of their keys, which tell them apart. -/
theorem cmp_follows : OrderedSet.Follows cmp Named key Key.cmp where
  cmp_eq := by
    rintro _ _ ⟨M, hM, rfl⟩ ⟨M', hM', rfl⟩
    rw [Key.cmp_eq, cmp]
    unfold key
    rw [parsedElements_name hM, parsedElements_name hM']
    simp only
    cases ((compare (⟨M.name⟩ : TableId).nPieces (⟨M'.name⟩ : TableId).nPieces).then
        (compare (⟨M.name⟩ : TableId).nPawns (⟨M'.name⟩ : TableId).nPawns)).then
        (List.compareLex compare (nameKey M.name) (nameKey M'.name)) with
    | lt => rfl
    | gt => rfl
    | eq =>
      show _ = Except.ok (List.compareLex EgtElement.cmp M.elements M'.elements)
      simp only
      by_cases heq : (⟨M.name⟩ : TableId) = ⟨M'.name⟩
      · have hMM : M = M' := Material.name_injective hM hM' (TableId.mk.inj heq)
        have hself : List.compareLex EgtElement.cmp M'.elements M'.elements = .eq :=
          Std.ReflCmp.compare_self
        rw [if_pos heq, hMM, hself]
        rfl
      · rw [if_neg heq]
        rfl
  injective := by
    rintro _ _ ⟨M, hM, rfl⟩ ⟨M', hM', rfl⟩ h
    have helements := congrArg Key.elements h
    unfold key at helements
    rw [parsedElements_name hM, parsedElements_name hM'] at helements
    simp only at helements
    -- The name is computed from the elements.
    have hname := computeTablename_eq (M.validElements hM)
    have hname' := computeTablename_eq (M'.validElements hM')
    rw [Material.material_validElements] at hname hname'
    rw [helements, hname', Except.ok.injEq] at hname
    rw [hname]

end TableId

end ChessEgt
