import ChessEgt.Error
import ChessEgt.Chess.Board

/-!
# Material

* `EgtSide`, `EgtElement`, `EgtElement.cmp` — a table's logical material groups and their order;
* `validateElements` — the check of a material list;
* `Material` — material in a normal form that does not depend on the order of the elements;
* `sortElements_eq` — sorting a valid element list gives the normal form's list.
-/

namespace ChessEgt

/-- The greatest value of a `usize`. -/
def usizeMax : ℕ := 2 ^ 64 - 1

def maxPieces : ℕ := 8

inductive EgtSide where
  | sideToMove
  | sideNotToMove
  deriving DecidableEq, Repr

namespace EgtSide

def reverse : EgtSide → EgtSide
  | sideToMove => sideNotToMove
  | sideNotToMove => sideToMove

@[simp] theorem reverse_reverse (s : EgtSide) : s.reverse.reverse = s := by cases s <;> rfl

def toNat : EgtSide → ℕ
  | sideToMove => 0
  | sideNotToMove => 1

theorem toNat_injective : Function.Injective toNat := by
  intro a b; cases a <;> cases b <;> decide

instance : LinearOrder EgtSide := LinearOrder.lift' toNat toNat_injective

instance : Fintype EgtSide := ⟨{sideToMove, sideNotToMove}, fun s => by cases s <;> decide⟩

/-- The color of a side when `turn` is to move. -/
def color (s : EgtSide) (turn : Color) : Color :=
  match s with
  | sideToMove => turn
  | sideNotToMove => turn.other

@[simp] theorem color_sideToMove (c : Color) : sideToMove.color c = c := rfl
@[simp] theorem color_sideNotToMove (c : Color) : sideNotToMove.color c = c.other := rfl
@[simp] theorem color_reverse (s : EgtSide) (c : Color) : s.reverse.color c = (s.color c).other := by
  cases s <;> simp [reverse]
@[simp] theorem color_other (s : EgtSide) (c : Color) : s.color c.other = (s.color c).other := by
  cases s <;> simp

theorem color_inj {s t : EgtSide} {c : Color} : s.color c = t.color c ↔ s = t := by
  cases s <;> cases t <;> simp

/-- The side that a color is when `turn` is to move. -/
def ofColor (c turn : Color) : EgtSide := if c = turn then sideToMove else sideNotToMove

@[simp] theorem color_ofColor (c turn : Color) : (ofColor c turn).color turn = c := by
  cases c <;> cases turn <;> rfl

@[simp] theorem ofColor_color (s : EgtSide) (turn : Color) : ofColor (s.color turn) turn = s := by
  cases s <;> cases turn <;> rfl

end EgtSide

/-- The colors of the pawns on a file; a file holds at most six pawns. -/
abbrev PawnOrder := {l : List EgtSide // l.length ≤ 6}

/-- A logical material group. Pawn colors are listed in ascending rank, normalized to the side to
    move. -/
inductive EgtElement where
  | pawnGroup (file : File) (order : PawnOrder)
  | pieceGroup (role : Role) (side : EgtSide) (multiplicity : ℕ)
  deriving DecidableEq, Repr

/-- The position of a role in the order of declaration. -/
def Role.toNat : Role → ℕ
  | .pawn => 1
  | .knight => 2
  | .bishop => 3
  | .rook => 4
  | .queen => 5
  | .king => 6

theorem Role.toNat_injective : Function.Injective Role.toNat := by
  intro a b; cases a <;> cases b <;> decide

instance : LinearOrder Role := LinearOrder.lift' Role.toNat Role.toNat_injective

namespace EgtElement

/-- The number of physical pieces represented by this element. -/
def multiplicity : EgtElement → ℕ
  | pawnGroup _ order => order.val.length
  | pieceGroup _ _ multiplicity => multiplicity

/-- Pawn groups by file, then piece groups in the indexing order KQRBN. -/
def cmp : EgtElement → EgtElement → Ordering
  | pawnGroup a x, pawnGroup b y => (compare a b).then (compareOfLessAndEq x.val y.val)
  | pawnGroup _ _, pieceGroup _ _ _ => .lt
  | pieceGroup _ _ _, pawnGroup _ _ => .gt
  | pieceGroup a x m, pieceGroup b y n =>
    (compare b a).then ((compare x y).then (compare m n))

/-- The order in which elements are sorted. -/
def le (a b : EgtElement) : Prop := a.cmp b ≠ .gt

instance : DecidableRel le := fun a b => by unfold le; infer_instance

end EgtElement

/-- Sorts elements canonically. -/
def sortElements (elements : List EgtElement) : List EgtElement :=
  elements.insertionSort EgtElement.le

/-! ### Validation -/

/-- What the validation has seen: pawn files, piece groups, and the number of pieces. -/
structure SeenElements where
  files : List File
  pieces : List (Role × EgtSide)
  nPieces : ℕ

/-- Validates one element. -/
def validateElement (seen : SeenElements) (element : EgtElement) :
    Except EgtError SeenElements := do
  let seen' ← match element with
    | .pawnGroup file order =>
      if order.val.isEmpty || seen.files.contains file then
        throw (.unsupportedPosition "pawn file groups must be unique and nonempty")
      else pure { seen with files := file :: seen.files }
    | .pieceGroup role side multiplicity =>
      if role = .pawn then
        throw (.unsupportedPosition "pawns must be represented by pawn file groups")
      else if multiplicity = 0 || seen.pieces.contains (role, side) then
        throw (.unsupportedPosition "piece groups must be unique and nonempty")
      else if role = .king && multiplicity ≠ 1 then
        throw (.unsupportedPosition "each side must have exactly one king")
      else pure { seen with pieces := (role, side) :: seen.pieces }
  let nPieces := seen.nPieces + element.multiplicity
  if usizeMax < nPieces then
    throw (.unsupportedPosition "piece count overflow")
  else if maxPieces < nPieces then
    throw (.unsupportedPosition "at most eight physical pieces are supported")
  else pure { seen' with nPieces := nPieces }

/-- Validates material independently of the elements' ordering. -/
def validateElements (elements : List EgtElement) : Except EgtError Unit := do
  let seen ← elements.foldlM validateElement ⟨[], [], 0⟩
  if seen.pieces.contains (.king, .sideToMove) && seen.pieces.contains (.king, .sideNotToMove) then
    pure ()
  else throw (.unsupportedPosition "each side must have exactly one king")

/-! ### What the validation accepts -/

namespace EgtElement

/-- The file of a pawn group. -/
def file? : EgtElement → Option File
  | pawnGroup f _ => some f
  | pieceGroup _ _ _ => none

/-- The role and side of a piece group. -/
def kind? : EgtElement → Option (Role × EgtSide)
  | pawnGroup _ _ => none
  | pieceGroup r s _ => some (r, s)

/-- What an element has to satisfy by itself. -/
def Sound : EgtElement → Prop
  | pawnGroup _ order => order.val ≠ []
  | pieceGroup role _ multiplicity =>
    role ≠ .pawn ∧ multiplicity ≠ 0 ∧ (role = .king → multiplicity = 1)

end EgtElement

/-- The material lists that tables are made for. -/
structure ValidElements (elements : List EgtElement) : Prop where
  sound : ∀ e ∈ elements, e.Sound
  files : (elements.filterMap EgtElement.file?).Nodup
  kinds : (elements.filterMap EgtElement.kind?).Nodup
  total : (elements.map EgtElement.multiplicity).sum ≤ maxPieces
  kings : ∀ side, (Role.king, side) ∈ elements.filterMap EgtElement.kind?

/-- What the validation has seen after one more element. -/
def SeenElements.add (seen : SeenElements) (e : EgtElement) : SeenElements :=
  ⟨e.file?.toList ++ seen.files, e.kind?.toList ++ seen.pieces, seen.nPieces + e.multiplicity⟩

/-- An element passes exactly when it is sound, new, and leaves at most eight pieces. -/
theorem validateElement_eq_ok {seen seen' : SeenElements} {e : EgtElement} :
    validateElement seen e = .ok seen' ↔
      (e.Sound ∧ (∀ f ∈ e.file?, f ∉ seen.files) ∧ (∀ k ∈ e.kind?, k ∉ seen.pieces) ∧
        seen.nPieces + e.multiplicity ≤ maxPieces) ∧ seen' = seen.add e := by
  have hcount : ∀ (fs : List File) (ps : List (Role × EgtSide)) (n : ℕ),
      (if usizeMax < n then
        throw (.unsupportedPosition "piece count overflow")
      else if maxPieces < n then
        throw (.unsupportedPosition "at most eight physical pieces are supported")
      else pure ⟨fs, ps, n⟩ : Except EgtError SeenElements) = .ok seen' ↔
      n ≤ maxPieces ∧ seen' = ⟨fs, ps, n⟩ := by
    intro fs ps n
    have hm : maxPieces < usizeMax := by decide
    by_cases h₁ : usizeMax < n
    · rw [if_pos h₁]
      exact ⟨fun h => (by cases h), fun h => absurd h.1 (by omega)⟩
    · rw [if_neg h₁]
      by_cases h₂ : maxPieces < n
      · rw [if_pos h₂]
        exact ⟨fun h => (by cases h), fun h => absurd h.1 (by omega)⟩
      · rw [if_neg h₂]
        exact ⟨fun h => ⟨by omega, (Except.ok.inj h).symm⟩, fun h => by rw [h.2]; rfl⟩
  unfold validateElement
  cases e with
  | pawnGroup file order =>
    by_cases h : (order.val.isEmpty || seen.files.contains file) = true
    · have : (EgtElement.pawnGroup file order).Sound → file ∈ seen.files := by
        intro hs
        rw [Bool.or_eq_true, List.isEmpty_iff, List.contains_iff_mem] at h
        exact h.resolve_left hs
      simp only [if_pos h]
      refine ⟨fun h => (by cases h), fun h => ?_⟩
      exact absurd (this h.1.1) (h.1.2.1 file rfl)
    · simp only [if_neg h, pure_bind, hcount]
      rw [Bool.or_eq_true, List.isEmpty_iff, List.contains_iff_mem, not_or] at h
      simp [EgtElement.Sound, EgtElement.file?, EgtElement.kind?, SeenElements.add, h.1, h.2]
  | pieceGroup role side m =>
    by_cases h₁ : role = .pawn
    · simp only [if_pos h₁]
      exact ⟨fun h => (by cases h), fun h => absurd h₁ h.1.1.1⟩
    simp only [if_neg h₁]
    by_cases h₂ : (decide (m = 0) || seen.pieces.contains (role, side)) = true
    · simp only [if_pos h₂]
      rw [Bool.or_eq_true, decide_eq_true_eq, List.contains_iff_mem] at h₂
      refine ⟨fun h => (by cases h), fun h => ?_⟩
      rcases h₂ with h₂ | h₂
      · exact absurd h₂ h.1.1.2.1
      · exact absurd h₂ (h.1.2.2.1 _ rfl)
    simp only [if_neg h₂]
    by_cases h₃ : (decide (role = .king) && decide (m ≠ 1)) = true
    · simp only [if_pos h₃]
      rw [Bool.and_eq_true, decide_eq_true_eq, decide_eq_true_eq] at h₃
      exact ⟨fun h => (by cases h), fun h => absurd (h.1.1.2.2 h₃.1) h₃.2⟩
    · simp only [if_neg h₃, pure_bind, hcount]
      rw [Bool.or_eq_true, decide_eq_true_eq, List.contains_iff_mem, not_or] at h₂
      rw [Bool.and_eq_true, decide_eq_true_eq, decide_eq_true_eq, not_and, not_not] at h₃
      simp [EgtElement.Sound, EgtElement.file?, EgtElement.kind?, SeenElements.add, h₁, h₂.1, h₂.2]
      tauto

theorem foldlM_validateElement {seen seen' : SeenElements} {l : List EgtElement}
    (hf : seen.files.Nodup) (hk : seen.pieces.Nodup) (hn : seen.nPieces ≤ maxPieces) :
    l.foldlM validateElement seen = .ok seen' ↔
      ((∀ e ∈ l, e.Sound) ∧ ((l.filterMap EgtElement.file?).reverse ++ seen.files).Nodup ∧
        ((l.filterMap EgtElement.kind?).reverse ++ seen.pieces).Nodup ∧
        seen.nPieces + (l.map EgtElement.multiplicity).sum ≤ maxPieces) ∧
      seen' = ⟨(l.filterMap EgtElement.file?).reverse ++ seen.files,
        (l.filterMap EgtElement.kind?).reverse ++ seen.pieces,
        seen.nPieces + (l.map EgtElement.multiplicity).sum⟩ := by
  induction l generalizing seen with
  | nil =>
    simp only [List.foldlM_nil, List.filterMap_nil, List.reverse_nil, List.nil_append,
      List.map_nil, List.sum_nil, Nat.add_zero, hf, hk, hn, and_true]
    exact ⟨fun h => ⟨by simp, (Except.ok.inj h).symm⟩, fun h => by rw [h.2]; rfl⟩
  | cons e l ih =>
    have hfile : (List.filterMap EgtElement.file? (e :: l)).reverse ++ seen.files
        = (l.filterMap EgtElement.file?).reverse ++ (e.file?.toList ++ seen.files) := by
      cases h : e.file? <;> simp [h]
    have hkind : (List.filterMap EgtElement.kind? (e :: l)).reverse ++ seen.pieces
        = (l.filterMap EgtElement.kind?).reverse ++ (e.kind?.toList ++ seen.pieces) := by
      cases h : e.kind? <;> simp [h]
    rw [hfile, hkind, List.foldlM_cons]
    simp only [List.map_cons, List.sum_cons, List.forall_mem_cons]
    constructor
    · intro h
      cases hv : validateElement seen e with
      | error x => rw [hv] at h; cases h
      | ok seen₁ =>
        rw [hv] at h
        obtain ⟨⟨hs, hfe, hke, hle⟩, rfl⟩ := validateElement_eq_ok.mp hv
        have hf' : (seen.add e).files.Nodup := by
          show (e.file?.toList ++ seen.files).Nodup
          cases hef : e.file? with
          | none => simpa using hf
          | some f => simpa [hf] using hfe f hef
        have hk' : (seen.add e).pieces.Nodup := by
          show (e.kind?.toList ++ seen.pieces).Nodup
          cases hek : e.kind? with
          | none => simpa using hk
          | some k => simpa [hk] using hke k hek
        obtain ⟨⟨h₁, h₂, h₃, h₄⟩, rfl⟩ := (ih hf' hk' hle).mp h
        simp only [SeenElements.add, Nat.add_assoc] at h₂ h₃ h₄ ⊢
        exact ⟨⟨⟨hs, h₁⟩, h₂, h₃, h₄⟩, trivial⟩
    · rintro ⟨⟨⟨hs, h₁⟩, h₂, h₃, h₄⟩, rfl⟩
      have hf' : (e.file?.toList ++ seen.files).Nodup := (List.nodup_append.mp h₂).2.1
      have hk' : (e.kind?.toList ++ seen.pieces).Nodup := (List.nodup_append.mp h₃).2.1
      have hv : validateElement seen e = .ok (seen.add e) := by
        refine validateElement_eq_ok.mpr ⟨⟨hs, fun f hef => ?_, fun k hek => ?_, by omega⟩, rfl⟩
        · rw [Option.mem_def.mp hef] at hf'
          exact (List.nodup_cons.mp hf').1
        · rw [Option.mem_def.mp hek] at hk'
          exact (List.nodup_cons.mp hk').1
      rw [hv]
      show l.foldlM validateElement (seen.add e) = _
      rw [@ih (seen.add e) hf' hk' (by simp only [SeenElements.add]; omega)]
      simp only [SeenElements.add, Nat.add_assoc]
      exact ⟨⟨h₁, h₂, h₃, by omega⟩, trivial⟩

/-- **The validation** accepts exactly the valid material lists. -/
theorem validateElements_eq_ok {elements : List EgtElement} :
    validateElements elements = .ok () ↔ ValidElements elements := by
  have hfold := fun seen' => @foldlM_validateElement ⟨[], [], 0⟩ seen'
    elements List.nodup_nil List.nodup_nil (Nat.zero_le _)
  simp only [List.append_nil, Nat.zero_add, List.nodup_reverse] at hfold
  unfold validateElements
  cases h : elements.foldlM validateElement ⟨[], [], 0⟩ with
  | error x =>
    refine ⟨fun h => (by cases h), fun hv => ?_⟩
    rw [(hfold _).mpr ⟨⟨hv.sound, hv.files, hv.kinds, hv.total⟩, rfl⟩] at h
    cases h
  | ok seen =>
    obtain ⟨⟨h₁, h₂, h₃, h₄⟩, rfl⟩ := (hfold seen).mp h
    show (if _ then _ else _) = _ ↔ _
    have hmem : ∀ side, (elements.filterMap EgtElement.kind?).reverse.contains (.king, side) = true
        ↔ (Role.king, side) ∈ elements.filterMap EgtElement.kind? := by
      intro side
      rw [List.contains_iff_mem, List.mem_reverse]
    simp only [Bool.and_eq_true, hmem]
    split
    next hk =>
      refine ⟨fun _ => ⟨h₁, h₂, h₃, h₄, fun side => ?_⟩, fun _ => rfl⟩
      cases side
      · exact hk.1
      · exact hk.2
    next hk =>
      exact ⟨fun h => (by cases h), fun hv => absurd ⟨hv.kings _, hv.kings _⟩ hk⟩

/-! ### The normal form of material -/

/-- The pawn colors of a file, in ascending normalized rank. -/
def pawnWord (elements : List EgtElement) (f : File) : List EgtSide :=
  (elements.findSome? fun e => match e with
    | .pawnGroup file order => if file = f then some order.val else none
    | .pieceGroup _ _ _ => none).getD []

/-- The number of pieces of a side and a role other than the pawn. -/
def pieceCount (elements : List EgtElement) (side : EgtSide) (role : Role) : ℕ :=
  (elements.filterMap fun e => match e with
    | .pieceGroup r s multiplicity => if r = role ∧ s = side then some multiplicity else none
    | .pawnGroup _ _ => none).sum

/-- Material as pawn colors by file and piece counts by side and role. -/
@[ext] structure Material where
  words : File → List EgtSide
  count : EgtSide → Role → ℕ
  words_le : ∀ f, (words f).length ≤ 6
  count_pawn : ∀ s, count s .pawn = 0
  count_king : ∀ s, count s .king = 1

/-- The groups of pieces other than pawns, in indexing order. -/
def pieceKinds : List (Role × EgtSide) :=
  [.king, .queen, .rook, .bishop, .knight].flatMap
    fun r => [(r, .sideToMove), (r, .sideNotToMove)]

namespace Material

variable (M : Material)

/-- The pawn groups, by file. -/
def pawnElements : List EgtElement :=
  (List.finRange 8).filterMap fun f =>
    if M.words f = [] then none else some (.pawnGroup f ⟨M.words f, M.words_le f⟩)

/-- The piece groups, in indexing order. -/
def pieceElements : List EgtElement :=
  pieceKinds.filterMap fun k =>
    if M.count k.2 k.1 = 0 then none else some (.pieceGroup k.1 k.2 (M.count k.2 k.1))

/-- The elements in canonical order. -/
def elements : List EgtElement := M.pawnElements ++ M.pieceElements

/-- The number of pawns. -/
def nPawns : ℕ := ((List.finRange 8).map fun f => (M.words f).length).sum

/-- The number of pieces. -/
def nPieces : ℕ := M.nPawns + (pieceKinds.map fun k => M.count k.2 k.1).sum

variable {M}

theorem mem_pawnElements {e : EgtElement} :
    e ∈ M.pawnElements ↔ ∃ f o, e = .pawnGroup f o ∧ o.val = M.words f ∧ o.val ≠ [] := by
  simp only [pawnElements, List.mem_filterMap, List.mem_finRange, true_and]
  constructor
  · rintro ⟨f, h⟩
    split at h
    · cases h
    next hne => exact ⟨f, _, (Option.some.inj h).symm, rfl, hne⟩
  · rintro ⟨f, o, rfl, ho, hne⟩
    refine ⟨f, ?_⟩
    rw [ho] at hne
    rw [if_neg hne, Option.some.injEq]
    congr 1
    exact Subtype.ext ho.symm

theorem mem_pieceKinds {k : Role × EgtSide} : k ∈ pieceKinds ↔ k.1 ≠ .pawn := by
  obtain ⟨r, s⟩ := k
  cases r <;> cases s <;> decide

theorem mem_pieceElements {e : EgtElement} :
    e ∈ M.pieceElements ↔ ∃ r s m, e = .pieceGroup r s m ∧ m = M.count s r ∧ m ≠ 0 := by
  simp only [pieceElements, List.mem_filterMap, mem_pieceKinds]
  constructor
  · rintro ⟨k, -, h⟩
    split at h
    · cases h
    next hne => exact ⟨k.1, k.2, _, (Option.some.inj h).symm, rfl, hne⟩
  · rintro ⟨r, s, m, rfl, rfl, hne⟩
    refine ⟨(r, s), ?_, by rw [if_neg hne]⟩
    rintro (rfl : r = .pawn)
    exact hne (M.count_pawn s)

theorem mem_elements {e : EgtElement} : e ∈ M.elements ↔
    (∃ f o, e = .pawnGroup f o ∧ o.val = M.words f ∧ o.val ≠ []) ∨
      (∃ r s m, e = .pieceGroup r s m ∧ m = M.count s r ∧ m ≠ 0) := by
  rw [elements, List.mem_append, mem_pawnElements, mem_pieceElements]

theorem filterMap_file_elements : M.elements.filterMap EgtElement.file?
    = (List.finRange 8).filter fun f => M.words f ≠ [] := by
  have h₂ : M.pieceElements.filterMap EgtElement.file? = [] := by
    rw [List.filterMap_eq_nil_iff]
    intro e he
    obtain ⟨r, s, m, rfl, -⟩ := mem_pieceElements.mp he
    rfl
  rw [elements, List.filterMap_append, h₂, List.append_nil, pawnElements, List.filterMap_filterMap,
    ← List.filterMap_eq_filter]
  refine List.filterMap_congr (fun f _ => ?_)
  by_cases h : M.words f = [] <;> simp [h, EgtElement.file?, Option.guard]

theorem filterMap_kind_elements : M.elements.filterMap EgtElement.kind?
    = pieceKinds.filter fun k => M.count k.2 k.1 ≠ 0 := by
  have h₁ : M.pawnElements.filterMap EgtElement.kind? = [] := by
    rw [List.filterMap_eq_nil_iff]
    intro e he
    obtain ⟨f, o, rfl, -⟩ := mem_pawnElements.mp he
    rfl
  rw [elements, List.filterMap_append, h₁, List.nil_append, pieceElements,
    List.filterMap_filterMap, ← List.filterMap_eq_filter]
  refine List.filterMap_congr (fun k _ => ?_)
  by_cases h : M.count k.2 k.1 = 0 <;> simp [h, EgtElement.kind?, Option.guard]

theorem sum_multiplicity_elements : (M.elements.map EgtElement.multiplicity).sum = M.nPieces := by
  have h : ∀ {α : Type} (l : List α) (g : α → ℕ) (mk : α → EgtElement)
      (_ : ∀ a, (mk a).multiplicity = g a),
      ((l.filterMap fun a => if g a = 0 then none else some (mk a)).map
        EgtElement.multiplicity).sum = (l.map g).sum := by
    intro α l g mk hmk
    induction l with
    | nil => rfl
    | cons a l ih =>
      by_cases ha : g a = 0
      · simp [ha, ih]
      · simp [ha, ih, hmk]
  rw [elements, List.map_append, List.sum_append, nPieces, nPawns]
  congr 1
  · rw [← h _ (fun f => (M.words f).length) (fun f => .pawnGroup f ⟨M.words f, M.words_le f⟩)
      (fun _ => rfl), pawnElements]
    simp only [List.length_eq_zero_iff]
  · exact h pieceKinds (fun k => M.count k.2 k.1)
      (fun k => .pieceGroup k.1 k.2 (M.count k.2 k.1)) (fun _ => rfl)

theorem nodup_elements : M.elements.Nodup := by
  rw [elements, List.nodup_append]
  refine ⟨?_, ?_, ?_⟩
  · refine (List.nodup_finRange 8).filterMap ?_
    rintro f f' b hb hb'
    split at hb
    · cases hb
    · split at hb'
      · cases hb'
      · cases Option.some.inj (hb.trans hb'.symm); rfl
  · refine (show pieceKinds.Nodup by decide).filterMap ?_
    rintro ⟨r, s⟩ ⟨r', s'⟩ b hb hb'
    split at hb
    · cases hb
    · split at hb'
      · cases hb'
      · have h := hb.trans hb'.symm
        simp only [Option.some.injEq, EgtElement.pieceGroup.injEq] at h
        rw [h.1, h.2.1]
  · rintro a ha b hb rfl
    obtain ⟨f, o, rfl, -⟩ := mem_pawnElements.mp ha
    obtain ⟨r, s, m, h, -⟩ := mem_pieceElements.mp hb
    cases h

/-- The normal form is valid material if there are at most eight pieces. -/
theorem validElements (h : M.nPieces ≤ maxPieces) : ValidElements M.elements where
  sound := by
    intro e he
    rcases mem_elements.mp he with ⟨f, o, rfl, -, hne⟩ | ⟨r, s, m, rfl, rfl, hne⟩
    · exact hne
    · refine ⟨?_, hne, ?_⟩
      · rintro rfl; exact hne (M.count_pawn s)
      · rintro rfl; exact M.count_king s
  files := by
    rw [filterMap_file_elements]
    exact (List.nodup_finRange 8).filter _
  kinds := by
    rw [filterMap_kind_elements]
    exact (show pieceKinds.Nodup by decide).filter _
  total := by rw [sum_multiplicity_elements]; exact h
  kings := by
    intro side
    rw [filterMap_kind_elements, List.mem_filter, mem_pieceKinds]
    simp [M.count_king]

end Material

/-! ### Sorting -/

namespace EgtElement

/-- The sort key of an element. -/
def key : EgtElement → (File ×ₗ List EgtSide) ⊕ₗ (Roleᵒᵈ ×ₗ (EgtSide ×ₗ ℕ))
  | pawnGroup f o => Sum.inlₗ (toLex (f, o.val))
  | pieceGroup r s m => Sum.inrₗ (toLex (OrderDual.toDual r, toLex (s, m)))

theorem key_injective : Function.Injective key := by
  intro a b h
  cases a with
  | pawnGroup f o =>
    cases b with
    | pawnGroup f' o' =>
      have := Sum.inl.inj h
      have h₁ := congrArg Prod.fst this
      have h₂ := congrArg Prod.snd this
      exact congrArg₂ pawnGroup h₁ (Subtype.ext h₂)
    | pieceGroup => cases h
  | pieceGroup r s m =>
    cases b with
    | pawnGroup => cases h
    | pieceGroup r' s' m' =>
      have := Sum.inr.inj h
      have h₁ : r = r' := congrArg Prod.fst this
      have h₂ : s = s' := congrArg (fun x => (Prod.snd x).1) this
      have h₃ : m = m' := congrArg (fun x => (Prod.snd x).2) this
      rw [h₁, h₂, h₃]

theorem compare_then_ne_gt {α : Type*} [LinearOrder α] {a b : α} {o : Ordering} :
    (compare a b).then o ≠ .gt ↔ a < b ∨ (a = b ∧ o ≠ .gt) := by
  rcases lt_trichotomy a b with h | rfl | h
  · rw [compare_lt_iff_lt.mpr h]
    simp [Ordering.then, h]
  · rw [compare_eq_iff_eq.mpr rfl]
    simp [Ordering.then]
  · rw [compare_gt_iff_gt.mpr h]
    simp [Ordering.then, h.not_gt, h.ne']

theorem compare_ne_gt {α : Type*} [LinearOrder α] {a b : α} : compare a b ≠ .gt ↔ a ≤ b := by
  rw [Ne, compare_gt_iff_gt, not_lt]

theorem compareOfLessAndEq_ne_gt {α : Type*} [LinearOrder α] {a b : α} [Decidable (a < b)]
    [DecidableEq α] : compareOfLessAndEq a b ≠ .gt ↔ a ≤ b := by
  unfold compareOfLessAndEq
  split
  next h => simp [h.le]
  next h =>
    split
    next h => simp [h]
    next hne => simp [le_iff_lt_or_eq, h, hne]

theorem le_iff_key {a b : EgtElement} : a.le b ↔ a.key ≤ b.key := by
  unfold le
  cases a with
  | pawnGroup f o =>
    cases b with
    | pawnGroup f' o' =>
      simp only [cmp, key]
      rw [compare_then_ne_gt, compareOfLessAndEq_ne_gt]
      refine Iff.trans ?_ Sum.Lex.inl_le_inl_iff.symm
      rw [Prod.Lex.le_iff]; rfl
    | pieceGroup r s m =>
      exact ⟨fun _ => Sum.Lex.inl_le_inr _ _, fun _ => by simp [cmp]⟩
  | pieceGroup r s m =>
    cases b with
    | pawnGroup f o =>
      exact ⟨fun h => absurd rfl h, fun h => absurd h Sum.Lex.not_inr_le_inl⟩
    | pieceGroup r' s' m' =>
      simp only [cmp, key]
      rw [compare_then_ne_gt, compare_then_ne_gt, compare_ne_gt]
      refine Iff.trans ?_ Sum.Lex.inr_le_inr_iff.symm
      rw [Prod.Lex.le_iff]
      refine or_congr Iff.rfl (and_congr ⟨fun h => h.symm, fun h => h.symm⟩ ?_)
      rw [Prod.Lex.le_iff]; rfl

instance : Std.Total EgtElement.le := ⟨fun a b => by
  rw [le_iff_key, le_iff_key]; exact le_total _ _⟩

instance : IsTrans EgtElement EgtElement.le := ⟨fun a b c h h' => by
  rw [le_iff_key] at *; exact h.trans h'⟩

instance : Std.Antisymm EgtElement.le := ⟨fun a b h h' => by
  rw [le_iff_key] at *; exact key_injective (le_antisymm h h')⟩

end EgtElement

theorem Material.pairwise_elements (M : Material) : M.elements.Pairwise EgtElement.le := by
  rw [elements, List.pairwise_append]
  refine ⟨?_, ?_, ?_⟩
  · refine List.Pairwise.filterMap (R := (· < ·)) _ ?_ (List.pairwise_lt_finRange 8)
    rintro f f' hlt b hb b' hb'
    split at hb
    · cases hb
    · split at hb'
      · cases hb'
      · cases Option.some.inj hb; cases Option.some.inj hb'
        rw [EgtElement.le, EgtElement.cmp, EgtElement.compare_then_ne_gt]
        exact Or.inl hlt
  · refine List.Pairwise.filterMap
      (R := fun k k' : Role × EgtSide => k'.1 < k.1 ∨ (k'.1 = k.1 ∧ k.2 < k'.2)) _ ?_ (by decide)
    rintro ⟨r, s⟩ ⟨r', s'⟩ hlt b hb b' hb'
    split at hb
    · cases hb
    · split at hb'
      · cases hb'
      · cases Option.some.inj hb; cases Option.some.inj hb'
        rw [EgtElement.le, EgtElement.cmp, EgtElement.compare_then_ne_gt,
          EgtElement.compare_then_ne_gt]
        exact hlt.imp_right (fun h => ⟨h.1, Or.inl h.2⟩)
  · intro a ha b hb
    obtain ⟨f, o, rfl, -⟩ := mem_pawnElements.mp ha
    obtain ⟨r, s, m, rfl, -⟩ := mem_pieceElements.mp hb
    rw [EgtElement.le, EgtElement.cmp]; decide

/-! ### The material of a valid element list -/

/-- Items with equal keys are equal when no key repeats. -/
theorem eq_of_nodup_filterMap {α β : Type*} {g : α → Option β} {l : List α}
    (h : (l.filterMap g).Nodup) {a b : α} (ha : a ∈ l) (hb : b ∈ l) {x : β}
    (hga : g a = some x) (hgb : g b = some x) : a = b := by
  induction l with
  | nil => exact absurd ha List.not_mem_nil
  | cons c l ih =>
    cases hc : g c with
    | none =>
      rw [List.filterMap_cons_none hc] at h
      have hne : ∀ d, g d = some x → d ∈ c :: l → d ∈ l := by
        rintro d hd hm
        rcases List.mem_cons.mp hm with rfl | hm
        · rw [hc] at hd; cases hd
        · exact hm
      exact ih h (hne a hga ha) (hne b hgb hb)
    | some y =>
      rw [List.filterMap_cons_some hc, List.nodup_cons] at h
      rcases List.mem_cons.mp ha with rfl | ha' <;> rcases List.mem_cons.mp hb with rfl | hb'
      · rfl
      · rw [hc] at hga; cases hga
        exact absurd (List.mem_filterMap.mpr ⟨b, hb', hgb⟩) h.1
      · rw [hc] at hgb; cases hgb
        exact absurd (List.mem_filterMap.mpr ⟨a, ha', hga⟩) h.1
      · exact ih h.2 ha' hb'

namespace ValidElements

variable {l : List EgtElement} (h : ValidElements l)

include h

theorem pawnWord_eq {f : File} {o : PawnOrder} (ho : .pawnGroup f o ∈ l) :
    pawnWord l f = o.val := by
  unfold pawnWord
  obtain ⟨x, hx⟩ : ∃ x, l.findSome? (fun e => match e with
      | .pawnGroup file order => if file = f then some order.val else none
      | .pieceGroup _ _ _ => none) = some x := by
    rw [← Option.isSome_iff_exists, List.findSome?_isSome_iff]
    exact ⟨_, ho, by simp⟩
  rw [hx]
  obtain ⟨e, he, hex⟩ := List.exists_of_findSome?_eq_some hx
  cases e with
  | pieceGroup => cases hex
  | pawnGroup f' o' =>
    simp only at hex
    split at hex
    next hf =>
      subst hf
      cases eq_of_nodup_filterMap h.files ho he rfl rfl
      exact (Option.some.inj hex).symm
    next => cases hex

omit h in
theorem pawnWord_eq_nil {f : File} (ho : ∀ o, .pawnGroup f o ∉ l) : pawnWord l f = [] := by
  unfold pawnWord
  rw [List.findSome?_eq_none_iff.mpr]
  · rfl
  · intro e he
    cases e with
    | pieceGroup => rfl
    | pawnGroup f' o' => exact if_neg (fun hf : f' = f => ho o' (hf ▸ he))

theorem pawnGroup_mem_iff {f : File} {o : PawnOrder} :
    .pawnGroup f o ∈ l ↔ o.val = pawnWord l f ∧ o.val ≠ [] := by
  constructor
  · intro ho
    exact ⟨(h.pawnWord_eq ho).symm, h.sound _ ho⟩
  · rintro ⟨heq, hne⟩
    by_contra hno
    have : ∀ o', .pawnGroup f o' ∉ l := by
      intro o' ho'
      have := h.pawnWord_eq ho'
      rw [← heq] at this
      exact hno ((Subtype.ext this : o = o') ▸ ho')
    rw [pawnWord_eq_nil this] at heq
    exact hne heq

theorem length_pawnWord (f : File) : (pawnWord l f).length ≤ 6 := by
  by_cases ho : ∃ o, .pawnGroup f o ∈ l
  · obtain ⟨o, ho⟩ := ho
    rw [h.pawnWord_eq ho]; exact o.2
  · rw [pawnWord_eq_nil (fun o ho' => ho ⟨o, ho'⟩)]; exact Nat.zero_le _

theorem pieceCount_eq {r : Role} {s : EgtSide} {m : ℕ} (hm : .pieceGroup r s m ∈ l) :
    pieceCount l s r = m := by
  have hk := h.kinds
  clear h
  unfold pieceCount
  induction l with
  | nil => exact absurd hm List.not_mem_nil
  | cons e l ih =>
    have hzero : .pieceGroup r s m ∉ l → (r, s) ∉ l.filterMap EgtElement.kind? →
        (l.filterMap fun e => match e with
          | .pieceGroup r' s' multiplicity =>
            if r' = r ∧ s' = s then some multiplicity else none
          | .pawnGroup _ _ => none) = [] := by
      intro _ hno
      rw [List.filterMap_eq_nil_iff]
      intro e he
      cases e with
      | pawnGroup => rfl
      | pieceGroup r' s' m' =>
        refine if_neg (fun ⟨hr, hs⟩ => hno ?_)
        exact List.mem_filterMap.mpr ⟨_, he, by rw [← hr, ← hs]; rfl⟩
    rcases List.mem_cons.mp hm with rfl | hm'
    · rw [List.filterMap_cons_some (show EgtElement.kind? (.pieceGroup r s m) = some (r, s) from rfl),
        List.nodup_cons] at hk
      have hnot : .pieceGroup r s m ∉ l :=
        fun hmem => hk.1 (List.mem_filterMap.mpr ⟨_, hmem, rfl⟩)
      rw [List.filterMap_cons_some (b := m) (by simp), hzero hnot hk.1]
      simp
    · cases e with
      | pawnGroup f o => exact ih hm' hk
      | pieceGroup r' s' m' =>
        rw [List.filterMap_cons_some
          (show EgtElement.kind? (.pieceGroup r' s' m') = some (r', s') from rfl),
          List.nodup_cons] at hk
        have hne : ¬ (r' = r ∧ s' = s) := by
          rintro ⟨rfl, rfl⟩
          exact hk.1 (List.mem_filterMap.mpr ⟨_, hm', rfl⟩)
        rw [List.filterMap_cons_none (by simp only [if_neg hne])]
        exact ih hm' hk.2

omit h in
theorem pieceCount_eq_zero {r : Role} {s : EgtSide} (hm : ∀ m, .pieceGroup r s m ∉ l) :
    pieceCount l s r = 0 := by
  unfold pieceCount
  rw [List.filterMap_eq_nil_iff.mpr]
  · rfl
  · intro e he
    cases e with
    | pawnGroup => rfl
    | pieceGroup r' s' m' => exact if_neg (fun ⟨hr, hs⟩ => hm m' (by rw [← hr, ← hs]; exact he))

theorem pieceGroup_mem_iff {r : Role} {s : EgtSide} {m : ℕ} :
    .pieceGroup r s m ∈ l ↔ m = pieceCount l s r ∧ m ≠ 0 := by
  constructor
  · intro hm
    exact ⟨(h.pieceCount_eq hm).symm, (h.sound _ hm).2.1⟩
  · rintro ⟨heq, hne⟩
    by_contra hno
    have : ∀ m', .pieceGroup r s m' ∉ l := by
      intro m' hm'
      have := h.pieceCount_eq hm'
      rw [← heq] at this
      exact hno (this ▸ hm')
    rw [pieceCount_eq_zero this] at heq
    exact hne heq

omit h in
/-- The material of a valid element list. -/
def material (h : ValidElements l) : Material where
  words := pawnWord l
  count := pieceCount l
  words_le := h.length_pawnWord
  count_pawn := fun s => pieceCount_eq_zero (fun _ hm => (h.sound _ hm).1 rfl)
  count_king := fun s => by
    obtain ⟨e, he, hes⟩ := List.mem_filterMap.mp (h.kings s)
    cases e with
    | pawnGroup => cases hes
    | pieceGroup r s' m =>
      cases hes
      rw [h.pieceCount_eq he]
      exact (h.sound _ he).2.2 rfl

omit h in
theorem nodup_of_keys (hf : (l.filterMap EgtElement.file?).Nodup)
    (hk : (l.filterMap EgtElement.kind?).Nodup) : l.Nodup := by
  induction l with
  | nil => exact List.nodup_nil
  | cons e l ih =>
    rw [List.nodup_cons]
    cases e with
    | pawnGroup f o =>
      rw [List.filterMap_cons_some (show EgtElement.file? (.pawnGroup f o) = some f from rfl),
        List.nodup_cons] at hf
      exact ⟨fun he => hf.1 (List.mem_filterMap.mpr ⟨_, he, rfl⟩), ih hf.2 hk⟩
    | pieceGroup r s m =>
      rw [List.filterMap_cons_some
        (show EgtElement.kind? (.pieceGroup r s m) = some (r, s) from rfl), List.nodup_cons] at hk
      exact ⟨fun he => hk.1 (List.mem_filterMap.mpr ⟨_, he, rfl⟩), ih hf hk.2⟩

theorem mem_material_elements {e : EgtElement} : e ∈ h.material.elements ↔ e ∈ l := by
  rw [Material.mem_elements]
  constructor
  · rintro (⟨f, o, rfl, ho, hne⟩ | ⟨r, s, m, rfl, hm, hne⟩)
    · exact h.pawnGroup_mem_iff.mpr ⟨ho, hne⟩
    · exact h.pieceGroup_mem_iff.mpr ⟨hm, hne⟩
  · intro he
    cases e with
    | pawnGroup f o =>
      obtain ⟨ho, hne⟩ := h.pawnGroup_mem_iff.mp he
      exact Or.inl ⟨f, o, rfl, ho, hne⟩
    | pieceGroup r s m =>
      obtain ⟨hm, hne⟩ := h.pieceGroup_mem_iff.mp he
      exact Or.inr ⟨r, s, m, rfl, hm, hne⟩

theorem perm_material_elements : l.Perm h.material.elements :=
  (List.perm_ext_iff_of_nodup (nodup_of_keys h.files h.kinds) Material.nodup_elements).mpr
    (fun _ => h.mem_material_elements.symm)

/-- **Sorting** a valid element list gives the normal form of its material. -/
theorem sortElements_eq : sortElements l = h.material.elements := by
  refine List.Perm.eq_of_pairwise' (r := EgtElement.le) ?_ h.material.pairwise_elements ?_
  · exact List.pairwise_insertionSort _ _
  · exact (List.perm_insertionSort _ l).trans h.perm_material_elements

theorem nPieces_material : h.material.nPieces = (l.map EgtElement.multiplicity).sum := by
  rw [← Material.sum_multiplicity_elements]
  exact (h.perm_material_elements.map _).sum_eq.symm

end ValidElements

end ChessEgt
