import ChessEgt.TableId

/-!
# Pawn color words as lists of sides

* `testBit_fileWord`, `fileWord_injective` — a color word determines the order of its file;
* `PawnKey.ofOrders` — the key of the orders of the eight files;
* `fromElements_eq`, `fromPosition_eq`, `reflected_ofOrders`, `twin_ofOrders` — every key of the
  program is one of these.
-/

namespace ChessEgt

/-! ### Bits of a word -/

theorem testBit_foldl_zipIdx {α : Type} (P : α → Prop) [DecidablePred P] (l : List α) (k b i : ℕ) :
    ((l.zipIdx k).foldl (fun word x => if P x.1 then word ||| 1 <<< x.2 else word) b).testBit i
      = (b.testBit i || (decide (k ≤ i) && (l[i - k]?).any (fun a => decide (P a)))) := by
  induction l generalizing k b with
  | nil => simp
  | cons a l ih =>
    rw [List.zipIdx_cons, List.foldl_cons, ih]
    have hbit : (if P a then b ||| 1 <<< k else b).testBit i
        = (b.testBit i || (decide (k = i) && decide (P a))) := by
      by_cases h : P a
      · simp [h, Nat.one_shiftLeft, Nat.testBit_two_pow]
      · simp [h]
    rw [hbit, Bool.or_assoc]
    congr 1
    rcases Nat.lt_trichotomy i k with h | rfl | h
    · simp [show ¬ k = i by omega, show ¬ k ≤ i by omega, show ¬ k + 1 ≤ i by omega]
    · simp
    · rw [show i - k = (i - (k + 1)) + 1 by omega, List.getElem?_cons_succ]
      simp [show ¬ k = i by omega, show k ≤ i by omega, show k + 1 ≤ i by omega]

/-- The bits of the pawns, below the leading one. -/
theorem testBit_fileWord (order : List EgtSide) (i : ℕ) : (fileWord order).testBit i
    = (decide (order.length = i) || decide (order[i]? = some .sideNotToMove)) := by
  rw [fileWord, testBit_foldl_zipIdx (fun s => s = EgtSide.sideNotToMove), Nat.one_shiftLeft,
    Nat.testBit_two_pow]
  congr 1
  simp only [Nat.zero_le, decide_true, Bool.true_and, Nat.sub_zero]
  cases order[i]? <;> simp

theorem fileWord_lt (order : List EgtSide) : fileWord order < 2 ^ (order.length + 1) := by
  refine Nat.lt_pow_two_of_testBit _ (fun i hi => ?_)
  rw [testBit_fileWord, List.getElem?_eq_none (by omega)]
  simp; omega

theorem le_fileWord (order : List EgtSide) : 2 ^ order.length ≤ fileWord order :=
  Nat.ge_two_pow_of_testBit (by rw [testBit_fileWord]; simp)

@[simp] theorem log2_fileWord (order : List EgtSide) : (fileWord order).log2 = order.length := by
  have hle := le_fileWord order
  have hpos : 0 < 2 ^ order.length := Nat.pow_pos (by omega)
  exact (Nat.log2_eq_iff (by omega)).mpr ⟨hle, fileWord_lt order⟩

theorem and_shiftLeft_eq_zero (word i : ℕ) : word &&& 1 <<< i = 0 ↔ word.testBit i = false := by
  rw [Nat.one_shiftLeft, Nat.and_two_pow]
  have : 0 < 2 ^ i := Nat.pow_pos (by omega)
  cases word.testBit i <;> simp

theorem wordSide_fileWord {order : List EgtSide} {i : ℕ} {s : EgtSide} (h : order[i]? = some s) :
    wordSide (fileWord order) i = s := by
  have hi := (List.getElem?_eq_some_iff.mp h).1
  unfold wordSide
  simp only [and_shiftLeft_eq_zero, testBit_fileWord, h]
  cases s <;> simp; omega

theorem map_wordSide (order : List EgtSide) :
    (List.range order.length).map (wordSide (fileWord order)) = order := by
  refine List.ext_getElem? (fun i => ?_)
  rw [List.getElem?_map]
  by_cases h : i < order.length
  · rw [List.getElem?_range h, List.getElem?_eq_getElem h, Option.map_some,
      wordSide_fileWord (List.getElem?_eq_getElem h)]
  · rw [List.getElem?_eq_none (by rw [List.length_range]; omega), List.getElem?_eq_none (by omega)]
    rfl

theorem fileWord_injective : Function.Injective fileWord := by
  intro a b h
  have hlen := log2_fileWord a
  rw [h, log2_fileWord] at hlen
  rw [← map_wordSide a, ← map_wordSide b, h, hlen]

@[simp] theorem fileWord_nil : fileWord [] = 1 := rfl

/-! ### Orders seen from the other side -/

/-- The order of a file seen from the other side. -/
def flipOrder (order : List EgtSide) : List EgtSide := (order.map EgtSide.reverse).reverse

@[simp] theorem length_flipOrder (order : List EgtSide) :
    (flipOrder order).length = order.length := by
  simp [flipOrder]

@[simp] theorem flipOrder_flipOrder (order : List EgtSide) : flipOrder (flipOrder order) = order := by
  simp [flipOrder, List.map_reverse, Function.comp_def]

@[simp] theorem flipOrder_eq_nil {order : List EgtSide} : flipOrder order = [] ↔ order = [] := by
  simp [flipOrder]

theorem count_flipOrder (s : EgtSide) (order : List EgtSide) :
    (flipOrder order).count s = order.count s.reverse := by
  rw [flipOrder, List.count_reverse]
  induction order with
  | nil => rfl
  | cons a l ih =>
    rw [List.map_cons, List.count_cons, List.count_cons, ih]
    cases a <;> cases s <;> rfl

theorem testBit_foldl_range (P : ℕ → Prop) [DecidablePred P] (n b i : ℕ) :
    ((List.range n).foldl (fun target j => if P j then target ||| 1 <<< (n - 1 - j) else target)
      b).testBit i = (b.testBit i || (decide (i < n) && decide (P (n - 1 - i)))) := by
  suffices h : ∀ m ≤ n, ((List.range m).foldl
      (fun target j => if P j then target ||| 1 <<< (n - 1 - j) else target) b).testBit i
      = (b.testBit i || (decide (i < n ∧ n - 1 - i < m) && decide (P (n - 1 - i)))) by
    rw [h n le_rfl]
    congr 2
    rw [decide_eq_decide]; omega
  intro m hm
  induction m with
  | zero => simp
  | succ m ih =>
    rw [List.range_succ, List.foldl_append, List.foldl_cons, List.foldl_nil]
    have ih := ih (by omega)
    by_cases hP : P m
    · rw [if_pos hP, Nat.testBit_or, ih, Nat.one_shiftLeft, Nat.testBit_two_pow, Bool.or_assoc]
      congr 1
      by_cases hi : n - 1 - m = i
      · have : n - 1 - i = m := by omega
        simp [hi, this, hP, show i < n by omega]
      · have : (n - 1 - i < m + 1 ↔ n - 1 - i < m) ∨ ¬ i < n := by omega
        rcases this with h | h <;> simp [hi, h]
    · rw [if_neg hP, ih]
      congr 1
      by_cases hi : n - 1 - i = m
      · simp [hi, hP]
      · have : n - 1 - i < m + 1 ↔ n - 1 - i < m := by omega
        simp [this]

theorem twinWord_fileWord (order : List EgtSide) :
    PawnKey.twinWord (fileWord order) = fileWord (flipOrder order) := by
  refine Nat.eq_of_testBit_eq (fun i => ?_)
  unfold PawnKey.twinWord
  rw [log2_fileWord, testBit_foldl_range (fun j => fileWord order &&& 1 <<< j = 0),
    testBit_fileWord, length_flipOrder, Nat.one_shiftLeft, Nat.testBit_two_pow]
  congr 1
  by_cases hi : i < order.length
  · have hj : order.length - 1 - i < order.length := by omega
    have hget : (flipOrder order)[i]? = some (order[order.length - 1 - i]).reverse := by
      rw [flipOrder, List.getElem?_reverse (by rw [List.length_map]; exact hi), List.length_map,
        List.getElem?_map, List.getElem?_eq_getElem hj]
      rfl
    rw [hget, decide_eq_true hi, Bool.true_and, decide_eq_decide, and_shiftLeft_eq_zero,
      testBit_fileWord, List.getElem?_eq_getElem hj]
    cases order[order.length - 1 - i] <;> simp [EgtSide.reverse]; omega
  · rw [List.getElem?_eq_none (by rw [length_flipOrder]; omega)]
    simp [hi]

/-! ### Keys of orders -/

namespace PawnKey

/-- The key of the pawn orders of the files. -/
def ofOrders (w : File → List EgtSide) : PawnKey := ⟨fun f => fileWord (w f)⟩

theorem ofOrders_injective : Function.Injective ofOrders := by
  intro w w' h
  funext f
  exact fileWord_injective (congrFun (congrArg PawnKey.files h) f)

@[simp] theorem reflected_ofOrders (w : File → List EgtSide) :
    (ofOrders w).reflected = ofOrders fun f => w f.rev := rfl

@[simp] theorem twin_ofOrders (w : File → List EgtSide) :
    (ofOrders w).twin = ofOrders fun f => flipOrder (w f) := by
  ext f
  exact twinWord_fileWord (w f)

theorem isSymmetric_ofOrders (w : File → List EgtSide) :
    (ofOrders w).isSymmetric = true ↔ ∀ f, w f.rev = w f := by
  unfold isSymmetric
  rw [decide_eq_true_eq, reflected_ofOrders, ofOrders_injective.eq_iff]
  exact ⟨fun h f => (congrFun h f).symm, fun h => funext fun f => (h f).symm⟩

/-- The files of the pawns of a side, file by file. -/
theorem pawnFiles_ofOrders (w : File → List EgtSide) (side : EgtSide) :
    (ofOrders w).pawnFiles side
      = (List.finRange 8).flatMap fun f => List.replicate ((w f).count side) f := by
  unfold pawnFiles
  refine List.flatMap_congr (fun f _ => ?_)
  show (((List.range (fileWord (w f)).log2).filter _).map _) = _
  rw [log2_fileWord, List.map_const', ← List.countP_eq_length_filter]
  congr 1
  conv_rhs => rw [← map_wordSide (w f), List.count_eq_countP, List.countP_map]
  refine List.countP_congr (fun i _ => ?_)
  simp only [ofOrders, beq_iff_eq, Function.comp_apply]
  exact decide_eq_true_iff

/-- The color words of pawn groups. -/
theorem foldl_pawnGroups (M : Material) {l : List File} {files : File → ℕ}
    (h₁ : ∀ f ∈ l, files f = 1) (hnd : l.Nodup) :
    (l.filterMap fun f => if M.words f = [] then none
      else some (EgtElement.pawnGroup f ⟨M.words f, M.words_le f⟩)).foldl
      (fun files e => match e with
        | .pawnGroup file order => Function.update files file (fileWord order.val)
        | .pieceGroup _ _ _ => files) files
      = fun f => if f ∈ l then fileWord (M.words f) else files f := by
  induction l generalizing files with
  | nil => simp
  | cons g l ih =>
    rw [List.nodup_cons] at hnd
    by_cases hg : M.words g = []
    · rw [List.filterMap_cons_none (by simp [hg]),
        ih (fun f hf => h₁ f (List.mem_cons_of_mem _ hf)) hnd.2]
      funext f
      by_cases hfg : f = g
      · subst hfg
        simp [hg, h₁ f List.mem_cons_self]
      · simp [hfg]
    · rw [List.filterMap_cons_some (by rw [if_neg hg]), List.foldl_cons]
      simp only
      rw [ih (fun f hf => ?_) hnd.2]
      · funext f
        by_cases hfg : f = g
        · subst hfg
          simp [hnd.1]
        · simp [hfg]
      · rw [Function.update_of_ne (fun he : f = g => hnd.1 (he ▸ hf)),
          h₁ f (List.mem_cons_of_mem _ hf)]

/-- The words of the pawn groups of a material. -/
theorem fromElements_pawnElements (M : Material) :
    fromElements M.pawnElements = ofOrders M.words := by
  unfold fromElements ofOrders
  rw [PawnKey.mk.injEq, Material.pawnElements]
  refine (foldl_pawnGroups M (fun _ _ => rfl) (List.nodup_finRange 8)).trans ?_
  simp

/-- Other groups have no color words. -/
theorem foldl_pieceGroups {l : List EgtElement} {files : File → ℕ}
    (h : ∀ e ∈ l, e.file? = none) :
    l.foldl (fun files e => match e with
      | .pawnGroup file order => Function.update files file (fileWord order.val)
      | .pieceGroup _ _ _ => files) files = files := by
  induction l with
  | nil => rfl
  | cons e l ih =>
    rw [List.foldl_cons]
    cases e with
    | pawnGroup => exact absurd (h _ List.mem_cons_self) (by simp [EgtElement.file?])
    | pieceGroup => exact ih (fun e hm => h e (List.mem_cons_of_mem _ hm))

theorem fromElements_eq (M : Material) : fromElements M.elements = ofOrders M.words := by
  rw [← fromElements_pawnElements]
  unfold fromElements
  rw [PawnKey.mk.injEq, Material.elements, List.foldl_append]
  refine foldl_pieceGroups (l := M.pieceElements) ?_
  intro e he
  obtain ⟨r, s, m, rfl, -⟩ := Material.mem_pieceElements.mp he
  rfl

/-- The pawn groups of a key are those of its orders. -/
theorem elements_ofOrders {M : Material} :
    (ofOrders M.words).elements = .ok M.pawnElements := by
  unfold elements
  have hfilter : ∀ l : List File, (l.filter fun f => ((ofOrders M.words).files f).log2 ≠ 0).map
      (fun f => EgtElement.pawnGroup f ⟨M.words f, M.words_le f⟩)
      = l.filterMap fun f => if M.words f = [] then none
        else some (.pawnGroup f ⟨M.words f, M.words_le f⟩) := by
    intro l
    induction l with
    | nil => rfl
    | cons f l ih =>
      have hlog : ((ofOrders M.words).files f).log2 = (M.words f).length := log2_fileWord _
      by_cases hf : M.words f = []
      · rw [List.filter_cons_of_neg (by rw [hlog, hf]; simp), ih,
          List.filterMap_cons_none (by rw [if_pos hf])]
      · rw [List.filter_cons_of_pos (by rw [hlog]; simpa using hf), List.map_cons, ih,
          List.filterMap_cons_some (by rw [if_neg hf])]
  rw [Run.mapM_eq_ok (g := fun f => .pawnGroup f ⟨M.words f, M.words_le f⟩), hfilter]
  · rfl
  · intro f _
    have horder : (List.range ((ofOrders M.words).files f).log2).map
        (wordSide ((ofOrders M.words).files f)) = M.words f := by
      show (List.range (fileWord (M.words f)).log2).map (wordSide (fileWord (M.words f))) = _
      rw [log2_fileWord, map_wordSide]
    simp only [horder]
    exact dif_pos (M.words_le f)

end PawnKey

/-! ### The orders of a position -/

/-- The squares of the pawns of a file, in ascending normalized rank. -/
def pawnsOn (position : Chess) (file : File) : List Square :=
  let pawns := (position.board.pawns.inter (Bitboard.fromFile file)).toList
  if position.turn = .black then pawns.reverse else pawns

/-- The side of the piece on a square. -/
def sideAt (position : Chess) (s : Square) : EgtSide :=
  if position.board.byColor position.turn.other s then .sideNotToMove else .sideToMove

/-- The pawn order of a file of a position. -/
def positionOrder (position : Chess) (file : File) : List EgtSide :=
  (pawnsOn position file).map (sideAt position)

theorem PawnKey.fromPosition_eq (position : Chess) :
    PawnKey.fromPosition position = PawnKey.ofOrders (positionOrder position) := by
  ext f
  show PawnKey.positionWord position f = fileWord (positionOrder position f)
  refine Nat.eq_of_testBit_eq (fun i => ?_)
  rw [testBit_fileWord]
  unfold PawnKey.positionWord
  simp only
  rw [testBit_foldl_zipIdx
    (fun s => position.board.byColor position.turn.other s = true), Nat.one_shiftLeft,
    Nat.testBit_two_pow]
  have hlen : (pawnsOn position f).length = (positionOrder position f).length := by
    rw [positionOrder, List.length_map]
  have hget : (positionOrder position f)[i]? = ((pawnsOn position f)[i]?).map (sideAt position) := by
    rw [positionOrder, List.getElem?_map]
  rw [← hlen, hget]
  congr 1
  simp only [Nat.zero_le, decide_true, Bool.true_and, Nat.sub_zero]
  show (pawnsOn position f)[i]?.any _ = _
  cases (pawnsOn position f)[i]? with
  | none => simp
  | some s =>
    simp only [Option.any_some, Option.map_some, Option.some.injEq, sideAt]
    cases position.board.byColor position.turn.other s <;> simp

end ChessEgt
