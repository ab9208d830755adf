import ChessEgt.Routing.Oriented

/-!
# The tables of a material

* `mem_pawnOrderCombinations` — the layouts of two lists of files are all orders of their pawns;
* `TableId.fromElements_layout` — a canonical layout with its pieces is the table of a material;
* `OrientedMaterial.tables_eq` — the enumeration finds exactly the canonical tables of a material
  name that match.
-/

namespace ChessEgt

open EgtSide
open Multichoose (repeated)

/-! ### Lists of files -/

theorem mem_fileCombinations {k : ℕ} {c : List File} :
    c ∈ fileCombinations k ↔ c.length = k ∧ ∃ m, c = repeated m (List.finRange 8) :=
  Multichoose.mem_selections (List.nodup_finRange 8)

/-- The multiplicity of a file. -/
theorem count_repeated (m : File → ℕ) (f : File) : (repeated m (List.finRange 8)).count f = m f := by
  unfold repeated
  rw [List.count_flatMap]
  have hterm : ∀ g : File, (List.count f ∘ fun g => List.replicate (m g) g) g
      = if g = f then m f else 0 := by
    intro g
    rw [Function.comp_apply, List.count_replicate]
    by_cases h : g = f
    · simp [h]
    · simp [h]
  rw [List.map_congr_left (fun g _ => hterm g), ← Fin.sum_univ_def, Finset.sum_ite_eq']
  exact if_pos (Finset.mem_univ f)

theorem Material.files_eq (M : Material) (side : EgtSide) :
    M.files side = repeated (fun f => (M.words f).count side) (List.finRange 8) := rfl

theorem Material.count_files (M : Material) (side : EgtSide) (f : File) :
    (M.files side).count f = (M.words f).count side := count_repeated _ f

/-! ### Layouts -/

/-- The pawn group of a file, if it has pawns. -/
def groupOf (f : File) (order : PawnOrder) : Option EgtElement :=
  if order.val = [] then none else some (.pawnGroup f order)

/-- An order of given numbers of pawns of both sides. -/
def OrderOf (order : PawnOrder) (nStm nSntm : ℕ) : Prop :=
  order.val.count sideToMove = nStm ∧ order.val.count sideNotToMove = nSntm

theorem mem_extendLayouts {layouts : List (List EgtElement)} {f : File} {n m : ℕ} {h : n + m ≤ 6}
    {layout : List EgtElement} : layout ∈ extendLayouts layouts f n m h ↔
      ∃ l ∈ layouts, ∃ order : PawnOrder, OrderOf order n m ∧ layout = l ++ (groupOf f order).toList := by
  unfold extendLayouts
  by_cases hz : n + m = 0
  · rw [if_pos hz]
    constructor
    · intro hl
      refine ⟨layout, hl, ⟨[], Nat.zero_le _⟩, ⟨?_, ?_⟩, by simp [groupOf]⟩
      · show 0 = n
        omega
      · show 0 = m
        omega
    · rintro ⟨l, hl, order, ⟨hn, hm⟩, rfl⟩
      have hlen := count_add_count order.val
      have hnil : order.val = [] := List.length_eq_zero_iff.mp (by omega)
      simpa [groupOf, hnil] using hl
  · rw [if_neg hz, List.mem_flatMap]
    constructor
    · rintro ⟨mask, hmask, hl⟩
      obtain ⟨hrange, hones⟩ := List.mem_filter.mp hmask
      obtain ⟨l, hl', rfl⟩ := List.mem_map.mp hl
      have hsntm := countOnes_eq (List.mem_range.mp hrange)
      have hones : countOnes mask = m := of_decide_eq_true hones
      have hsum := count_add_count ((List.range (n + m)).map (wordSide mask))
      rw [List.length_map, List.length_range] at hsum
      refine ⟨l, hl', ⟨(List.range (n + m)).map (wordSide mask), ?_⟩, ⟨?_, ?_⟩, ?_⟩
      · rw [List.length_map, List.length_range]
        exact h
      · show ((List.range (n + m)).map (wordSide mask)).count sideToMove = n
        omega
      · show ((List.range (n + m)).map (wordSide mask)).count sideNotToMove = m
        omega
      · have hne : (List.range (n + m)).map (wordSide mask) ≠ [] := by
          intro hnil
          rw [List.map_eq_nil_iff, List.range_eq_nil] at hnil
          exact hz hnil
        rw [groupOf, if_neg hne]
        rfl
    · rintro ⟨l, hl, order, ⟨hn, hm⟩, rfl⟩
      have hlen : order.val.length = n + m := by rw [← count_add_count, hn, hm]
      obtain ⟨mask, hmask, hmap⟩ := exists_word order.val
      have hones : countOnes mask = m := by rw [countOnes_eq hmask, hmap, hm]
      rw [hlen] at hmask hmap
      have hne : order.val ≠ [] := by
        intro hnil
        rw [hnil, List.length_nil] at hlen
        omega
      refine ⟨mask, List.mem_filter.mpr ⟨List.mem_range.mpr hmask, decide_eq_true hones⟩,
        List.mem_map.mpr ⟨l, hl, ?_⟩⟩
      have horder : order = ⟨(List.range (n + m)).map (wordSide mask),
          by rw [List.length_map, List.length_range]; exact h⟩ := Subtype.ext hmap.symm
      rw [groupOf, if_neg hne]
      conv_rhs => rw [horder]
      rfl

/-- **The layouts** of two lists of files are all orders of their pawns. -/
theorem mem_pawnOrderCombinations {a b : List File} {layout : List EgtElement} :
    layout ∈ pawnOrderCombinations a b ↔ ∃ w : File → PawnOrder,
      (∀ f, OrderOf (w f) (a.count f) (b.count f)) ∧
        layout = (List.finRange 8).filterMap fun f => groupOf f (w f) := by
  have hfold : ∀ (h : ∀ f, a.count f + b.count f ≤ 6) (fs : List File), fs.Nodup →
      ∀ layouts : List (List EgtElement), layout ∈ fs.foldl (fun layouts f =>
        extendLayouts layouts f (a.count f) (b.count f) (h f)) layouts ↔
      ∃ l ∈ layouts, ∃ w : File → PawnOrder, (∀ f ∈ fs, OrderOf (w f) (a.count f) (b.count f)) ∧
        layout = l ++ fs.filterMap fun f => groupOf f (w f) := by
    intro h fs
    induction fs with
    | nil =>
      intro _ layouts
      constructor
      · intro hl
        exact ⟨layout, hl, fun _ => ⟨[], Nat.zero_le _⟩, by simp, by simp⟩
      · rintro ⟨l, hl, w, -, rfl⟩
        simpa using hl
    | cons f fs ih =>
      intro hnd layouts
      obtain ⟨hf, hnd⟩ := List.nodup_cons.mp hnd
      have hcons : ∀ w : File → PawnOrder, (f :: fs).filterMap (fun f => groupOf f (w f))
          = (groupOf f (w f)).toList ++ fs.filterMap fun f => groupOf f (w f) := by
        intro w
        cases hg : groupOf f (w f) <;> simp [hg]
      rw [List.foldl_cons, ih hnd]
      simp only [mem_extendLayouts]
      constructor
      · rintro ⟨_, ⟨l, hl, order, horder, rfl⟩, w, hw, rfl⟩
        refine ⟨l, hl, Function.update w f order, fun g hg => ?_, ?_⟩
        · rcases List.mem_cons.mp hg with rfl | hg
          · rw [Function.update_self]
            exact horder
          · rw [Function.update_of_ne fun he : g = f => hf (he ▸ hg)]
            exact hw g hg
        · rw [hcons, Function.update_self, List.append_assoc]
          congr 2
          refine List.filterMap_congr fun g hg => ?_
          rw [Function.update_of_ne fun he : g = f => hf (he ▸ hg)]
      · rintro ⟨l, hl, w, hw, rfl⟩
        refine ⟨_, ⟨l, hl, w f, hw f List.mem_cons_self, rfl⟩, w,
          fun g hg => hw g (List.mem_cons_of_mem _ hg), ?_⟩
        rw [hcons, List.append_assoc]
  unfold pawnOrderCombinations
  by_cases h : ∀ f, a.count f + b.count f ≤ 6
  · rw [dif_pos h, hfold h _ (List.nodup_finRange 8)]
    simp
  · rw [dif_neg h]
    refine ⟨fun hl => absurd hl List.not_mem_nil, ?_⟩
    rintro ⟨w, hw, -⟩
    -- A file of an order holds at most six pawns.
    refine absurd (fun f => ?_) h
    obtain ⟨hn, hm⟩ := hw f
    rw [← hn, ← hm, count_add_count]
    exact (w f).2

/-! ### The table of a layout -/

theorem ValidElements.of_perm {l l' : List EgtElement} (h : ValidElements l') (hp : l.Perm l') :
    ValidElements l where
  sound e he := h.sound e (hp.mem_iff.mp he)
  files := (hp.filterMap _).nodup_iff.mpr h.files
  kinds := (hp.filterMap _).nodup_iff.mpr h.kinds
  total := by
    rw [(hp.map EgtElement.multiplicity).sum_eq]
    exact h.total
  kings side := (hp.filterMap _).mem_iff.mpr (h.kings side)

theorem ValidElements.material_of_perm {M : Material} {l : List EgtElement} (h : ValidElements l)
    (hM : M.nPieces ≤ maxPieces) (hp : l.Perm M.elements) : h.material = M := by
  have helements : h.material.elements = M.elements :=
    List.Perm.eq_of_pairwise' (r := EgtElement.le) h.material.pairwise_elements M.pairwise_elements
      (h.perm_material_elements.symm.trans hp)
  have hM' : h.material.nPieces ≤ maxPieces := by rw [h.nPieces_material]; exact h.total
  refine Material.name_injective hM' hM ?_
  have hname := computeTablename_eq (h.material.validElements hM')
  have hname' := computeTablename_eq (M.validElements hM)
  rw [Material.material_validElements] at hname hname'
  rw [helements] at hname
  exact Except.ok.inj (hname.symm.trans hname')

/-- Elements of a canonical material, in any order, are its table. -/
theorem TableId.fromElements_of_perm {M : Material} {l : List EgtElement}
    (hM : M.nPieces ≤ maxPieces) (hc : M.Canonical) (hp : l.Perm M.elements) :
    TableId.fromElements l = .ok ⟨M.name⟩ := by
  have hvl := (M.validElements hM).of_perm hp
  have hmat := hvl.material_of_perm hM hp
  unfold TableId.fromElements
  rw [validateElements_eq_ok.mpr hvl, hvl.fromElements_eq, hmat, PawnKey.canonicalized_ofOrders hM,
    computeTablename_eq hvl, hmat]
  simp only [Run.ok_bind, decide_eq_false (not_not.mpr hc)]
  rfl

namespace OrientedMaterial

variable {roles : EgtSide → Role → ℕ}

theorem mem_pieceGroups {c : Role → ℕ} {side : EgtSide} {e : EgtElement} :
    e ∈ pieceGroups c side ↔ ∃ r, e = .pieceGroup r side (c r) ∧ r ≠ .pawn ∧ c r ≠ 0 := by
  unfold pieceGroups
  simp only [List.mem_map, List.mem_filter, List.mem_reverse, Role.mem_all, true_and,
    decide_eq_true_eq]
  constructor
  · rintro ⟨r, hr, rfl⟩
    exact ⟨r, rfl, hr⟩
  · rintro ⟨r, rfl, hr⟩
    exact ⟨r, hr, rfl⟩

theorem nodup_pieceGroups (c : Role → ℕ) (side : EgtSide) : (pieceGroups c side).Nodup := by
  refine (List.Nodup.filter _ (by decide)).map fun r r' h => ?_
  exact (EgtElement.pieceGroup.inj h).1

/-- The pieces of a material name are those of its materials. -/
theorem perm_pieceElements {M : Material} (h : M.roles = roles) :
    (ofRoles roles).pieces.Perm M.pieceElements := by
  have hcount : ∀ side r, r ≠ .pawn → roles side r = M.count side r := by
    intro side r hr
    rw [← h]
    exact if_neg hr
  refine (List.perm_ext_iff_of_nodup ?_ ?_).mpr fun e => ?_
  · refine List.nodup_append.mpr ⟨nodup_pieceGroups _ _, nodup_pieceGroups _ _, ?_⟩
    intro a ha b hb hab
    obtain ⟨r, rfl, -⟩ := mem_pieceGroups.mp ha
    obtain ⟨r', rfl, -⟩ := mem_pieceGroups.mp hb
    cases hab
  · exact (List.nodup_append.mp M.nodup_elements).2.1
  · show e ∈ pieceGroups (roles sideToMove) sideToMove ++
      pieceGroups (roles sideNotToMove) sideNotToMove ↔ _
    rw [List.mem_append, mem_pieceGroups, mem_pieceGroups, Material.mem_pieceElements]
    constructor
    · rintro (⟨r, rfl, hr, hne⟩ | ⟨r, rfl, hr, hne⟩)
      · exact ⟨r, _, _, rfl, hcount _ r hr, hne⟩
      · exact ⟨r, _, _, rfl, hcount _ r hr, hne⟩
    · rintro ⟨r, s, m, rfl, rfl, hne⟩
      have hr : r ≠ .pawn := fun hr => hne (hr ▸ M.count_pawn s)
      rw [← hcount s r hr] at hne ⊢
      cases s with
      | sideToMove => exact Or.inl ⟨r, rfl, hr, hne⟩
      | sideNotToMove => exact Or.inr ⟨r, rfl, hr, hne⟩

/-- The material of a layout. -/
def Roles.material (h : Roles roles) (w : File → PawnOrder) : Material where
  words f := (w f).val
  count s r := if r = .pawn then 0 else roles s r
  words_le f := (w f).2
  count_pawn _ := rfl
  count_king s := h.king s

theorem Roles.roles_material (h : Roles roles) {w : File → PawnOrder} {a b : List File}
    (ha : a ∈ fileCombinations (roles sideToMove .pawn))
    (hb : b ∈ fileCombinations (roles sideNotToMove .pawn))
    (hw : ∀ f, OrderOf (w f) (a.count f) (b.count f)) :
    (h.material w).files sideToMove = a ∧ (h.material w).files sideNotToMove = b ∧
      (h.material w).roles = roles := by
  obtain ⟨hlena, m, rfl⟩ := mem_fileCombinations.mp ha
  obtain ⟨hlenb, n, rfl⟩ := mem_fileCombinations.mp hb
  have hfa : (h.material w).files sideToMove = repeated m (List.finRange 8) :=
    Multichoose.repeated_congr fun f _ => (hw f).1.trans (count_repeated m f)
  have hfb : (h.material w).files sideNotToMove = repeated n (List.finRange 8) :=
    Multichoose.repeated_congr fun f _ => (hw f).2.trans (count_repeated n f)
  refine ⟨hfa, hfb, ?_⟩
  funext side r
  unfold Material.roles
  by_cases hr : r = .pawn
  · rw [if_pos hr, hr]
    cases side with
    | sideToMove => rw [hfa, hlena]
    | sideNotToMove => rw [hfb, hlenb]
  · rw [if_neg hr]
    exact if_neg hr

end OrientedMaterial

/-! ### Matching -/

/-- The directories of the table of a material. -/
def Material.directory (M : Material) : TableId.Directory :=
  ⟨M.nPieces, (max (sideCount (M.roles sideToMove)) (sideCount (M.roles sideNotToMove)),
    min (sideCount (M.roles sideToMove)) (sideCount (M.roles sideNotToMove))), M.opposing, M.nPawns⟩

/-- Whether the given components are those of a directory. -/
def SelectorPrefix.selects (self : SelectorPrefix) (d : TableId.Directory) : Bool :=
  self.n.all (· = d.nPieces) && self.split.all (· = d.split) &&
    self.opposing.all (· = d.opposingPairs) && self.pawns.all (· = d.nPawns)

theorem SelectorPrefix.matchesTable_name (pre : SelectorPrefix) (M : Material) :
    pre.matchesTable ⟨M.name⟩ = .ok (pre.selects M.directory) := by
  unfold matchesTable
  rw [M.sidePieceCounts_name, Run.ok_bind]
  simp only
  rw [M.opposingPairs_name, Run.ok_bind, M.nPieces_name, M.nPawns_name]
  rfl

/-- The filter of material names keeps the materials of matching tables. -/
theorem SelectorPrefix.matchesMaterial_of {pre : SelectorPrefix} {M : Material}
    (h : pre.selects M.directory = true) :
    pre.matchesMaterial (OrientedMaterial.ofRoles M.roles) = true := by
  unfold selects at h
  simp only [Bool.and_eq_true] at h
  obtain ⟨⟨⟨hn, hsplit⟩, hop⟩, hpawns⟩ := h
  unfold matchesMaterial
  simp only [Bool.and_eq_true]
  refine ⟨⟨⟨?_, hsplit⟩, ?_⟩, ?_⟩
  · rw [show M.directory.nPieces = M.nPieces from rfl, M.nPieces_eq_sideCounts] at hn
    exact hn
  · rw [show M.directory.nPawns = M.nPawns from rfl, M.nPawns_eq_roles] at hpawns
    exact hpawns
  · cases hpre : pre.opposing with
    | none => rfl
    | some k =>
      rw [hpre] at hop
      have hk : k = M.opposing := of_decide_eq_true hop
      have h₁ := M.opposing_le sideToMove
      have h₂ := M.opposing_le sideNotToMove
      refine decide_eq_true ?_
      show k ≤ min (M.roles sideToMove .pawn) (M.roles sideNotToMove .pawn)
      rw [hk]
      exact le_min h₁ h₂

/-! ### The enumeration -/

/-- A list of runs that all return, and what they return. -/
theorem Run.mapM_mem {α β : Type} {f : α → Run β} {l : List α} (h : ∀ a ∈ l, ∃ b, f a = .ok b) :
    ∃ bs, l.mapM f = .ok bs ∧ ∀ b, b ∈ bs ↔ ∃ a ∈ l, f a = .ok b := by
  induction l with
  | nil => exact ⟨[], rfl, fun b => by simp⟩
  | cons a l ih =>
    obtain ⟨b, hb⟩ := h a List.mem_cons_self
    obtain ⟨bs, hbs, hmem⟩ := ih fun a ha => h a (List.mem_cons_of_mem _ ha)
    refine ⟨b :: bs, by rw [List.mapM_cons, hb, Run.ok_bind, hbs]; rfl, fun c => ?_⟩
    simp only [List.mem_cons, hmem, exists_eq_or_imp]
    rw [hb, Except.ok.injEq, eq_comm]

namespace OrientedMaterial

variable {roles : EgtSide → Role → ℕ}

/-- The layouts of two lists of files that are not skipped. -/
def layouts (self : OrientedMaterial) : List (List EgtElement) :=
  (fileCombinations self.stmPawns).flatMap fun a =>
    ((fileCombinations self.sntmPawns).filter fun b => isCanonical a b).flatMap fun b =>
      pawnOrderCombinations a b

theorem isCanonical_files {M : Material} (hc : M.Canonical) :
    isCanonical (M.files sideToMove) (M.files sideNotToMove) = true := by
  refine decide_eq_true fun hgt => hc ?_
  unfold Material.orientation
  rw [hgt]
  rfl

/-- The layouts are those of materials. -/
theorem exists_of_mem_layouts (h : Roles roles) {layout : List EgtElement}
    (hl : layout ∈ (ofRoles roles).layouts) :
    ∃ M : Material, M.roles = roles ∧ layout = M.pawnElements := by
  unfold layouts at hl
  obtain ⟨a, ha, hl⟩ := List.mem_flatMap.mp hl
  obtain ⟨b, hb, hl⟩ := List.mem_flatMap.mp hl
  obtain ⟨w, hw, rfl⟩ := mem_pawnOrderCombinations.mp hl
  obtain ⟨-, -, hroles⟩ := h.roles_material ha (List.mem_filter.mp hb).1 hw
  exact ⟨h.material w, hroles, rfl⟩

/-- The layouts of canonical materials are not skipped. -/
theorem mem_layouts {M : Material} (hc : M.Canonical) (hM : M.roles = roles) :
    M.pawnElements ∈ (ofRoles roles).layouts := by
  subst hM
  have hfiles : ∀ side, M.files side ∈ fileCombinations (M.roles side .pawn) :=
    fun side => mem_fileCombinations.mpr ⟨rfl, _, M.files_eq side⟩
  refine List.mem_flatMap.mpr ⟨M.files sideToMove, hfiles sideToMove,
    List.mem_flatMap.mpr ⟨M.files sideNotToMove, ?_, ?_⟩⟩
  · exact List.mem_filter.mpr ⟨hfiles sideNotToMove, isCanonical_files hc⟩
  · refine mem_pawnOrderCombinations.mpr ⟨fun f => ⟨M.words f, M.words_le f⟩, fun f => ?_, rfl⟩
    rw [M.count_files, M.count_files]
    exact ⟨rfl, rfl⟩

theorem Roles.nPieces_le (h : Roles roles) {M : Material} (hM : M.roles = roles) :
    M.nPieces ≤ maxPieces := by
  rw [M.nPieces_eq_sideCounts, hM]
  exact h.total

/-- The table of a layout is that of its material. -/
theorem tableOf_pawnElements (h : Roles roles) (pre : SelectorPrefix) {M : Material}
    (hM : M.roles = roles) : (ofRoles roles).tableOf pre M.pawnElements
      = .ok (if M.Canonical ∧ pre.selects M.directory = true then some ⟨M.name⟩ else none) := by
  have hle := h.nPieces_le hM
  unfold tableOf
  rw [PawnKey.fromElements_pawnElements, PawnKey.canonicalized_ofOrders hle, Run.ok_bind]
  simp only
  by_cases hc : M.Canonical
  · have hperm : (M.pawnElements ++ (ofRoles roles).pieces).Perm M.elements :=
      (perm_pieceElements hM).append_left _
    rw [if_neg (by simpa using hc), TableId.fromElements_of_perm hle hc hperm, Run.ok_bind,
      pre.matchesTable_name, Run.ok_bind]
    simp only [hc, true_and]
    rfl
  · rw [if_pos (by simpa using hc), if_neg fun hcs => hc hcs.1]
    rfl

/-- **The enumeration** of a material finds exactly its canonical tables that match. -/
theorem tables_eq (h : Roles roles) (pre : SelectorPrefix) :
    ∃ ts, (ofRoles roles).tables pre = .ok ts ∧ ∀ id, id ∈ ts ↔ ∃ M : Material,
      M.Canonical ∧ M.roles = roles ∧ pre.selects M.directory = true ∧ id = ⟨M.name⟩ := by
  unfold tables
  cases hmat : pre.matchesMaterial (ofRoles roles) with
  | false =>
    refine ⟨[], rfl, fun id => ⟨fun hid => absurd hid List.not_mem_nil, ?_⟩⟩
    rintro ⟨M, -, rfl, hsel, -⟩
    rw [SelectorPrefix.matchesMaterial_of hsel] at hmat
    cases hmat
  | true =>
    have hlayouts : ∀ layout ∈ (ofRoles roles).layouts, ∃ M : Material, M.roles = roles ∧
        layout = M.pawnElements := fun layout hl => exists_of_mem_layouts h hl
    obtain ⟨found, hfound, hmem⟩ := Run.mapM_mem (f := (ofRoles roles).tableOf pre)
      (l := (ofRoles roles).layouts) fun layout hl => by
        obtain ⟨M, hM, rfl⟩ := hlayouts layout hl
        exact ⟨_, tableOf_pawnElements h pre hM⟩
    refine ⟨found.reduceOption, ?_, fun id => ?_⟩
    · show (do
        let found ← (ofRoles roles).layouts.mapM ((ofRoles roles).tableOf pre)
        pure found.reduceOption) = _
      rw [hfound]
      rfl
    · rw [List.reduceOption_mem_iff, hmem]
      constructor
      · rintro ⟨layout, hl, hok⟩
        obtain ⟨M, hM, rfl⟩ := hlayouts layout hl
        rw [tableOf_pawnElements h pre hM, Except.ok.injEq] at hok
        by_cases hcs : M.Canonical ∧ pre.selects M.directory = true
        · rw [if_pos hcs, Option.some.injEq] at hok
          exact ⟨M, hcs.1, hM, hcs.2, hok.symm⟩
        · rw [if_neg hcs] at hok
          cases hok
      · rintro ⟨M, hc, hM, hsel, rfl⟩
        refine ⟨M.pawnElements, mem_layouts hc hM, ?_⟩
        rw [tableOf_pawnElements h pre hM, if_pos ⟨hc, hsel⟩]

end OrientedMaterial

end ChessEgt
