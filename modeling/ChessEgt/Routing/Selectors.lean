import ChessEgt.Routing.Hierarchy
import ChessEgt.Routing.Order

/-!
# The tables of selectors

* `exists_material` — every material name, with any possible number of opposing pairs, has a
  canonical table;
* `TableSelector.candidates_eq` — the candidates are the canonical tables that a selector stands
  for;
* `selectors_exact` — selectors resolve to exactly these, in order and without repetitions.
-/

namespace ChessEgt

open EgtSide OrientedMaterial

/-! ### Materials and their mirror images -/

namespace Material

variable (M : Material)

theorem roles_mirrored : M.mirrored.roles = M.roles := by
  funext side r
  unfold roles
  rw [files_mirrored, List.length_map, List.length_reverse]
  rfl

theorem opposing_mirrored : M.mirrored.opposing = M.opposing := by
  unfold opposing
  have hrev : (List.finRange 8).map (fun f => (pawnFlags (M.mirrored.words f) sideToMove).count true)
      = ((List.finRange 8).map fun f => (pawnFlags (M.words f) sideToMove).count true).reverse := by
    rw [← List.map_reverse, List.finRange_reverse, List.map_map]
    rfl
  rw [hrev, List.sum_reverse]

theorem roles_canonical : M.canonical.roles = M.roles := by
  unfold canonical
  split
  · rfl
  · exact M.roles_mirrored

theorem opposing_canonical : M.canonical.opposing = M.opposing := by
  unfold canonical
  split
  · rfl
  · exact M.opposing_mirrored

end Material

/-! ### Materials of every kind -/

/-- Opposing pairs first, then the other pawns of each side, one file for each. -/
def sampleOrder (s t k f : ℕ) : List EgtSide :=
  if f < k then [sideToMove, sideNotToMove]
  else if f < s then [sideToMove]
  else if f < s + t - k then [sideNotToMove]
  else []

theorem length_sampleOrder_le (s t k f : ℕ) : (sampleOrder s t k f).length ≤ 6 := by
  unfold sampleOrder
  split_ifs <;> simp

theorem sum_sampleOrder : ∀ s < 7, ∀ t < 7, s + t ≤ 6 → ∀ k ≤ min s t,
    (((List.finRange 8).map fun f => (sampleOrder s t k f).count sideToMove).sum = s ∧
      ((List.finRange 8).map fun f => (sampleOrder s t k f).count sideNotToMove).sum = t) ∧
      ((List.finRange 8).map fun f => (pawnFlags (sampleOrder s t k f) sideToMove).count true).sum
        = k := by
  decide +kernel

/-- **Every material name** has a canonical table with each possible number of opposing pairs. -/
theorem exists_material {roles : EgtSide → Role → ℕ} (h : Roles roles) {k : ℕ}
    (hk : k ≤ min (roles sideToMove .pawn) (roles sideNotToMove .pawn)) :
    ∃ M : Material, M.Canonical ∧ M.roles = roles ∧ M.opposing = k := by
  have htotal := h.total
  rw [sideCount_eq, sideCount_eq, h.king, h.king, show maxPieces = 8 from rfl] at htotal
  obtain ⟨⟨hs, ht⟩, hop⟩ := sum_sampleOrder (roles sideToMove .pawn) (by omega)
    (roles sideNotToMove .pawn) (by omega) (by omega) k hk
  let M := h.material fun f => ⟨sampleOrder (roles sideToMove .pawn) (roles sideNotToMove .pawn) k f,
    length_sampleOrder_le _ _ _ _⟩
  have hroles : M.roles = roles := by
    funext side r
    unfold Material.roles
    by_cases hr : r = .pawn
    · rw [if_pos hr, hr, M.length_files]
      cases side with
      | sideToMove => exact hs
      | sideNotToMove => exact ht
    · rw [if_neg hr]
      exact if_neg hr
  refine ⟨M.canonical, Material.Canonical.canonical M, ?_, ?_⟩
  · rw [M.roles_canonical, hroles]
  · rw [M.opposing_canonical]
    exact hop

/-- A king, pawns and queens. -/
def sampleRoles (count pawns : ℕ) : Role → ℕ
  | .king => 1
  | .pawn => pawns
  | .queen => count - 1 - pawns
  | _ => 0

theorem sideCount_sampleRoles {count pawns : ℕ} (h : pawns + 1 ≤ count) :
    sideCount (sampleRoles count pawns) = count := by
  rw [sideCount_eq]
  simp only [sampleRoles]
  omega

/-- **Every accepted prefix** selects a table. -/
theorem SelectorPrefix.Valid.exists_selects {pre : SelectorPrefix} (h : pre.Valid)
    (hn : pre.n ≠ none) : ∃ M : Material, M.nPieces ≤ maxPieces ∧ M.Canonical ∧
      pre.selects M.directory = true := by
  obtain ⟨n, hn⟩ := Option.ne_none_iff_exists'.mp hn
  obtain ⟨h2, h8⟩ := h.count n hn
  -- The numbers that are not given are chosen to fit those that are.
  obtain ⟨a, b, hsplit, hsum, hb, hba⟩ : ∃ a b, pre.split.all (· = (a, b)) = true ∧ a + b = n ∧
      1 ≤ b ∧ b ≤ a := by
    cases hs : pre.split with
    | none => exact ⟨n - 1, 1, rfl, by omega, le_refl 1, by omega⟩
    | some s =>
      obtain ⟨hsum, hpos, hle⟩ := h.split s hs
      rw [hn, Option.some.injEq] at hsum
      exact ⟨s.1, s.2, by simp, hsum.symm, hpos, hle⟩
  obtain ⟨k, hopposing, hkb⟩ : ∃ k, pre.opposing.all (· = k) = true ∧ k + 1 ≤ b ∧
      (pre.opposing = none → k = 0) := by
    cases hk : pre.opposing with
    | none => exact ⟨0, rfl, hb, fun _ => rfl⟩
    | some k =>
      obtain ⟨s, hs, hlt⟩ := h.opposing k hk
      rw [hs, Option.all_some, decide_eq_true_eq] at hsplit
      rw [hsplit] at hlt
      exact ⟨k, by simp, hlt, fun hnone => nomatch hnone⟩
  obtain ⟨p, hpawns, hpn, hkp⟩ : ∃ p, pre.pawns.all (· = p) = true ∧ p + 2 ≤ n ∧ 2 * k ≤ p := by
    cases hp : pre.pawns with
    | none => exact ⟨2 * k, rfl, by omega, le_refl _⟩
    | some p =>
      obtain ⟨n', k', hn', hk', hle, hge⟩ := h.pawns p hp
      rw [hn, Option.some.injEq] at hn'
      rw [hk', Option.all_some, decide_eq_true_eq] at hopposing
      exact ⟨p, by simp, by omega, by omega⟩
  -- The weaker side gets as many pawns as it can, but those of the stronger side's pairs.
  let t := min (p - k) (b - 1)
  let roles := bySide (sampleRoles a (p - t)) (sampleRoles b t)
  have ha : sideCount (roles sideToMove) = a := sideCount_sampleRoles (by omega)
  have hb : sideCount (roles sideNotToMove) = b := sideCount_sampleRoles (by omega)
  have hroles : Roles roles := by
    refine ⟨fun side => ?_, by rw [ha, hb]; omega⟩
    cases side <;> rfl
  obtain ⟨M, hc, hM, hop⟩ := exists_material hroles (k := k) (by
    show k ≤ min (p - t) t
    omega)
  have hnPieces : M.nPieces = n := by rw [M.nPieces_eq_sideCounts, hM, ha, hb, hsum]
  have hnPawns : M.nPawns = p := by
    rw [M.nPawns_eq_roles, hM]
    show p - t + t = p
    omega
  refine ⟨M, by omega, hc, ?_⟩
  unfold selects Material.directory
  rw [hM, ha, hb, max_eq_left hba, min_eq_right hba, hnPieces, hnPawns, hop]
  simp only [Bool.and_eq_true]
  exact ⟨⟨⟨by rw [hn]; simp, hsplit⟩, hopposing⟩, hpawns⟩

/-! ### Material names -/

/-- The letters of the pieces other than kings. -/
def otherLetters : List Char := ['Q', 'R', 'B', 'N', 'P']

theorem roleText_eq {roles : Role → ℕ} (h : roles .king = 1) : roleText roles
    = 'K' :: Multichoose.repeated (fun c => (upperRole c).elim 0 roles) otherLetters := by
  unfold roleText
  rw [roles_reverse, List.flatMap_cons, h]
  rfl

/-- The letters of a side behind its king are the selections. -/
theorem mem_selections_otherLetters {k : ℕ} {a : List Char} :
    a ∈ Multichoose.selections k otherLetters ↔
      ∃ roles : Role → ℕ, roles .king = 1 ∧ sideCount roles = k + 1 ∧ 'K' :: a = roleText roles := by
  rw [Multichoose.mem_selections (by decide)]
  constructor
  · rintro ⟨rfl, m, rfl⟩
    let roles : Role → ℕ := fun r => if r = .king then 1 else m r.upperChar
    have htext : 'K' :: Multichoose.repeated m otherLetters = roleText roles := by
      rw [roleText_eq (show roles .king = 1 from rfl)]
      rfl
    refine ⟨roles, rfl, ?_, htext⟩
    unfold sideCount
    rw [← htext, List.length_cons]
  · rintro ⟨roles, hking, hcount, htext⟩
    unfold sideCount at hcount
    rw [← htext, List.length_cons] at hcount
    rw [roleText_eq hking] at htext
    exact ⟨by omega, _, (List.cons.inj htext).2⟩

/-- **Material names** are enumerated completely. -/
theorem materialNames_eq {n : ℕ} (hn : 2 ≤ n) (hmax : n ≤ maxPieces) :
    ∃ names, materialNames n = .ok names ∧ ∀ name, name ∈ names ↔ ∃ roles, Roles roles ∧
      sideCount (roles sideToMove) + sideCount (roles sideNotToMove) = n ∧
      name = orientedName roles := by
  unfold materialNames
  rw [Run.sub_eq hn, Run.ok_bind]
  refine ⟨_, rfl, fun name => ?_⟩
  rw [List.mem_flatMap]
  constructor
  · rintro ⟨k, hk, hname⟩
    obtain ⟨a, ha, hname⟩ := List.mem_flatMap.mp hname
    obtain ⟨b, hb, rfl⟩ := List.mem_map.mp hname
    obtain ⟨stm, hstm, hcountStm, htextStm⟩ := mem_selections_otherLetters.mp ha
    obtain ⟨sntm, hsntm, hcountSntm, htextSntm⟩ := mem_selections_otherLetters.mp hb
    have hk := List.mem_range.mp hk
    let roles := bySide stm sntm
    have hsum : sideCount (roles sideToMove) + sideCount (roles sideNotToMove) = n := by
      show sideCount stm + sideCount sntm = n
      omega
    refine ⟨roles, ⟨fun side => ?_, hsum ▸ hmax⟩, hsum, ?_⟩
    · cases side with
      | sideToMove => exact hstm
      | sideNotToMove => exact hsntm
    · show 'K' :: a ++ '_' :: 'K' :: b = roleText stm ++ '_' :: roleText sntm
      rw [htextStm, htextSntm]
  · rintro ⟨roles, hroles, hsum, rfl⟩
    obtain ⟨a, ha⟩ : ∃ a, 'K' :: a = roleText (roles sideToMove) :=
      ⟨_, (roleText_eq (hroles.king _)).symm⟩
    obtain ⟨b, hb⟩ : ∃ b, 'K' :: b = roleText (roles sideNotToMove) :=
      ⟨_, (roleText_eq (hroles.king _)).symm⟩
    have hposStm : 1 ≤ sideCount (roles sideToMove) := by
      rw [sideCount_eq, hroles.king]
      omega
    have hposSntm : 1 ≤ sideCount (roles sideNotToMove) := by
      rw [sideCount_eq, hroles.king]
      omega
    refine ⟨sideCount (roles sideToMove) - 1, List.mem_range.mpr (by omega),
      List.mem_flatMap.mpr ⟨a, mem_selections_otherLetters.mpr ⟨_, hroles.king _, by omega, ha⟩,
        List.mem_map.mpr ⟨b, mem_selections_otherLetters.mpr ⟨_, hroles.king _, by omega, hb⟩, ?_⟩⟩⟩
    rw [orientedName, ← ha, ← hb]

/-! ### Names without file letters -/

namespace Material

variable {M : Material}

theorem fileChar_mem_name {f : File} (h : M.words f ≠ []) : fileChar f ∈ M.name := by
  obtain ⟨side, hside⟩ := List.exists_mem_of_ne_nil _ h
  have hflags : pawnFlags (M.words f) side ≠ [] := by
    intro hnil
    have hlen := length_pawnFlags (M.words f) side
    rw [hnil, List.length_nil] at hlen
    exact (List.count_pos_iff.mpr hside).ne hlen
  obtain ⟨b, hb⟩ := List.exists_mem_of_ne_nil _ hflags
  have hname : fileChar f ∈ M.nameOf side := by
    refine List.mem_append_right _ (List.mem_flatMap.mpr ⟨f, List.mem_finRange f,
      List.mem_flatMap.mpr ⟨b, hb, ?_⟩⟩)
    exact List.mem_cons_of_mem _ List.mem_cons_self
  rw [name_eq]
  cases side with
  | sideToMove => exact List.mem_append_left _ hname
  | sideNotToMove => exact List.mem_append_right _ (List.mem_cons_of_mem _ hname)

theorem slash_notMem_name (M : Material) : '/' ∉ M.name := by
  intro h
  -- A slash would be part of the material name.
  have hmem : '/' ∈ (⟨M.name⟩ : TableId).material := List.mem_filter.mpr ⟨h, by decide⟩
  have hno : ∀ roles : Role → ℕ, '/' ∉ roleText roles := by
    intro roles hc
    obtain ⟨r, hr⟩ := upperRole_of_mem hc
    cases hr
  rw [M.material_name, orientedName, List.mem_append, List.mem_cons] at hmem
  rcases hmem with hmem | hmem | hmem
  · exact hno _ hmem
  · revert hmem
    decide
  · exact hno _ hmem

/-- Materials without pawns are told apart by their roles. -/
theorem eq_of_roles {M' : Material} (h : ∀ f, M.words f = []) (hroles : M'.roles = M.roles) :
    M' = M := by
  have hpawns : M'.nPawns = 0 := by
    have hfiles : ∀ side, (M.files side).length = 0 := by
      intro side
      rw [length_files]
      simp [h]
    rw [nPawns_eq_roles, hroles]
    show (M.files sideToMove).length + (M.files sideNotToMove).length = 0
    rw [hfiles, hfiles]
  have hwords : ∀ f, M'.words f = [] := by
    intro f
    refine List.length_eq_zero_iff.mp ?_
    exact List.sum_eq_zero_iff.mp hpawns _ (List.mem_map.mpr ⟨f, List.mem_finRange f, rfl⟩)
  refine Material.ext (funext fun f => by rw [hwords, h]) (funext fun side => funext fun r => ?_)
  by_cases hr : r = .pawn
  · rw [hr, M'.count_pawn, M.count_pawn]
  · have := congrFun (congrFun hroles side) r
    unfold roles at this
    rwa [if_neg hr, if_neg hr] at this

end Material

/-! ### The tables of a selector -/

namespace TableSelector

/-- The tables that a selector is for. -/
def Selects (selector : List Char) : Target → TableId → Prop
  | .hierarchy _, id => TableId.parse id.name = .ok id ∧ ∀ extension, ∃ path,
    id.relativePath extension = .ok path ∧ stripSlash selector ++ ['/'] <+: path
  | .material _, id => TableId.parse id.name = .ok id ∧ id.material = selector
  | .exactTable _, id => TableId.parse selector = .ok id

theorem parse_name {id : TableId} : TableId.parse id.name = .ok id ↔
    ∃ M : Material, M.nPieces ≤ maxPieces ∧ M.Canonical ∧ id = ⟨M.name⟩ := by
  rw [TableId.parse_eq_ok]
  constructor
  · rintro ⟨M, hM, hc, -, hid⟩
    exact ⟨M, hM, hc, hid⟩
  · rintro ⟨M, hM, hc, rfl⟩
    exact ⟨M, hM, hc, rfl, rfl⟩

theorem selects_hierarchy {selector : List Char} {pre : SelectorPrefix}
    (h : Accepts selector (.hierarchy pre)) (id : TableId) : Selects selector (.hierarchy pre) id ↔
      ∃ M : Material, M.nPieces ≤ maxPieces ∧ M.Canonical ∧ pre.selects M.directory = true ∧
        id = ⟨M.name⟩ := by
  have hpath : ∀ (M : Material) (extension : List Char), (⟨M.name⟩ : TableId).relativePath extension
      = .ok (M.directory.path ++ (M.name ++ '.' :: extension.dropWhile (· = '.'))) := by
    intro M extension
    unfold TableId.relativePath
    rw [M.directory_name, Run.ok_bind, ← List.append_assoc]
    rfl
  obtain ⟨-, -, hsel⟩ := h
  show TableId.parse id.name = .ok id ∧ _ ↔ _
  rw [parse_name]
  constructor
  · rintro ⟨⟨M, hM, hc, rfl⟩, hall⟩
    obtain ⟨path, hok, hpre⟩ := hall []
    rw [hpath, Except.ok.injEq] at hok
    exact ⟨M, hM, hc, (hsel _ _).mpr (hok ▸ hpre), rfl⟩
  · rintro ⟨M, hM, hc, hs, rfl⟩
    exact ⟨⟨M, hM, hc, rfl⟩, fun extension => ⟨_, hpath M extension, (hsel _ _).mp hs⟩⟩

theorem selects_material {selector : List Char} {roles : EgtSide → Role → ℕ} (h : Roles roles)
    (hname : selector = orientedName roles) (id : TableId) :
    Selects selector (.material (ofRoles roles)) id ↔
      ∃ M : Material, M.Canonical ∧ M.roles = roles ∧ id = ⟨M.name⟩ := by
  show TableId.parse id.name = .ok id ∧ id.material = selector ↔ _
  rw [parse_name]
  constructor
  · rintro ⟨⟨M, hM, hc, rfl⟩, hmat⟩
    rw [M.material_name, hname] at hmat
    exact ⟨M, hc, orientedName_injective hmat, rfl⟩
  · rintro ⟨M, hc, rfl, rfl⟩
    exact ⟨⟨M, h.nPieces_le rfl, hc, rfl⟩, by rw [M.material_name, hname]⟩

/-- The tables of a selector are those of materials. -/
theorem Selects.named {selector : List Char} {target : Target} {id : TableId}
    (h : Selects selector target id) : id.Named := by
  have hnamed : ∀ {s : List Char}, TableId.parse s = .ok id → id.Named := by
    intro s hs
    obtain ⟨M, hM, -, -, rfl⟩ := TableId.parse_eq_ok.mp hs
    exact ⟨M, hM, rfl⟩
  cases target with
  | hierarchy pre => exact hnamed h.1
  | material material => exact hnamed h.1
  | exactTable table => exact hnamed h

/-- **The candidates** of an accepted selector are its tables, and there are some. -/
theorem candidates_eq {selector : List Char} {target : Target} (h : Accepts selector target) :
    ∃ ts, candidates ⟨selector, target⟩ = .ok ts ∧ ts ≠ [] ∧
      ∀ id, id ∈ ts ↔ Selects selector target id := by
  cases target with
  | exactTable table =>
    refine ⟨[table], rfl, List.cons_ne_nil _ _, fun id => ?_⟩
    show id ∈ [table] ↔ TableId.parse selector = .ok id
    rw [List.mem_singleton, show TableId.parse selector = .ok table from h, Except.ok.injEq, eq_comm]
  | material material =>
    obtain ⟨roles, hroles, hname, rfl⟩ := h
    obtain ⟨ts, hts, hmem⟩ := tables_eq hroles SelectorPrefix.empty
    refine ⟨ts, hts, ?_, fun id => ?_⟩
    · obtain ⟨M, hc, hM, -⟩ := exists_material hroles (Nat.zero_le _)
      exact List.ne_nil_of_mem ((hmem _).mpr ⟨M, hc, hM, rfl, rfl⟩)
    · rw [hmem, selects_material hroles hname]
      constructor
      · rintro ⟨M, hc, hM, -, hid⟩
        exact ⟨M, hc, hM, hid⟩
      · rintro ⟨M, hc, hM, hid⟩
        exact ⟨M, hc, hM, rfl, hid⟩
  | hierarchy pre =>
    have hselects := selects_hierarchy h
    obtain ⟨hvalid, hne, -⟩ := h
    obtain ⟨n, hn⟩ := Option.ne_none_iff_exists'.mp hne
    obtain ⟨h2, h8⟩ := hvalid.count n hn
    obtain ⟨names, hnames, hmemNames⟩ := materialNames_eq h2 h8
    -- The tables of one name.
    have htables : ∀ name ∈ names, ∃ roles, Roles roles ∧ name = orientedName roles ∧
        (do let material ← OrientedMaterial.parse name
            material.tables pre) = (ofRoles roles).tables pre := by
      intro name hname
      obtain ⟨roles, hroles, -, rfl⟩ := (hmemNames name).mp hname
      exact ⟨roles, hroles, rfl, by rw [parse_orientedName hroles, Run.ok_bind]⟩
    obtain ⟨found, hfound, hmem⟩ := Run.mapM_mem (l := names) (f := fun name => do
        let material ← OrientedMaterial.parse name
        material.tables pre) fun name hname => by
      obtain ⟨roles, hroles, -, heq⟩ := htables name hname
      obtain ⟨ts, hts, -⟩ := tables_eq hroles pre
      exact ⟨ts, heq.trans hts⟩
    have hiff : ∀ id, id ∈ found.flatten ↔ Selects selector (.hierarchy pre) id := by
      intro id
      rw [hselects, List.mem_flatten]
      constructor
      · rintro ⟨ts, hts, hid⟩
        obtain ⟨name, hname, hok⟩ := (hmem ts).mp hts
        obtain ⟨roles, hroles, -, heq⟩ := htables name hname
        obtain ⟨ts', hts', hmem'⟩ := tables_eq hroles pre
        rw [heq, hts', Except.ok.injEq] at hok
        obtain ⟨M, hc, hM, hsel, rfl⟩ := (hmem' id).mp (hok ▸ hid)
        exact ⟨M, hroles.nPieces_le hM, hc, hsel, rfl⟩
      · rintro ⟨M, hM, hc, hsel, rfl⟩
        have hroles := Material.roles_sound hM
        obtain ⟨ts, hts, hmem'⟩ := tables_eq hroles pre
        refine ⟨ts, (hmem ts).mpr ⟨orientedName M.roles, ?_, ?_⟩,
          (hmem' _).mpr ⟨M, hc, rfl, hsel, rfl⟩⟩
        · refine (hmemNames _).mpr ⟨M.roles, hroles, ?_, rfl⟩
          -- The piece count is the first component.
          unfold SelectorPrefix.selects at hsel
          rw [hn] at hsel
          simp only [Bool.and_eq_true, Option.all_some, decide_eq_true_eq] at hsel
          rw [← M.nPieces_eq_sideCounts]
          exact hsel.1.1.1.symm
        · rw [parse_orientedName hroles, Run.ok_bind, hts]
    refine ⟨found.flatten, ?_, ?_, hiff⟩
    · show (do
        let n ← Run.expect pre.n "called unwrap on a None value"
        let names ← materialNames n
        let found ← names.mapM fun name => do
          let material ← OrientedMaterial.parse name
          material.tables pre
        pure found.flatten) = _
      rw [hn, Run.expect_some, Run.ok_bind, hnames, Run.ok_bind, hfound]
      rfl
    · obtain ⟨M, hM, hc, hsel⟩ := hvalid.exists_selects hne
      exact List.ne_nil_of_mem ((hiff ⟨M.name⟩).mpr ((hselects _).mpr ⟨M, hM, hc, hsel, rfl⟩))

/-- Longer paths select fewer tables. -/
theorem Selects.mono {s s' : List Char} {pre pre' : SelectorPrefix} {id : TableId}
    (hpre : stripSlash s ++ ['/'] <+: stripSlash s' ++ ['/'])
    (h : Selects s' (.hierarchy pre') id) : Selects s (.hierarchy pre) id := by
  refine ⟨h.1, fun extension => ?_⟩
  obtain ⟨path, hok, hpath⟩ := h.2 extension
  exact ⟨path, hok, hpre.trans hpath⟩

/-- Two paths above one table are one above the other. -/
theorem Selects.comparable {s s' : List Char} {pre pre' : SelectorPrefix} {id : TableId}
    (h : Selects s (.hierarchy pre) id) (h' : Selects s' (.hierarchy pre') id) :
    stripSlash s ++ ['/'] <+: stripSlash s' ++ ['/'] ∨
      stripSlash s' ++ ['/'] <+: stripSlash s ++ ['/'] := by
  obtain ⟨path, hok, hpath⟩ := h.2 []
  obtain ⟨path', hok', hpath'⟩ := h'.2 []
  rw [hok, Except.ok.injEq] at hok'
  subst hok'
  exact List.prefix_or_prefix_of_prefix hpath hpath'

/-- **Accepted selectors** resolve to their tables in increasing order. -/
theorem resolve_eq {selector : List Char} {target : Target} (h : Accepts selector target) :
    ∃ tables, resolve ⟨selector, target⟩ = .ok tables ∧
      tables.Pairwise (fun a b => a.cmp b = .ok .lt) ∧
      ∀ id, id ∈ tables ↔ Selects selector target id := by
  obtain ⟨ts, hts, hne, hmem⟩ := candidates_eq h
  obtain ⟨set, hset, hinc, hmemSet⟩ := OrderedSet.collect_eq TableId.cmp_follows
    fun id (hid : id ∈ ts) => ((hmem id).mp hid).named
  have hiff : ∀ id, id ∈ set ↔ Selects selector target id := fun id => by rw [hmemSet, hmem]
  refine ⟨set, ?_, ?_, hiff⟩
  · unfold resolve
    rw [hts, Run.ok_bind, if_neg hne]
    exact hset
  · refine List.Pairwise.imp_of_mem (fun {a b} ha hb hlt => ?_) hinc
    rw [TableId.cmp_follows.cmp_eq ((hiff a).mp ha).named ((hiff b).mp hb).named, hlt]

end TableSelector

/-! ### Exact names -/

/-- **Names** of canonical tables select exactly their table. -/
theorem TableSelector.parse_name_resolves {M : Material} (hM : M.nPieces ≤ maxPieces)
    (hc : M.Canonical) : ∃ target, parse M.name = .ok ⟨M.name, target⟩ ∧
      ∀ id, Selects M.name target id ↔ id = ⟨M.name⟩ := by
  have hparse : TableId.parse M.name = .ok ⟨M.name⟩ :=
    TableId.parse_eq_ok.mpr ⟨M, hM, hc, rfl, rfl⟩
  have hslash := M.slash_notMem_name
  have hsep : '_' ∈ M.name := by
    rw [M.name_eq]
    exact List.mem_append_right _ List.mem_cons_self
  have hne : M.name ≠ [] := List.ne_nil_of_mem hsep
  unfold parse
  simp only
  rw [stripSlash_of_notMem hslash, if_neg hne, if_pos hsep, if_neg hslash]
  by_cases hlower : (M.name.any fun c => 'a' ≤ c && c ≤ 'z') = true
  · rw [if_pos hlower, hparse]
    refine ⟨.exactTable ⟨M.name⟩, rfl, fun id => ?_⟩
    show TableId.parse M.name = .ok id ↔ _
    rw [hparse, Except.ok.injEq, eq_comm]
  · -- Without file letters the table is the only one of its material name.
    rw [if_neg hlower]
    have hwords : ∀ f, M.words f = [] := by
      intro f
      by_contra hf
      have hfile : ∀ f, ('a' ≤ fileChar f && fileChar f ≤ 'z') = true := by decide
      exact hlower (List.any_eq_true.mpr ⟨fileChar f, Material.fileChar_mem_name hf, hfile f⟩)
    have hname : M.name = orientedName M.roles := by
      rw [← M.material_name, TableId.material]
      simp only
      rw [eq_comm, List.filter_eq_self]
      intro c hcm
      by_contra hno
      exact hlower (List.any_eq_true.mpr ⟨c, hcm, by simpa using hno⟩)
    have hroles := Material.roles_sound hM
    refine ⟨.material (ofRoles M.roles), ?_, fun id => ?_⟩
    · rw [hname, parse_orientedName hroles]
      rfl
    · rw [selects_material hroles hname]
      constructor
      · rintro ⟨M', -, hM', rfl⟩
        rw [Material.eq_of_roles hwords hM']
      · rintro rfl
        exact ⟨M, hc, rfl, rfl⟩

/-- **Selector enumeration** is complete, exact and free of repetitions: parsing never panics, and
    an accepted selector resolves to the tables it is for, in strictly increasing order; every
    table name selects its table alone; of two hierarchy prefixes of which one is a path above the
    other the first selects the tables of the other too, and any other two share no table. -/
theorem selectors_exact :
    (∀ s reason, TableSelector.parse s ≠ .error (.panicked reason)) ∧
    (∀ s sel, TableSelector.parse s = .ok sel → ∃ tables, sel.resolve = .ok tables ∧
      tables.Pairwise (fun a b => a.cmp b = .ok .lt) ∧
      ∀ id, id ∈ tables ↔ TableSelector.Selects s sel.target id) ∧
    (∀ s id, TableId.parse s = .ok id →
      ∃ sel, TableSelector.parse s = .ok sel ∧ sel.resolve = .ok [id]) ∧
    (∀ s s' pre pre' tables tables',
      TableSelector.parse s = .ok ⟨s, .hierarchy pre⟩ →
      TableSelector.parse s' = .ok ⟨s', .hierarchy pre'⟩ →
      TableSelector.resolve ⟨s, .hierarchy pre⟩ = .ok tables →
      TableSelector.resolve ⟨s', .hierarchy pre'⟩ = .ok tables' →
      (TableSelector.stripSlash s ++ ['/'] <+: TableSelector.stripSlash s' ++ ['/'] →
        ∀ id ∈ tables', id ∈ tables) ∧
      (¬ TableSelector.stripSlash s ++ ['/'] <+: TableSelector.stripSlash s' ++ ['/'] →
        ¬ TableSelector.stripSlash s' ++ ['/'] <+: TableSelector.stripSlash s ++ ['/'] →
        ∀ id ∈ tables, id ∉ tables')) := by
  have haccepts : ∀ {s sel}, TableSelector.parse s = .ok sel → ∃ target, sel = ⟨s, target⟩ ∧
      TableSelector.Accepts s target := by
    intro s sel hs
    rcases TableSelector.parse_cases s with ⟨e, he⟩ | ⟨target, hok, hacc⟩
    · rw [he] at hs
      cases hs
    · rw [hok, Except.ok.injEq] at hs
      exact ⟨target, hs.symm, hacc⟩
  refine ⟨fun s reason hs => ?_, fun s sel hs => ?_, fun s id hs => ?_, ?_⟩
  · rcases TableSelector.parse_cases s with ⟨e, he⟩ | ⟨target, hok, -⟩
    · rw [he] at hs
      cases hs
    · rw [hok] at hs
      cases hs
  · obtain ⟨target, rfl, hacc⟩ := haccepts hs
    exact TableSelector.resolve_eq hacc
  · obtain ⟨M, hM, hc, rfl, rfl⟩ := TableId.parse_eq_ok.mp hs
    obtain ⟨target, hok, hsel⟩ := TableSelector.parse_name_resolves hM hc
    refine ⟨_, hok, ?_⟩
    obtain ⟨target', htarget, hacc⟩ := haccepts hok
    cases htarget
    obtain ⟨tables, hres, hinc, hmem⟩ := TableSelector.resolve_eq hacc
    rw [hres, Except.ok.injEq]
    have hself : (⟨M.name⟩ : TableId).cmp ⟨M.name⟩ = .ok .eq := by
      rw [TableId.cmp_follows.cmp_eq ⟨M, hM, rfl⟩ ⟨M, hM, rfl⟩]
      exact congrArg Except.ok Std.ReflCmp.compare_self
    -- An increasing list does not hold its only table twice.
    rcases tables with _ | ⟨a, _ | ⟨b, tables⟩⟩
    · exact absurd ((hmem _).mpr ((hsel _).mpr rfl)) List.not_mem_nil
    · rw [(hsel a).mp ((hmem a).mp List.mem_cons_self)]
    · have hab := List.rel_of_pairwise_cons hinc List.mem_cons_self
      rw [(hsel a).mp ((hmem a).mp List.mem_cons_self),
        (hsel b).mp ((hmem b).mp (List.mem_cons_of_mem _ List.mem_cons_self)), hself] at hab
      cases hab
  · intro s s' pre pre' tables tables' hs hs' hres hres'
    have htables : ∀ {s pre tables}, TableSelector.parse s = .ok ⟨s, .hierarchy pre⟩ →
        TableSelector.resolve ⟨s, .hierarchy pre⟩ = .ok tables →
        ∀ id, id ∈ tables ↔ TableSelector.Selects s (.hierarchy pre) id := by
      intro s pre tables hs hres
      obtain ⟨target, htarget, hacc⟩ := haccepts hs
      cases htarget
      obtain ⟨ts, hts, -, hmem⟩ := TableSelector.resolve_eq hacc
      rw [hres, Except.ok.injEq] at hts
      rw [hts]
      exact hmem
    have hmem := htables hs hres
    have hmem' := htables hs' hres'
    refine ⟨fun hpre id hid => (hmem id).mpr (((hmem' id).mp hid).mono hpre), ?_⟩
    intro hno hno' id hid hid'
    exact (((hmem id).mp hid).comparable ((hmem' id).mp hid')).elim hno hno'

example : (do let selector ← TableSelector.parse "2/1v1/".toList; selector.resolve)
    = .ok [⟨"K_K".toList⟩] := by decide +kernel

end ChessEgt
