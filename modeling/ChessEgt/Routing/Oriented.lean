import ChessEgt.Routing.Parsing
import ChessEgt.Routing.Selection

/-!
# What a name says about its material

* `Material.roles` — the pieces of each side, pawns included;
* `TableId.material_name`, `TableId.directory_name` — the oriented material and the directories
  of the name of a material;
* `OrientedMaterial.parse_eq_ok` — material names are the names of such counts.
-/

namespace ChessEgt

open EgtSide

/-! ### Counts of letters -/

theorem roles_reverse : Role.all.reverse = [.king, .queen, .rook, .bishop, .knight, .pawn] := rfl

theorem upperChar_injective : Function.Injective Role.upperChar := by
  intro a b; cases a <;> cases b <;> decide

theorem count_roleText (roles : Role → ℕ) (r : Role) :
    (roleText roles).count r.upperChar = roles r := by
  unfold roleText
  rw [roles_reverse]
  cases r <;> simp [List.count_replicate, Role.upperChar]

theorem roleText_injective : Function.Injective roleText := by
  intro a b h
  funext r
  rw [← count_roleText a, h, count_roleText]

/-- The number of letters of one side. -/
def sideCount (roles : Role → ℕ) : ℕ := (roleText roles).length

theorem sideCount_eq (roles : Role → ℕ) : sideCount roles = roles .king + (roles .queen +
    (roles .rook + (roles .bishop + (roles .knight + roles .pawn)))) := by
  unfold sideCount roleText
  rw [roles_reverse]
  simp

theorem flatMap_replicate {α β : Type} (l : List α) (n : α → ℕ) (b : β) :
    (l.flatMap fun a => List.replicate (n a) b) = List.replicate (l.map n).sum b := by
  induction l with
  | nil => rfl
  | cons a l ih =>
    rw [List.flatMap_cons, ih, List.map_cons, List.sum_cons, List.replicate_append_replicate]

/-! ### The sides of a name -/

namespace Material

variable (M : Material)

/-- The pieces of each side by role, pawns included. -/
def roles (side : EgtSide) (role : Role) : ℕ :=
  if role = .pawn then (M.files side).length else M.count side role

/-- The number of opposed pawns of the side to move. -/
def opposing : ℕ := ((List.finRange 8).map fun f => (pawnFlags (M.words f) sideToMove).count true).sum

/-- The part of the name for one side. -/
def nameOf (side : EgtSide) : List Char := pieceName (M.count side) ++ pawnName M.words side

theorem length_files (side : EgtSide) : (M.files side).length
    = ((List.finRange 8).map fun f => (M.words f).count side).sum := by
  unfold files
  rw [List.length_flatMap]
  congr 1
  exact List.map_congr_left (fun f _ => List.length_replicate)

theorem roles_king (side : EgtSide) : M.roles side .king = 1 := M.count_king side

theorem nPawns_eq_roles :
    M.nPawns = M.roles sideToMove .pawn + M.roles sideNotToMove .pawn := by
  show M.nPawns = (M.files sideToMove).length + (M.files sideNotToMove).length
  rw [length_files, length_files, ← List.sum_map_add]
  unfold nPawns
  congr 1
  exact List.map_congr_left (fun f _ => (count_add_count (M.words f)).symm)

theorem nPieces_eq_sideCounts :
    M.nPieces = sideCount (M.roles sideToMove) + sideCount (M.roles sideNotToMove) := by
  have hroles : ∀ side r, r ≠ .pawn → M.roles side r = M.count side r :=
    fun side r hr => if_neg hr
  unfold nPieces
  rw [nPawns_eq_roles, sideCount_eq, sideCount_eq]
  simp only [hroles _ .king (by decide), hroles _ .queen (by decide), hroles _ .rook (by decide),
    hroles _ .bishop (by decide), hroles _ .knight (by decide)]
  simp [pieceKinds]
  omega

/-- The letters of a side that a predicate keeps if it drops file letters and markers. -/
theorem filter_nameOf {p : Char → Bool} (hrole : ∀ r : Role, p r.upperChar = true)
    (hfile : ∀ f, p (fileChar f) = false) (hmark : p 'o' = false) (side : EgtSide) :
    (M.nameOf side).filter p = roleText (M.roles side) := by
  have htoken : ∀ f b, (pawnToken f b).filter p = ['P'] := by
    intro f b
    have hp : p 'P' = true := hrole .pawn
    unfold pawnToken
    cases b <;> simp [hp, hfile, hmark]
  have hpawns : (pawnName M.words side).filter p = List.replicate (M.files side).length 'P' := by
    unfold pawnName
    rw [List.filter_flatMap, length_files, ← flatMap_replicate]
    refine List.flatMap_congr (fun f _ => ?_)
    rw [List.filter_flatMap, ← length_pawnFlags (M.words f) side]
    have hconst : (pawnFlags (M.words f) side).flatMap (fun b => (pawnToken f b).filter p)
        = (pawnFlags (M.words f) side).flatMap fun _ => ['P'] :=
      List.flatMap_congr fun b _ => htoken f b
    rw [hconst]
    exact (flatMap_replicate _ (fun _ => 1) 'P').trans (by simp)
  have hpieces : (pieceName (M.count side)).filter p = pieceName (M.count side) := by
    rw [List.filter_eq_self]
    intro c hc
    obtain ⟨r, -, hc⟩ := List.mem_flatMap.mp hc
    rw [(List.mem_replicate.mp hc).2]
    exact hrole r
  unfold nameOf
  rw [List.filter_append, hpawns, hpieces]
  unfold roleText roles pieceName
  rw [roles_reverse]
  simp [Role.upperChar]

theorem count_marker (side : EgtSide) : (M.nameOf side).count 'o'
    = ((List.finRange 8).map fun f => (pawnFlags (M.words f) side).count true).sum := by
  have htoken : ∀ f b, (pawnToken f b).count 'o' = if b then 1 else 0 := by decide
  have hpieces : (pieceName (M.count side)).count 'o' = 0 := by
    rw [List.count_eq_zero]
    intro hc
    obtain ⟨r, -, hc⟩ := List.mem_flatMap.mp hc
    have := (List.mem_replicate.mp hc).2
    revert this
    cases r <;> decide
  unfold nameOf pawnName
  rw [List.count_append, hpieces, Nat.zero_add, List.count_flatMap]
  congr 1
  refine List.map_congr_left (fun f _ => ?_)
  rw [Function.comp_apply, List.count_flatMap]
  induction pawnFlags (M.words f) side with
  | nil => rfl
  | cons b flags ih =>
    rw [List.map_cons, List.sum_cons, ih, Function.comp_apply, htoken, List.count_cons]
    cases b <;> simp [Nat.add_comm]

/-- Each opposed pawn of the side to move faces a pawn of its own. -/
theorem opposing_le (side : EgtSide) : M.opposing ≤ M.roles side .pawn := by
  have hstm : ∀ w : List EgtSide, (stmFlags w).count true
      + (if w.head? = some sideNotToMove then 1 else 0) ≤ w.count sideNotToMove := by
    intro w
    induction w with
    | nil => exact le_rfl
    | cons a w ih =>
      cases a with
      | sideToMove =>
        rw [stmFlags, List.count_cons, List.count_cons]
        by_cases hw : w.head? = some sideNotToMove
        · rw [if_pos hw] at ih
          simpa [hw] using ih
        · rw [if_neg hw] at ih
          simpa [hw] using ih
      | sideNotToMove =>
        rw [stmFlags, List.count_cons]
        simp only [List.head?_cons, if_pos, beq_self_eq_true]
        omega
  show M.opposing ≤ (M.files side).length
  rw [length_files]
  refine List.sum_le_sum (fun f _ => ?_)
  rw [pawnFlags_sideToMove]
  cases side with
  | sideToMove =>
    rw [← length_stmFlags]
    exact List.count_le_length
  | sideNotToMove =>
    have := hstm (M.words f)
    omega

/-! ### The name -/

theorem name_eq : M.name = M.nameOf sideToMove ++ '_' :: M.nameOf sideNotToMove := by
  unfold name nameOf
  simp

theorem separator_notMem (side : EgtSide) : '_' ∉ M.nameOf side := by
  unfold nameOf
  rw [List.mem_append]
  exact fun h => h.elim (separator_notMem_pieceName _) (separator_notMem_pawnName _ _)

theorem sideNames_name : (⟨M.name⟩ : TableId).sideNames
    = .ok (M.nameOf sideToMove, M.nameOf sideNotToMove) := by
  have hidx : M.name.idxOf '_' = (M.nameOf sideToMove).length := M.idxOf_separator
  have hne : M.name.idxOf '_' ≠ M.name.length := by
    rw [hidx, name_eq, List.length_append, List.length_cons]
    omega
  unfold TableId.sideNames
  refine (if_neg hne).trans ?_
  show Except.ok (M.name.take (M.name.idxOf '_'), M.name.drop (M.name.idxOf '_' + 1)) = _
  rw [hidx, name_eq, List.take_left, ← List.drop_drop, List.drop_left]
  rfl

theorem filter_upper (side : EgtSide) :
    (M.nameOf side).filter (fun c => 'A' ≤ c && c ≤ 'Z') = roleText (M.roles side) :=
  M.filter_nameOf (by intro r; cases r <;> decide) (by decide) (by decide) side

theorem sidePieceCounts_name : (⟨M.name⟩ : TableId).sidePieceCounts
    = .ok (sideCount (M.roles sideToMove), sideCount (M.roles sideNotToMove)) := by
  unfold TableId.sidePieceCounts
  rw [sideNames_name, Run.ok_bind]
  simp only [List.countP_eq_length_filter, filter_upper]
  rfl

theorem opposingPairs_name : (⟨M.name⟩ : TableId).opposingPairs = .ok M.opposing := by
  unfold TableId.opposingPairs
  rw [sideNames_name, Run.ok_bind]
  exact congrArg Except.ok (M.count_marker sideToMove)

theorem nPieces_name : (⟨M.name⟩ : TableId).nPieces = M.nPieces := by
  have hsep : ('A' ≤ '_' && '_' ≤ 'Z') = false := by decide
  unfold TableId.nPieces
  rw [name_eq, List.countP_append, List.countP_cons, List.countP_eq_length_filter,
    List.countP_eq_length_filter, filter_upper, filter_upper, nPieces_eq_sideCounts, hsep]
  rfl

theorem nPawns_name : (⟨M.name⟩ : TableId).nPawns = M.nPawns := by
  have hcount : ∀ side, (M.nameOf side).count 'P' = M.roles side .pawn := by
    intro side
    have := count_roleText (M.roles side) .pawn
    rw [← M.filter_upper side, List.count_filter (by decide)] at this
    exact this
  unfold TableId.nPawns
  rw [name_eq, List.count_append, List.count_cons, hcount, hcount, nPawns_eq_roles]
  rfl

/-- The directories of a table. -/
theorem directory_name : (⟨M.name⟩ : TableId).directory = .ok ⟨M.nPieces,
    (max (sideCount (M.roles sideToMove)) (sideCount (M.roles sideNotToMove)),
      min (sideCount (M.roles sideToMove)) (sideCount (M.roles sideNotToMove))),
    M.opposing, M.nPawns⟩ := by
  unfold TableId.directory
  rw [sidePieceCounts_name, Run.ok_bind]
  simp only
  rw [opposingPairs_name, Run.ok_bind, nPieces_name, nPawns_name]
  rfl

end Material

/-- The name of an oriented material. -/
def orientedName (roles : EgtSide → Role → ℕ) : List Char :=
  roleText (roles sideToMove) ++ '_' :: roleText (roles sideNotToMove)

theorem Material.material_name (M : Material) :
    (⟨M.name⟩ : TableId).material = orientedName M.roles := by
  have hfilter := fun side => M.filter_nameOf (p := fun c => !('a' ≤ c && c ≤ 'z'))
    (by intro r; cases r <;> decide) (by decide) (by decide) side
  have hsep : (!('a' ≤ '_' && '_' ≤ 'z')) = true := by decide
  unfold TableId.material orientedName
  simp only
  rw [name_eq, List.filter_append, List.filter_cons, if_pos hsep, hfilter, hfilter]

theorem separator_notMem_roleText (roles : Role → ℕ) : '_' ∉ roleText roles := by
  unfold roleText
  rw [List.mem_flatMap]
  rintro ⟨r, -, h⟩
  have := (List.mem_replicate.mp h).2
  revert this
  cases r <;> decide

/-! ### Splitting at a separator -/

theorem splitOnce_append {c : Char} {a b : List Char} (h : c ∉ a) :
    splitOnce c (a ++ c :: b) = some (a, b) := by
  have hidx : (a ++ c :: b).idxOf c = a.length := by
    rw [List.idxOf_append_of_notMem h]
    simp
  unfold splitOnce
  rw [if_pos (by simp), hidx, List.take_left, ← List.drop_drop, List.drop_left]
  rfl

theorem splitOnce_eq_some {c : Char} {text a b : List Char} :
    splitOnce c text = some (a, b) ↔ text = a ++ c :: b ∧ c ∉ a := by
  constructor
  · intro h
    have hmem : c ∈ text := by
      by_contra hno
      rw [splitOnce, if_neg hno] at h
      cases h
    obtain ⟨a', b', rfl, hno⟩ := List.eq_append_cons_of_mem hmem
    rw [splitOnce_append hno, Option.some.injEq, Prod.mk.injEq] at h
    rw [← h.1, ← h.2]
    exact ⟨rfl, hno⟩
  · rintro ⟨rfl, h⟩
    exact splitOnce_append h

/-! ### Reading material names -/

theorem upperRole_eq_some {c : Char} {r : Role} : upperRole c = some r ↔ c = r.upperChar := by
  constructor
  · intro h
    unfold upperRole pieceRole at h
    split at h
    · cases h
      rfl
    · split at h <;> cases h <;> rfl
  · rintro rfl
    cases r <;> rfl

theorem upperRole_of_mem {roles : Role → ℕ} {c : Char} (h : c ∈ roleText roles) :
    ∃ r : Role, upperRole c = some r := by
  obtain ⟨r, -, hc⟩ := List.mem_flatMap.mp h
  exact ⟨r, upperRole_eq_some.mpr (List.mem_replicate.mp hc).2⟩

namespace OrientedMaterial

variable {name text : List Char}

/-- The letters are counted if there are no others. -/
theorem foldlM_countLetter (roles : Role → ℕ) :
    (∃ e, text.foldlM (countLetter name) roles = .error (.error e) ∧
        ∃ c ∈ text, upperRole c = none) ∨
      text.foldlM (countLetter name) roles = .ok fun r => roles r + text.count r.upperChar := by
  induction text generalizing roles with
  | nil => exact Or.inr rfl
  | cons c text ih =>
    rw [List.foldlM_cons, countLetter]
    cases hc : upperRole c with
    | none => exact Or.inl ⟨_, rfl, c, List.mem_cons_self, hc⟩
    | some role =>
      simp only [Run.pure_eq_ok, Run.ok_bind]
      rcases ih (Function.update roles role (roles role + 1)) with ⟨e, he, d, hd, hnone⟩ | hok
      · exact Or.inl ⟨e, he, d, List.mem_cons_of_mem _ hd, hnone⟩
      · refine Or.inr (hok.trans ?_)
        congr 1
        funext r
        have hrole := upperRole_eq_some.mp hc
        rw [List.count_cons, hrole]
        by_cases hr : r = role
        · subst hr
          rw [Function.update_self]
          simp
          omega
        · have hne : role.upperChar ≠ r.upperChar := fun h => hr (upperChar_injective h).symm
          rw [Function.update_of_ne hr, if_neg (by simpa using hne)]
          rfl

theorem parseSide_cases (name text : List Char) :
    (∃ e, parseSide name text = .error (.error e) ∧
      ∀ roles, roles .king = 1 → text ≠ roleText roles) ∨
    ∃ roles, roles .king = 1 ∧ text = roleText roles ∧ parseSide name text = .ok roles := by
  unfold parseSide
  rcases @foldlM_countLetter name text (fun _ => 0) with ⟨e, he, c, hc, hnone⟩ | hok
  · refine Or.inl ⟨e, by rw [he]; rfl, fun roles _ htext => ?_⟩
    rw [htext] at hc
    obtain ⟨r, hr⟩ := upperRole_of_mem hc
    rw [hnone] at hr
    cases hr
  · have hcount : ∀ roles, text = roleText roles →
        (fun r : Role => 0 + text.count r.upperChar) = roles := by
      intro roles htext
      funext r
      rw [htext, count_roleText, Nat.zero_add]
    rw [hok, Run.ok_bind]
    by_cases hking : 0 + text.count Role.king.upperChar = 1
    · rw [if_neg (not_not.mpr hking)]
      by_cases htext : roleText (fun r => 0 + text.count r.upperChar) = text
      · rw [if_neg (not_not.mpr htext)]
        exact Or.inr ⟨_, hking, htext.symm, rfl⟩
      · rw [if_pos htext]
        refine Or.inl ⟨_, rfl, fun roles _ hroles => htext ?_⟩
        rw [hcount roles hroles, ← hroles]
    · rw [if_pos hking]
      refine Or.inl ⟨_, rfl, fun roles hone hroles => hking ?_⟩
      rw [← hone, ← hcount roles hroles]

/-- The material of counts of letters. -/
def ofRoles (roles : EgtSide → Role → ℕ) : OrientedMaterial where
  stmPawns := roles sideToMove .pawn
  sntmPawns := roles sideNotToMove .pawn
  pieces := pieceGroups (roles sideToMove) sideToMove ++
    pieceGroups (roles sideNotToMove) sideNotToMove
  sideCounts := (sideCount (roles sideToMove), sideCount (roles sideNotToMove))

/-- The counts of a material with its kings and at most eight pieces. -/
structure Roles (roles : EgtSide → Role → ℕ) : Prop where
  king : ∀ side, roles side .king = 1
  total : sideCount (roles sideToMove) + sideCount (roles sideNotToMove) ≤ maxPieces

theorem Roles.two_le {roles : EgtSide → Role → ℕ} (h : Roles roles) :
    2 ≤ sideCount (roles sideToMove) + sideCount (roles sideNotToMove) := by
  rw [sideCount_eq, sideCount_eq, h.king, h.king]
  omega

/-- Something for each side. -/
def bySide {α : Type} (a b : α) : EgtSide → α
  | .sideToMove => a
  | .sideNotToMove => b

/-- **Material names** are read as the counts of their letters, and nothing else is read. -/
theorem parse_cases (name : List Char) :
    (∃ e, parse name = .error (.error e) ∧ ∀ roles, Roles roles → name ≠ orientedName roles) ∨
    ∃ roles, Roles roles ∧ name = orientedName roles ∧ parse name = .ok (ofRoles roles) := by
  unfold parse
  cases hsplit : splitOnce '_' name with
  | none =>
    refine Or.inl ⟨_, rfl, fun roles _ hname => ?_⟩
    rw [hname, orientedName, splitOnce_append (separator_notMem_roleText _)] at hsplit
    cases hsplit
  | some sides =>
    obtain ⟨stm, sntm⟩ := sides
    -- What the sides are if this is the name of some counts.
    have hsides : ∀ roles, name = orientedName roles →
        stm = roleText (roles sideToMove) ∧ sntm = roleText (roles sideNotToMove) := by
      intro roles hname
      rw [hname, orientedName, splitOnce_append (separator_notMem_roleText _), Option.some.injEq,
        Prod.mk.injEq] at hsplit
      exact ⟨hsplit.1.symm, hsplit.2.symm⟩
    simp only
    rcases parseSide_cases name stm with ⟨e, he, hno⟩ | ⟨a, ha, hstm, hok⟩
    · refine Or.inl ⟨e, by rw [he]; rfl, fun roles hroles hname => ?_⟩
      exact hno _ (hroles.king sideToMove) (hsides roles hname).1
    rw [hok, Run.ok_bind]
    rcases parseSide_cases name sntm with ⟨e, he, hno⟩ | ⟨b, hb, hsntm, hok'⟩
    · refine Or.inl ⟨e, by rw [he]; rfl, fun roles hroles hname => ?_⟩
      exact hno _ (hroles.king sideNotToMove) (hsides roles hname).2
    rw [hok', Run.ok_bind]
    by_cases hcount : 2 ≤ stm.length + sntm.length ∧ stm.length + sntm.length ≤ maxPieces
    · rw [if_neg (not_not.mpr hcount)]
      refine Or.inr ⟨bySide a b, ⟨?_, ?_⟩, ?_, ?_⟩
      · intro side
        cases side with
        | sideToMove => exact ha
        | sideNotToMove => exact hb
      · show (roleText a).length + (roleText b).length ≤ maxPieces
        rw [← hstm, ← hsntm]
        exact hcount.2
      · rw [(splitOnce_eq_some.mp hsplit).1, hstm, hsntm]
        rfl
      · rw [hstm, hsntm]
        rfl
    · rw [if_pos hcount]
      refine Or.inl ⟨_, rfl, fun roles hroles hname => hcount ?_⟩
      obtain ⟨h₁, h₂⟩ := hsides roles hname
      rw [h₁, h₂]
      exact ⟨hroles.two_le, hroles.total⟩

theorem orientedName_injective {a b : EgtSide → Role → ℕ} (h : orientedName a = orientedName b) :
    a = b := by
  have hsplit := splitOnce_append (b := roleText (a sideNotToMove))
    (separator_notMem_roleText (a sideToMove))
  have h' : roleText (a sideToMove) ++ '_' :: roleText (a sideNotToMove)
      = roleText (b sideToMove) ++ '_' :: roleText (b sideNotToMove) := h
  rw [h', splitOnce_append (separator_notMem_roleText _), Option.some.injEq, Prod.mk.injEq] at hsplit
  funext side
  cases side with
  | sideToMove => exact (roleText_injective hsplit.1).symm
  | sideNotToMove => exact (roleText_injective hsplit.2).symm

theorem parse_orientedName {roles : EgtSide → Role → ℕ} (h : Roles roles) :
    parse (orientedName roles) = .ok (ofRoles roles) := by
  rcases parse_cases (orientedName roles) with ⟨e, -, hno⟩ | ⟨roles', -, hname, hok⟩
  · exact absurd rfl (hno roles h)
  · rw [hok, orientedName_injective hname]

end OrientedMaterial

theorem Material.roles_sound {M : Material} (hM : M.nPieces ≤ maxPieces) :
    OrientedMaterial.Roles M.roles :=
  ⟨M.roles_king, M.nPieces_eq_sideCounts ▸ hM⟩

end ChessEgt
