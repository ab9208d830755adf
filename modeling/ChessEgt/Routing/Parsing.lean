import ChessEgt.Routing.Names

/-!
# Reading table names

* `parseSide_sideName` — the tokens of one side are read back;
* `parseElements_name` — reading the name of a material gives its elements in canonical order;
* `parseElements_eq_ok` — nothing else is read;
* `table_names_faithful` — names are a faithful code of the accepted material lists.
-/

namespace ChessEgt

open EgtSide

/-! ### One side of a name -/

theorem charFile_fileChar (f : File) : charFile (fileChar f) = some f := by
  revert f; decide

theorem upperChar_ne (r : Role) (h : r ≠ .pawn) : r.upperChar ≠ 'P' := by
  revert h; cases r <;> decide

theorem pieceRole_upperChar (r : Role) (h : r ≠ .pawn) : pieceRole r.upperChar = some r := by
  revert h; cases r <;> decide

theorem parseSide_piece (tokens : SideTokens) {r : Role} (h : r ≠ .pawn) (rest : List Char) :
    parseSide tokens (r.upperChar :: rest) = parseSide { tokens with
      counts := Function.update tokens.counts r (tokens.counts r + 1) } rest := by
  cases r <;> first | exact absurd rfl h | rfl

theorem parseSide_pieces (tokens : SideTokens) {r : Role} (h : r ≠ .pawn) (n : ℕ)
    (rest : List Char) : parseSide tokens (List.replicate n r.upperChar ++ rest)
      = parseSide { tokens with
        counts := Function.update tokens.counts r (tokens.counts r + n) } rest := by
  induction n generalizing tokens with
  | zero => simp
  | succ n ih =>
    rw [List.replicate_succ, List.cons_append, parseSide_piece tokens h, ih]
    simp only [Function.update_self, Function.update_idem]
    rw [Nat.add_right_comm, Nat.add_assoc]

/-- Reading the pieces of one side other than pawns. -/
theorem parseSide_pieceName (count : Role → ℕ) (h : count .pawn = 0) (rest : List Char) :
    parseSide ⟨fun _ => 0, fun _ => []⟩ (pieceName count ++ rest)
      = parseSide ⟨count, fun _ => []⟩ rest := by
  have hroles : Role.all.reverse.filter (· ≠ .pawn) = [.king, .queen, .rook, .bishop, .knight] :=
    rfl
  unfold pieceName
  rw [hroles]
  simp only [List.flatMap_cons, List.flatMap_nil, List.append_nil, List.append_assoc]
  rw [parseSide_pieces _ (by decide), parseSide_pieces _ (by decide),
    parseSide_pieces _ (by decide), parseSide_pieces _ (by decide),
    parseSide_pieces _ (by decide)]
  congr 2
  funext r
  cases r <;> simp [h]

theorem parseSide_pawnToken (tokens : SideTokens) (f : File) (b : Bool) {rest : List Char}
    (hrest : rest.head? ≠ some 'o') : parseSide tokens (pawnToken f b ++ rest)
      = parseSide { tokens with
        flags := Function.update tokens.flags f (tokens.flags f ++ [b]) } rest := by
  unfold pawnToken
  cases b with
  | true =>
    show parseSide tokens ('P' :: fileChar f :: 'o' :: rest) = _
    rw [parseSide, charFile_fileChar]
    rfl
  | false =>
    show parseSide tokens ('P' :: fileChar f :: rest) = _
    rw [parseSide, charFile_fileChar]
    cases rest with
    | nil => rfl
    | cons c rest =>
      have hc : c ≠ 'o' := fun h => hrest (congrArg some h)
      simp only
      split
      next h => exact absurd (List.cons.inj h).1 hc
      next => rfl

/-- Tokens of pawns do not start with the marker. -/
theorem head_pawnTokens (f : File) (flags : List Bool) {rest : List Char}
    (hrest : rest.head? ≠ some 'o') :
    (flags.flatMap (pawnToken f) ++ rest).head? ≠ some 'o' := by
  cases flags with
  | nil => exact hrest
  | cons b flags =>
    rw [List.flatMap_cons, pawnToken]
    simp

theorem parseSide_pawnTokens (tokens : SideTokens) (f : File) (flags : List Bool)
    {rest : List Char} (hrest : rest.head? ≠ some 'o') :
    parseSide tokens (flags.flatMap (pawnToken f) ++ rest) = parseSide { tokens with
      flags := Function.update tokens.flags f (tokens.flags f ++ flags) } rest := by
  induction flags generalizing tokens with
  | nil => simp
  | cons b flags ih =>
    rw [List.flatMap_cons, List.append_assoc, parseSide_pawnToken _ _ _ (head_pawnTokens f _ hrest),
      ih]
    simp only [Function.update_self, Function.update_idem, List.append_assoc, List.singleton_append]

/-- Reading the pawns of some files. -/
theorem parseSide_files (tokens : SideTokens) (flags : File → List Bool) {fs : List File}
    (hfs : fs.Nodup) (hnil : ∀ f ∈ fs, tokens.flags f = []) :
    parseSide tokens (fs.flatMap fun f => (flags f).flatMap (pawnToken f))
      = .ok ⟨tokens.counts, fun f => if f ∈ fs then flags f else tokens.flags f⟩ := by
  have hhead : ∀ fs : List File,
      (fs.flatMap fun f => (flags f).flatMap (pawnToken f)).head? ≠ some 'o' := by
    intro fs
    induction fs with
    | nil => simp
    | cons f fs ih =>
      rw [List.flatMap_cons]
      exact head_pawnTokens f (flags f) ih
  induction fs generalizing tokens with
  | nil => simp [parseSide]
  | cons f fs ih =>
    rw [List.nodup_cons] at hfs
    rw [List.flatMap_cons, parseSide_pawnTokens _ _ _ (hhead fs), hnil f List.mem_cons_self,
      List.nil_append, ih _ hfs.2 (fun g hg => ?_)]
    · congr 2
      funext g
      by_cases hgf : g = f
      · subst hgf
        simp [hfs.1]
      · simp [hgf]
    · have hgf : g ≠ f := fun h => hfs.1 (h ▸ hg)
      simp only
      rw [Function.update_of_ne hgf, hnil g (List.mem_cons_of_mem _ hg)]

/-- **One side** of a name is read back as its counts and flags. -/
theorem parseSide_sideName (w : File → List EgtSide) (side : EgtSide) (count : Role → ℕ)
    (h : count .pawn = 0) :
    parseSide ⟨fun _ => 0, fun _ => []⟩ (pieceName count ++ pawnName w side)
      = .ok ⟨count, fun f => pawnFlags (w f) side⟩ := by
  rw [parseSide_pieceName count h, pawnName,
    parseSide_files _ (fun f => pawnFlags (w f) side) (List.nodup_finRange 8) (fun _ _ => rfl)]
  simp

/-! ### The separator -/

theorem separator_notMem_pieceName (count : Role → ℕ) : '_' ∉ pieceName count := by
  unfold pieceName
  rw [List.mem_flatMap]
  rintro ⟨r, -, h⟩
  have := (List.mem_replicate.mp h).2
  revert this
  cases r <;> decide

theorem separator_notMem_pawnName (w : File → List EgtSide) (side : EgtSide) :
    '_' ∉ pawnName w side := by
  unfold pawnName
  rw [List.mem_flatMap]
  rintro ⟨f, -, h⟩
  obtain ⟨b, -, h⟩ := List.mem_flatMap.mp h
  have hnot : ∀ f b, '_' ∉ pawnToken f b := by decide
  exact hnot f b h

/-- The separator splits the name into its sides. -/
theorem Material.idxOf_separator (M : Material) : M.name.idxOf '_'
    = (pieceName (M.count sideToMove) ++ pawnName M.words sideToMove).length := by
  have hnot : '_' ∉ pieceName (M.count sideToMove) ++ pawnName M.words sideToMove := by
    rw [List.mem_append]
    exact fun h => h.elim (separator_notMem_pieceName _) (separator_notMem_pawnName _ _)
  unfold Material.name
  rw [List.append_assoc, List.idxOf_append_of_notMem hnot]
  simp

/-! ### The whole name -/

/-- The elements that the parser collects are those of the material. -/
theorem sortElements_parsed (M : Material) :
    sortElements (sideElements (M.count sideToMove) sideToMove ++
      sideElements (M.count sideNotToMove) sideNotToMove ++
      ((List.finRange 8).map fun f => if M.words f = [] then none
        else some (EgtElement.pawnGroup f ⟨M.words f, M.words_le f⟩)).reduceOption)
      = M.elements := by
  have hpawns : ((List.finRange 8).map fun f => if M.words f = [] then none
      else some (EgtElement.pawnGroup f ⟨M.words f, M.words_le f⟩)).reduceOption
      = M.pawnElements := by
    rw [List.reduceOption, List.filterMap_map]
    rfl
  have hside : ∀ (c : Role → ℕ) (side : EgtSide) (e : EgtElement), e ∈ sideElements c side ↔
      ∃ r, e = .pieceGroup r side (c r) ∧ c r ≠ 0 := by
    intro c side e
    unfold sideElements
    simp only [List.mem_map, List.mem_filter, List.mem_reverse, Role.mem_all, true_and,
      decide_eq_true_eq]
    constructor
    · rintro ⟨r, hr, rfl⟩; exact ⟨r, rfl, hr⟩
    · rintro ⟨r, rfl, hr⟩; exact ⟨r, hr, rfl⟩
  have hnodup : ∀ (c : Role → ℕ) (side : EgtSide), (sideElements c side).Nodup := by
    intro c side
    refine ((List.Nodup.filter _ (by decide))).map ?_
    intro r r' h
    exact (EgtElement.pieceGroup.inj h).1
  rw [hpawns]
  refine List.Perm.eq_of_pairwise' (r := EgtElement.le) (List.pairwise_insertionSort _ _)
    M.pairwise_elements ((List.perm_insertionSort _ _).trans ?_)
  refine (List.perm_ext_iff_of_nodup ?_ M.nodup_elements).mpr (fun e => ?_)
  · refine List.nodup_append.mpr ⟨List.nodup_append.mpr ⟨hnodup _ _, hnodup _ _, ?_⟩,
      (List.nodup_append.mp M.nodup_elements).1, ?_⟩
    · intro a ha b hb hab
      obtain ⟨r, rfl, -⟩ := (hside _ _ _).mp ha
      obtain ⟨r', rfl, -⟩ := (hside _ _ _).mp hb
      cases hab
    · intro a ha b hb hab
      obtain ⟨f, o, rfl, -⟩ := Material.mem_pawnElements.mp hb
      rcases List.mem_append.mp ha with ha | ha
      · obtain ⟨r, rfl, -⟩ := (hside _ _ _).mp ha
        cases hab
      · obtain ⟨r, rfl, -⟩ := (hside _ _ _).mp ha
        cases hab
  · rw [List.mem_append, List.mem_append, hside, hside, Material.mem_pawnElements,
      Material.mem_elements, or_comm]
    refine or_congr_right ?_
    constructor
    · rintro (⟨r, rfl, hr⟩ | ⟨r, rfl, hr⟩)
      · exact ⟨r, _, _, rfl, rfl, hr⟩
      · exact ⟨r, _, _, rfl, rfl, hr⟩
    · rintro ⟨r, s, m, rfl, rfl, hm⟩
      cases s with
      | sideToMove => exact Or.inl ⟨r, rfl, hm⟩
      | sideNotToMove => exact Or.inr ⟨r, rfl, hm⟩

/-- **Reading a name** gives the elements of its material. -/
theorem parseElements_name {M : Material} (hM : M.nPieces ≤ maxPieces) :
    parseElements M.name = .ok M.elements := by
  have hvl := M.validElements hM
  have hmat := Material.material_validElements hvl
  have hname : computeTablename M.elements = .ok M.name := by
    rw [computeTablename_eq hvl, hmat]
  have hidx := M.idxOf_separator
  have htake : M.name.take (M.name.idxOf '_')
      = pieceName (M.count sideToMove) ++ pawnName M.words sideToMove := by
    rw [hidx]
    unfold Material.name
    rw [List.append_assoc, List.take_left]
  have hdrop : M.name.drop (M.name.idxOf '_' + 1)
      = pieceName (M.count sideNotToMove) ++ pawnName M.words sideNotToMove := by
    rw [hidx]
    unfold Material.name
    rw [← List.length_singleton (a := '_'), ← List.length_append, List.drop_left]
  have hlt : M.name.idxOf '_' ≠ M.name.length := by
    rw [hidx]
    unfold Material.name
    simp only [List.length_append, List.length_cons]
    omega
  have hpawns : ∀ f ∈ List.finRange 8,
      parseFile f (pawnFlags (M.words f) sideToMove) (pawnFlags (M.words f) sideNotToMove)
        = .ok (if M.words f = [] then none
          else some (.pawnGroup f ⟨M.words f, M.words_le f⟩)) :=
    fun f _ => parseFile_pawnFlags f (M.words f) (M.words_le f)
  unfold parseElements
  simp only [if_neg hlt, htake, hdrop, parseSide_sideName _ _ _ (M.count_pawn _), M.count_king,
    Run.pure_eq_ok, Run.ok_bind, ne_eq, not_true_eq_false, if_false]
  rw [Run.mapM_eq_ok (g := fun f => if M.words f = [] then none
    else some (.pawnGroup f ⟨M.words f, M.words_le f⟩)) (fun f hf => by rw [hpawns f hf]),
    Run.ok_bind, sortElements_parsed, validateElements_eq_ok.mpr hvl]
  simp only [Run.ok_bind, hname, not_true_eq_false, if_false]

/-! ### Nothing else is read -/

/-- A list of runs of which each succeeds or returns an error. -/
theorem Run.mapM_cases {α β : Type} {f : α → Run β} {l : List α}
    (h : ∀ a ∈ l, (∃ e, f a = .error (.error e)) ∨ ∃ b, f a = .ok b) :
    (∃ e, l.mapM f = .error (.error e)) ∨ ∃ bs, l.mapM f = .ok bs := by
  induction l with
  | nil => exact Or.inr ⟨[], rfl⟩
  | cons a l ih =>
    rw [List.mapM_cons]
    rcases h a List.mem_cons_self with ⟨e, he⟩ | ⟨b, hb⟩
    · exact Or.inl ⟨e, by rw [he]; rfl⟩
    rw [hb]
    rcases ih (fun a ha => h a (List.mem_cons_of_mem _ ha)) with ⟨e, he⟩ | ⟨bs, hbs⟩
    · exact Or.inl ⟨e, by rw [Run.ok_bind, he]; rfl⟩
    · exact Or.inr ⟨b :: bs, by rw [Run.ok_bind, hbs]; rfl⟩

/-- **The parser** returns an error, or reads the name of a material. -/
theorem parseElements_cases (s : List Char) :
    (∃ e, parseElements s = .error (.error e)) ∨
      ∃ M : Material, M.nPieces ≤ maxPieces ∧ s = M.name ∧ parseElements s = .ok M.elements := by
  unfold parseElements
  by_cases hsep : s.idxOf '_' = s.length
  · exact Or.inl ⟨_, by rw [if_pos hsep]; rfl⟩
  simp only [if_neg hsep, Run.pure_eq_ok]
  -- The two sides.
  cases parseSide ⟨fun _ => 0, fun _ => []⟩ (s.take (s.idxOf '_')) with
  | error e => exact Or.inl ⟨_, rfl⟩
  | ok stm =>
  by_cases hking : stm.counts .king ≠ 1
  · exact Or.inl ⟨_, by rw [Run.ok_bind, if_pos hking]; rfl⟩
  rw [Run.ok_bind, if_neg hking]
  cases parseSide ⟨fun _ => 0, fun _ => []⟩ (s.drop (s.idxOf '_' + 1)) with
  | error e => exact Or.inl ⟨_, rfl⟩
  | ok sntm =>
  by_cases hking' : sntm.counts .king ≠ 1
  · exact Or.inl ⟨_, by rw [Run.ok_bind, if_pos hking']; rfl⟩
  rw [Run.ok_bind, if_neg hking']
  -- The files.
  generalize hfiles : (List.finRange 8).mapM (m := Run) _ = files
  have hcases : (∃ e, files = .error (.error e)) ∨ ∃ bs, files = .ok bs := by
    rw [← hfiles]
    refine Run.mapM_cases (fun f _ => ?_)
    cases parseFile f (stm.flags f) (sntm.flags f) with
    | error e => exact Or.inl ⟨_, rfl⟩
    | ok b => exact Or.inr ⟨b, rfl⟩
  rcases hcases with ⟨e, rfl⟩ | ⟨pawns, rfl⟩
  · exact Or.inl ⟨e, rfl⟩
  rw [Run.ok_bind]
  -- Validation of the sorted elements.
  generalize hl : sortElements _ = l
  have hsorted : sortElements l = l := by
    rw [← hl]
    exact (List.pairwise_insertionSort EgtElement.le _).insertionSort_eq
  cases hval : validateElements l with
  | error e => cases e <;> exact Or.inl ⟨_, rfl⟩
  | ok _ =>
    have hvl := validateElements_eq_ok.mp hval
    have hM : hvl.material.nPieces ≤ maxPieces := by rw [hvl.nPieces_material]; exact hvl.total
    simp only [Run.ok_bind, computeTablename_eq hvl]
    by_cases hname : hvl.material.name = s
    · refine Or.inr ⟨hvl.material, hM, hname.symm, ?_⟩
      rw [if_neg (not_not.mpr hname), ← hvl.sortElements_eq, hsorted]
    · exact Or.inl ⟨_, by rw [if_pos hname]; rfl⟩

/-- What is read is the name of the elements it is read as. -/
theorem parseElements_eq_ok {s : List Char} {l : List EgtElement} :
    parseElements s = .ok l ↔ ∃ M : Material, M.nPieces ≤ maxPieces ∧ s = M.name ∧
      l = M.elements := by
  constructor
  · intro h
    rcases parseElements_cases s with ⟨e, he⟩ | ⟨M, hM, hs, hl⟩
    · rw [he] at h; cases h
    · exact ⟨M, hM, hs, Except.ok.inj (h.symm.trans hl)⟩
  · rintro ⟨M, hM, rfl, rfl⟩
    exact parseElements_name hM

/-- Materials with one name are equal. -/
theorem Material.name_injective {M M' : Material} (hM : M.nPieces ≤ maxPieces)
    (hM' : M'.nPieces ≤ maxPieces) (h : M.name = M'.name) : M = M' := by
  have he : M.elements = M'.elements := by
    have h₁ := parseElements_name hM
    rw [h, parseElements_name hM'] at h₁
    exact (Except.ok.inj h₁).symm
  have hvl := M.validElements hM
  have hvl' := M'.validElements hM'
  have hmat : ∀ {l l' : List EgtElement} (h : ValidElements l) (h' : ValidElements l'),
      l = l' → h.material = h'.material := by
    rintro l l' h h' rfl; rfl
  rw [← material_validElements hvl, ← material_validElements hvl', hmat hvl hvl' he]

/-! ### Validated names -/

/-- Validated names are the names of canonical materials. -/
theorem TableId.parse_cases (s : List Char) :
    (∃ e, TableId.parse s = .error (.error e) ∧
      ∀ M : Material, M.nPieces ≤ maxPieces → M.Canonical → s ≠ M.name) ∨
    ∃ M : Material, M.nPieces ≤ maxPieces ∧ M.Canonical ∧ s = M.name ∧
      TableId.parse s = .ok ⟨s⟩ := by
  unfold TableId.parse
  rcases parseElements_cases s with ⟨e, he⟩ | ⟨M, hM, hs, hl⟩
  · refine Or.inl ⟨e, by rw [he]; rfl, fun M hM _ hs => ?_⟩
    rw [hs, parseElements_name hM] at he
    cases he
  · rw [hl, Run.ok_bind, PawnKey.fromElements_eq, PawnKey.canonicalized_ofOrders hM, Run.ok_bind]
    by_cases hc : M.Canonical
    · refine Or.inr ⟨M, hM, hc, hs, ?_⟩
      rw [decide_eq_false (not_not.mpr hc)]
      rfl
    · refine Or.inl ⟨_, by rw [decide_eq_true hc]; rfl, fun M' hM' hc' hs' => hc ?_⟩
      rw [Material.name_injective hM hM' (hs.symm.trans hs')]
      exact hc'

theorem TableId.parse_eq_ok {s : List Char} {id : TableId} :
    TableId.parse s = .ok id ↔ ∃ M : Material, M.nPieces ≤ maxPieces ∧ M.Canonical ∧
      s = M.name ∧ id = ⟨M.name⟩ := by
  constructor
  · intro h
    rcases TableId.parse_cases s with ⟨e, he, -⟩ | ⟨M, hM, hc, hs, hp⟩
    · rw [he] at h; cases h
    · exact ⟨M, hM, hc, hs, by rw [← hs, Except.ok.inj (h.symm.trans hp)]⟩
  · rintro ⟨M, hM, hc, hs, rfl⟩
    rcases TableId.parse_cases s with ⟨e, -, hno⟩ | ⟨M', -, -, -, hp⟩
    · exact absurd hs (hno M hM hc)
    · rw [hp, hs]

/-- **Table names** are a faithful code of the accepted material lists: the parser never panics
    and reads exactly the names of accepted lists, each as its list in canonical order; validated
    names are those of canonical orientations, and of a pawn layout and its reflection exactly
    one is canonical unless they are equal. -/
theorem table_names_faithful :
    (∀ s, (∀ reason, parseElements s ≠ .error (.panicked reason)) ∧
      (∀ l, parseElements s = .ok l ↔
        ∃ e, validateElements e = .ok () ∧ computeTablename e = .ok s ∧ l = sortElements e)) ∧
    (∀ e, validateElements e = .ok () → ∃ s, computeTablename e = .ok s ∧
      ∀ e', validateElements e' = .ok () → computeTablename e' = .ok s →
        sortElements e' = sortElements e ∧ e'.Perm e) ∧
    (∀ s, (∀ reason, TableId.parse s ≠ .error (.panicked reason)) ∧
      (∀ id, TableId.parse s = .ok id ↔ id = ⟨s⟩ ∧ ∃ e, validateElements e = .ok () ∧
        computeTablename e = .ok s ∧ ∃ key, (PawnKey.fromElements e).canonicalized
          = .ok (key, false))) ∧
    (∀ e, validateElements e = .ok () → ∃ key key' b b',
      (PawnKey.fromElements e).canonicalized = .ok (key, b) ∧
      (PawnKey.fromElements e).reflected.canonicalized = .ok (key', b') ∧ key = key' ∧
      if PawnKey.fromElements e = (PawnKey.fromElements e).reflected then b = false ∧ b' = false
      else b ≠ b') := by
  have hmat : ∀ {e} (h : ValidElements e), h.material.nPieces ≤ maxPieces := by
    intro e h; rw [h.nPieces_material]; exact h.total
  refine ⟨fun s => ⟨fun reason hr => ?_, fun l => ?_⟩, fun e he => ?_,
    fun s => ⟨fun reason hr => ?_, fun id => ?_⟩, fun e he => ?_⟩
  · rcases parseElements_cases s with ⟨e, he⟩ | ⟨M, -, -, hl⟩
    · rw [he] at hr; cases hr
    · rw [hl] at hr; cases hr
  · rw [parseElements_eq_ok]
    constructor
    · rintro ⟨M, hM, rfl, rfl⟩
      have hvl := M.validElements hM
      have hm := Material.material_validElements hvl
      exact ⟨M.elements, validateElements_eq_ok.mpr hvl, by rw [computeTablename_eq hvl, hm],
        by rw [hvl.sortElements_eq, hm]⟩
    · rintro ⟨e, he, hs, rfl⟩
      have hvl := validateElements_eq_ok.mp he
      rw [computeTablename_eq hvl] at hs
      exact ⟨hvl.material, hmat hvl, (Except.ok.inj hs).symm, hvl.sortElements_eq⟩
  · have hvl := validateElements_eq_ok.mp he
    refine ⟨_, computeTablename_eq hvl, fun e' he' hs => ?_⟩
    have hvl' := validateElements_eq_ok.mp he'
    rw [computeTablename_eq hvl'] at hs
    have heq := Material.name_injective (hmat hvl') (hmat hvl) (Except.ok.inj hs)
    have hperm := hvl'.perm_material_elements
    rw [heq] at hperm
    exact ⟨by rw [hvl'.sortElements_eq, hvl.sortElements_eq, heq],
      hperm.trans hvl.perm_material_elements.symm⟩
  · rcases TableId.parse_cases s with ⟨e, he, -⟩ | ⟨M, -, -, -, hp⟩
    · rw [he] at hr; cases hr
    · rw [hp] at hr; cases hr
  · rw [TableId.parse_eq_ok]
    constructor
    · rintro ⟨M, hM, hc, rfl, rfl⟩
      have hvl := M.validElements hM
      have hm := Material.material_validElements hvl
      refine ⟨rfl, M.elements, validateElements_eq_ok.mpr hvl, by rw [computeTablename_eq hvl, hm],
        PawnKey.ofOrders M.canonical.words, ?_⟩
      rw [PawnKey.fromElements_eq, PawnKey.canonicalized_ofOrders hM,
        decide_eq_false (not_not.mpr hc)]
    · rintro ⟨rfl, e, he, hs, key, hkey⟩
      have hvl := validateElements_eq_ok.mp he
      rw [computeTablename_eq hvl] at hs
      rw [hvl.fromElements_eq, PawnKey.canonicalized_ofOrders (hmat hvl)] at hkey
      have hc := of_decide_eq_false (Prod.mk.inj (Except.ok.inj hkey)).2
      exact ⟨hvl.material, hmat hvl, not_not.mp hc, (Except.ok.inj hs).symm,
        by rw [Except.ok.inj hs]⟩
  · have hvl := validateElements_eq_ok.mp he
    have hM := hmat hvl
    have hM' : hvl.material.mirrored.nPieces ≤ maxPieces := by
      rw [Material.nPieces_mirrored]; exact hM
    have hkey := PawnKey.canonicalized_ofOrders hM
    have hkey' := PawnKey.canonicalized_ofOrders hM'
    rw [Material.canonical_mirrored] at hkey'
    rw [hvl.fromElements_eq]
    refine ⟨_, _, _, _, hkey, hkey', rfl, ?_⟩
    have hsame : PawnKey.ofOrders hvl.material.words
        = (PawnKey.ofOrders hvl.material.words).reflected ↔ hvl.material.orientation = .eq := by
      rw [PawnKey.reflected_ofOrders, PawnKey.ofOrders_injective.eq_iff]
      constructor
      · intro h
        exact Material.orientation_eq_of_mirrored (Material.ext h.symm rfl)
      · intro h
        exact (congrArg Material.words (Material.mirrored_eq_of_orientation h)).symm
    have hmirrored : hvl.material.mirrored.Canonical ↔ hvl.material.orientation ≠ .lt := by
      unfold Material.Canonical
      rw [Material.orientation_mirrored]
      cases hvl.material.orientation <;> decide
    have hcanonical : hvl.material.Canonical ↔ hvl.material.orientation ≠ .gt := Iff.rfl
    simp only [hsame, hmirrored, hcanonical]
    cases hvl.material.orientation <;> decide

end ChessEgt
