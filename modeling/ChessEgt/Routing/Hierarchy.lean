import ChessEgt.Routing.Enumeration
import ChessEgt.Routing.Paths

/-!
# Hierarchy prefixes

`SelectorPrefix.Valid` is what the components of an accepted prefix satisfy. `parse_cases` says
what a selector is accepted as; it never panics. `SelectorPrefix.selects_iff` says that a prefix
selects the directories whose path starts with it.
-/

namespace ChessEgt

open TableId.Directory (splitText opposingText pawnsText)

namespace SelectorPrefix

/-- What is known of the components of an accepted prefix. -/
structure Valid (pre : SelectorPrefix) : Prop where
  count : ∀ n ∈ pre.n, 2 ≤ n ∧ n ≤ maxPieces
  split : ∀ s ∈ pre.split, pre.n = some (s.1 + s.2) ∧ 1 ≤ s.2 ∧ s.2 ≤ s.1
  opposing : ∀ k ∈ pre.opposing, ∃ s, pre.split = some s ∧ k + 1 ≤ s.2
  pawns : ∀ p ∈ pre.pawns, ∃ n k, pre.n = some n ∧ pre.opposing = some k ∧ p + 2 ≤ n ∧ 2 * k ≤ p

/-- The texts of the components are those at the places of a path. -/
structure Spells (pre : SelectorPrefix) (parts : List (List Char)) : Prop where
  count : pre.n.map decimalDigits = parts[0]?
  split : pre.split.map splitText = parts[1]?
  opposing : pre.opposing.map opposingText = parts[2]?
  pawns : pre.pawns.map pawnsText = parts[3]?

/-! ### Reading the components -/

variable (selector : List Char)

theorem readCount_cases (part : Option (List Char)) :
    (∃ e, empty.readCount selector part = .error (.error e)) ∨
    ∃ n, empty.readCount selector part = .ok ⟨n, none, none, none⟩ ∧
      Valid ⟨n, none, none, none⟩ ∧ n.map decimalDigits = part := by
  cases part with
  | none => exact Or.inr ⟨none, rfl, ⟨by simp, by simp, by simp, by simp⟩, rfl⟩
  | some part =>
    unfold readCount
    cases hn : decimal part with
    | none =>
      simp only [hn]
      exact Or.inl ⟨_, rfl⟩
    | some n =>
      simp only [hn]
      by_cases hrange : 2 ≤ n ∧ n ≤ maxPieces
      · rw [if_neg (not_not.mpr hrange)]
        refine Or.inr ⟨some n, rfl, ⟨?_, by simp, by simp, by simp⟩, ?_⟩
        · rintro m ⟨⟩
          exact hrange
        · rw [(decimal_eq_some.mp hn).1]
          rfl
      · rw [if_pos hrange]
        exact Or.inl ⟨_, rfl⟩

/-- A split is read only after a piece count. -/
theorem readSplit_cases {n : Option ℕ} (h : Valid ⟨n, none, none, none⟩)
    {part : Option (List Char)} (hn : part ≠ none → n ≠ none) :
    (∃ e, (⟨n, none, none, none⟩ : SelectorPrefix).readSplit selector part = .error (.error e)) ∨
    ∃ s, (⟨n, none, none, none⟩ : SelectorPrefix).readSplit selector part
        = .ok ⟨n, s, none, none⟩ ∧
      Valid ⟨n, s, none, none⟩ ∧ s.map splitText = part := by
  cases part with
  | none => exact Or.inr ⟨none, rfl, h, rfl⟩
  | some part =>
    unfold readSplit
    cases hsplit : splitOnce 'v' part with
    | none =>
      simp only [hsplit]
      exact Or.inl ⟨_, rfl⟩
    | some sides =>
      obtain ⟨a, b⟩ := sides
      cases ha : decimal a with
      | none =>
        simp only [hsplit, ha]
        exact Or.inl ⟨_, rfl⟩
      | some a' =>
        cases hb : decimal b with
        | none =>
          simp only [hsplit, ha, hb]
          exact Or.inl ⟨_, rfl⟩
        | some b' =>
          simp only [hsplit, ha, hb]
          by_cases hbad : b' = 0 ∨ a' < b' ∨
              (if a' + b' ≤ usizeMax then some (a' + b') else none) ≠ n
          · rw [if_pos hbad]
            exact Or.inl ⟨_, rfl⟩
          · rw [if_neg hbad]
            rw [not_or, not_or, not_not] at hbad
            obtain ⟨hb0, hlt, hsum⟩ := hbad
            refine Or.inr ⟨some (a', b'), rfl, ⟨h.count, ?_, by simp, by simp⟩, ?_⟩
            · rintro s ⟨⟩
              refine ⟨?_, Nat.one_le_iff_ne_zero.mpr hb0, Nat.le_of_not_lt hlt⟩
              -- An overflow of the sum is no piece count.
              split_ifs at hsum with hmax
              · exact hsum.symm
              · exact absurd hsum.symm (hn (Option.some_ne_none _))
            · rw [(splitOnce_eq_some.mp hsplit).1, (decimal_eq_some.mp ha).1,
                (decimal_eq_some.mp hb).1]
              rfl

theorem readOpposing_cases {n : Option ℕ} {s : Option (ℕ × ℕ)} (h : Valid ⟨n, s, none, none⟩)
    {part : Option (List Char)} (hs : part ≠ none → s ≠ none) :
    (∃ e, (⟨n, s, none, none⟩ : SelectorPrefix).readOpposing selector part = .error (.error e)) ∨
    ∃ k, (⟨n, s, none, none⟩ : SelectorPrefix).readOpposing selector part
        = .ok ⟨n, s, k, none⟩ ∧
      Valid ⟨n, s, k, none⟩ ∧ k.map opposingText = part := by
  cases part with
  | none => exact Or.inr ⟨none, rfl, h, rfl⟩
  | some part =>
    obtain ⟨s, rfl⟩ := Option.ne_none_iff_exists'.mp (hs (Option.some_ne_none _))
    obtain ⟨hsum, hpos, hle⟩ := h.split s rfl
    unfold readOpposing
    cases hk : (part.dropPrefix? "op".toList).bind decimal with
    | none =>
      simp only [hk]
      exact Or.inl ⟨_, rfl⟩
    | some k =>
      simp only [hk]
      rw [Run.expect_some, Run.ok_bind, Run.sub_eq hpos, Run.ok_bind]
      by_cases hmost : s.2 - 1 < k
      · rw [if_pos hmost]
        exact Or.inl ⟨_, rfl⟩
      · rw [if_neg hmost]
        refine Or.inr ⟨some k, rfl, ⟨h.count, h.split, ?_, by simp⟩, ?_⟩
        · rintro k ⟨⟩
          exact ⟨s, rfl, by omega⟩
        · obtain ⟨digits, hdigits, hdecimal⟩ := Option.bind_eq_some_iff.mp hk
          obtain ⟨pre, rfl, hpre⟩ := List.dropPrefix?_eq_some_iff.mp hdigits
          rw [eq_of_beq hpre, (decimal_eq_some.mp hdecimal).1]
          rfl

theorem readPawns_cases {n : Option ℕ} {s : Option (ℕ × ℕ)} {k : Option ℕ}
    (h : Valid ⟨n, s, k, none⟩) {part : Option (List Char)} (hk : part ≠ none → k ≠ none) :
    (∃ e, (⟨n, s, k, none⟩ : SelectorPrefix).readPawns selector part = .error (.error e)) ∨
    ∃ p, (⟨n, s, k, none⟩ : SelectorPrefix).readPawns selector part = .ok ⟨n, s, k, p⟩ ∧
      Valid ⟨n, s, k, p⟩ ∧ p.map pawnsText = part := by
  cases part with
  | none => exact Or.inr ⟨none, rfl, h, rfl⟩
  | some part =>
    obtain ⟨k, rfl⟩ := Option.ne_none_iff_exists'.mp (hk (Option.some_ne_none _))
    obtain ⟨s, hs, -⟩ := h.opposing k rfl
    obtain ⟨hn, -⟩ := h.split s hs
    obtain ⟨hrange, -⟩ := h.count _ hn
    unfold readPawns
    cases hp : (part.dropSuffix? "pawns".toList).bind decimal with
    | none =>
      simp only [hp]
      exact Or.inl ⟨_, rfl⟩
    | some p =>
      simp only [hp]
      simp only at hn
      rw [hn, Run.expect_some, Run.ok_bind, Run.sub_eq hrange, Run.ok_bind, Run.expect_some,
        Run.ok_bind]
      by_cases hbad : s.1 + s.2 - 2 < p ∨ p < 2 * k
      · rw [if_pos hbad]
        exact Or.inl ⟨_, rfl⟩
      · rw [if_neg hbad]
        refine Or.inr ⟨some p, rfl, ⟨?_, ?_, h.opposing, ?_⟩, ?_⟩
        · exact hn ▸ h.count
        · exact hn ▸ h.split
        · rintro p ⟨⟩
          exact ⟨_, k, rfl, rfl, by omega, by omega⟩
        · obtain ⟨digits, hdigits, hdecimal⟩ := Option.bind_eq_some_iff.mp hp
          obtain ⟨suf, rfl, hsuf⟩ := List.dropSuffix?_eq_some_iff.mp hdigits
          rw [eq_of_beq hsuf, (decimal_eq_some.mp hdecimal).1]
          rfl

/-! ### Selected directories -/

theorem all_eq_iff {α : Type} [DecidableEq α] {text : α → List Char}
    (hinj : ∀ {a b}, text a = text b → a = b) {o : Option α} {a : α} {part : Option (List Char)}
    (h : o.map text = part) : o.all (· = a) = true ↔ ∀ c ∈ part, c = text a := by
  subst h
  cases o with
  | none => simp
  | some b =>
    simp only [Option.all_some, decide_eq_true_eq, Option.map_some, Option.mem_some_iff, forall_eq']
    exact ⟨congrArg text, hinj⟩

/-- **A prefix selects** the directories whose path starts with its own. -/
theorem selects_iff {pre : SelectorPrefix} {parts : List (List Char)} (h : pre.Spells parts)
    (hlen : parts.length ≤ 4) (hslash : ∀ part ∈ parts, '/' ∉ part) (d : TableId.Directory)
    (rest : List Char) : pre.selects d = true ↔ joined parts <+: d.path ++ rest := by
  rw [d.path_eq, joined_isPrefix hslash (fun c hc => TableId.Directory.notMem_components hc) hlen]
  unfold selects
  simp only [Bool.and_eq_true]
  rw [all_eq_iff decimalDigits_injective h.count,
    all_eq_iff TableId.Directory.splitText_injective h.split,
    all_eq_iff TableId.Directory.opposingText_injective h.opposing,
    all_eq_iff TableId.Directory.pawnsText_injective h.pawns]
  unfold TableId.Directory.components
  rcases parts with _ | ⟨a, _ | ⟨b, _ | ⟨c, _ | ⟨e, _ | ⟨f, parts⟩⟩⟩⟩⟩
  · simp
  · simp
  · simp
  · simp [and_assoc]
  · simp [and_assoc]
  · simp only [List.length_cons] at hlen
    omega

end SelectorPrefix

/-! ### Accepted selectors -/

namespace TableSelector

/-- What an accepted selector stands for. -/
def Accepts (selector : List Char) : Target → Prop
  | .hierarchy pre => pre.Valid ∧ pre.n ≠ none ∧
    ∀ (d : TableId.Directory) (rest : List Char),
      pre.selects d = true ↔ stripSlash selector ++ ['/'] <+: d.path ++ rest
  | .material material => ∃ roles, OrientedMaterial.Roles roles ∧
    selector = orientedName roles ∧ material = OrientedMaterial.ofRoles roles
  | .exactTable table => TableId.parse selector = .ok table

theorem stripSlash_of_notMem {selector : List Char} (h : '/' ∉ selector) :
    stripSlash selector = selector := by
  unfold stripSlash
  rw [if_neg fun hlast => h (List.mem_of_getLast? hlast)]

/-- **Selectors** are accepted or refused, and what an accepted selector stands for. -/
theorem parse_cases (selector : List Char) :
    (∃ e, parse selector = .error (.error e)) ∨
    ∃ target, parse selector = .ok ⟨selector, target⟩ ∧ Accepts selector target := by
  unfold parse
  simp only
  by_cases hempty : stripSlash selector = []
  · rw [if_pos hempty]
    exact Or.inl ⟨_, rfl⟩
  rw [if_neg hempty]
  by_cases hsep : '_' ∈ stripSlash selector
  · rw [if_pos hsep]
    by_cases hslash : '/' ∈ selector
    · rw [if_pos hslash]
      exact Or.inl ⟨_, rfl⟩
    rw [if_neg hslash, stripSlash_of_notMem hslash]
    by_cases hlower : (selector.any fun c => 'a' ≤ c && c ≤ 'z') = true
    · rw [if_pos hlower]
      rcases TableId.parse_cases selector with ⟨e, he, -⟩ | ⟨M, -, -, -, hok⟩
      · rw [he]
        exact Or.inl ⟨_, rfl⟩
      · rw [hok]
        exact Or.inr ⟨.exactTable _, rfl, hok⟩
    · rw [if_neg hlower]
      rcases OrientedMaterial.parse_cases selector with ⟨e, he, -⟩ | ⟨roles, hroles, hname, hok⟩
      · rw [he]
        exact Or.inl ⟨_, rfl⟩
      · rw [hok]
        exact Or.inr ⟨.material _, rfl, roles, hroles, hname, rfl⟩
  rw [if_neg hsep]
  by_cases hany : ((stripSlash selector).splitOn '/').any List.isEmpty = true
  · rw [if_pos hany]
    exact Or.inl ⟨_, rfl⟩
  rw [if_neg hany]
  by_cases hlen : 4 < ((stripSlash selector).splitOn '/').length
  · rw [if_pos hlen]
    exact Or.inl ⟨_, rfl⟩
  rw [if_neg hlen]
  have hnotMem : ∀ part ∈ (stripSlash selector).splitOn '/', '/' ∉ part :=
    fun part hpart => notMem_of_mem_splitOn hpart
  have hne := List.splitOn_ne_nil '/' (stripSlash selector)
  have hjoined := joined_splitOn (stripSlash selector)
  generalize (stripSlash selector).splitOn '/' = parts at *
  -- A component that is given has all those before it given.
  have hbefore : ∀ i, parts[i + 1]? ≠ none → parts[i]? ≠ none := by
    intro i hi hnone
    rw [List.getElem?_eq_none_iff] at hnone
    exact hi (List.getElem?_eq_none (by omega))
  have hgiven : ∀ {α : Type} {o : Option α} {f : α → List Char} {part : Option (List Char)},
      o.map f = part → part ≠ none → o ≠ none := by
    rintro α o f part rfl hpart rfl
    exact hpart rfl
  rcases SelectorPrefix.readCount_cases selector parts[0]? with ⟨e, he⟩ | ⟨n, hok, hvalid, hn⟩
  · rw [he]
    exact Or.inl ⟨_, rfl⟩
  rw [hok, Run.ok_bind]
  rcases SelectorPrefix.readSplit_cases selector hvalid
    (fun h => hgiven hn (hbefore 0 h)) with ⟨e, he⟩ | ⟨s, hok, hvalid, hs⟩
  · rw [he]
    exact Or.inl ⟨_, rfl⟩
  rw [hok, Run.ok_bind]
  rcases SelectorPrefix.readOpposing_cases selector hvalid
    (fun h => hgiven hs (hbefore 1 h)) with ⟨e, he⟩ | ⟨k, hok, hvalid, hk⟩
  · rw [he]
    exact Or.inl ⟨_, rfl⟩
  rw [hok, Run.ok_bind]
  rcases SelectorPrefix.readPawns_cases selector hvalid
    (fun h => hgiven hk (hbefore 2 h)) with ⟨e, he⟩ | ⟨p, hok, hvalid, hp⟩
  · rw [he]
    exact Or.inl ⟨_, rfl⟩
  rw [hok, Run.ok_bind]
  refine Or.inr ⟨.hierarchy ⟨n, s, k, p⟩, rfl, hvalid, ?_, fun d rest => ?_⟩
  · refine hgiven hn fun hnone => hne ?_
    rw [List.getElem?_eq_none_iff] at hnone
    exact List.length_eq_zero_iff.mp (by omega)
  · rw [← hjoined]
    exact SelectorPrefix.selects_iff ⟨hn, hs, hk, hp⟩ (by omega) hnotMem d rest

end TableSelector

end ChessEgt
