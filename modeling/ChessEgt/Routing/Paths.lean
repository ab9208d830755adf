import ChessEgt.Routing.Selection

/-!
# Paths of components

* `decimal_eq_some` — a text is read as a number exactly if it is its decimal digits;
* `joined` — components, each followed by a slash; `joined_isPrefix` says that one path is a
  prefix of a longer one exactly if its components are;
* `TableId.Directory.components` — the components of a directory.
-/

namespace ChessEgt

/-! ### Decimal numbers -/

theorem decimalDigits_eq (n : ℕ) : decimalDigits n = Nat.toDigits 10 n := Nat.toList_repr

theorem isDigit_of_mem_decimalDigits {n : ℕ} {c : Char} (h : c ∈ decimalDigits n) :
    c.isDigit = true := by
  rw [decimalDigits_eq] at h
  exact Nat.isDigit_of_mem_toDigits (by decide) (by decide) h

theorem notMem_decimalDigits {n : ℕ} {c : Char} (h : c.isDigit = false) : c ∉ decimalDigits n := by
  intro hc
  rw [isDigit_of_mem_decimalDigits hc] at h
  cases h

theorem decimalDigits_ne_nil (n : ℕ) : decimalDigits n ≠ [] := by
  rw [decimalDigits_eq]
  exact Nat.toDigits_ne_nil

theorem ofDigitChars_decimalDigits (n : ℕ) : Nat.ofDigitChars 10 (decimalDigits n) 0 = n := by
  rw [decimalDigits_eq]
  exact Nat.ofDigitChars_ten_toDigits

theorem decimalDigits_injective {m n : ℕ} (h : decimalDigits m = decimalDigits n) : m = n := by
  rw [← ofDigitChars_decimalDigits m, h, ofDigitChars_decimalDigits]

theorem decimalDigits_append {n d : ℕ} (hn : 0 < n) (hd : d < 10) :
    decimalDigits n ++ [Nat.digitChar d] = decimalDigits (10 * n + d) := by
  have h := Nat.toDigits_append_toDigits (b := 10) (by decide) hn hd
  rw [Nat.toDigits_of_lt_base hd] at h
  rw [decimalDigits_eq, decimalDigits_eq, h]

theorem digitChar_of_isDigit {c : Char} (h : c.isDigit = true) :
    c.toNat - '0'.toNat < 10 ∧ Nat.digitChar (c.toNat - '0'.toNat) = c := by
  have hc : 48 ≤ c.toNat ∧ c.toNat ≤ 57 := by
    simpa [Char.isDigit, UInt32.le_iff_toNat_le] using h
  have h0 : '0'.toNat = 48 := rfl
  have hlt : c.toNat - '0'.toNat < 10 := by omega
  refine ⟨hlt, Char.toNat_inj.mp ?_⟩
  rw [Nat.toNat_digitChar_of_lt_ten hlt]
  omega

/-- Digits behind a number without leading zeros. -/
theorem decimalDigits_append_digits {text : List Char} (h : ∀ c ∈ text, c.isDigit = true) {n : ℕ}
    (hn : 0 < n) : decimalDigits n ++ text = decimalDigits (Nat.ofDigitChars 10 text n) := by
  induction text generalizing n with
  | nil => rw [List.append_nil, Nat.ofDigitChars_nil]
  | cons c text ih =>
    obtain ⟨hlt, hc⟩ := digitChar_of_isDigit (h c List.mem_cons_self)
    rw [Nat.ofDigitChars_cons, ← ih (fun c hc => h c (List.mem_cons_of_mem _ hc)) (by omega),
      ← decimalDigits_append hn hlt, hc, List.append_assoc, List.singleton_append]

/-- Only zero starts with a zero. -/
theorem head?_decimalDigits {n : ℕ} (h : (decimalDigits n).head? = some '0') : n = 0 := by
  induction n using Nat.strong_induction_on with
  | _ n ih =>
    rcases Nat.lt_or_ge n 10 with hlt | hge
    · rw [decimalDigits_eq, Nat.toDigits_of_lt_base hlt] at h
      have hn : Nat.digitChar n = Nat.digitChar 0 := Option.some.inj h
      have := Nat.toNat_digitChar_of_lt_ten hlt
      rw [hn] at this
      have h0 : (Nat.digitChar 0).toNat = 48 := rfl
      omega
    · -- The last digit of a longer number is not the first.
      have hdiv : 0 < n / 10 := by omega
      have happ := decimalDigits_append hdiv (Nat.mod_lt n (by decide : 0 < 10))
      rw [Nat.div_add_mod] at happ
      rw [← happ, List.head?_append_of_ne_nil _ (decimalDigits_ne_nil _)] at h
      have := ih (n / 10) (by omega) h
      omega

/-- **Decimal numbers** are read from their digits, and from nothing else. -/
theorem decimal_eq_some {text : List Char} {n : ℕ} :
    decimal text = some n ↔ text = decimalDigits n ∧ n ≤ usizeMax := by
  constructor
  · intro h
    unfold decimal at h
    split_ifs at h with hbad hmax
    simp only [Bool.or_eq_true, Bool.and_eq_true, Bool.not_eq_true', decide_eq_true_eq, not_or,
      not_and, List.isEmpty_iff, Bool.not_eq_false, List.all_eq_true] at hbad
    obtain ⟨⟨hne, hdigits⟩, hzero⟩ := hbad
    have hn := Option.some.inj h
    refine ⟨?_, hn ▸ hmax⟩
    obtain ⟨c, rest, rfl⟩ := List.exists_cons_of_ne_nil hne
    obtain ⟨hlt, hc⟩ := digitChar_of_isDigit (hdigits c List.mem_cons_self)
    rw [← hn, Nat.ofDigitChars_cons, Nat.mul_zero, Nat.zero_add]
    have hsingle : decimalDigits (c.toNat - '0'.toNat) = [c] := by
      rw [decimalDigits_eq, Nat.toDigits_of_lt_base hlt, hc]
    rcases Nat.eq_zero_or_pos (c.toNat - '0'.toNat) with h0 | hpos
    · -- A leading zero is the only digit.
      rw [h0] at hc hsingle ⊢
      have hlen : ¬ 1 < (c :: rest).length := fun hlen => hzero hlen (by rw [← hc]; rfl)
      rw [List.length_cons] at hlen
      have hrest : rest = [] := List.length_eq_zero_iff.mp (by omega)
      rw [hrest, Nat.ofDigitChars_nil, hsingle]
    · rw [← decimalDigits_append_digits (fun c hc => hdigits c (List.mem_cons_of_mem _ hc)) hpos,
        hsingle, List.singleton_append]
  · rintro ⟨rfl, hmax⟩
    have hgood : ¬ ((decimalDigits n).isEmpty || !(decimalDigits n).all Char.isDigit ||
        (1 < (decimalDigits n).length && (decimalDigits n).head? = some '0')) = true := by
      simp only [Bool.or_eq_true, Bool.and_eq_true, Bool.not_eq_true', decide_eq_true_eq, not_or,
        not_and, List.isEmpty_iff, Bool.not_eq_false, List.all_eq_true]
      refine ⟨⟨decimalDigits_ne_nil n, fun c hc => isDigit_of_mem_decimalDigits hc⟩, ?_⟩
      intro hlen h0
      rw [head?_decimalDigits h0] at hlen
      exact absurd hlen (by decide)
    unfold decimal
    rw [if_neg hgood, ofDigitChars_decimalDigits, if_pos hmax]

/-! ### Components -/

/-- Components, each followed by a slash. -/
def joined (components : List (List Char)) : List Char := components.flatMap (· ++ ['/'])

theorem joined_cons (part : List Char) (parts : List (List Char)) :
    joined (part :: parts) = part ++ '/' :: joined parts := by
  rw [joined, List.flatMap_cons, List.append_assoc]
  rfl

theorem cons_isPrefix_append {c : Char} {x y u v : List Char} (hx : c ∉ x) (hy : c ∉ y) :
    x ++ c :: u <+: y ++ c :: v ↔ x = y ∧ u <+: v := by
  induction x generalizing y with
  | nil =>
    cases y with
    | nil => simp
    | cons b y =>
      have hb : c ≠ b := fun h => hy (h ▸ List.mem_cons_self)
      simp [hb]
  | cons a x ih =>
    have ha : a ≠ c := fun h => hx (h ▸ List.mem_cons_self)
    cases y with
    | nil => simp [ha]
    | cons b y =>
      have ih := ih (fun h => hx (List.mem_cons_of_mem _ h)) (y := y)
        (fun h => hy (List.mem_cons_of_mem _ h))
      simp only [List.cons_append, List.cons_prefix_cons, ih, List.cons.injEq]
      tauto

/-- **A path is a prefix** of a longer one, whatever follows it, if its components are. -/
theorem joined_isPrefix {xs ys : List (List Char)} (hx : ∀ x ∈ xs, '/' ∉ x)
    (hy : ∀ y ∈ ys, '/' ∉ y) (hlen : xs.length ≤ ys.length) (rest : List Char) :
    joined xs <+: joined ys ++ rest ↔ xs <+: ys := by
  induction xs generalizing ys with
  | nil => exact ⟨fun _ => List.nil_prefix, fun _ => List.nil_prefix⟩
  | cons x xs ih =>
    cases ys with
    | nil => exact absurd hlen (Nat.not_succ_le_zero _)
    | cons y ys =>
      rw [joined_cons, joined_cons, List.append_assoc, List.cons_append, List.cons_prefix_cons,
        cons_isPrefix_append (hx x List.mem_cons_self) (hy y List.mem_cons_self),
        ih (fun x h => hx x (List.mem_cons_of_mem _ h)) (fun y h => hy y (List.mem_cons_of_mem _ h))
          (Nat.le_of_succ_le_succ hlen)]

theorem joined_splitOn (text : List Char) : joined (text.splitOn '/') = text ++ ['/'] := by
  have hjoined : ∀ {parts : List (List Char)}, parts ≠ [] →
      joined parts = ['/'].intercalate parts ++ ['/'] := by
    intro parts hne
    induction parts with
    | nil => exact absurd rfl hne
    | cons part parts ih =>
      cases parts with
      | nil => simp [joined, List.intercalate]
      | cons next parts =>
        rw [joined_cons, ih (List.cons_ne_nil _ _), List.intercalate_cons_cons]
        simp
  rw [hjoined (List.splitOn_ne_nil _ _), List.intercalate_splitOn]

theorem notMem_of_mem_splitOn {text part : List Char} (h : part ∈ text.splitOn '/') :
    '/' ∉ part := by
  induction text generalizing part with
  | nil =>
    rw [List.splitOn_nil, List.mem_singleton] at h
    rw [h]
    exact List.not_mem_nil
  | cons c text ih =>
    rw [List.splitOn_cons_eq_if_modifyHead] at h
    split_ifs at h with hc
    · rcases List.mem_cons.mp h with rfl | h
      · exact List.not_mem_nil
      · exact ih h
    · cases hsplit : text.splitOn '/' with
      | nil => exact absurd hsplit (List.splitOn_ne_nil _ _)
      | cons first rest =>
        rw [hsplit, List.modifyHead_cons] at h
        rcases List.mem_cons.mp h with rfl | h
        · have hfirst := ih (by rw [hsplit]; exact List.mem_cons_self)
          intro hm
          rcases List.mem_cons.mp hm with rfl | hm
          · exact hc (beq_self_eq_true _)
          · exact hfirst hm
        · exact ih (by rw [hsplit]; exact List.mem_cons_of_mem _ h)

/-! ### The components of a directory -/

namespace TableId.Directory

/-- The component of the split. -/
def splitText (split : ℕ × ℕ) : List Char :=
  decimalDigits split.1 ++ 'v' :: decimalDigits split.2

def opposingText (opposing : ℕ) : List Char := "op".toList ++ decimalDigits opposing

def pawnsText (pawns : ℕ) : List Char := decimalDigits pawns ++ "pawns".toList

def components (d : Directory) : List (List Char) :=
  [decimalDigits d.nPieces, splitText d.split, opposingText d.opposingPairs, pawnsText d.nPawns]

theorem path_eq (d : Directory) : d.path = joined d.components := by
  unfold path components splitText opposingText pawnsText joined
  simp

theorem splitText_injective {s s' : ℕ × ℕ} (h : splitText s = splitText s') : s = s' := by
  have hv : ∀ n, 'v' ∉ decimalDigits n := fun n => notMem_decimalDigits (by decide)
  have hpre : splitText s <+: splitText s' := h ▸ List.prefix_rfl
  have h₁ := decimalDigits_injective ((cons_isPrefix_append (hv s.1) (hv s'.1)).mp hpre).1
  unfold splitText at h
  rw [h₁] at h
  exact Prod.ext h₁ (decimalDigits_injective (List.cons.inj (List.append_cancel_left h)).2)

theorem opposingText_injective {k k' : ℕ} (h : opposingText k = opposingText k') : k = k' :=
  decimalDigits_injective (List.append_cancel_left h)

theorem pawnsText_injective {p p' : ℕ} (h : pawnsText p = pawnsText p') : p = p' :=
  decimalDigits_injective (List.append_cancel_right h)

theorem notMem_components {d : Directory} {part : List Char} (h : part ∈ d.components) :
    '/' ∉ part := by
  have hdigits : ∀ n, '/' ∉ decimalDigits n := fun n => notMem_decimalDigits (by decide)
  unfold components splitText opposingText pawnsText at h
  simp only [List.mem_cons, List.not_mem_nil, or_false] at h
  rcases h with rfl | rfl | rfl | rfl <;> simp [hdigits]

end TableId.Directory

end ChessEgt
