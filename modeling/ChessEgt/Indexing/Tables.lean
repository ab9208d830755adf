import ChessEgt.Indexer
import ChessEgt.Chess.Symmetry

/-!
# The precomputed tables of the indexer

* `lookupNChooseK_eq` — the table of binomial coefficients is right;
* `CanonicalKings`, `reducer` — canonical king pairs, and the symmetry that makes a pair so;
* `kingsMap_fromIndex`, `kingsMap_toIndex` — the king pair map numbers exactly the canonical
  pairs of kings that are not adjacent.
-/

namespace ChessEgt

/-! ### Binomial coefficients -/

theorem scanl_choose (k n : ℕ) :
    ((List.range n).map fun i => i.choose k).scanl (· + ·) 0
      = (List.range (n + 1)).map fun i => i.choose (k + 1) := by
  induction n with
  | zero => simp
  | succ n ih =>
    have hsum : ∀ (l : List ℕ) (a : ℕ), l.foldl (· + ·) a = a + l.sum := by
      intro l
      induction l with
      | nil => intro a; simp
      | cons x l ih => intro a; rw [List.foldl_cons, ih, List.sum_cons]; omega
    have hockey : ((List.range n).map fun i => i.choose k).sum = n.choose (k + 1) := by
      clear ih
      induction n with
      | zero => simp
      | succ n ih =>
        rw [List.range_succ, List.map_append, List.sum_append, ih, Nat.choose_succ_succ']
        simp; omega
    rw [List.range_succ (n := n), List.map_append, List.scanl_append, ih,
      List.range_succ (n := n + 1), List.map_append, hsum, hockey]
    simp [Nat.choose_succ_succ']
    omega

theorem iterate_nextChooseRow (k : ℕ) :
    nextChooseRow^[k] (List.replicate 65 1) = (List.range 65).map fun n => n.choose k := by
  induction k with
  | zero => decide
  | succ k ih =>
    rw [Function.iterate_succ_apply', ih, nextChooseRow]
    have : ((List.range 65).map fun n => n.choose k).dropLast
        = (List.range 64).map fun n => n.choose k := by
      rw [List.range_succ (n := 64), List.map_append]
      simp
    rw [this, scanl_choose]

theorem nChooseK_getElem {k : ℕ} (hk : k ≤ maxPieces) :
    nChooseK[k]? = some ((List.range 65).map fun n => n.choose k) := by
  rw [nChooseK, List.getElem?_map, List.getElem?_range (by omega), Option.map_some,
    iterate_nextChooseRow]

/-- The table of binomial coefficients is right. -/
theorem lookupNChooseK_eq {k n : ℕ} (hk : k ≤ maxPieces) (hn : n ≤ 64) :
    lookupNChooseK k n = .ok (n.choose k) := by
  rw [lookupNChooseK, Run.index_eq (nChooseK_getElem hk), Run.ok_bind]
  exact Run.index_eq (by rw [List.getElem?_map, List.getElem?_range (by omega)]; rfl)

/-! ### Squares by number -/

namespace Square

/-- The number of a square, rank by rank. -/
def number (s : Square) : ℕ := s.rank.val * 8 + s.file.val

theorem number_lt (s : Square) : s.number < 64 := by
  have := s.rank.isLt
  have := s.file.isLt
  unfold number; omega

theorem number_injective : Function.Injective number := by
  intro s t h
  unfold number at h
  ext1 <;> apply Fin.ext <;> have := s.file.isLt <;> have := t.file.isLt <;> omega

/-- The square of a number. -/
def ofNumber (n : ℕ) (h : n < 64) : Square := ⟨⟨n / 8, by omega⟩, ⟨n % 8, by omega⟩⟩

@[simp] theorem number_ofNumber {n : ℕ} (h : n < 64) : (ofNumber n h).number = n := by
  unfold number ofNumber
  simp only
  omega

@[simp] theorem ofNumber_number (s : Square) : ofNumber s.number s.number_lt = s :=
  number_injective (number_ofNumber _)

theorem number_div (s : Square) : s.number / 8 = s.rank.val := by
  have := s.file.isLt
  unfold number; omega

theorem number_mod (s : Square) : s.number % 8 = s.file.val := by
  have := s.file.isLt
  unfold number; omega

end Square

/-! ### Canonical king pairs -/

/-- The pair that represents its symmetry class: the first king in the octant a1-d1-d4, and if
    it stands on the diagonal, the second one not above it. -/
def CanonicalKings (k₀ k₁ : Square) : Prop :=
  k₀.rank.val ≤ 3 ∧ k₀.file.val ≤ 3 ∧ k₀.rank.val ≤ k₀.file.val ∧
    (k₀.rank.val = k₀.file.val → k₁.rank.val ≤ k₁.file.val)

instance (k₀ k₁ : Square) : Decidable (CanonicalKings k₀ k₁) := by
  unfold CanonicalKings; infer_instance

/-- Both squares stand on the a1-h8 diagonal. -/
def OnDiagonal (k₀ k₁ : Square) : Prop := k₀.rank = k₀.file ∧ k₁.rank = k₁.file

instance (k₀ k₁ : Square) : Decidable (OnDiagonal k₀ k₁) := by
  unfold OnDiagonal; infer_instance

/-- The flips that bring a square to the quadrant a1-d4. -/
def quadrantFlips (k₀ : Square) : Symmetry := ⟨decide (3 < k₀.rank.val), decide (3 < k₀.file.val), false⟩

/-- The symmetry that makes a king pair canonical. -/
def reducer (k₀ k₁ : Square) : Symmetry :=
  let l₀ := quadrantFlips k₀ • k₀
  let l₁ := quadrantFlips k₀ • k₁
  { quadrantFlips k₀ with
    swapAxes := decide (l₀.file < l₀.rank ∨ (l₀.rank = l₀.file ∧ l₁.file < l₁.rank)) }

/-- Kings on adjacent squares, or on one square. -/
def KingsTouch (k₀ k₁ : Square) : Prop := rankDist k₀ k₁ ≤ 1 ∧ fileDist k₀ k₁ ≤ 1

instance (k₀ k₁ : Square) : Decidable (KingsTouch k₀ k₁) := by
  unfold KingsTouch; infer_instance

theorem canonicalKings_reducer (k₀ k₁ : Square) :
    CanonicalKings (reducer k₀ k₁ • k₀) (reducer k₀ k₁ • k₁) := by
  have e : ∀ g : Symmetry, ∀ s : Square, g • s = g.apply s := fun _ _ => rfl
  obtain ⟨⟨r, hr⟩, ⟨f, hf⟩⟩ := k₀
  obtain ⟨⟨r', hr'⟩, ⟨f', hf'⟩⟩ := k₁
  simp only [CanonicalKings, reducer, quadrantFlips, e, Symmetry.apply, Bool.false_eq_true,
    if_false]
  by_cases h₁ : 3 < r <;> by_cases h₂ : 3 < f <;>
    simp only [h₁, h₂, decide_true, decide_false, if_true, if_false, Bool.false_eq_true,
      decide_eq_true_eq, Fin.lt_def, Fin.ext_iff, Fin.val_rev] <;>
    split <;> simp only [Fin.val_rev] <;> omega

/-- Canonical pairs are unique up to the diagonal reflection of kings on the diagonal. -/
theorem CanonicalKings.eq_one {k₀ k₁ : Square} {g : Symmetry} (h : CanonicalKings k₀ k₁)
    (hg : CanonicalKings (g • k₀) (g • k₁)) :
    g = 1 ∨ (g = Symmetry.diagonal ∧ OnDiagonal k₀ k₁) := by
  have e : ∀ g : Symmetry, ∀ s : Square, g • s = g.apply s := fun _ _ => rfl
  obtain ⟨⟨r, hr⟩, ⟨f, hf⟩⟩ := k₀
  obtain ⟨⟨r', hr'⟩, ⟨f', hf'⟩⟩ := k₁
  obtain ⟨a, b, c⟩ := g
  simp only [CanonicalKings, e, Symmetry.apply, OnDiagonal, Fin.ext_iff] at *
  cases a <;> cases b <;> cases c <;>
    simp only [if_true, if_false, Bool.false_eq_true, Fin.val_rev] at hg <;>
    first
      | exact Or.inl rfl
      | exact Or.inr ⟨rfl, by omega, by omega⟩
      | omega

theorem OnDiagonal.canonical_diagonal {k₀ k₁ : Square} (hd : OnDiagonal k₀ k₁)
    (h : CanonicalKings k₀ k₁) :
    CanonicalKings (Symmetry.diagonal • k₀) (Symmetry.diagonal • k₁) := by
  obtain ⟨h₀, h₁⟩ := hd
  unfold CanonicalKings at *
  simp only [Symmetry.diagonal_smul, h₀, h₁] at *
  omega

theorem kingsAdjacentOrSame_iff (k₀ k₁ : Square) :
    kingsAdjacentOrSame k₀.number k₁.number = true ↔ KingsTouch k₀ k₁ := by
  simp only [kingsAdjacentOrSame, Square.number_div, Square.number_mod, KingsTouch, rankDist,
    fileDist, Bool.and_eq_true, decide_eq_true_eq]

theorem kingsTouch_smul (g : Symmetry) (k₀ k₁ : Square) :
    KingsTouch (g • k₀) (g • k₁) ↔ KingsTouch k₀ k₁ := by
  simp only [KingsTouch, Symmetry.rankDist_smul, Symmetry.fileDist_smul]
  cases g.swapAxes <;> simp only [if_true, if_false, Bool.false_eq_true]
  exact and_comm

/-- On numbers, the reduction of king pairs applies the reducing symmetry. -/
theorem reduceKingPair_eq (k₀ k₁ : Square) :
    reduceKingPair k₀.number k₁.number
      = ((reducer k₀ k₁ • k₀).number, (reducer k₀ k₁ • k₁).number) := by
  have e : ∀ g : Symmetry, ∀ s : Square, g • s = g.apply s := fun _ _ => rfl
  simp only [reduceKingPair, Square.number_div, Square.number_mod, reducer, quadrantFlips, e,
    Symmetry.apply, Bool.false_eq_true, if_false, decide_eq_true_eq, Fin.lt_def, Fin.ext_iff]
  obtain ⟨⟨r, hr⟩, ⟨f, hf⟩⟩ := k₀
  obtain ⟨⟨r', hr'⟩, ⟨f', hf'⟩⟩ := k₁
  simp only [Square.number]
  by_cases h₁ : 3 < r <;> by_cases h₂ : 3 < f <;>
    simp only [h₁, h₂, if_true, if_false, Fin.val_rev] <;>
    split <;> (try split) <;>
    first
      | rfl
      | (exfalso; omega)
      | (simp only [Fin.val_rev, Prod.mk.injEq]; omega)

/-! ### The king pair map -/

/-- The canonical king pairs in ascending order, as squares. -/
def canonicalPairs : List (Square × Square) :=
  (Square.all.flatMap fun a => Square.all.map fun b => (a, b)).filter fun p =>
    decide (¬ KingsTouch p.1 p.2 ∧ CanonicalKings p.1 p.2)

theorem length_canonicalPairs : canonicalPairs.length = 462 := by decide +kernel

theorem mem_canonicalPairs {p : Square × Square} :
    p ∈ canonicalPairs ↔ ¬ KingsTouch p.1 p.2 ∧ CanonicalKings p.1 p.2 := by
  simp [canonicalPairs, Square.mem_all]

theorem nodup_canonicalPairs : canonicalPairs.Nodup := by
  refine List.Nodup.filter _ ?_
  have : (Square.all.flatMap fun a => Square.all.map fun b => (a, b)) = Square.all ×ˢ Square.all :=
    rfl
  rw [this]
  exact Square.nodup_all.product Square.nodup_all

theorem range_eq_map_number : List.range 64 = Square.all.map Square.number := by decide +kernel

theorem reducer_eq_one {k₀ k₁ : Square} (h : CanonicalKings k₀ k₁) : reducer k₀ k₁ = 1 := by
  obtain ⟨h₁, h₂, h₃, h₄⟩ := h
  have hq : quadrantFlips k₀ = 1 := by
    unfold quadrantFlips
    rw [decide_eq_false (by omega), decide_eq_false (by omega)]; rfl
  unfold reducer
  simp only [hq, one_smul]
  have : decide (k₀.file < k₀.rank ∨ (k₀.rank = k₀.file ∧ k₁.file < k₁.rank)) = false := by
    rw [decide_eq_false_iff_not, Fin.lt_def, Fin.lt_def, Fin.ext_iff]
    omega
  exact Symmetry.ext rfl rfl this

/-- The reduced pairs are the canonical pairs of kings that do not touch. -/
theorem uniqueKingPairs_eq :
    uniqueKingPairs = canonicalPairs.map fun p => (p.1.number, p.2.number) := by
  have hpairs : ((List.range 64).flatMap fun wk => (List.range 64).map fun bk => (wk, bk))
      = (Square.all.flatMap fun a => Square.all.map fun b => (a, b)).map
        fun p => (p.1.number, p.2.number) := by
    rw [range_eq_map_number, List.map_flatMap, List.flatMap_map]
    simp only [List.map_map]
    rfl
  unfold uniqueKingPairs canonicalPairs
  simp only [hpairs]
  rw [List.filter_map]
  refine congrArg _ (List.filter_congr (fun p _ => ?_))
  obtain ⟨a, b⟩ := p
  rw [Bool.eq_iff_iff, Function.comp_apply, List.contains_iff_mem, decide_eq_true_eq]
  simp only [List.mem_map, List.mem_filter, Prod.exists, List.mem_flatMap, Prod.mk.injEq,
    Bool.not_eq_true', ← Bool.not_eq_true]
  constructor
  · rintro ⟨w, b', ⟨⟨k₀, k₁, -, rfl, rfl⟩, ht⟩, he⟩
    rw [reduceKingPair_eq, Prod.mk.injEq] at he
    obtain ⟨h₁, h₂⟩ := he
    rw [kingsAdjacentOrSame_iff] at ht
    rw [← Square.number_injective h₁, ← Square.number_injective h₂, kingsTouch_smul]
    exact ⟨ht, canonicalKings_reducer k₀ k₁⟩
  · rintro ⟨ht, hc⟩
    refine ⟨a.number, b.number, ⟨⟨a, b, by simp [Square.mem_all], rfl, rfl⟩, ?_⟩, ?_⟩
    · rw [kingsAdjacentOrSame_iff]; exact ht
    · rw [reduceKingPair_eq, reducer_eq_one hc, one_smul, one_smul]

/-- The compacted numbers of a king pair. -/
def compactSquares (p : Square × Square) : ℕ × ℕ :=
  (p.1.number, Compaction.close p.1.number p.2.number)

theorem compactKingPair_eq {p : Square × Square} (h : ¬ KingsTouch p.1 p.2) :
    compactKingPair (p.1.number, p.2.number) = compactSquares p := by
  have hne : p.1.number ≠ p.2.number := by
    intro he
    rw [Square.number_injective he] at h
    exact h ⟨by simp [rankDist], by simp [fileDist]⟩
  unfold compactKingPair compactSquares Compaction.close
  simp only [Prod.mk.injEq, true_and]
  split <;> split <;> omega

theorem map_compactKingPair :
    uniqueKingPairs.map compactKingPair = canonicalPairs.map compactSquares := by
  rw [uniqueKingPairs_eq, List.map_map]
  exact List.map_congr_left (fun p hp => compactKingPair_eq (mem_canonicalPairs.mp hp).1)

theorem kingPairKey_compactSquares_inj {p q : Square × Square} (hp : ¬ KingsTouch p.1 p.2)
    (hq : ¬ KingsTouch q.1 q.2)
    (h : kingPairKey (compactSquares p) = kingPairKey (compactSquares q)) : p = q := by
  have hne : ∀ {p : Square × Square}, ¬ KingsTouch p.1 p.2 → p.2.number ≠ p.1.number := by
    intro p h he
    rw [Square.number_injective he] at h
    exact h ⟨by simp [rankDist], by simp [fileDist]⟩
  have hlt : ∀ p : Square × Square, Compaction.close p.1.number p.2.number < 64 := by
    intro p
    have := p.2.number_lt
    unfold Compaction.close
    split <;> omega
  unfold kingPairKey compactSquares at h
  simp only at h
  have h₁ := hlt p
  have h₂ := hlt q
  have hfst : p.1.number = q.1.number := by omega
  have hsnd : Compaction.close p.1.number p.2.number = Compaction.close q.1.number q.2.number := by
    omega
  have : p.2.number = q.2.number := by
    rw [← Compaction.reopen_close (hne hp), hsnd, hfst, Compaction.reopen_close (hne hq)]
  exact Prod.ext (Square.number_injective hfst) (Square.number_injective this)

theorem kingsMap_fromIndex : kingsMap.fromIndex = canonicalPairs.map compactSquares := by
  rw [kingsMap, IndexTable.fromIndex_insertAll, map_compactKingPair]; rfl

/-- The number of a canonical pair is its place in the list. -/
theorem kingsMap_toIndex {p : Square × Square} {i : ℕ} (h : canonicalPairs[i]? = some p) :
    kingsMap.toIndex (kingPairKey (compactSquares p)) = some i := by
  have hnd : ((canonicalPairs.map compactSquares).map kingPairKey).Nodup := by
    rw [List.map_map]
    refine nodup_canonicalPairs.map_on (fun p hp q hq he => ?_)
    exact kingPairKey_compactSquares_inj (mem_canonicalPairs.mp hp).1
      (mem_canonicalPairs.mp hq).1 he
  rw [kingsMap, map_compactKingPair]
  refine (IndexTable.toIndex_build hnd).mpr ⟨compactSquares p, ?_, rfl⟩
  rw [List.getElem?_map, h]; rfl

theorem kingsOnDiagonal_eq :
    kingsOnDiagonal = canonicalPairs.map fun p => decide (OnDiagonal p.1 p.2) := by
  rw [kingsOnDiagonal, uniqueKingPairs_eq, List.map_map]
  refine List.map_congr_left (fun p _ => ?_)
  simp only [Function.comp_apply, Square.number_div, Square.number_mod]
  rw [Bool.eq_iff_iff]
  simp [OnDiagonal, Fin.ext_iff]

end ChessEgt
