import ChessEgt.Indexing.Tables

/-!
# Indices within a slice

The compact indices of the groups of a table against one number.

* `groupIndex_eq`, `groupCpidx_eq` — a group is ranked and unranked by the combinatorial number
  system;
* `Fits`, `pack` — lists of compact indices that fit the groups, and their number;
* `appendGroups_eq`, `splitGroups_eq`, `splitGroups_pack` — the two directions over all groups;
* `assignSquares` — the squares left to each group.
-/

namespace ChessEgt

open Compaction (Descending BlocksBelow)

namespace Indexer

/-! ### One group -/

theorem groupIndex_eq {n : ℕ} {c : List ℕ} (hd : Descending c) (hc : ∀ x ∈ c, x < n)
    (hn : n ≤ 64) (hk : c.length ≤ maxPieces) : groupIndex n c = .ok (Combinadics.rank c) := by
  induction c with
  | nil => rfl
  | cons x c ih =>
    obtain ⟨hx, hd'⟩ := List.pairwise_cons.mp hd
    have hxn := hc x List.mem_cons_self
    rw [List.length_cons] at hk
    cases c with
    | nil =>
      rw [groupIndex, Run.ensure_eq hxn]
      simp [Combinadics.rank]
    | cons y c =>
      rw [groupIndex, ih hd' (fun z hz => hc z (List.mem_cons_of_mem _ hz)) (by omega),
        Run.ok_bind, Run.ensure_eq hxn, Run.ok_bind, Run.ensure_eq (hx y List.mem_cons_self),
        Run.ok_bind, lookupNChooseK_eq (show c.length + 2 ≤ maxPieces from hk) (by omega),
        Run.ok_bind, Run.pure_eq_ok, Nat.add_comm]
      rfl

/-- The binary search finds the greatest number whose binomial coefficient does not exceed
    `x`. -/
theorem binarySearch_eq {f : ℕ → ℕ} (hf : Monotone f) {n c x : ℕ} (hc : c < n) (hle : f c ≤ x)
    (hlt : x < f (c + 1)) :
    binarySearch ((List.range n).map f) (x + 1) = .ok (c + 1) ∨
      binarySearch ((List.range n).map f) (x + 1) = .error (c + 1) := by
  unfold binarySearch
  split
  next hmem =>
    -- The value is in the row: its first place is right behind the leading number.
    left
    obtain ⟨d, hd, hfd⟩ := List.mem_map.mp hmem
    have hcd : c < d := by
      by_contra h
      have := hf (show d ≤ c by omega)
      omega
    have hfc : f (c + 1) = x + 1 := by
      have := hf (show c + 1 ≤ d from hcd)
      omega
    rw [List.mem_range] at hd
    have hget : ((List.range n).map f)[c + 1]? = some (x + 1) := by
      rw [List.getElem?_map, List.getElem?_range (by omega), Option.map_some, hfc]
    congr 1
    rw [List.idxOf, List.findIdx_eq (by rw [List.length_map, List.length_range]; omega)]
    simp only [List.getElem_map, List.getElem_range, beq_iff_eq, hfc, true_and]
    intro j hj
    have := hf (show j ≤ c by omega)
    simp only [beq_eq_false_iff_ne, ne_eq]
    omega
  next hmem =>
    right
    congr 1
    rw [List.countP_map]
    have hcount : ∀ m, (List.range m).countP ((fun y => decide (y < x + 1)) ∘ f) = min m (c + 1) := by
      intro m
      induction m with
      | zero => simp
      | succ m ih =>
        rw [List.range_succ, List.countP_append, ih, List.countP_singleton, Function.comp_apply]
        by_cases hm : m ≤ c
        · have := hf hm
          rw [decide_eq_true (by omega), if_pos rfl]
          omega
        · have := hf (show c + 1 ≤ m by omega)
          rw [decide_eq_false (by omega), if_neg (by simp)]
          omega
    rw [hcount]
    omega

theorem groupCpidx_eq {k n x : ℕ} (hk : k ≤ maxPieces) (hn : n ≤ 64) (hx : x < n.choose k) :
    groupCpidx k n x = .ok (Combinadics.unrank k n x) := by
  induction k generalizing n x with
  | zero => rfl
  | succ k ih =>
    obtain ⟨c, hc, hle, hlt⟩ := Combinadics.exists_leading hx
    cases k with
    | zero =>
      have hcx : c = x := by
        simp only [Nat.zero_add, Nat.choose_one_right] at hle hlt
        omega
      subst hcx
      rw [groupCpidx, Combinadics.unrank, Combinadics.findGreatest_eq hc hle hlt,
        Combinadics.unrank]
    | succ k =>
      have hmono : Monotone fun n : ℕ => n.choose (k + 2) :=
        fun a b hab => Nat.choose_le_choose _ hab
      have htake : ((List.range 65).map fun n => n.choose (k + 2)).take n
          = (List.range n).map fun n => n.choose (k + 2) := by
        rw [← List.map_take, List.take_range, Nat.min_eq_left (by omega)]
      have hget : ((List.range 65).map fun n => n.choose (k + 2))[c]? = some (c.choose (k + 2)) := by
        rw [List.getElem?_map, List.getElem?_range (by omega)]; rfl
      have hsearch := binarySearch_eq hmono hc hle hlt
      rw [groupCpidx, Run.index_eq (nChooseK_getElem hk), Run.ok_bind,
        Run.ensure_eq (by rw [List.length_map, List.length_range]; omega), Run.ok_bind, htake,
        Combinadics.unrank, Combinadics.findGreatest_eq hc hle hlt]
      rw [Nat.choose_succ_succ'] at hlt
      have hrest := ih (show k + 1 ≤ maxPieces by omega) (show c ≤ 64 by omega)
        (show x - c.choose (k + 2) < c.choose (k + 1) from (Nat.sub_lt_iff_lt_add hle).mpr hlt)
      -- Either result of the search is one more than the leading number.
      rcases hsearch with h | h <;> rw [h] <;> simp only [Run.sub_eq (Nat.le_add_left 1 c),
        Run.ok_bind, Nat.add_sub_cancel, Run.index_eq hget, Run.sub_eq hle, hrest, Run.pure_eq_ok]

/-! ### All groups -/

/-- The metadata that a group gets from the squares left to it. -/
structure Sound (g : IndexerPieceGroup) : Prop where
  size_le : g.size ≤ maxPieces
  nSquares_le : g.nSquares ≤ 64
  size_le_nSquares : g.size ≤ g.nSquares
  combinations_eq : g.combinations = g.nSquares.choose g.size

theorem Sound.pos {g : IndexerPieceGroup} (h : Sound g) : 0 < g.combinations := by
  rw [h.combinations_eq]; exact Nat.choose_pos h.size_le_nSquares

/-- Compact indices that fit a group. -/
structure Fits (g : IndexerPieceGroup) (c : List ℕ) : Prop where
  length_eq : c.length = g.size
  descending : Descending c
  lt : ∀ x ∈ c, x < g.nSquares

/-- The number of the groups' compact indices, behind `index`. -/
def pack : List IndexerPieceGroup → List (List ℕ) → ℕ → ℕ
  | g :: groups, c :: cs, index =>
    pack groups cs (index * g.combinations + Combinadics.rank c)
  | _, _, index => index

theorem Fits.rank_lt {g : IndexerPieceGroup} (hg : Sound g) {c : List ℕ} (h : Fits g c) :
    Combinadics.rank c < g.combinations := by
  rw [hg.combinations_eq, ← h.length_eq]
  exact Combinadics.rank_lt h.descending h.lt

theorem appendGroups_eq {gs : List IndexerPieceGroup} (hg : ∀ g ∈ gs, Sound g)
    {cs : List (List ℕ)} (h : List.Forall₂ Fits gs cs) (index : ℕ) :
    appendGroups gs cs.flatten index = .ok (pack gs cs index) := by
  induction h generalizing index with
  | nil => rfl
  | @cons g c gs cs hc _ ih =>
    have hgs := hg g List.mem_cons_self
    have htake : (c ++ cs.flatten).take g.size = c := by
      rw [← hc.length_eq, List.take_left]
    have hdrop : (c ++ cs.flatten).drop g.size = cs.flatten := by
      rw [← hc.length_eq, List.drop_left]
    rw [List.flatten_cons, appendGroups, htake, hdrop,
      groupIndex_eq hc.descending hc.lt hgs.nSquares_le (hc.length_eq ▸ hgs.size_le), Run.ok_bind,
      ih (fun g hm => hg g (List.mem_cons_of_mem _ hm)), pack]

/-- Splitting undoes packing. -/
theorem splitGroups_pack {gs : List IndexerPieceGroup} (hg : ∀ g ∈ gs, Sound g)
    {cs : List (List ℕ)} (h : List.Forall₂ Fits gs cs) (index : ℕ) :
    splitGroups (pack gs cs index) gs = .ok (index, cs.flatten) := by
  induction h generalizing index with
  | nil => rfl
  | @cons g c gs cs hc _ ih =>
    have hgs := hg g List.mem_cons_self
    have hlt := hc.rank_lt hgs
    have hmod : (index * g.combinations + Combinadics.rank c) % g.combinations
        = Combinadics.rank c := by
      rw [Nat.mul_comm, Nat.mul_add_mod, Nat.mod_eq_of_lt hlt]
    have hdiv : (index * g.combinations + Combinadics.rank c) / g.combinations = index := by
      rw [Nat.add_comm, Nat.add_mul_div_right _ _ hgs.pos, Nat.div_eq_of_lt hlt, Nat.zero_add]
    rw [splitGroups, pack, ih (fun g hm => hg g (List.mem_cons_of_mem _ hm)), Run.ok_bind]
    simp only
    rw [Run.ensure_eq (by have := hgs.pos; omega), Run.ok_bind, hmod, hdiv,
      groupCpidx_eq hgs.size_le hgs.nSquares_le (hgs.combinations_eq ▸ hlt), Run.ok_bind,
      Run.pure_eq_ok, ← hc.length_eq, Combinadics.unrank_rank hc.descending hc.lt,
      List.flatten_cons]

/-- Every number splits into compact indices that fit, and is their packing. -/
theorem splitGroups_eq {gs : List IndexerPieceGroup} (hg : ∀ g ∈ gs, Sound g) (index : ℕ) :
    ∃ cs, List.Forall₂ Fits gs cs ∧
      splitGroups index gs = .ok (index / (gs.map (·.combinations)).prod, cs.flatten) ∧
      pack gs cs (index / (gs.map (·.combinations)).prod) = index := by
  induction gs with
  | nil => exact ⟨[], .nil, by simp [splitGroups], by simp [pack]⟩
  | cons g gs ih =>
    obtain ⟨cs, hcs, he, hp⟩ := ih (fun g hm => hg g (List.mem_cons_of_mem _ hm))
    have hgs := hg g List.mem_cons_self
    have hlt : index / (gs.map (·.combinations)).prod % g.combinations
        < g.nSquares.choose g.size := by
      rw [← hgs.combinations_eq]; exact Nat.mod_lt _ hgs.pos
    obtain ⟨hd, hb, hr⟩ := Combinadics.unrank_spec hlt
    have hprod : index / ((g :: gs).map (·.combinations)).prod
        = index / (gs.map (·.combinations)).prod / g.combinations := by
      rw [List.map_cons, List.prod_cons, Nat.mul_comm, Nat.div_div_eq_div_mul]
    refine ⟨_ :: cs, .cons ⟨Combinadics.length_unrank _ _ _, hd, hb⟩ hcs, ?_, ?_⟩
    · rw [splitGroups, he, Run.ok_bind]
      simp only
      rw [Run.ensure_eq (by have := hgs.pos; omega), Run.ok_bind,
        groupCpidx_eq hgs.size_le hgs.nSquares_le hlt, Run.ok_bind, Run.pure_eq_ok, hprod,
        List.flatten_cons]
    · rw [hprod, pack, hr, Nat.div_add_mod', hp]

theorem pack_lt {gs : List IndexerPieceGroup} (hg : ∀ g ∈ gs, Sound g) {cs : List (List ℕ)}
    (h : List.Forall₂ Fits gs cs) {index n : ℕ} (hi : index < n) :
    pack gs cs index < n * (gs.map (·.combinations)).prod := by
  induction h generalizing index n with
  | nil => simpa [pack] using hi
  | @cons g c gs cs hc _ ih =>
    have hlt := hc.rank_lt (hg g List.mem_cons_self)
    have hi' : index * g.combinations + Combinadics.rank c < n * g.combinations := by
      have : (index + 1) * g.combinations ≤ n * g.combinations := Nat.mul_le_mul_right _ hi
      rw [Nat.add_mul, Nat.one_mul] at this
      omega
    rw [pack, List.map_cons, List.prod_cons, ← Nat.mul_assoc]
    exact ih (fun g hm => hg g (List.mem_cons_of_mem _ hm)) hi'

/-! ### The squares left to each group -/

/-- Gives each group the squares that the groups before it leave. -/
def assignSquares : ℕ → List IndexerPieceGroup → List IndexerPieceGroup
  | _, [] => []
  | n, g :: groups =>
    { g with nSquares := n, combinations := n.choose g.size } :: assignSquares (n - g.size) groups

theorem computePieceSquares_eq {n : ℕ} {gs : List IndexerPieceGroup} (hn : n ≤ 64)
    (hk : ∀ g ∈ gs, g.size ≤ maxPieces) (hs : (gs.map (·.size)).sum ≤ n) :
    computePieceSquares n gs = .ok (assignSquares n gs) := by
  induction gs generalizing n with
  | nil => rfl
  | cons g gs ih =>
    rw [List.map_cons, List.sum_cons] at hs
    rw [computePieceSquares, lookupNChooseK_eq (hk g List.mem_cons_self) hn, Run.ok_bind,
      Run.sub_eq (by omega), Run.ok_bind,
      ih (by omega) (fun g hm => hk g (List.mem_cons_of_mem _ hm)) (by omega), Run.ok_bind]
    rfl

theorem sound_assignSquares {n : ℕ} {gs : List IndexerPieceGroup} (hn : n ≤ 64)
    (hk : ∀ g ∈ gs, g.size ≤ maxPieces) (hs : (gs.map (·.size)).sum ≤ n) :
    ∀ g ∈ assignSquares n gs, Sound g := by
  induction gs generalizing n with
  | nil => exact fun g hg => absurd hg List.not_mem_nil
  | cons g gs ih =>
    rw [List.map_cons, List.sum_cons] at hs
    intro g' hg'
    rcases List.mem_cons.mp hg' with rfl | hg'
    · exact ⟨hk g List.mem_cons_self, hn, by simp only; omega, rfl⟩
    · exact ih (by omega) (fun g hm => hk g (List.mem_cons_of_mem _ hm)) (by omega) g' hg'

theorem map_size_assignSquares (n : ℕ) (gs : List IndexerPieceGroup) :
    (assignSquares n gs).map (·.size) = gs.map (·.size) := by
  induction gs generalizing n with
  | nil => rfl
  | cons g gs ih => rw [assignSquares, List.map_cons, List.map_cons, ih]

theorem map_kind_assignSquares (n : ℕ) (gs : List IndexerPieceGroup) :
    (assignSquares n gs).map (·.kind) = gs.map (·.kind) := by
  induction gs generalizing n with
  | nil => rfl
  | cons g gs ih => rw [assignSquares, List.map_cons, List.map_cons, ih]

/-- Fitting the assigned squares is descending below what the blocks before leave. -/
theorem fits_assignSquares_iff {n : ℕ} {gs : List IndexerPieceGroup} {cs : List (List ℕ)} :
    List.Forall₂ Fits (assignSquares n gs) cs ↔
      cs.map List.length = gs.map (·.size) ∧ (∀ c ∈ cs, Descending c) ∧ BlocksBelow n cs := by
  induction gs generalizing n cs with
  | nil =>
    rw [assignSquares, List.forall₂_nil_left_iff]
    constructor
    · rintro rfl; exact ⟨rfl, by simp, trivial⟩
    · rintro ⟨h, -⟩; simpa using h
  | cons g gs ih =>
    rw [assignSquares, List.forall₂_cons_left_iff]
    constructor
    · rintro ⟨c, cs, hc, hcs, rfl⟩
      obtain ⟨h₁, h₂, h₃⟩ := ih.mp hcs
      refine ⟨by rw [List.map_cons, List.map_cons, h₁, hc.length_eq], ?_, hc.lt, ?_⟩
      · exact List.forall_mem_cons.mpr ⟨hc.descending, h₂⟩
      · rw [show c.length = g.size from hc.length_eq]; exact h₃
    · rintro ⟨h₁, h₂, h₃⟩
      cases cs with
      | nil => cases h₁
      | cons c cs =>
        rw [List.map_cons, List.map_cons, List.cons.injEq] at h₁
        rw [List.forall_mem_cons] at h₂
        refine ⟨c, cs, ⟨h₁.1, h₂.1, h₃.1⟩, ih.mpr ⟨h₁.2, h₂.2, ?_⟩, rfl⟩
        rw [← h₁.1]; exact h₃.2

end Indexer

end ChessEgt
