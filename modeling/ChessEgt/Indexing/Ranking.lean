import ChessEgt.Indexing.RoundTrip
import ChessEgt.Indexing.Size

/-!
# Ranking within a slice

The compact indices of the non-pawns against the numbers below the product of the combinations.

* `Indexer.Planned` — the groups come from the assignment of squares;
* `Indexer.IsTuple` — the tuples of compact indices that fit the groups;
* `cpidxToIndexUsize`, `indexToCpidxUsize`, `prodUsize` — the same arithmetic in machine words;
* `ranking_bijective` — ranking is a bijection, and no machine word overflows.
-/

namespace ChessEgt

open Compaction (Descending)

namespace Indexer

/-! ### Machine words -/

/-- A sum or a product of 64-bit words. -/
def usize (x : ℕ) : Run ℕ :=
  if x < 2 ^ 64 then .ok x else .error (.panicked "attempt to compute with overflow")

theorem usize_eq {x : ℕ} (h : x < 2 ^ 64) : usize x = .ok x := if_pos h

/-- The product of the combinations. -/
def prodUsize (combinations : List ℕ) : Run ℕ :=
  combinations.foldlM (fun product c => usize (product * c)) 1

/-- Adds the compact indices of a group to the index, from the last one to the first. -/
def addGroupUsize (nSquares : ℕ) : List ℕ → ℕ → Run ℕ
  | [], index => .ok index
  | [c], index => do
    Run.ensure (c < nSquares) "invalid cpidx"
    usize (index + c)
  | c :: c' :: cs, index => do
    let index ← addGroupUsize nSquares (c' :: cs) index
    Run.ensure (c < nSquares) "invalid cpidx"
    Run.ensure (c' < c) "decreasing cpidx"
    let combinations ← lookupNChooseK (cs.length + 2) c
    usize (index + combinations)

def appendGroupsUsize : List IndexerPieceGroup → List ℕ → ℕ → Run ℕ
  | [], _, index => .ok index
  | g :: groups, cpidx, index => do
    let index ← usize (index * g.combinations)
    let index ← addGroupUsize g.nSquares (cpidx.take g.size) index
    appendGroupsUsize groups (cpidx.drop g.size) index

def cpidxToIndexUsize (self : Indexer) (cpidx : List ℕ) : Run ℕ :=
  if self.nPawns = 0 then do
    let pair ← Run.index cpidx 0
    appendGroupsUsize (self.nonpawns.drop 1) (cpidx.drop 2) pair
  else appendGroupsUsize self.nonpawns (cpidx.drop self.nPawns) 0

def groupCpidxUsize : ℕ → ℕ → ℕ → Run (List ℕ)
  | 0, _, _ => .ok []
  | 1, _, x => .ok [x]
  | k + 2, n, x => do
    let row ← Run.index nChooseK (k + 2)
    Run.ensure (n ≤ row.length) "range end index out of range"
    let next ← usize (x + 1)
    let n ← match binarySearch (row.take n) next with
      | .ok found => Run.sub found 1
      | .error insert => Run.sub insert 1
    let combinations ← Run.index row n
    let x ← Run.sub x combinations
    let rest ← groupCpidxUsize (k + 1) n x
    pure (n :: rest)

def splitGroupsUsize (index : ℕ) : List IndexerPieceGroup → Run (ℕ × List ℕ)
  | [] => .ok (index, [])
  | g :: groups => do
    let (v, cpidx) ← splitGroupsUsize index groups
    Run.ensure (g.combinations ≠ 0) "attempt to divide by zero"
    let group ← groupCpidxUsize g.size g.nSquares (v % g.combinations)
    pure (v / g.combinations, group ++ cpidx)

def indexToCpidxUsize (self : Indexer) (index : ℕ) : Run (List ℕ) :=
  if self.nPawns = 0 then do
    let (v, cpidx) ← splitGroupsUsize index (self.nonpawns.drop 1)
    Run.ensure (v < nKingPairs) "assertion failed: v < N_KING_PAIRS"
    pure (v :: 0 :: cpidx)
  else do
    let (v, cpidx) ← splitGroupsUsize index self.nonpawns
    Run.ensure (v = 0) "assertion failed: v == 0"
    pure cpidx

/-! ### The groups -/

/-- The non-pawn groups get the squares that the pawns leave; in a pawnless table the first one
    is the pair of kings, which is looked up. -/
structure Planned (plan : Indexer) : Prop where
  built : ∃ groups gs, computePieceSquares (64 - plan.nPawns) groups = .ok gs ∧
    plan.nonpawns = (if plan.nPawns = 0 then lookUpKings gs else gs) ∧
    (plan.nPawns = 0 → ∃ kings rest, groups = kings :: rest ∧ kings.size = 2)

/-- The compact indices of the non-pawns: behind the number of the pair of kings, if they are
    looked up, descending indices below the squares of each group. -/
def IsTuple (self : Indexer) (cpidx : List ℕ) : Prop :=
  if self.nPawns = 0 then ∃ pair cs, pair < nKingPairs ∧ cpidx = pair :: 0 :: cs.flatten ∧
    List.Forall₂ Fits (self.nonpawns.drop 1) cs
  else ∃ cs, cpidx = cs.flatten ∧ List.Forall₂ Fits self.nonpawns cs

theorem lookupNChooseK_ok {k n x : ℕ} (h : lookupNChooseK k n = .ok x) : k ≤ maxPieces := by
  obtain ⟨row, hrow, -⟩ := Run.bind_eq_ok.mp h
  unfold Run.index Run.expect at hrow
  split at hrow
  · next row' hget =>
    have := (List.getElem?_eq_some_iff.mp hget).1
    rw [nChooseK, List.length_map, List.length_range] at this
    omega
  · cases hrow

/-- Squares are assigned only if every group has its row and its squares. -/
theorem computePieceSquares_ok {n : ℕ} {groups gs : List IndexerPieceGroup}
    (h : computePieceSquares n groups = .ok gs) :
    (∀ g ∈ groups, g.size ≤ maxPieces) ∧ (groups.map (·.size)).sum ≤ n := by
  induction groups generalizing n gs with
  | nil => exact ⟨fun g hg => absurd hg List.not_mem_nil, Nat.zero_le _⟩
  | cons g groups ih =>
    obtain ⟨combinations, hc, h⟩ := Run.bind_eq_ok.mp h
    obtain ⟨left, hleft, h⟩ := Run.bind_eq_ok.mp h
    obtain ⟨rest, hrest, -⟩ := Run.bind_eq_ok.mp h
    obtain ⟨hsizes, hsum⟩ := ih hrest
    unfold Run.sub at hleft
    split at hleft
    · next hle =>
      cases hleft
      refine ⟨List.forall_mem_cons.mpr ⟨lookupNChooseK_ok hc, hsizes⟩, ?_⟩
      rw [List.map_cons, List.sum_cons]
      omega
    · cases hleft

/-- The groups of a plan: all sound, or the pair of kings before sound ones. -/
theorem Planned.groups {self : Indexer} (h : self.Planned) :
    (self.nPawns = 0 → (∀ g ∈ self.nonpawns.drop 1, Sound g) ∧
      (self.nonpawns.map (·.combinations)).prod
        = nKingPairs * ((self.nonpawns.drop 1).map (·.combinations)).prod) ∧
    (self.nPawns ≠ 0 → ∀ g ∈ self.nonpawns, Sound g) := by
  obtain ⟨groups, gs, hgs, hnonpawns, hkings⟩ := h.built
  obtain ⟨hsizes, hsum⟩ := computePieceSquares_ok hgs
  have heq := hgs.symm.trans (computePieceSquares_eq (Nat.sub_le _ _) hsizes hsum)
  have hsound := sound_assignSquares (Nat.sub_le 64 self.nPawns) hsizes hsum
  rw [Except.ok.injEq] at heq
  rw [← heq] at hsound
  refine ⟨fun hp => ?_, fun hp => ?_⟩
  · obtain ⟨kings, rest, rfl, -⟩ := hkings hp
    rw [assignSquares] at heq
    rw [heq, if_pos hp] at hnonpawns
    rw [hnonpawns]
    refine ⟨fun g hg => hsound g (by rw [heq]; exact List.mem_cons_of_mem _ hg), ?_⟩
    show ((_ :: _ : List IndexerPieceGroup).map (·.combinations)).prod = _
    rw [List.map_cons, List.prod_cons]
    rfl
  · rw [hnonpawns, if_neg hp]
    exact hsound

/-- The plan of a valid material list. -/
theorem planned_of_fromElements {elements : List EgtElement} {self : Indexer}
    (h : fromElements elements = .ok self) : self.Planned := by
  have hv := validElements_of_fromElements h
  have hM : hv.material.nPieces ≤ maxPieces := by rw [hv.nPieces_material]; exact hv.total
  rw [fromElements_eq hv, Except.ok.injEq] at h
  subst h
  refine ⟨⟨hv.material.kingGroups ++ hv.material.restGroups, hv.material.assignedGroups,
    computePieceSquares_eq (Nat.sub_le _ _) (fun g hg => Material.size_le_of_mem hM hg)
      (Material.sum_sizes_le hM), rfl, fun hp => ?_⟩⟩
  have hpaired : hv.material.KingsPaired := Or.inl hp
  rw [Material.kingGroups, if_pos hpaired]
  exact ⟨_, _, rfl, rfl⟩

/-! ### Ranking and unranking -/

/-- Every number below the product of the combinations has a tuple that ranks to it. -/
theorem Planned.exists_tuple {self : Indexer} (h : self.Planned) {index : ℕ}
    (hi : index < (self.nonpawns.map (·.combinations)).prod) :
    ∃ cpidx, self.indexToCpidx index = .ok cpidx ∧ self.IsTuple cpidx ∧
      ∀ pawns : List ℕ, pawns.length = self.nPawns →
        self.cpidxToIndex (pawns ++ cpidx) = .ok index := by
  obtain ⟨hpawnless, hpawnful⟩ := h.groups
  by_cases hp : self.nPawns = 0
  · obtain ⟨hsound, hprod⟩ := hpawnless hp
    obtain ⟨cs, hcs, hsplit, hpack⟩ := splitGroups_eq hsound index
    have hpair : index / ((self.nonpawns.drop 1).map (·.combinations)).prod < nKingPairs := by
      rw [hprod, Nat.mul_comm] at hi
      exact Nat.div_lt_of_lt_mul hi
    refine ⟨index / ((self.nonpawns.drop 1).map (·.combinations)).prod :: 0 :: cs.flatten, ?_, ?_,
      fun pawns hlen => ?_⟩
    · rw [indexToCpidx, if_pos hp, hsplit, Run.ok_bind]
      simp only
      rw [Run.ensure_eq hpair]
      rfl
    · rw [IsTuple, if_pos hp]
      exact ⟨_, cs, hpair, rfl, hcs⟩
    · rw [List.length_eq_zero_iff.mp (hlen.trans hp), List.nil_append, cpidxToIndex, if_pos hp,
        Run.index_eq (List.getElem?_cons_zero), Run.ok_bind]
      show appendGroups _ cs.flatten _ = _
      rw [appendGroups_eq hsound hcs, hpack]
  · have hsound := hpawnful hp
    obtain ⟨cs, hcs, hsplit, hpack⟩ := splitGroups_eq hsound index
    have hzero : index / (self.nonpawns.map (·.combinations)).prod = 0 := Nat.div_eq_of_lt hi
    rw [hzero] at hsplit hpack
    refine ⟨cs.flatten, ?_, ?_, fun pawns hlen => ?_⟩
    · rw [indexToCpidx, if_neg hp, hsplit, Run.ok_bind]
      rfl
    · rw [IsTuple, if_neg hp]
      exact ⟨cs, rfl, hcs⟩
    · rw [cpidxToIndex, if_neg hp, List.drop_left' hlen, appendGroups_eq hsound hcs, hpack]

/-- Every tuple has a number below the product of the combinations that unranks to it. -/
theorem Planned.exists_index {self : Indexer} (h : self.Planned) {cpidx : List ℕ}
    (hc : self.IsTuple cpidx) : ∃ index < (self.nonpawns.map (·.combinations)).prod,
      (∀ pawns : List ℕ, pawns.length = self.nPawns →
        self.cpidxToIndex (pawns ++ cpidx) = .ok index) ∧
      self.indexToCpidx index = .ok cpidx := by
  obtain ⟨hpawnless, hpawnful⟩ := h.groups
  by_cases hp : self.nPawns = 0
  · obtain ⟨hsound, hprod⟩ := hpawnless hp
    rw [IsTuple, if_pos hp] at hc
    obtain ⟨pair, cs, hpair, rfl, hcs⟩ := hc
    refine ⟨pack (self.nonpawns.drop 1) cs pair, ?_, fun pawns hlen => ?_, ?_⟩
    · rw [hprod]
      exact pack_lt hsound hcs hpair
    · rw [List.length_eq_zero_iff.mp (hlen.trans hp), List.nil_append, cpidxToIndex, if_pos hp,
        Run.index_eq (List.getElem?_cons_zero), Run.ok_bind]
      exact appendGroups_eq hsound hcs pair
    · rw [indexToCpidx, if_pos hp, splitGroups_pack hsound hcs, Run.ok_bind]
      simp only
      rw [Run.ensure_eq hpair]
      rfl
  · have hsound := hpawnful hp
    rw [IsTuple, if_neg hp] at hc
    obtain ⟨cs, rfl, hcs⟩ := hc
    refine ⟨pack self.nonpawns cs 0, ?_, fun pawns hlen => ?_, ?_⟩
    · have := pack_lt hsound hcs (show 0 < 1 by omega)
      rwa [Nat.one_mul] at this
    · rw [cpidxToIndex, if_neg hp, List.drop_left' hlen, appendGroups_eq hsound hcs]
    · rw [indexToCpidx, if_neg hp, splitGroups_pack hsound hcs, Run.ok_bind]
      rfl

/-! ### No overflow -/

/-- Nothing is lost when the rank of a group is added in machine words. -/
theorem addGroupUsize_eq {n : ℕ} {c : List ℕ} (hd : Descending c) (hc : ∀ x ∈ c, x < n)
    (hn : n ≤ 64) (hk : c.length ≤ maxPieces) {index : ℕ}
    (h : index + Combinadics.rank c < 2 ^ 64) :
    addGroupUsize n c index = .ok (index + Combinadics.rank c) := by
  induction c with
  | nil => rfl
  | cons x c ih =>
    obtain ⟨hx, hd'⟩ := List.pairwise_cons.mp hd
    have hxn := hc x List.mem_cons_self
    rw [List.length_cons] at hk
    cases c with
    | nil =>
      have hrank : Combinadics.rank [x] = x := by simp [Combinadics.rank]
      rw [hrank] at h ⊢
      rw [addGroupUsize, Run.ensure_eq hxn, Run.ok_bind, usize_eq h]
    | cons y c =>
      have hrank : Combinadics.rank (x :: y :: c)
          = x.choose (c.length + 2) + Combinadics.rank (y :: c) := rfl
      rw [hrank] at h ⊢
      rw [addGroupUsize, ih hd' (fun z hz => hc z (List.mem_cons_of_mem _ hz)) (by omega)
        (by omega), Run.ok_bind, Run.ensure_eq hxn, Run.ok_bind,
        Run.ensure_eq (hx y List.mem_cons_self), Run.ok_bind,
        lookupNChooseK_eq (show c.length + 2 ≤ maxPieces from hk) (by omega), Run.ok_bind,
        usize_eq (by omega), Nat.add_assoc, Nat.add_comm (Combinadics.rank _)]

/-- The index only grows. -/
theorem le_pack {gs : List IndexerPieceGroup} (hg : ∀ g ∈ gs, Sound g) (cs : List (List ℕ))
    (index : ℕ) : index ≤ pack gs cs index := by
  induction gs generalizing cs index with
  | nil => rw [pack.eq_def]
  | cons g gs ih =>
    cases cs with
    | nil => rw [pack.eq_def]
    | cons c cs =>
      rw [pack]
      have := ih (fun g hm => hg g (List.mem_cons_of_mem _ hm)) cs
        (index * g.combinations + Combinadics.rank c)
      have := Nat.le_mul_of_pos_right index (hg g List.mem_cons_self).pos
      omega

theorem appendGroupsUsize_eq {gs : List IndexerPieceGroup} (hg : ∀ g ∈ gs, Sound g)
    {cs : List (List ℕ)} (h : List.Forall₂ Fits gs cs) {index : ℕ}
    (hlt : pack gs cs index < 2 ^ 64) :
    appendGroupsUsize gs cs.flatten index = appendGroups gs cs.flatten index := by
  rw [appendGroups_eq hg h]
  induction h generalizing index with
  | nil => rfl
  | @cons g c gs cs hc _ ih =>
    have hgs := hg g List.mem_cons_self
    have htake : (c ++ cs.flatten).take g.size = c := by
      rw [← hc.length_eq, List.take_left]
    have hdrop : (c ++ cs.flatten).drop g.size = cs.flatten := by
      rw [← hc.length_eq, List.drop_left]
    rw [pack] at hlt
    have hle := le_pack (fun g hm => hg g (List.mem_cons_of_mem _ hm)) cs
      (index * g.combinations + Combinadics.rank c)
    rw [List.flatten_cons, appendGroupsUsize, htake, hdrop, usize_eq (by omega), Run.ok_bind,
      addGroupUsize_eq hc.descending hc.lt hgs.nSquares_le (hc.length_eq ▸ hgs.size_le)
        (by omega), Run.ok_bind, ih (fun g hm => hg g (List.mem_cons_of_mem _ hm)) hlt, pack]

theorem groupCpidxUsize_eq (k n : ℕ) {x : ℕ} (h : x + 1 < 2 ^ 64) :
    groupCpidxUsize k n x = groupCpidx k n x := by
  induction k generalizing n x with
  | zero => rfl
  | succ k ih =>
    cases k with
    | zero => rfl
    | succ k =>
      -- What is left after the leading number is smaller still.
      have hrest (n combinations : ℕ) : (do
          let x ← Run.sub x combinations
          let rest ← groupCpidxUsize (k + 1) n x
          pure (n :: rest)) = (do
          let x ← Run.sub x combinations
          let rest ← groupCpidx (k + 1) n x
          pure (n :: rest)) := by
        unfold Run.sub
        split
        · rw [Run.ok_bind, Run.ok_bind, ih n (by omega)]
        · rfl
      rw [groupCpidxUsize, groupCpidx]
      simp only [usize_eq h, Run.ok_bind, hrest] <;> rfl

theorem splitGroupsUsize_eq {gs : List IndexerPieceGroup} (hg : ∀ g ∈ gs, Sound g) (index : ℕ) :
    splitGroupsUsize index gs = splitGroups index gs := by
  induction gs with
  | nil => rfl
  | cons g gs ih =>
    have hgs := hg g List.mem_cons_self
    have hsmall : g.combinations ≤ 64 ^ 8 := by
      rw [hgs.combinations_eq]
      exact (Nat.choose_le_pow _ _).trans ((Nat.pow_le_pow_left hgs.nSquares_le _).trans
        (Nat.pow_le_pow_right (by decide) hgs.size_le))
    rw [splitGroupsUsize, splitGroups, ih fun g hm => hg g (List.mem_cons_of_mem _ hm)]
    have hgroup (v : ℕ) : groupCpidxUsize g.size g.nSquares (v % g.combinations)
        = groupCpidx g.size g.nSquares (v % g.combinations) := by
      have := Nat.mod_lt v hgs.pos
      exact groupCpidxUsize_eq _ _ (by omega)
    simp only [hgroup]

theorem prodUsize_eq {l : List ℕ} (hpos : ∀ c ∈ l, 0 < c) (h : l.prod < 2 ^ 64) :
    prodUsize l = .ok l.prod := by
  have hrun : ∀ (l : List ℕ) (product : ℕ), (∀ c ∈ l, 0 < c) → product * l.prod < 2 ^ 64 →
      l.foldlM (fun product c => usize (product * c)) product = .ok (product * l.prod) := by
    intro l
    induction l with
    | nil => intro product _ _; simp
    | cons c l ih =>
      intro product hpos h
      rw [List.prod_cons, ← Nat.mul_assoc] at h ⊢
      have hl : 0 < l.prod := List.prod_pos (fun c hc => hpos c (List.mem_cons_of_mem _ hc))
      have := Nat.le_mul_of_pos_right (product * c) hl
      rw [List.foldlM_cons, usize_eq (by omega), Run.ok_bind,
        ih _ (fun c hc => hpos c (List.mem_cons_of_mem _ hc)) h]
  have := hrun l 1 hpos (by rwa [Nat.one_mul])
  rwa [Nat.one_mul] at this

/-! ### The binomial coefficients -/

/-- `table[k][n] = x`. -/
def storeAt (table : List (List ℕ)) (k n x : ℕ) : Run (List (List ℕ)) := do
  let row ← Run.index table k
  let row ← Run.store row n x
  Run.store table k row

/-- Fills the rows one after the other, each from the one before it. -/
def initializeNchoosek : Run (List (List ℕ)) := do
  let c := List.replicate (maxPieces + 1) (List.replicate 65 0)
  let c ← (List.range 65).foldlM (fun c n => storeAt c 0 n 1) c
  (List.range' 1 maxPieces).foldlM (fun c k =>
    (List.range' k (65 - k)).foldlM (fun c n => do
      let above ← Run.index c (k - 1)
      let row ← Run.index c k
      let x ← Run.index above (n - 1)
      let y ← Run.index row (n - 1)
      let sum ← usize (x + y)
      storeAt c k n sum) c) c

/-- The coefficients are computed without overflow. -/
theorem initializeNchoosek_eq : initializeNchoosek = .ok nChooseK := by decide +kernel

end Indexer

open Indexer

theorem nonpawnCombinations_lt {M : Material} (hM : M.nPieces ≤ maxPieces) :
    M.indexer.nonpawnCombinations < 2 ^ 48 := by
  rcases Nat.eq_zero_or_pos M.nPawns with hp | hp
  · rw [← indexRange_pawnless hp]
    exact indexRange_lt hM
  · have hle := prod_combinations_le (Material.sound_assignedGroups hM)
    have hsizes := M.sum_sizes_groups
    have hmax : maxPieces = 8 := rfl
    rw [Material.assignedGroups, map_size_assignSquares] at hle
    have hseven : 64 ^ ((M.kingGroups ++ M.restGroups).map (·.size)).sum ≤ 64 ^ 7 :=
      Nat.pow_le_pow_right (by decide) (by omega)
    have heq : M.indexer.nonpawnCombinations = (M.assignedGroups.map (·.combinations)).prod := by
      rw [← Material.nonpawns_of_pawnful hp]
      rfl
    rw [heq, Material.assignedGroups]
    omega

/-- The machine words of a plan: nothing that its groups compute overflows. -/
structure Indexer.NoOverflow (plan : Indexer) : Prop where
  combinations : prodUsize (plan.nonpawns.map (·.combinations)) = .ok plan.nonpawnCombinations
  decode : ∀ index < plan.nonpawnCombinations,
    plan.indexToCpidxUsize index = plan.indexToCpidx index
  encode : ∀ pawns cpidx : List ℕ, pawns.length = plan.nPawns → plan.IsTuple cpidx →
    plan.cpidxToIndexUsize (pawns ++ cpidx) = plan.cpidxToIndex (pawns ++ cpidx)
  slices : ∀ slice < plan.pawnMap.elim 1 (fun map => map.table.fromIndex.length),
    ∀ index < plan.nonpawnCombinations,
      (do let start ← usize (slice * plan.nonpawnCombinations)
          usize (start + index)) = .ok (slice * plan.nonpawnCombinations + index)

theorem Indexer.noOverflow_of_fromElements {elements : List EgtElement} {plan : Indexer}
    (h : fromElements elements = .ok plan) : plan.NoOverflow := by
  have hplan := planned_of_fromElements h
  obtain ⟨hpawnless, hpawnful⟩ := hplan.groups
  have hv := validElements_of_fromElements h
  have hM : hv.material.nPieces ≤ maxPieces := by rw [hv.nPieces_material]; exact hv.total
  rw [fromElements_eq hv, Except.ok.injEq] at h
  subst h
  have hlt := nonpawnCombinations_lt hM
  have hrange := indexRange_lt hM
  have hprod : hv.material.indexer.nonpawnCombinations
      = (hv.material.indexer.nonpawns.map (·.combinations)).prod := rfl
  refine ⟨?_, fun index hi => ?_, fun pawns cpidx hlen hc => ?_, fun slice hs index hi => ?_⟩
  · rw [hprod] at hlt ⊢
    refine prodUsize_eq (fun c hc => Nat.pos_of_ne_zero fun h0 => ?_) (by omega)
    -- A group without combinations would leave a table without indices.
    have := nonpawnCombinations_pos hM
    rw [hprod, List.prod_eq_zero (h0 ▸ hc)] at this
    exact absurd this (Nat.lt_irrefl 0)
  · unfold indexToCpidxUsize indexToCpidx
    by_cases hp : hv.material.indexer.nPawns = 0
    · rw [if_pos hp, if_pos hp, splitGroupsUsize_eq (hpawnless hp).1]
    · rw [if_neg hp, if_neg hp, splitGroupsUsize_eq (hpawnful hp)]
  · obtain ⟨index, hi, hindex, -⟩ := hplan.exists_index hc
    rw [← hprod] at hi
    have hindex := hindex pawns hlen
    rw [hindex]
    unfold IsTuple at hc
    unfold cpidxToIndex at hindex
    unfold cpidxToIndexUsize
    by_cases hp : hv.material.indexer.nPawns = 0
    · rw [if_pos hp] at hc hindex ⊢
      obtain ⟨pair, cs, -, rfl, hcs⟩ := hc
      rw [List.length_eq_zero_iff.mp (hlen.trans hp), List.nil_append,
        Run.index_eq (List.getElem?_cons_zero), Run.ok_bind] at hindex ⊢
      have hpack := (appendGroups_eq (hpawnless hp).1 hcs pair).symm.trans hindex
      rw [Except.ok.injEq] at hpack
      exact (appendGroupsUsize_eq (hpawnless hp).1 hcs (by omega)).trans hindex
    · rw [if_neg hp] at hc hindex ⊢
      obtain ⟨cs, rfl, hcs⟩ := hc
      rw [List.drop_left' hlen] at hindex ⊢
      have hpack := (appendGroups_eq (hpawnful hp) hcs 0).symm.trans hindex
      rw [Except.ok.injEq] at hpack
      rw [appendGroupsUsize_eq (hpawnful hp) hcs (by omega), hindex]
  · have hle : (slice + 1) * hv.material.indexer.nonpawnCombinations
        ≤ hv.material.indexer.indexRange := Nat.mul_le_mul_right _ hs
    rw [Nat.add_mul, Nat.one_mul] at hle
    rw [usize_eq (by omega), Run.ok_bind, usize_eq (by omega)]

/-- **Ranking is a bijection**: for groups whose squares are assigned one after the other, the
    numbers below the product of the combinations and the tuples of compact indices rank and
    unrank to each other, and no word of a valid material list overflows. -/
theorem ranking_bijective :
    (∀ plan : Indexer, plan.Planned →
      (∀ index < (plan.nonpawns.map (·.combinations)).prod, ∃ cpidx,
        plan.indexToCpidx index = .ok cpidx ∧ plan.IsTuple cpidx ∧
        ∀ pawns : List ℕ, pawns.length = plan.nPawns →
          plan.cpidxToIndex (pawns ++ cpidx) = .ok index) ∧
      ∀ cpidx, plan.IsTuple cpidx → ∃ index < (plan.nonpawns.map (·.combinations)).prod,
        (∀ pawns : List ℕ, pawns.length = plan.nPawns →
          plan.cpidxToIndex (pawns ++ cpidx) = .ok index) ∧
        plan.indexToCpidx index = .ok cpidx) ∧
    initializeNchoosek = .ok nChooseK ∧
    ∀ elements plan, fromElements elements = .ok plan → plan.Planned ∧ plan.NoOverflow := by
  refine ⟨fun plan hplan => ⟨fun index hi => hplan.exists_tuple hi, fun cpidx hc =>
    hplan.exists_index hc⟩, initializeNchoosek_eq, fun elements plan h => ?_⟩
  exact ⟨planned_of_fromElements h, noOverflow_of_fromElements h⟩

theorem ranking_bijective_rookEndgame : ∃ plan, fromElements rookEndgame = .ok plan ∧
    plan.nonpawnCombinations = 462 * 62 ∧ ∃ cpidx, plan.indexToCpidxUsize 1000 = .ok cpidx ∧
      plan.cpidxToIndexUsize cpidx = .ok 1000 := by
  have hplan := fromElements_eq (validateElements_eq_ok.mp (rfl : validateElements rookEndgame = _))
  obtain ⟨hbij, -, hover⟩ := ranking_bijective
  obtain ⟨hplanned, hno⟩ := hover rookEndgame _ hplan
  obtain ⟨cpidx, hdecode, htuple, hencode⟩ := (hbij _ hplanned).1 1000 (by decide)
  refine ⟨_, hplan, by decide, cpidx, ?_, ?_⟩
  · rw [hno.decode 1000 (by decide), hdecode]
  · have h := hno.encode [] cpidx (by decide) htuple
    rw [List.nil_append] at h
    rw [h]
    exact hencode [] (by decide)

end ChessEgt
