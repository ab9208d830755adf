import ChessEgt.Indexing.Plan

/-!
# Pawn configurations

* `configurations` — the pawn configurations of a list of groups, in the order in which the map
  of pawn configurations is filled;
* `mem_rankLists`, `mem_configurations` — which ranks and en passant files occur;
* `index_configuration`, `fromIndex_new` — the map numbers exactly the configurations.
-/

namespace ChessEgt

open Compaction (Descending)

namespace PawnMap

/-! ### Rank choices -/

/-- The choices of `k` ranks are the descending lists of the ranks two to seven. -/
theorem mem_rankChoices {k : ℕ} {c : List ℕ} :
    c ∈ rankChoices k ↔ c.length = k ∧ Descending c ∧ ∀ x ∈ c, 1 ≤ x ∧ x ≤ 6 := by
  have hall : ∀ c ∈ [6, 5, 4, 3, 2, 1].sublists, c ∈ ((List.range 64).map fun mask =>
      [6, 5, 4, 3, 2, 1].filter fun rank => mask.testBit (rank - 1)) := by decide +kernel
  have hdesc : Descending [6, 5, 4, 3, 2, 1] := by unfold Descending; decide
  unfold rankChoices
  rw [List.mem_filter, decide_eq_true_eq, and_comm]
  refine and_congr_right (fun _ => ⟨?_, ?_⟩)
  · intro hc
    obtain ⟨mask, -, rfl⟩ := List.mem_map.mp hc
    refine ⟨hdesc.filter _, fun x hx => ?_⟩
    have := List.mem_of_mem_filter hx
    simp only [List.mem_cons, List.not_mem_nil, or_false] at this
    omega
  · rintro ⟨hd, hb⟩
    refine hall c (List.mem_sublists.mpr ?_)
    have heq : c = [6, 5, 4, 3, 2, 1].filter (· ∈ c) := by
      refine List.Perm.eq_of_pairwise' (r := (· > ·)) hd (hdesc.filter _) ?_
      have hnd : [6, 5, 4, 3, 2, 1].Nodup := by decide
      refine (List.perm_ext_iff_of_nodup (hd.imp ne_of_gt) (hnd.filter _)).mpr ?_
      intro x
      rw [List.mem_filter, decide_eq_true_eq]
      refine ⟨fun hx => ⟨?_, hx⟩, fun h => h.2⟩
      have := hb x hx
      simp only [List.mem_cons, List.not_mem_nil, or_false]
      omega
    rw [heq]
    exact List.filter_sublist

theorem nodup_rankChoices (k : ℕ) : (rankChoices k).Nodup := by
  have h : ((List.range 64).map fun mask =>
      [6, 5, 4, 3, 2, 1].filter fun rank => mask.testBit (rank - 1)).Nodup := by decide +kernel
  exact h.filter _

/-! ### Configurations -/

/-- The ranks of the pawns of the groups. -/
def rankLists : List IndexerPawnGroup → List (List ℕ)
  | [] => [[]]
  | g :: gs => (rankChoices g.size).flatMap fun c => (rankLists gs).map (c ++ ·)

/-- The configurations with the same ranks. -/
def withRanks (groups : List IndexerPawnGroup) (ranks : List ℕ) : List PawnRanks :=
  (ranks, none) :: (victims groups ranks).map fun file => (ranks, some file)

/-- The pawn configurations of the groups. -/
def configurations (groups : List IndexerPawnGroup) : List PawnRanks :=
  (rankLists groups).flatMap (withRanks groups)

theorem mem_rankLists {groups : List IndexerPawnGroup} {ranks : List ℕ} :
    ranks ∈ rankLists groups ↔
      ∃ rs, List.Forall₂ (fun g c => c ∈ rankChoices g.size) groups rs ∧ ranks = rs.flatten := by
  induction groups generalizing ranks with
  | nil => simp [rankLists]
  | cons g gs ih =>
    rw [rankLists, List.mem_flatMap]
    simp only [List.mem_map, ih]
    constructor
    · rintro ⟨c, hc, _, ⟨rs, hrs, rfl⟩, rfl⟩
      exact ⟨c :: rs, .cons hc hrs, rfl⟩
    · rintro ⟨rs, hrs, rfl⟩
      cases hrs with
      | @cons _ c _ rs hc hrs => exact ⟨c, hc, _, ⟨rs, hrs, rfl⟩, rfl⟩

theorem mem_configurations {groups : List IndexerPawnGroup} {ranks : List ℕ}
    {ep : Option File} : (ranks, ep) ∈ configurations groups ↔
      ranks ∈ rankLists groups ∧ ∀ f, ep = some f → f ∈ victims groups ranks := by
  unfold configurations withRanks
  rw [List.mem_flatMap]
  constructor
  · rintro ⟨ranks', h, h'⟩
    rcases List.mem_cons.mp h' with h' | h'
    · cases h'; exact ⟨h, fun f hf => by cases hf⟩
    · obtain ⟨f, hf, h'⟩ := List.mem_map.mp h'
      cases h'
      exact ⟨h, fun f' hf' => by cases hf'; exact hf⟩
  · rintro ⟨h, hep⟩
    refine ⟨ranks, h, ?_⟩
    cases ep with
    | none => exact List.mem_cons_self
    | some f => exact List.mem_cons_of_mem _ (List.mem_map.mpr ⟨f, hep f rfl, rfl⟩)

theorem length_of_mem_rankLists {groups : List IndexerPawnGroup} {ranks : List ℕ}
    (h : ranks ∈ rankLists groups) : ranks.length = (groups.map (·.size)).sum := by
  obtain ⟨rs, hrs, rfl⟩ := mem_rankLists.mp h
  clear h
  induction hrs with
  | nil => rfl
  | cons hc _ ih =>
    rw [List.flatten_cons, List.length_append, ih, (mem_rankChoices.mp hc).1, List.map_cons,
      List.sum_cons]

theorem bounds_of_mem_rankLists {groups : List IndexerPawnGroup} {ranks : List ℕ}
    (h : ranks ∈ rankLists groups) : ∀ x ∈ ranks, 1 ≤ x ∧ x ≤ 6 := by
  obtain ⟨rs, hrs, rfl⟩ := mem_rankLists.mp h
  clear h
  induction hrs with
  | nil => simp
  | cons hc _ ih =>
    intro x hx
    rw [List.flatten_cons, List.mem_append] at hx
    rcases hx with hx | hx
    · exact (mem_rankChoices.mp hc).2.2 x hx
    · exact ih x hx

theorem nodup_rankLists (groups : List IndexerPawnGroup) : (rankLists groups).Nodup := by
  induction groups with
  | nil => exact List.nodup_singleton _
  | cons g gs ih =>
    rw [rankLists, List.nodup_flatMap]
    refine ⟨fun c _ => ih.map (List.append_right_injective c), ?_⟩
    refine (nodup_rankChoices _).imp_of_mem (fun {c d} hc hd hne => ?_)
    rw [Function.onFun, List.disjoint_left]
    intro x hx hx'
    obtain ⟨r, -, rfl⟩ := List.mem_map.mp hx
    obtain ⟨r', -, he⟩ := List.mem_map.mp hx'
    have hlen : d.length = c.length := by
      rw [(mem_rankChoices.mp hc).1, (mem_rankChoices.mp hd).1]
    exact hne (List.append_inj_left he hlen).symm

theorem groupRanks_fst (groups : List IndexerPawnGroup) (ranks : List ℕ) :
    (groupRanks groups ranks).map (·.1) = groups := by
  unfold groupRanks
  rw [List.map_fst_zip]
  rw [List.length_splitLengths, List.length_map]

theorem nodup_victims {groups : List IndexerPawnGroup} (h : (groups.map (·.file)).Nodup)
    (ranks : List ℕ) : (victims groups ranks).Nodup := by
  unfold victims
  refine List.Sublist.nodup (List.filter_sublist.map _) ?_
  rw [← groupRanks_fst groups ranks, List.map_map] at h
  exact h

theorem nodup_configurations {groups : List IndexerPawnGroup}
    (h : (groups.map (·.file)).Nodup) : (configurations groups).Nodup := by
  unfold configurations
  rw [List.nodup_flatMap]
  refine ⟨fun ranks _ => ?_, ?_⟩
  · rw [withRanks, List.nodup_cons]
    refine ⟨?_, (nodup_victims h ranks).map (fun a b he => by simpa using he)⟩
    rw [List.mem_map]
    rintro ⟨f, -, hf⟩
    cases hf
  · refine (nodup_rankLists groups).imp (fun {a b} hne => ?_)
    rw [Function.onFun, List.disjoint_left]
    intro x hx hx'
    have hfst : ∀ ranks, ∀ x ∈ withRanks groups ranks, x.1 = ranks := by
      intro ranks x hx
      rcases List.mem_cons.mp hx with rfl | hx
      · rfl
      · obtain ⟨f, -, rfl⟩ := List.mem_map.mp hx; rfl
    exact hne ((hfst a x hx).symm.trans (hfst b x hx'))

/-! ### Keys -/

/-- Ranks as a number in base six. -/
theorem foldl_rank_lt {ranks : List ℕ} (h : ∀ x ∈ ranks, 1 ≤ x ∧ x ≤ 6) {k n : ℕ} (hk : k < n) :
    ranks.foldl (fun key rank => key * 6 + rank - 1) k < n * 6 ^ ranks.length := by
  induction ranks generalizing k n with
  | nil => simpa using hk
  | cons x ranks ih =>
    have hx := h x List.mem_cons_self
    have := ih (fun y hy => h y (List.mem_cons_of_mem _ hy))
      (show k * 6 + x - 1 < n * 6 by omega)
    rw [List.foldl_cons, List.length_cons, Nat.pow_succ']
    rwa [Nat.mul_assoc] at this

theorem foldl_rank_inj {a b : List ℕ} (hlen : a.length = b.length)
    (ha : ∀ x ∈ a, 1 ≤ x ∧ x ≤ 6) (hb : ∀ x ∈ b, 1 ≤ x ∧ x ≤ 6) {k l : ℕ}
    (h : a.foldl (fun key rank => key * 6 + rank - 1) k
      = b.foldl (fun key rank => key * 6 + rank - 1) l) : k = l ∧ a = b := by
  induction a generalizing b k l with
  | nil =>
    rw [List.length_nil, eq_comm, List.length_eq_zero_iff] at hlen
    subst hlen
    exact ⟨h, rfl⟩
  | cons x a ih =>
    obtain ⟨y, b, rfl⟩ := List.exists_cons_of_length_eq_add_one hlen.symm
    have hx := ha x List.mem_cons_self
    have hy := hb y List.mem_cons_self
    obtain ⟨hkl, rfl⟩ := ih (by simpa using hlen) (fun z hz => ha z (List.mem_cons_of_mem _ hz))
      (fun z hz => hb z (List.mem_cons_of_mem _ hz)) h
    have hkl : k * 6 + x - 1 = l * 6 + y - 1 := hkl
    exact ⟨by omega, by rw [show x = y by omega]⟩

theorem epCode_lt (ep : Option File) : ep.elim 0 (fun file => file.val + 1) < 9 := by
  cases ep with
  | none => decide
  | some f => have := f.isLt; simp only [Option.elim_some]; omega

theorem key_inj {a b : PawnRanks} (hlen : a.1.length = b.1.length)
    (ha : ∀ x ∈ a.1, 1 ≤ x ∧ x ≤ 6) (hb : ∀ x ∈ b.1, 1 ≤ x ∧ x ≤ 6) (h : key a = key b) :
    a = b := by
  unfold key at h
  have h₁ := epCode_lt a.2
  have h₂ := epCode_lt b.2
  have hranks := foldl_rank_inj hlen ha hb (k := 0) (l := 0) (by omega)
  have hep : a.2.elim 0 (fun file => file.val + 1) = b.2.elim 0 fun file => file.val + 1 := by
    rw [hranks.2] at h
    omega
  refine Prod.ext hranks.2 ?_
  clear h₁ h₂ h
  generalize a.2 = x at hep ⊢
  generalize b.2 = y at hep ⊢
  cases x <;> cases y <;> simp only [Option.elim_none, Option.elim_some] at hep ⊢
  · omega
  · omega
  · exact congrArg some (Fin.ext (by omega))

theorem key_lt {groups : List IndexerPawnGroup} {c : PawnRanks} (h : c.1 ∈ rankLists groups) :
    key c < (new groups).capacity := by
  have h₁ := foldl_rank_lt (bounds_of_mem_rankLists h) (show 0 < 1 by omega)
  have h₂ := epCode_lt c.2
  rw [length_of_mem_rankLists h] at h₁
  show key c < 9 * 6 ^ (groups.map (·.size)).sum
  unfold key
  omega

/-! ### The map -/

theorem enumerate_eq (groups rest : List IndexerPawnGroup) (ranks : List ℕ)
    (table : IndexTable PawnRanks) : enumerate groups ranks table rest
      = table.insertAll key ((rankLists rest).flatMap fun r => withRanks groups (ranks ++ r)) := by
  induction rest generalizing ranks table with
  | nil =>
    rw [enumerate, rankLists, List.flatMap_singleton, List.append_nil]
    rfl
  | cons g rest ih =>
    rw [enumerate, rankLists, List.flatMap_assoc]
    generalize rankChoices g.size = choices
    induction choices generalizing table with
    | nil => rfl
    | cons c choices ihc =>
      rw [List.foldl_cons, ihc, ih, List.flatMap_cons, IndexTable.insertAll_append]
      congr 2
      rw [List.flatMap_map]
      refine List.flatMap_congr (fun r _ => ?_)
      rw [List.append_assoc]

theorem table_new (groups : List IndexerPawnGroup) :
    (new groups).table = IndexTable.empty.insertAll key (configurations groups) :=
  enumerate_eq groups groups [] IndexTable.empty

theorem fromIndex_new (groups : List IndexerPawnGroup) :
    (new groups).table.fromIndex = configurations groups := by
  rw [table_new, IndexTable.fromIndex_insertAll]; rfl

theorem mem_rankLists_of_mem {groups : List IndexerPawnGroup} {c : PawnRanks}
    (hc : c ∈ configurations groups) : c.1 ∈ rankLists groups :=
  (mem_configurations.mp (show (c.1, c.2) ∈ _ from hc)).1

/-- Distinct configurations have distinct keys. -/
theorem nodup_keys {groups : List IndexerPawnGroup} (h : (groups.map (·.file)).Nodup) :
    ((configurations groups).map key).Nodup := by
  refine (nodup_configurations h).map_on (fun a ha b hb he => ?_)
  have ha := mem_rankLists_of_mem ha
  have hb := mem_rankLists_of_mem hb
  refine key_inj ?_ (bounds_of_mem_rankLists ha) (bounds_of_mem_rankLists hb) he
  rw [length_of_mem_rankLists ha, length_of_mem_rankLists hb]

/-- The number of a configuration is its place in the list. -/
theorem index_configuration {groups : List IndexerPawnGroup} (h : (groups.map (·.file)).Nodup)
    {c : PawnRanks} {i : ℕ} (hi : (configurations groups)[i]? = some c) :
    (new groups).index c = .ok i := by
  have hc := mem_rankLists_of_mem (List.mem_of_getElem? hi)
  have hto : (new groups).table.toIndex (key c) = some i := by
    rw [table_new]
    exact (IndexTable.toIndex_build (nodup_keys h)).mpr ⟨c, hi, rfl⟩
  rw [index, Run.ensure_eq (fun x hx => (bounds_of_mem_rankLists hc x hx).1), Run.ok_bind,
    Run.ensure_eq (key_lt hc), Run.ok_bind, hto, Run.expect_some]

/-! ### En passant victims -/

theorem groupRanks_eq {groups : List IndexerPawnGroup} {rs : List (List ℕ)}
    (h : rs.map List.length = groups.map (·.size)) :
    groupRanks groups rs.flatten = groups.zip rs := by
  unfold groupRanks
  rw [← h]
  congr 1
  clear h
  induction rs with
  | nil => rfl
  | cons r rs ih =>
    rw [List.map_cons, List.flatten_cons, List.splitLengths_cons, List.take_left, List.drop_left,
      ih]

end PawnMap

end ChessEgt
