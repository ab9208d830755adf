import ChessEgt.Indexing.Setups

/-!
# The size of a table

* `prod_combinations_le` — each coordinate slot has at most 64 squares;
* `length_configurations_le` — the pawn configurations have distinct keys;
* `indexRange_lt` — so the largest table has fewer than 2 ^ 48 indices.
-/

namespace ChessEgt

open Indexer

/-- Each coordinate slot has at most 64 squares. -/
theorem prod_combinations_le {gs : List IndexerPieceGroup} (h : ∀ g ∈ gs, Sound g) :
    (gs.map (·.combinations)).prod ≤ 64 ^ (gs.map (·.size)).sum := by
  induction gs with
  | nil => exact le_rfl
  | cons g gs ih =>
    have hg := h g List.mem_cons_self
    have hone : g.combinations ≤ 64 ^ g.size := by
      rw [hg.combinations_eq]
      exact (Nat.choose_le_pow _ _).trans (Nat.pow_le_pow_left hg.nSquares_le _)
    rw [List.map_cons, List.map_cons, List.prod_cons, List.sum_cons, Nat.pow_add]
    exact Nat.mul_le_mul hone (ih fun g' hm => h g' (List.mem_cons_of_mem _ hm))

theorem PawnMap.length_configurations_le {groups : List IndexerPawnGroup}
    (h : (groups.map (·.file)).Nodup) :
    (configurations groups).length ≤ 9 * 6 ^ (groups.map (·.size)).sum := by
  have hsub : (configurations groups).map key ⊆ List.range (new groups).capacity := by
    intro k hk
    obtain ⟨c, hc, rfl⟩ := List.mem_map.mp hk
    exact List.mem_range.mpr (key_lt (mem_rankLists_of_mem hc))
  have := ((nodup_keys h).subperm hsub).length_le
  rwa [List.length_map, List.length_range] at this

/-- **Tables are small**: numbers of indices and of frames fit their machine words. -/
theorem indexRange_lt {M : Material} (hM : M.nPieces ≤ maxPieces) : M.indexer.indexRange < 2 ^ 48 := by
  have hsizes := M.sum_sizes_groups
  have hmax : maxPieces = 8 := rfl
  rcases Nat.eq_zero_or_pos M.nPawns with hp | hp
  · -- The king pair is looked up, and at most six pieces are left.
    have hrest := prod_combinations_le (Material.sound_restGroups hM hp)
    have hsix : ((assignSquares 62 M.restGroups).map (·.size)).sum ≤ 6 := by
      rw [List.map_append, List.sum_append, Material.sum_kingGroups] at hsizes
      rw [map_size_assignSquares]
      omega
    have hpow : 64 ^ ((assignSquares 62 M.restGroups).map (·.size)).sum ≤ 64 ^ 6 :=
      Nat.pow_le_pow_right (by decide) hsix
    rw [indexRange_pawnless hp, nonpawnCombinations_pawnless hp, nKingPairs]
    omega
  · have hconf := PawnMap.length_configurations_le M.nodup_files_pawnGroups
    have hpieces := prod_combinations_le (Material.sound_assignedGroups hM)
    rw [M.sum_sizes_pawnGroups] at hconf
    rw [Material.assignedGroups, map_size_assignSquares] at hpieces
    have heq : M.indexer.nonpawnCombinations = (M.assignedGroups.map (·.combinations)).prod := by
      rw [← Material.nonpawns_of_pawnful hp]
      rfl
    rw [indexRange_pawnful hp, heq]
    -- A pawn has fewer ranks than a piece has squares.
    obtain ⟨n, hn⟩ : ∃ n, n = ((M.kingGroups ++ M.restGroups).map (·.size)).sum := ⟨_, rfl⟩
    obtain ⟨m, hm⟩ : ∃ m, M.nPawns = m + 1 := ⟨M.nPawns - 1, by omega⟩
    have hpawns : 6 ^ m ≤ 64 ^ m := Nat.pow_le_pow_left (by decide) _
    have hseven : 64 ^ (m + n) ≤ 64 ^ 7 := Nat.pow_le_pow_right (by decide) (by omega)
    calc (PawnMap.configurations M.pawnGroups).length * (M.assignedGroups.map (·.combinations)).prod
        ≤ (9 * 6 ^ (m + 1)) * 64 ^ n := Nat.mul_le_mul (hm ▸ hconf) (hn ▸ hpieces)
      _ = 54 * (6 ^ m * 64 ^ n) := by ring
      _ ≤ 54 * (64 ^ m * 64 ^ n) := Nat.mul_le_mul_left _ (Nat.mul_le_mul_right _ hpawns)
      _ = 54 * 64 ^ (m + n) := by rw [Nat.pow_add]
      _ < 2 ^ 48 := by omega

end ChessEgt
