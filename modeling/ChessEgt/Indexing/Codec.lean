import ChessEgt.Indexing.PawnSquares

/-!
# Coordinates and indices

* `KingsCanonical` — the kings of a king pair are in canonical order;
* `Indexer.sliceIndex` — the part of the encoding behind the canonical coordinates;
* `SliceCode` — a number below the combinations of a slice, its compact indices and the squares
  they stand for;
* `Arranged.exists_sliceCode`, `exists_arranged` — canonical squares have a number, and every
  number has canonical squares.
-/

namespace ChessEgt

open Compaction Indexer

/-- The kings of a king pair are in canonical order. -/
def KingsCanonical (M : Material) (qs : List (List Square)) : Prop :=
  ∀ x ∈ M.nonpawns.zip qs, x.1.kind = .kingPair → ∀ kw kb, x.2 = [kw, kb] →
    (M.nPawns = 0 → CanonicalKings kw kb ∧ ¬ KingsTouch kw kb) ∧
      (M.Symmetric → M.indexer.squareIndex kb < M.indexer.squareIndex kw)

namespace Indexer

/-- The number of coordinates within their slice. -/
def sliceIndex (self : Indexer) (coord : List Square) : Run ℕ := do
  let pidx ← compactPidx (self.coordToPidx coord)
  let pidx ← if self.nPawns = 0 then mapKings pidx else pure pidx
  self.cpidxToIndex pidx

end Indexer

/-- The number of squares within their slice, and how it is decoded. -/
structure SliceCode (M : Material) (ps qs : List (List Square)) (j : ℕ) (compacted : List ℕ) :
    Prop where
  index : M.indexer.sliceIndex (ps.flatten ++ qs.flatten) = .ok j
  lt : j < M.indexer.nonpawnCombinations
  cpidx : M.indexer.indexToCpidx j = .ok compacted
  pawnful : 0 < M.nPawns → uncompact (compact (M.indexer.coordToPidx ps.flatten) ++ compacted)
    = M.indexer.coordToPidx (ps.flatten ++ qs.flatten)
  pawnless : M.nPawns = 0 → ∃ cpidx, unmapKings compacted = .ok cpidx ∧
    uncompact cpidx = M.indexer.coordToPidx (ps.flatten ++ qs.flatten)
  pair : M.nPawns = 0 → ∀ kw kb rest, qs = [kw, kb] :: rest →
    canonicalPairs[j / M.indexer.nonkingCombinations]? = some (kw, kb)

namespace Material

variable {M : Material}

theorem length_pawnSquares {ps : List (List Square)} (h : List.Forall₂ PawnChunk M.pawnGroups ps) :
    ps.flatten.length = M.nPawns := by
  have := PawnMap.length_of_mem_rankLists (ranks_mem_rankLists h)
  rw [ranksOf, List.length_map] at this
  rw [this]
  exact M.sum_sizes_pawnGroups

theorem nonpawns_of_pawnful (hp : 0 < M.nPawns) : M.nonpawns = M.assignedGroups :=
  if_neg (by omega)

/-- The groups of a pawnless table: the king pair is looked up. -/
theorem nonpawns_of_pawnless (hp : M.nPawns = 0) :
    M.nonpawns = ⟨.kingPair, nKingPairs, nKingPairs, 2⟩ :: assignSquares 62 M.restGroups := by
  unfold nonpawns assignedGroups kingGroups
  rw [if_pos hp, if_pos (show M.KingsPaired from Or.inl hp), hp]
  rfl

theorem pawnGroups_of_pawnless (hp : M.nPawns = 0) : M.pawnGroups = [] := by
  rw [List.eq_nil_iff_forall_not_mem]
  intro g hg
  have h₁ := List.le_sum_of_mem (List.mem_map_of_mem (f := IndexerPawnGroup.size) hg)
  rw [M.sum_sizes_pawnGroups, hp] at h₁
  exact (mem_pawnGroups.mp hg).2 (List.length_eq_zero_iff.mp (Nat.le_zero.mp h₁))

theorem sound_restGroups (hM : M.nPieces ≤ maxPieces) (hp : M.nPawns = 0) :
    ∀ g ∈ assignSquares 62 M.restGroups, Sound g := by
  have h := sound_assignedGroups hM
  unfold assignedGroups kingGroups at h
  rw [if_pos (show M.KingsPaired from Or.inl hp), hp] at h
  exact fun g hg => h g (List.mem_cons_of_mem _ hg)

theorem map_size_nonpawns : M.nonpawns.map (·.size)
    = (M.kingGroups ++ M.restGroups).map (·.size) :=
  M.map_nonpawns (·.2)

end Material

section

variable {M : Material} {ps qs : List (List Square)}

theorem map_length_chunks {plan : Indexer} {gs : List IndexerPieceGroup}
    (h : List.Forall₂ (PieceChunk plan) gs qs) : qs.map List.length = gs.map (·.size) := by
  induction h with
  | nil => rfl
  | cons hc _ ih => rw [List.map_cons, List.map_cons, ih, hc.length_eq]

theorem length_of_mem_zip {gs : List IndexerPieceGroup} (h : qs.map List.length = gs.map (·.size))
    {g : IndexerPieceGroup} {c : List Square} (hm : (g, c) ∈ gs.zip qs) : c.length = g.size := by
  induction gs generalizing qs with
  | nil => exact absurd hm List.not_mem_nil
  | cons g' gs ih =>
    cases qs with
    | nil => exact absurd hm List.not_mem_nil
    | cons q qs =>
      rw [List.map_cons, List.map_cons, List.cons.injEq] at h
      rcases List.mem_cons.mp hm with he | hm
      · cases he; exact h.1
      · exact ih h.2 hm

theorem coordToPidx_append (self : Indexer) (ps qs : List (List Square)) :
    self.coordToPidx (ps.flatten ++ qs.flatten)
      = self.coordToPidx ps.flatten ++ (qs.map (List.map self.squareIndex)).flatten := by
  unfold coordToPidx
  rw [List.map_append, List.map_flatten (L := qs)]

theorem nodup_coordToPidx (self : Indexer) {coord : List Square} :
    (self.coordToPidx coord).Nodup ↔ coord.Nodup :=
  ⟨List.Nodup.of_map _, List.Nodup.map self.squareIndex_injective⟩

theorem lt_of_mem_coordToPidx (self : Indexer) (coord : List Square) :
    ∀ x ∈ self.coordToPidx coord, x < 64 := by
  intro x hx
  obtain ⟨s, -, rfl⟩ := List.mem_map.mp hx
  exact self.squareIndex_lt s

/-- Numbers of squares come from squares. -/
theorem exists_squares (self : Indexer) {cs : List (List ℕ)} (h : ∀ x ∈ cs.flatten, x < 64) :
    ∃ qs : List (List Square), qs.map (List.map self.squareIndex) = cs := by
  have hex : ∀ i, ∃ s, i < 64 → self.squareIndex s = i := by
    intro i
    by_cases hi : i < 64
    · obtain ⟨s, hs⟩ := self.exists_squareIndex hi
      exact ⟨s, fun _ => hs⟩
    · exact ⟨⟨0, 0⟩, fun h => absurd h hi⟩
  choose sq hsq using hex
  refine ⟨cs.map (List.map sq), ?_⟩
  rw [List.map_map]
  conv_rhs => rw [← List.map_id cs]
  refine List.map_congr_left (fun c hc => ?_)
  rw [Function.comp_apply, List.map_map]
  conv_rhs => rw [id, ← List.map_id c]
  exact List.map_congr_left (fun x hx => hsq x (h x (List.mem_flatten.mpr ⟨c, hc, hx⟩)))

/-! ### Slices with pawns -/

/-- The number of squares whose compact indices fit the groups. -/
theorem sliceIndex_pawnful (hM : M.nPieces ≤ maxPieces) (hp : 0 < M.nPawns)
    (hps : List.Forall₂ PawnChunk M.pawnGroups ps) {cs : List (List ℕ)}
    (hfits : List.Forall₂ Fits M.nonpawns cs)
    (hcs : compact (M.indexer.coordToPidx (ps.flatten ++ qs.flatten))
      = compact (M.indexer.coordToPidx ps.flatten) ++ cs.flatten) :
    M.indexer.sliceIndex (ps.flatten ++ qs.flatten) = .ok (pack M.nonpawns cs 0) ∧
      M.indexer.indexToCpidx (pack M.nonpawns cs 0) = .ok cs.flatten := by
  have hsound : ∀ g ∈ M.nonpawns, Sound g := by
    rw [Material.nonpawns_of_pawnful hp]; exact Material.sound_assignedGroups hM
  have hlen : (compact (M.indexer.coordToPidx ps.flatten)).length = M.nPawns := by
    rw [length_compact, coordToPidx, List.length_map, Material.length_pawnSquares hps]
  have hne : ¬ M.indexer.nPawns = 0 := by
    show ¬ M.nPawns = 0
    omega
  constructor
  · have hpos : 0 < (M.indexer.coordToPidx (ps.flatten ++ qs.flatten)).length := by
      rw [← length_compact, hcs, List.length_append, hlen]; omega
    unfold sliceIndex compactPidx
    rw [Run.ensure_eq hpos, Run.ok_bind, Run.pure_eq_ok, Run.ok_bind, if_neg hne, Run.pure_eq_ok,
      Run.ok_bind]
    unfold cpidxToIndex
    simp only [if_neg hne, hcs]
    have hdrop : (compact (M.indexer.coordToPidx ps.flatten) ++ cs.flatten).drop M.indexer.nPawns
        = cs.flatten := List.drop_left' hlen
    rw [hdrop]
    exact appendGroups_eq hsound hfits 0
  · unfold indexToCpidx
    rw [if_neg hne]
    have hsplit : splitGroups (pack M.nonpawns cs 0) M.indexer.nonpawns = .ok (0, cs.flatten) :=
      splitGroups_pack hsound hfits 0
    rw [hsplit, Run.ok_bind]
    rfl

theorem descending_chunks (hp : 0 < M.nPawns)
    (hqs : List.Forall₂ (PieceChunk M.indexer) M.nonpawns qs) (hk : KingsCanonical M qs) :
    ∀ c ∈ qs.map (List.map M.indexer.squareIndex), Descending c := by
  intro c hc
  obtain ⟨q, hq, rfl⟩ := List.mem_map.mp hc
  have hmem : ∃ g, (g, q) ∈ M.nonpawns.zip qs := by
    have : q ∈ (M.nonpawns.zip qs).map Prod.snd := by
      rw [List.map_snd_zip hqs.length_eq.ge]; exact hq
    obtain ⟨⟨g, q'⟩, hm, rfl⟩ := List.mem_map.mp this
    exact ⟨g, hm⟩
  obtain ⟨g, hm⟩ := hmem
  have hchunk := (List.forall₂_iff_zip.mp hqs).2 hm
  unfold Descending
  rw [List.pairwise_map]
  by_cases hkind : g.kind = .kingPair
  · rcases Material.kind_cases (List.of_mem_zip hm).1 with ⟨-, hn, hpair⟩ | ⟨_, _, hk', -⟩
    · obtain ⟨kw, kb, hkk⟩ := List.length_eq_two.mp (hchunk.length_eq.trans hn)
      have hsymm : M.Symmetric := hpair.resolve_left (by omega)
      have hlt := (hk _ hm hkind kw kb hkk).2 hsymm
      rw [hkk]
      simpa using hlt
    · rw [hkind] at hk'; cases hk'
  · exact hchunk.descending hkind

theorem exists_sliceCode_pawnful (hM : M.nPieces ≤ maxPieces) (hp : 0 < M.nPawns)
    (h : Arranged M ps qs) (hk : KingsCanonical M qs) : ∃ j cpidx, SliceCode M ps qs j cpidx := by
  have hd := descending_chunks hp h.pieces hk
  have hnd : (M.indexer.coordToPidx (ps.flatten ++ qs.flatten)).Nodup :=
    (nodup_coordToPidx _).mpr h.nodup
  have hlt : ∀ x ∈ M.indexer.coordToPidx (ps.flatten ++ qs.flatten), x < 64 :=
    lt_of_mem_coordToPidx _ _
  rw [coordToPidx_append] at hnd hlt
  obtain ⟨cs, he, hl, hd', hb⟩ := compact_prefix_blocks hd hnd hlt
  have hlen : (M.indexer.coordToPidx ps.flatten).length = M.nPawns := by
    rw [coordToPidx, List.length_map, Material.length_pawnSquares h.pawns]
  have hfits : List.Forall₂ Fits M.nonpawns cs := by
    rw [Material.nonpawns_of_pawnful hp, Material.assignedGroups, fits_assignSquares_iff]
    refine ⟨?_, hd', by rw [hlen] at hb; exact hb⟩
    rw [hl, List.map_map, ← Material.map_size_nonpawns]
    rw [← map_length_chunks h.pieces]
    exact List.map_congr_left (fun c _ => List.length_map _)
  have hcs : compact (M.indexer.coordToPidx (ps.flatten ++ qs.flatten))
      = compact (M.indexer.coordToPidx ps.flatten) ++ cs.flatten := by
    rw [coordToPidx_append, he]
  obtain ⟨hi, hc⟩ := sliceIndex_pawnful hM hp h.pawns hfits hcs
  refine ⟨_, _, hi, ?_, hc, fun _ => ?_, fun h0 => absurd h0 (by omega),
    fun h0 => absurd h0 (by omega)⟩
  · have hsound : ∀ g ∈ M.nonpawns, Sound g := by
      rw [Material.nonpawns_of_pawnful hp]; exact Material.sound_assignedGroups hM
    have := pack_lt hsound hfits (show 0 < 1 by omega)
    rwa [Nat.one_mul] at this
  · rw [← hcs, uncompact_compact ((nodup_coordToPidx _).mpr h.nodup)]

theorem exists_arranged_pawnful (hM : M.nPieces ≤ maxPieces) (hp : 0 < M.nPawns)
    (hps : List.Forall₂ PawnChunk M.pawnGroups ps) {j : ℕ}
    (hj : j < M.indexer.nonpawnCombinations) :
    ∃ qs cpidx, Arranged M ps qs ∧ KingsCanonical M qs ∧ SliceCode M ps qs j cpidx := by
  have hsound : ∀ g ∈ M.nonpawns, Sound g := by
    rw [Material.nonpawns_of_pawnful hp]; exact Material.sound_assignedGroups hM
  obtain ⟨cs', hfits, -, hpack⟩ := splitGroups_eq hsound j
  have hzero : j / (M.nonpawns.map (·.combinations)).prod = 0 := Nat.div_eq_of_lt hj
  rw [hzero] at hpack
  have hnd : ps.flatten.Nodup := nodup_pawnChunks hps Material.pairwise_pawnGroups
  have hlen : (M.indexer.coordToPidx ps.flatten).length = M.nPawns := by
    rw [coordToPidx, List.length_map, Material.length_pawnSquares hps]
  have hfits' := hfits
  rw [Material.nonpawns_of_pawnful hp, Material.assignedGroups, fits_assignSquares_iff] at hfits'
  obtain ⟨hl', hd', hb'⟩ := hfits'
  rw [← hlen] at hb'
  obtain ⟨cs, he, hl, hd, hndc, hlt⟩ := uncompact_prefix_blocks
    ((nodup_coordToPidx _).mpr hnd) (lt_of_mem_coordToPidx _ _) hd' hb'
  obtain ⟨qs, rfl⟩ := exists_squares M.indexer
    (fun x hx => hlt x (List.mem_append_right _ hx))
  rw [← coordToPidx_append] at he hndc
  have hchunks : List.Forall₂ (PieceChunk M.indexer) M.nonpawns qs := by
    have hsizes : qs.map List.length = M.nonpawns.map (·.size) := by
      rw [Material.map_size_nonpawns, ← hl', ← hl, List.map_map]
      exact List.map_congr_left (fun c _ => (List.length_map _).symm)
    rw [List.forall₂_iff_zip]
    have hlen' : M.nonpawns.length = qs.length := by
      have := congrArg List.length hsizes
      rw [List.length_map, List.length_map] at this
      exact this.symm
    refine ⟨hlen', fun {g c} hm => ⟨?_, fun _ => ?_⟩⟩
    · exact length_of_mem_zip hsizes hm
    · have := hd (c.map M.indexer.squareIndex)
        (List.mem_map_of_mem (List.of_mem_zip hm).2)
      rwa [Descending, List.pairwise_map] at this
  have harr : Arranged M ps qs := ⟨hps, hchunks, (nodup_coordToPidx _).mp hndc⟩
  have hcs : compact (M.indexer.coordToPidx (ps.flatten ++ qs.flatten))
      = compact (M.indexer.coordToPidx ps.flatten) ++ cs'.flatten := by
    rw [← he, compact_uncompact]
  obtain ⟨hi, hc⟩ := sliceIndex_pawnful hM hp hps hfits hcs
  rw [hpack] at hi hc
  refine ⟨qs, cs'.flatten, harr, ?_, hi, hj, hc, fun _ => he, fun h0 => absurd h0 (by omega),
    fun h0 => absurd h0 (by omega)⟩
  intro x hx _ kw kb hkk
  refine ⟨fun h0 => absurd h0 (by omega), fun _ => ?_⟩
  have := hd (x.2.map M.indexer.squareIndex) (List.mem_map_of_mem (List.of_mem_zip hx).2)
  rw [hkk, Descending, List.pairwise_map] at this
  simpa using this

/-! ### Slices without pawns -/

/-- The compacted numbers of a king pair are a prefix that determines the pair. -/
theorem compact_kings (hp : M.nPawns = 0) (kw kb : Square) (l : List ℕ) :
    compact (M.indexer.squareIndex kw :: M.indexer.squareIndex kb :: l)
      = (compactSquares (kw, kb)).1 :: (compactSquares (kw, kb)).2 ::
        compact (l.map (closeAll (compact [M.indexer.squareIndex kw, M.indexer.squareIndex kb]))) := by
  have hnum : M.indexer.symmetricPawns = false :=
    decide_eq_false (fun h => by have := h.1; omega)
  rw [show M.indexer.squareIndex kw :: M.indexer.squareIndex kb :: l
    = [M.indexer.squareIndex kw, M.indexer.squareIndex kb] ++ l from rfl, compact_append]
  simp only [compact_cons, List.map_cons, List.map_nil, compact_nil, squareIndex_eq_number hnum]
  rfl

/-- The number of squares behind a canonical king pair. -/
theorem sliceIndex_pawnless (hM : M.nPieces ≤ maxPieces) (hp : M.nPawns = 0)
    {coord : List Square} {kw kb : Square} {v : ℕ} (hv : canonicalPairs[v]? = some (kw, kb))
    {cs : List (List ℕ)} (hfits : List.Forall₂ Fits (assignSquares 62 M.restGroups) cs)
    (hcs : compact (M.indexer.coordToPidx coord)
      = (compactSquares (kw, kb)).1 :: (compactSquares (kw, kb)).2 :: cs.flatten) :
    M.indexer.sliceIndex coord = .ok (pack (assignSquares 62 M.restGroups) cs v) ∧
      M.indexer.indexToCpidx (pack (assignSquares 62 M.restGroups) cs v)
        = .ok (v :: 0 :: cs.flatten) ∧
      unmapKings (v :: 0 :: cs.flatten)
        = .ok ((compactSquares (kw, kb)).1 :: (compactSquares (kw, kb)).2 :: cs.flatten) := by
  have hsound := Material.sound_restGroups hM hp
  have hz : M.indexer.nPawns = 0 := hp
  have hdrop : M.indexer.nonpawns.drop 1 = assignSquares 62 M.restGroups := by
    show M.nonpawns.drop 1 = _
    rw [Material.nonpawns_of_pawnless hp]; rfl
  have hkey : kingPairKey (compactSquares (kw, kb)) < 64 * 64 := by
    have h₁ := kw.number_lt
    have h₂ := kb.number_lt
    have h₃ : close kw.number kb.number ≤ kb.number := by unfold close; split <;> omega
    unfold kingPairKey compactSquares
    simp only
    omega
  have hlt : v < nKingPairs := by
    have := (List.getElem?_eq_some_iff.mp hv).1
    rwa [length_canonicalPairs] at this
  refine ⟨?_, ?_, ?_⟩
  · have hpos : 0 < (M.indexer.coordToPidx coord).length := by
      rw [← length_compact, hcs]; exact Nat.succ_pos _
    unfold sliceIndex compactPidx mapKings
    rw [Run.ensure_eq hpos, Run.ok_bind, Run.pure_eq_ok, Run.ok_bind, if_pos hz, hcs]
    rw [Run.index_eq (by rfl), Run.ok_bind, Run.index_eq (by rfl), Run.ok_bind,
      Run.ensure_eq hkey, Run.ok_bind, kingsMap_toIndex hv, Run.expect_some, Run.ok_bind,
      Run.pure_eq_ok, Run.ok_bind]
    unfold cpidxToIndex
    simp only [if_pos hz]
    rw [Run.index_eq (by rfl), Run.ok_bind, hdrop]
    exact appendGroups_eq hsound hfits v
  · unfold indexToCpidx
    rw [if_pos hz, hdrop, splitGroups_pack hsound hfits, Run.ok_bind]
    simp only
    rw [Run.ensure_eq hlt]
    rfl
  · unfold unmapKings
    rw [Run.index_eq (by rfl), Run.ok_bind,
      Run.index_eq (by rw [kingsMap_fromIndex, List.getElem?_map, hv]; rfl)]
    rfl

/-- The squares of a table without pawns: the kings first. -/
theorem exists_kings (hp : M.nPawns = 0) (h : Arranged M ps qs) :
    ∃ kw kb qs', ps = [] ∧ qs = [kw, kb] :: qs' ∧
      List.Forall₂ (PieceChunk M.indexer) (assignSquares 62 M.restGroups) qs' := by
  have hps := h.pawns
  rw [Material.pawnGroups_of_pawnless hp, List.forall₂_nil_left_iff] at hps
  have hqs := h.pieces
  rw [Material.nonpawns_of_pawnless hp, List.forall₂_cons_left_iff] at hqs
  obtain ⟨c, qs', hc, hqs', rfl⟩ := hqs
  obtain ⟨kw, kb, rfl⟩ := List.length_eq_two.mp hc.length_eq
  exact ⟨kw, kb, qs', hps, rfl, hqs'⟩

theorem descending_restChunks
    (hqs : List.Forall₂ (PieceChunk M.indexer) (assignSquares 62 M.restGroups) qs) :
    ∀ c ∈ qs.map (List.map M.indexer.squareIndex), Descending c := by
  intro c hc
  obtain ⟨q, hq, rfl⟩ := List.mem_map.mp hc
  obtain ⟨g, hg, hchunk⟩ := Chunks.exists_of_mem_right hqs hq
  have hkind : g.kind ≠ .kingPair := by
    have hmem : g.kind ∈ M.restGroups.map (·.kind) := by
      rw [← map_kind_assignSquares 62]
      exact List.mem_map_of_mem hg
    obtain ⟨g', hg', he⟩ := List.mem_map.mp hmem
    obtain ⟨k, -, hk⟩ := List.mem_filterMap.mp hg'
    rw [← he]
    split at hk
    · cases hk
    · cases hk; simp
  unfold Descending
  rw [List.pairwise_map]
  exact hchunk.descending hkind

theorem nonpawnCombinations_pawnless (hp : M.nPawns = 0) : M.indexer.nonpawnCombinations
    = nKingPairs * ((assignSquares 62 M.restGroups).map (·.combinations)).prod := by
  show (M.nonpawns.map (·.combinations)).prod = _
  rw [Material.nonpawns_of_pawnless hp, List.map_cons, List.prod_cons]

theorem nonkingCombinations_pawnless (hp : M.nPawns = 0) : M.indexer.nonkingCombinations
    = ((assignSquares 62 M.restGroups).map (·.combinations)).prod := by
  show (if M.nPawns = 0 then ((M.nonpawns.drop 1).map (·.combinations)).prod else 0) = _
  rw [if_pos hp, Material.nonpawns_of_pawnless hp]
  rfl

/-- The number of the king pair is the leading factor of an index. -/
theorem pack_div_nonking (hM : M.nPieces ≤ maxPieces) (hp : M.nPawns = 0) {cs : List (List ℕ)}
    (hfits : List.Forall₂ Fits (assignSquares 62 M.restGroups) cs) {v : ℕ} :
    pack (assignSquares 62 M.restGroups) cs v / M.indexer.nonkingCombinations = v := by
  have hsound := Material.sound_restGroups hM hp
  obtain ⟨cs', -, he, -⟩ := splitGroups_eq hsound (pack (assignSquares 62 M.restGroups) cs v)
  rw [splitGroups_pack hsound hfits, Except.ok.injEq, Prod.mk.injEq] at he
  rw [nonkingCombinations_pawnless hp]
  exact he.1.symm

theorem exists_sliceCode_pawnless (hM : M.nPieces ≤ maxPieces) (hp : M.nPawns = 0)
    (h : Arranged M ps qs) (hk : KingsCanonical M qs) : ∃ j cpidx, SliceCode M ps qs j cpidx := by
  obtain ⟨kw, kb, qs', rfl, rfl, hqs⟩ := exists_kings hp h
  have hhead : (M.nonpawns.zip ([kw, kb] :: qs'))
      = (⟨.kingPair, nKingPairs, nKingPairs, 2⟩, [kw, kb])
        :: (assignSquares 62 M.restGroups).zip qs' := by
    rw [Material.nonpawns_of_pawnless hp, List.zip_cons_cons]
  obtain ⟨hcan, htouch⟩ :=
    (hk _ (by rw [hhead]; exact List.mem_cons_self) rfl kw kb rfl).1 hp
  obtain ⟨v, hv⟩ := List.getElem?_of_mem (mem_canonicalPairs (p := (kw, kb)) |>.mpr ⟨htouch, hcan⟩)
  have hd := descending_restChunks hqs
  have hcoord : M.indexer.coordToPidx (([] : List (List Square)).flatten ++ ([kw, kb] :: qs').flatten)
      = [M.indexer.squareIndex kw, M.indexer.squareIndex kb]
        ++ (qs'.map (List.map M.indexer.squareIndex)).flatten := by
    unfold coordToPidx
    rw [List.flatten_nil, List.nil_append, List.flatten_cons, List.map_append, List.map_flatten]
    rfl
  have hnd := (nodup_coordToPidx M.indexer).mpr h.nodup
  have hlt := lt_of_mem_coordToPidx M.indexer
    (([] : List (List Square)).flatten ++ ([kw, kb] :: qs').flatten)
  rw [hcoord] at hnd hlt
  obtain ⟨cs, he, hl, hd', hb⟩ := compact_prefix_blocks hd hnd hlt
  have hfits : List.Forall₂ Fits (assignSquares 62 M.restGroups) cs := by
    rw [fits_assignSquares_iff]
    refine ⟨?_, hd', hb⟩
    rw [hl, List.map_map, ← map_size_assignSquares 62, ← map_length_chunks hqs]
    exact List.map_congr_left (fun c _ => List.length_map _)
  have hpre : compact [M.indexer.squareIndex kw, M.indexer.squareIndex kb]
      = [(compactSquares (kw, kb)).1, (compactSquares (kw, kb)).2] := by
    have := compact_kings hp kw kb []
    rw [List.map_nil, compact_nil] at this
    exact this
  have hcs : compact (M.indexer.coordToPidx
        (([] : List (List Square)).flatten ++ ([kw, kb] :: qs').flatten))
      = (compactSquares (kw, kb)).1 :: (compactSquares (kw, kb)).2 :: cs.flatten := by
    rw [hcoord, he, hpre]; rfl
  obtain ⟨hi, hc, hu⟩ := sliceIndex_pawnless hM hp hv hfits hcs
  refine ⟨_, _, hi, ?_, hc, fun h0 => absurd h0 (by omega), fun _ => ⟨_, hu, ?_⟩, ?_⟩
  · rw [nonpawnCombinations_pawnless hp]
    refine pack_lt (Material.sound_restGroups hM hp) hfits ?_
    have := (List.getElem?_eq_some_iff.mp hv).1
    rwa [length_canonicalPairs] at this
  · rw [← hcs, uncompact_compact ((nodup_coordToPidx _).mpr h.nodup)]
  · intro _ kw' kb' rest he
    cases he
    rw [pack_div_nonking hM hp hfits, hv]

theorem exists_arranged_pawnless (hM : M.nPieces ≤ maxPieces) (hp : M.nPawns = 0) {j : ℕ}
    (hj : j < M.indexer.nonpawnCombinations) :
    ∃ qs cpidx, Arranged M [] qs ∧ KingsCanonical M qs ∧ SliceCode M [] qs j cpidx := by
  have hsound := Material.sound_restGroups hM hp
  obtain ⟨cs', hfits, -, hpack⟩ := splitGroups_eq hsound j
  rw [nonpawnCombinations_pawnless hp] at hj
  generalize hvdef : j / ((assignSquares 62 M.restGroups).map (·.combinations)).prod = v at hpack
  have hv462 : v < nKingPairs := by
    rw [← hvdef]; exact Nat.div_lt_of_lt_mul (by rw [Nat.mul_comm]; exact hj)
  obtain ⟨⟨kw, kb⟩, hv⟩ : ∃ p, canonicalPairs[v]? = some p :=
    ⟨_, List.getElem?_eq_getElem (by rw [length_canonicalPairs]; exact hv462)⟩
  obtain ⟨htouch, hcan⟩ := mem_canonicalPairs.mp (List.mem_of_getElem? hv)
  have hfits' := hfits
  rw [fits_assignSquares_iff] at hfits'
  obtain ⟨hl', hd', hb'⟩ := hfits'
  have hne : kw ≠ kb := by
    rintro rfl
    exact htouch ⟨by simp [rankDist], by simp [fileDist]⟩
  have hka : [M.indexer.squareIndex kw, M.indexer.squareIndex kb].Nodup := by
    have : M.indexer.squareIndex kw ≠ M.indexer.squareIndex kb :=
      fun he => hne (M.indexer.squareIndex_injective he)
    simpa using this
  have hkl : ∀ x ∈ [M.indexer.squareIndex kw, M.indexer.squareIndex kb], x < 64 :=
    lt_of_mem_coordToPidx M.indexer [kw, kb]
  obtain ⟨cs, he, hl, hd, hndc, hlt⟩ := uncompact_prefix_blocks hka hkl hd' hb'
  obtain ⟨qs, rfl⟩ := exists_squares M.indexer
    (fun x hx => hlt x (List.mem_append_right _ hx))
  have hcoord : M.indexer.coordToPidx (([] : List (List Square)).flatten ++ ([kw, kb] :: qs).flatten)
      = [M.indexer.squareIndex kw, M.indexer.squareIndex kb]
        ++ (qs.map (List.map M.indexer.squareIndex)).flatten := by
    unfold coordToPidx
    rw [List.flatten_nil, List.nil_append, List.flatten_cons, List.map_append, List.map_flatten]
    rfl
  have hsizes : qs.map List.length = (assignSquares 62 M.restGroups).map (·.size) := by
    rw [map_size_assignSquares, ← hl', ← hl, List.map_map]
    exact List.map_congr_left (fun c _ => (List.length_map _).symm)
  have hchunks : List.Forall₂ (PieceChunk M.indexer) (assignSquares 62 M.restGroups) qs := by
    rw [List.forall₂_iff_zip]
    have hlen' : (assignSquares 62 M.restGroups).length = qs.length := by
      have := congrArg List.length hsizes
      rw [List.length_map, List.length_map] at this
      exact this.symm
    refine ⟨hlen', fun {g c} hm => ⟨length_of_mem_zip hsizes hm, fun _ => ?_⟩⟩
    have := hd (c.map M.indexer.squareIndex) (List.mem_map_of_mem (List.of_mem_zip hm).2)
    rwa [Descending, List.pairwise_map] at this
  have harr : Arranged M [] ([kw, kb] :: qs) := by
    refine ⟨by rw [Material.pawnGroups_of_pawnless hp]; exact .nil, ?_, ?_⟩
    · rw [Material.nonpawns_of_pawnless hp]
      exact .cons ⟨rfl, fun h => absurd rfl h⟩ hchunks
    · rw [← hcoord] at hndc
      exact (nodup_coordToPidx _).mp hndc
  have hcs : compact (M.indexer.coordToPidx
        (([] : List (List Square)).flatten ++ ([kw, kb] :: qs).flatten))
      = (compactSquares (kw, kb)).1 :: (compactSquares (kw, kb)).2 :: cs'.flatten := by
    have hpre := compact_kings hp kw kb []
    rw [List.map_nil, compact_nil] at hpre
    rw [hcoord, ← he, compact_uncompact, hpre]
    rfl
  obtain ⟨hi, hc, hu⟩ := sliceIndex_pawnless hM hp hv hfits hcs
  rw [hpack] at hi hc
  refine ⟨_, _, harr, ?_, hi, ?_, hc, fun h0 => absurd h0 (by omega), fun _ => ⟨_, hu, ?_⟩, ?_⟩
  · intro x hx hkind kw' kb' hkk
    rw [Material.nonpawns_of_pawnless hp, List.zip_cons_cons] at hx
    rcases List.mem_cons.mp hx with rfl | hx
    · cases hkk
      exact ⟨fun _ => ⟨hcan, htouch⟩, fun hs => absurd hs.1 (by omega)⟩
    · exfalso
      have hmem : x.1.kind ∈ M.restGroups.map (·.kind) := by
        rw [← map_kind_assignSquares 62]
        exact List.mem_map_of_mem (List.of_mem_zip hx).1
      obtain ⟨g', hg', hek⟩ := List.mem_map.mp hmem
      obtain ⟨k, -, hgk⟩ := List.mem_filterMap.mp hg'
      split at hgk
      · cases hgk
      · cases hgk
        rw [hkind] at hek
        cases hek
  · rw [nonpawnCombinations_pawnless hp]; exact hj
  · rw [← hcs, uncompact_compact ((nodup_coordToPidx _).mpr harr.nodup)]
  · intro _ kw' kb' rest he'
    cases he'
    rw [nonkingCombinations_pawnless hp, hvdef, hv]

/-! ### All slices -/

/-- Canonical squares have a number within their slice. -/
theorem Arranged.exists_sliceCode (hM : M.nPieces ≤ maxPieces) (h : Arranged M ps qs)
    (hk : KingsCanonical M qs) : ∃ j cpidx, SliceCode M ps qs j cpidx := by
  rcases Nat.eq_zero_or_pos M.nPawns with hp | hp
  · exact exists_sliceCode_pawnless hM hp h hk
  · exact exists_sliceCode_pawnful hM hp h hk

/-- Every number within a slice has canonical squares. -/
theorem exists_arranged (hM : M.nPieces ≤ maxPieces)
    (hps : List.Forall₂ PawnChunk M.pawnGroups ps) {j : ℕ}
    (hj : j < M.indexer.nonpawnCombinations) :
    ∃ qs cpidx, Arranged M ps qs ∧ KingsCanonical M qs ∧ SliceCode M ps qs j cpidx := by
  rcases Nat.eq_zero_or_pos M.nPawns with hp | hp
  · rw [Material.pawnGroups_of_pawnless hp, List.forall₂_nil_left_iff] at hps
    rw [hps]
    exact exists_arranged_pawnless hM hp hj
  · exact exists_arranged_pawnful hM hp hps hj

end

end ChessEgt
