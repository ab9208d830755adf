import ChessEgt.Indexing.Arrangement

/-!
# Pawn squares and pawn configurations

* `ranks_mem_rankLists`, `exists_pawnChunks` — the ranks of arranged pawns are exactly the rank
  lists of the pawn map;
* `pawnSquares_eq` — the squares of the pawns from their ranks;
* `Victim`, `Arranged.mem_victims_iff` — the en passant victims of a configuration, on the
  board.
-/

namespace ChessEgt

open Rules Indexer

/-- The ranks of squares. -/
def ranksOf (l : List Square) : List ℕ := l.map fun s => s.rank.val

namespace PawnChunk

variable {g : IndexerPawnGroup} {c : List Square}

theorem ranks_mem (h : PawnChunk g c) : ranksOf c ∈ PawnMap.rankChoices g.size := by
  rw [PawnMap.mem_rankChoices]
  refine ⟨by rw [ranksOf, List.length_map, h.length_eq], ?_, ?_⟩
  · unfold ranksOf Compaction.Descending
    rw [List.pairwise_map]
    exact h.descending
  · intro x hx
    obtain ⟨s, hs, rfl⟩ := List.mem_map.mp hx
    obtain ⟨h₀, h₇⟩ := h.ranks s hs
    have := s.rank.isLt
    rw [Ne, Fin.ext_iff] at h₀ h₇
    have e₀ : ((0 : Rank) : ℕ) = 0 := rfl
    have e₇ : ((7 : Rank) : ℕ) = 7 := rfl
    omega

theorem exists_of_ranks {r : List ℕ} (h : r ∈ PawnMap.rankChoices g.size) :
    ∃ c, PawnChunk g c ∧ ranksOf c = r := by
  obtain ⟨hlen, hd, hb⟩ := PawnMap.mem_rankChoices.mp h
  refine ⟨r.pmap (fun x hx => ⟨⟨x, hx⟩, g.file⟩) (fun x hx => by have := hb x hx; omega), ?_, ?_⟩
  · refine ⟨by rw [List.length_pmap, hlen], ?_, ?_, ?_⟩
    · intro s hs
      obtain ⟨x, hx, rfl⟩ := List.mem_pmap.mp hs
      rfl
    · rw [List.pairwise_pmap]
      exact hd.imp (fun h _ _ => h)
    · intro s hs
      obtain ⟨x, hx, rfl⟩ := List.mem_pmap.mp hs
      have := hb x hx
      rw [Ne, Ne, Fin.ext_iff, Fin.ext_iff]
      have e₀ : ((0 : Rank) : ℕ) = 0 := rfl
      have e₇ : ((7 : Rank) : ℕ) = 7 := rfl
      simp only
      omega
  · unfold ranksOf
    rw [List.map_pmap]
    simp

end PawnChunk

theorem ranksOf_flatten (ps : List (List Square)) : ranksOf ps.flatten = (ps.map ranksOf).flatten := by
  unfold ranksOf
  rw [List.map_flatten]

section

variable {gs : List IndexerPawnGroup} {ps : List (List Square)}

/-- The ranks of pawn chunks are a rank list of the pawn map. -/
theorem ranks_mem_rankLists (h : List.Forall₂ PawnChunk gs ps) :
    ranksOf ps.flatten ∈ PawnMap.rankLists gs := by
  refine PawnMap.mem_rankLists.mpr ⟨ps.map ranksOf, ?_, ranksOf_flatten ps⟩
  rw [List.forall₂_map_right_iff]
  exact h.imp (fun _ _ hc => hc.ranks_mem)

/-- Every rank list of the pawn map comes from pawn chunks. -/
theorem exists_pawnChunks {ranks : List ℕ} (h : ranks ∈ PawnMap.rankLists gs) :
    ∃ ps, List.Forall₂ PawnChunk gs ps ∧ ranksOf ps.flatten = ranks := by
  obtain ⟨rs, hrs, he⟩ := PawnMap.mem_rankLists.mp h
  rw [he]
  clear h he
  induction hrs with
  | nil => exact ⟨[], .nil, rfl⟩
  | cons hc _ ih =>
    obtain ⟨ps, hps, he⟩ := ih
    obtain ⟨c, hcc, hr⟩ := PawnChunk.exists_of_ranks hc
    refine ⟨c :: ps, .cons hcc hps, ?_⟩
    rw [ranksOf_flatten, List.map_cons, List.flatten_cons, hr, ← ranksOf_flatten, he,
      List.flatten_cons]

theorem groupRanks_ranksOf (h : List.Forall₂ PawnChunk gs ps) :
    PawnMap.groupRanks gs (ranksOf ps.flatten) = gs.zip (ps.map ranksOf) := by
  rw [ranksOf_flatten]
  refine PawnMap.groupRanks_eq ?_
  rw [List.map_map]
  induction h with
  | nil => rfl
  | cons hc _ ih =>
    rw [List.map_cons, List.map_cons, ih, Function.comp_apply, ranksOf, List.length_map,
      hc.length_eq]

theorem nodup_pawnChunks (h : List.Forall₂ PawnChunk gs ps)
    (hfiles : gs.Pairwise fun g g' => g.file ≠ g'.file) : ps.flatten.Nodup := by
  induction h with
  | nil => exact List.nodup_nil
  | @cons g c gs ps hc hps ih =>
    obtain ⟨hg, hfiles⟩ := List.pairwise_cons.mp hfiles
    rw [List.flatten_cons, List.nodup_append]
    refine ⟨hc.descending.imp (fun h he => by rw [he] at h; exact lt_irrefl _ h), ih hfiles, ?_⟩
    rintro s hs t ht rfl
    obtain ⟨c', hc', hs'⟩ := List.mem_flatten.mp ht
    obtain ⟨g', hg', hpc⟩ := Chunks.exists_of_mem_right hps hc'
    exact hg g' hg' ((hc.file s hs).symm.trans (hpc.file s hs'))

/-- The ranks of the squares of groups, with the files of the groups. -/
theorem flatMap_ranks (h : List.Forall₂ PawnChunk gs ps) :
    ((gs.zip (ps.map ranksOf)).flatMap fun (group, ranks) =>
      ranks.map fun rank => (rank, group.file)) = ps.flatten.map fun s => (s.rank.val, s.file) := by
  induction h with
  | nil => rfl
  | @cons g c gs ps hc _ ih =>
    rw [List.map_cons, List.zip_cons_cons, List.flatMap_cons, ih, List.flatten_cons,
      List.map_append]
    congr 1
    show (c.map fun s => s.rank.val).map (fun rank => (rank, g.file)) = _
    rw [List.map_map]
    exact List.map_congr_left (fun s hs => by rw [hc.file s hs]; rfl)

theorem pawnSquares_eq {self : Indexer} (h : List.Forall₂ PawnChunk self.pawns ps) :
    self.pawnSquares (ranksOf ps.flatten) = .ok ps.flatten := by
  unfold pawnSquares
  rw [groupRanks_ranksOf h]
  generalize self.pawns = gs at h ⊢
  rw [flatMap_ranks h, List.mapM_map]
  have := Run.mapM_eq_ok (l := ps.flatten) (g := id)
    (f := (fun (x : ℕ × File) => toSquare x.1 x.2.val) ∘ fun s : Square => (s.rank.val, s.file))
    (fun s _ => toSquare_eq s)
  rwa [List.map_id] at this

end

/-! ### En passant victims -/

/-- A pawn of the side not to move on its fourth rank, with no pawn of its file behind it, and a
    pawn of the side to move next to it. -/
def Victim (b : Board) (f : File) : Prop :=
  b ⟨4, f⟩ = some ⟨.black, .pawn⟩ ∧ (∀ c, b ⟨5, f⟩ ≠ some ⟨c, .pawn⟩) ∧
    (∀ c, b ⟨6, f⟩ ≠ some ⟨c, .pawn⟩) ∧
    ∃ f' : File, (f.val - f'.val) + (f'.val - f.val) = 1 ∧ b ⟨4, f'⟩ = some ⟨.white, .pawn⟩

namespace Arranged

variable {M : Material} {ps qs : List (List Square)} (h : Arranged M ps qs)

include h

/-- A pawn stands on a file with a pawn group. -/
theorem exists_pawnGroup {r : Rank} {f : File} {c : Color}
    (hb : h.board ⟨r, f⟩ = some ⟨c, .pawn⟩) : ∃ c, (⟨f, M.words f⟩, c) ∈ M.pawnGroups.zip ps := by
  refine exists_mem_zip h.pawns.length_eq (Material.mem_pawnGroups.mpr ⟨rfl, fun hnil => ?_⟩)
  have hmem : (⟨r, f⟩ : Square) ∈ pawnsOn (whiteSetup h.board none) f :=
    mem_pawnsOn.mpr ⟨⟨c, hb⟩, rfl⟩
  have hnil : M.words f = [] := hnil
  have hord := h.whiteBoard.material.words f
  rw [hnil, positionOrder, List.map_eq_nil_iff] at hord
  rw [hord] at hmem
  exact absurd hmem List.not_mem_nil

omit h in
theorem mem_zip_ranks {x : IndexerPawnGroup × List ℕ} :
    x ∈ M.pawnGroups.zip (ps.map ranksOf) ↔
      ∃ c, (x.1, c) ∈ M.pawnGroups.zip ps ∧ x.2 = ranksOf c := by
  rw [List.zip_map_right, List.mem_map]
  constructor
  · rintro ⟨⟨g, c⟩, hm, rfl⟩; exact ⟨c, hm, rfl⟩
  · rintro ⟨c, hm, hx⟩; exact ⟨(x.1, c), hm, by rw [Prod.map_apply, ← hx]; rfl⟩

/-- The slot next to a rank is the piece on the square. -/
theorem mem_zip_sides {g : IndexerPawnGroup} {c : List Square} (hx : (g, c) ∈ M.pawnGroups.zip ps)
    {r : Rank} {d : EgtSide} : (r.val, d) ∈ (ranksOf c).zip g.order.reverse ↔
      h.board ⟨r, g.file⟩ = some ⟨d.color .white, .pawn⟩ := by
  have hc := (List.forall₂_iff_zip.mp h.pawns).2 hx
  have hiff := h.mem_pawnChunk_iff hx ⟨r, g.file⟩ ⟨d.color .white, .pawn⟩
  simp only [and_true] at hiff
  rw [← hiff, pawnSlots, ranksOf, List.zip_map_left, List.zip_map_right, List.mem_map, List.mem_map]
  constructor
  · rintro ⟨⟨s, d⟩, hm, he⟩
    rw [Prod.map_apply, Prod.mk.injEq] at he
    refine ⟨(s, d), hm, ?_⟩
    have hs := hc.file s (List.of_mem_zip hm).1
    rw [Prod.map_apply, Prod.mk.injEq, ← he.2]
    exact ⟨Square.ext (Fin.ext he.1) hs, rfl⟩
  · rintro ⟨⟨s, d⟩, hm, he⟩
    rw [Prod.map_apply, Prod.mk.injEq, Piece.mk.injEq, EgtSide.color_inj] at he
    refine ⟨(s, d), hm, ?_⟩
    rw [Prod.map_apply, Prod.mk.injEq, he.2.1]
    exact ⟨by rw [show s = _ from he.1], rfl⟩

theorem hasCapturer_iff (f : File) :
    PawnMap.hasCapturer (M.pawnGroups.zip (ps.map ranksOf)) f = true ↔
      ∃ f' : File, (f.val - f'.val) + (f'.val - f.val) = 1 ∧
        h.board ⟨4, f'⟩ = some ⟨.white, .pawn⟩ := by
  unfold PawnMap.hasCapturer
  rw [List.any_eq_true]
  constructor
  · rintro ⟨⟨g, r⟩, hm, hx⟩
    obtain ⟨c, hc, rfl⟩ := mem_zip_ranks.mp hm
    simp only [Bool.and_eq_true, decide_eq_true_eq, List.any_eq_true] at hx
    obtain ⟨hd, ⟨rank, side⟩, hz, hr, hs⟩ := hx
    simp only at hr hs
    subst hr hs
    exact ⟨g.file, hd, (h.mem_zip_sides hc (r := 4)).mp hz⟩
  · rintro ⟨f', hd, hb⟩
    obtain ⟨c', hc'⟩ := h.exists_pawnGroup hb
    refine ⟨(⟨f', M.words f'⟩, ranksOf c'), mem_zip_ranks.mpr ⟨c', hc', rfl⟩, ?_⟩
    simp only [Bool.and_eq_true, decide_eq_true_eq, List.any_eq_true]
    exact ⟨hd, (4, .sideToMove), (h.mem_zip_sides hc' (r := 4)).mpr hb, rfl, rfl⟩

/-- The highest pawn of a file is a pawn of the side not to move on rank five. -/
theorem head_iff {g : IndexerPawnGroup} {c : List Square} (hx : (g, c) ∈ M.pawnGroups.zip ps) :
    (ranksOf c).head? = some 4 ∧ g.order.getLast? = some .sideNotToMove ↔
      h.board ⟨4, g.file⟩ = some ⟨.black, .pawn⟩ ∧
        (∀ c, h.board ⟨5, g.file⟩ ≠ some ⟨c, .pawn⟩) ∧
        ∀ c, h.board ⟨6, g.file⟩ ≠ some ⟨c, .pawn⟩ := by
  have hc := (List.forall₂_iff_zip.mp h.pawns).2 hx
  have hlen : c.length = g.order.reverse.length := by rw [List.length_reverse]; exact hc.length_eq
  have hmem : ∀ r : Rank, (∃ d, h.board ⟨r, g.file⟩ = some ⟨d, .pawn⟩) ↔ ⟨r, g.file⟩ ∈ c := by
    intro r
    rw [h.exists_pawn hx]
    simp
  rw [← List.head?_reverse]
  have hside := fun r side => h.mem_zip_sides hx (r := r) (d := side)
  have hdesc := hc.descending
  have hfile := hc.file
  have hranks := hc.ranks
  cases c with
  | nil =>
    refine ⟨fun hh => (by cases hh.1), fun hh => ?_⟩
    exact absurd ((hmem 4).mp ⟨_, hh.1⟩) List.not_mem_nil
  | cons s c =>
    obtain ⟨d, ds, hds⟩ := List.exists_cons_of_length_eq_add_one hlen.symm
    rw [hds] at hside ⊢
    have hs₀ : ∀ {r}, s.rank = r → s = ⟨r, g.file⟩ :=
      fun hr => Square.ext hr (hfile s List.mem_cons_self)
    obtain ⟨hlt, -⟩ := List.pairwise_cons.mp hdesc
    have hzip : (ranksOf (s :: c)).zip (d :: ds)
        = (s.rank.val, d) :: (ranksOf c).zip ds := rfl
    have hboard := (hside s.rank d).mp (by rw [hzip]; exact List.mem_cons_self)
    constructor
    · rintro ⟨hr, hd⟩
      have hr : s.rank.val = 4 := Option.some.inj hr
      have hr : s.rank = 4 := Fin.ext hr
      rw [List.head?_cons, Option.some.injEq] at hd
      subst hd
      have habove : ∀ r : Rank, 4 < r → ∀ e, h.board ⟨r, g.file⟩ ≠ some ⟨e, .pawn⟩ := by
        intro r hlt4 e he
        rcases List.mem_cons.mp ((hmem r).mp ⟨e, he⟩) with he | he
        · have hr : r = 4 := by rw [← he] at hr; exact hr
          rw [hr] at hlt4
          exact lt_irrefl _ hlt4
        · have := hlt _ he
          rw [hr] at this
          exact absurd this (lt_asymm hlt4)
      rw [hr] at hboard
      exact ⟨hboard, habove 5 (by decide), habove 6 (by decide)⟩
    · rintro ⟨h4, h5, h6⟩
      have hr : s.rank = 4 := by
        rcases List.mem_cons.mp ((hmem 4).mp ⟨_, h4⟩) with he | he
        · rw [← he]
        · exfalso
          have hlt4 : (4 : Rank) < s.rank := hlt _ he
          have h7 := (hranks s List.mem_cons_self).2
          have hcases : s.rank = 5 ∨ s.rank = 6 := by
            revert hlt4 h7
            generalize s.rank = x
            revert x
            decide
          rcases hcases with hr | hr <;> rw [hr] at hboard
          · exact h5 _ hboard
          · exact h6 _ hboard
      rw [hr, h4, Option.some.injEq, Piece.mk.injEq] at hboard
      have hd : d = .sideNotToMove := by
        cases d
        · exact absurd hboard.1 (by decide)
        · rfl
      exact ⟨by rw [ranksOf, List.map_cons, List.head?_cons, hr]; rfl, by rw [hd]; rfl⟩

/-- The victims of the arranged pawns, on the board. -/
theorem mem_victims_iff {f : File} :
    f ∈ PawnMap.victims M.pawnGroups (ranksOf ps.flatten) ↔ Victim h.board f := by
  unfold PawnMap.victims Victim
  rw [groupRanks_ranksOf h.pawns, List.mem_map]
  simp only [List.mem_filter, Bool.and_eq_true, decide_eq_true_eq]
  constructor
  · rintro ⟨⟨g, r⟩, ⟨hm, ⟨h₁, h₂⟩, h₃⟩, rfl⟩
    obtain ⟨c, hc, rfl⟩ := mem_zip_ranks.mp hm
    obtain ⟨h4, h5, h6⟩ := (h.head_iff hc).mp ⟨h₁, h₂⟩
    exact ⟨h4, h5, h6, (h.hasCapturer_iff g.file).mp h₃⟩
  · rintro ⟨h4, h5, h6, h₃⟩
    obtain ⟨c, hc⟩ := h.exists_pawnGroup h4
    obtain ⟨h₁, h₂⟩ := (h.head_iff hc).mpr ⟨h4, h5, h6⟩
    exact ⟨(⟨f, M.words f⟩, ranksOf c), ⟨mem_zip_ranks.mpr ⟨c, hc, rfl⟩, ⟨h₁, h₂⟩,
      (h.hasCapturer_iff f).mpr h₃⟩, rfl⟩

end Arranged

end ChessEgt
