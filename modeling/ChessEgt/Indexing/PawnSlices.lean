import ChessEgt.Indexing.RoundTrip

/-!
# Pawn slices

The entries of the map of pawn configurations, and the positions that select them.

* `PawnAt`, `EpFile` — the pawns of a choice of ranks, and the files whose highest pawn can be
  captured en passant by a pawn next to it;
* `PawnMap.Lists` — the map lists each choice, followed by its en passant files;
* `pawn_slices_exact` — for every accepted material list the map lists exactly these entries,
  every valid position finds its entry, and every en passant entry has a capturer.
-/

namespace ChessEgt

open Compaction (Descending)
open Rules Indexer

/-! ### Choices of ranks -/

/-- One choice of strictly descending ranks for each group. -/
def PawnChoice (groups : List IndexerPawnGroup) (rs : List (List ℕ)) : Prop :=
  List.Forall₂ (fun g c => c.length = g.size ∧ Descending c ∧ ∀ x ∈ c, 1 ≤ x ∧ x ≤ 6) groups rs

/-- A pawn of a choice: the pawns of a group are listed from the lowest rank to the highest. -/
def PawnAt (groups : List IndexerPawnGroup) (rs : List (List ℕ)) (rank : ℕ) (f : File)
    (side : EgtSide) : Prop :=
  ∃ x ∈ groups.zip rs, x.1.file = f ∧ (rank, side) ∈ x.2.zip x.1.order.reverse

/-- The highest pawn of the file is a pawn of the side not to move on its fourth rank, next to a
    pawn of the side to move. -/
def EpFile (groups : List IndexerPawnGroup) (rs : List (List ℕ)) (f : File) : Prop :=
  PawnAt groups rs 4 f .sideNotToMove ∧ (∀ rank side, PawnAt groups rs rank f side → rank ≤ 4) ∧
    ∃ f' : File, (f.val - f'.val) + (f'.val - f.val) = 1 ∧ PawnAt groups rs 4 f' .sideToMove

theorem PawnChoice.lengths {groups : List IndexerPawnGroup} {rs : List (List ℕ)}
    (h : PawnChoice groups rs) : rs.map List.length = groups.map (·.size) := by
  induction h with
  | nil => rfl
  | cons hc _ ih => rw [List.map_cons, List.map_cons, ih, hc.1]

/-- A file has one group. -/
theorem eq_of_file {groups : List IndexerPawnGroup} {rs : List (List ℕ)}
    (hfiles : (groups.map (·.file)).Nodup) {x y : IndexerPawnGroup × List ℕ}
    (h : PawnChoice groups rs) (hx : x ∈ groups.zip rs) (hy : y ∈ groups.zip rs)
    (hxy : x.1.file = y.1.file) : x = y := by
  have hsub : ((groups.zip rs).map fun x => x.1.file).Nodup := by
    have hfst : (groups.zip rs).map Prod.fst = groups :=
      List.map_fst_zip (List.Forall₂.length_eq h).le
    rw [← hfst, List.map_map] at hfiles
    exact hfiles
  exact List.inj_on_of_nodup_map hsub hx hy hxy

/-- The highest of the pawns of a group. -/
theorem highest_iff {c : List ℕ} {order : List EgtSide} (hlen : c.length = order.length)
    (hd : Descending c) : c.head? = some 4 ∧ order.getLast? = some .sideNotToMove ↔
      (4, EgtSide.sideNotToMove) ∈ c.zip order.reverse ∧
        ∀ rank side, (rank, side) ∈ c.zip order.reverse → rank ≤ 4 := by
  rw [← List.head?_reverse]
  have hlen : c.length = order.reverse.length := by rw [hlen, List.length_reverse]
  generalize order.reverse = sides at hlen ⊢
  cases c with
  | nil =>
    refine ⟨fun h => ?_, fun h => ?_⟩
    · cases h.1
    · exact absurd h.1 List.not_mem_nil
  | cons x c =>
    obtain ⟨d, sides, rfl⟩ := List.exists_cons_of_length_eq_add_one hlen.symm
    obtain ⟨hlt, -⟩ := List.pairwise_cons.mp hd
    rw [List.head?_cons, List.head?_cons, Option.some.injEq, Option.some.injEq, List.zip_cons_cons]
    constructor
    · rintro ⟨rfl, rfl⟩
      refine ⟨List.mem_cons_self, fun rank side hm => ?_⟩
      rcases List.mem_cons.mp hm with he | hm
      · rw [Prod.mk.injEq] at he
        exact he.1.le
      · exact (hlt rank (List.of_mem_zip hm).1).le
    · rintro ⟨hm, hle⟩
      have hx := hle x d List.mem_cons_self
      rcases List.mem_cons.mp hm with he | hm
      · rw [Prod.mk.injEq] at he
        exact ⟨he.1.symm, he.2.symm⟩
      · -- A pawn on this rank behind the first one would be below it.
        have := hlt 4 (List.of_mem_zip hm).1
        omega

namespace PawnMap

/-- The map lists each choice of ranks without en passant, followed by one entry for each of its
    en passant files, and nothing else. -/
def Lists (groups : List IndexerPawnGroup) (map : PawnMap) : Prop :=
  ∃ choices : List (List (List ℕ)), choices.Nodup ∧ (∀ rs, rs ∈ choices ↔ PawnChoice groups rs) ∧
    ∃ files : List (List ℕ) → List File,
      (∀ rs ∈ choices, (files rs).Nodup ∧ ∀ f, f ∈ files rs ↔ EpFile groups rs f) ∧
      map.table.fromIndex = choices.flatMap fun rs =>
        (rs.flatten, none) :: (files rs).map fun f => (rs.flatten, some f)

/-- Numbers and entries determine each other, and no other key has a number. -/
structure Numbers (map : PawnMap) : Prop where
  nodup : map.table.fromIndex.Nodup
  key_lt : ∀ c ∈ map.table.fromIndex, key c < map.capacity
  toIndex_iff : ∀ k i, map.table.toIndex k = some i ↔
    ∃ c, map.table.fromIndex[i]? = some c ∧ key c = k
  index : ∀ i c, map.table.fromIndex[i]? = some c → map.index c = .ok i

/-! ### The listing -/

/-- The choices of ranks, group by group. -/
def choices : List IndexerPawnGroup → List (List (List ℕ))
  | [] => [[]]
  | g :: gs => (rankChoices g.size).flatMap fun c => (choices gs).map (c :: ·)

theorem mem_choices {groups : List IndexerPawnGroup} {rs : List (List ℕ)} :
    rs ∈ choices groups ↔ PawnChoice groups rs := by
  unfold PawnChoice
  simp only [← mem_rankChoices]
  induction groups generalizing rs with
  | nil => rw [choices, List.mem_singleton, List.forall₂_nil_left_iff]
  | cons g gs ih =>
    rw [choices, List.mem_flatMap, List.forall₂_cons_left_iff]
    simp only [List.mem_map, ih]
    constructor
    · rintro ⟨c, hc, rest, hrest, rfl⟩
      exact ⟨c, rest, hc, hrest, rfl⟩
    · rintro ⟨c, rest, hc, hrest, rfl⟩
      exact ⟨c, hc, rest, hrest, rfl⟩

theorem nodup_choices (groups : List IndexerPawnGroup) : (choices groups).Nodup := by
  induction groups with
  | nil => exact List.nodup_singleton _
  | cons g gs ih =>
    rw [choices, List.nodup_flatMap]
    refine ⟨fun c _ => ih.map (List.cons_injective), ?_⟩
    refine (nodup_rankChoices _).imp (fun {c d} hne => ?_)
    rw [Function.onFun, List.disjoint_left]
    intro x hx hx'
    obtain ⟨r, -, rfl⟩ := List.mem_map.mp hx
    obtain ⟨r', -, he⟩ := List.mem_map.mp hx'
    exact hne (List.cons.inj he).1.symm

theorem rankLists_eq (groups : List IndexerPawnGroup) :
    rankLists groups = (choices groups).map List.flatten := by
  induction groups with
  | nil => rfl
  | cons g gs ih =>
    rw [rankLists, choices, List.map_flatMap]
    refine List.flatMap_congr (fun c _ => ?_)
    rw [ih, List.map_map, List.map_map]
    rfl

/-- The victims of a choice are its en passant files. -/
theorem mem_victims {groups : List IndexerPawnGroup} (hfiles : (groups.map (·.file)).Nodup)
    {rs : List (List ℕ)} (h : PawnChoice groups rs) {f : File} :
    f ∈ victims groups rs.flatten ↔ EpFile groups rs f := by
  have hgroup : ∀ x ∈ groups.zip rs, x.2.length = x.1.order.length ∧ Descending x.2 := by
    intro x hx
    obtain ⟨hlen, hd, -⟩ := (List.forall₂_iff_zip.mp h).2 hx
    exact ⟨hlen, hd⟩
  have hcapturer : hasCapturer (groups.zip rs) f = true ↔
      ∃ f' : File, (f.val - f'.val) + (f'.val - f.val) = 1 ∧
        PawnAt groups rs 4 f' .sideToMove := by
    unfold hasCapturer PawnAt
    rw [List.any_eq_true]
    constructor
    · rintro ⟨⟨g, c⟩, hx, hany⟩
      simp only [Bool.and_eq_true, decide_eq_true_eq, List.any_eq_true] at hany
      obtain ⟨hadj, ⟨rank, side⟩, hm, hrank, hside⟩ := hany
      simp only at hrank hside
      subst hrank hside
      exact ⟨g.file, hadj, (g, c), hx, rfl, hm⟩
    · rintro ⟨f', hadj, ⟨g, c⟩, hx, rfl, hm⟩
      refine ⟨(g, c), hx, ?_⟩
      simp only [Bool.and_eq_true, decide_eq_true_eq, List.any_eq_true]
      exact ⟨hadj, (4, .sideToMove), hm, rfl, rfl⟩
  unfold victims EpFile
  rw [groupRanks_eq h.lengths, List.mem_map]
  simp only [List.mem_filter, Bool.and_eq_true, decide_eq_true_eq]
  constructor
  · rintro ⟨x, ⟨hx, hhigh, hcap⟩, rfl⟩
    obtain ⟨hlen, hd⟩ := hgroup x hx
    obtain ⟨hm, hle⟩ := (highest_iff hlen hd).mp hhigh
    refine ⟨⟨x, hx, rfl, hm⟩, fun rank side hat => ?_, hcapturer.mp hcap⟩
    obtain ⟨y, hy, hfile, hm⟩ := hat
    rw [eq_of_file hfiles h hy hx hfile] at hm
    exact hle rank side hm
  · rintro ⟨⟨x, hx, rfl, hm⟩, hle, hcap⟩
    obtain ⟨hlen, hd⟩ := hgroup x hx
    have hhigh := (highest_iff hlen hd).mpr ⟨hm, fun rank side hm => hle rank side ⟨x, hx, rfl, hm⟩⟩
    exact ⟨x, ⟨hx, hhigh, hcapturer.mpr hcap⟩, rfl⟩

theorem lists_new {groups : List IndexerPawnGroup} (hfiles : (groups.map (·.file)).Nodup) :
    Lists groups (new groups) := by
  refine ⟨choices groups, nodup_choices groups, fun rs => mem_choices,
    fun rs => victims groups rs.flatten, fun rs hrs => ?_, ?_⟩
  · exact ⟨nodup_victims hfiles _, fun f => mem_victims hfiles (mem_choices.mp hrs)⟩
  · rw [fromIndex_new, configurations, rankLists_eq, List.flatMap_map]
    rfl

theorem numbers_new {groups : List IndexerPawnGroup} (hfiles : (groups.map (·.file)).Nodup) :
    Numbers (new groups) where
  nodup := by
    rw [fromIndex_new]
    exact nodup_configurations hfiles
  key_lt c hc := by
    rw [fromIndex_new] at hc
    exact PawnMap.key_lt (mem_rankLists_of_mem hc)
  toIndex_iff k i := by
    rw [fromIndex_new, table_new]
    exact IndexTable.toIndex_build (nodup_keys hfiles)
  index i c hc := by
    rw [fromIndex_new] at hc
    exact index_configuration hfiles hc

end PawnMap

/-! ### The entries of positions -/

section

variable [Shakmaty] [LawfulShakmaty] {M : Material} {p : Chess} {reflected : Bool}

/-- The coordinates of a valid position, and its en passant file, select an entry. -/
theorem exists_entry (hM : M.nPieces ≤ maxPieces) (hv : Valid p)
    (h : HasMaterial M (oriented M reflected p)) (hp : 0 < M.nPawns) :
    ∃ (coord : List Square) (slice : ℕ), M.indexer.positionToCoord reflected p = .ok coord ∧
      (PawnMap.configurations M.pawnGroups)[slice]?
        = some ((coord.take M.nPawns).map fun s => s.rank.val,
          (Shakmaty.legalEpSquare p).map fun square =>
            (if reflected then square.flipHorizontal else square).file) := by
  obtain ⟨cs, hcoord, -⟩ := positionToCoord_eq hv h
  have hwhite := WhiteBoard.of_oriented hv h
  have hlen := Material.length_pawnSquares hwhite.arranged.pawns
  have hfile : ∀ s : Square, (if reflected then s.flipHorizontal else s).file
      = ((orient reflected (decide (0 < M.nPawns)) p.turn).symmetry • s).file := by
    intro s
    rw [decide_eq_true hp, (orient.keepsPawns reflected p.turn).file_smul]
    unfold Transform.file
    rw [orient.flipFiles]
    cases reflected <;> rfl
  have hep : ∀ f, (legalEp p).map (fun s => (if reflected then s.flipHorizontal else s).file)
      = some f → Victim (oriented M reflected p).board f := by
    intro f hf
    obtain ⟨s, hs, rfl⟩ := Option.map_eq_some_iff.mp hf
    have hlegal : legalEp (oriented M reflected p)
        = some ((orient reflected (decide (0 < M.nPawns)) p.turn).symmetry • s) := by
      have := congrArg Setup.epSquare (Transform.normalize_eq (p := p) (orient_fits h))
      exact this.trans (by rw [← Option.map_some, ← hs]; rfl)
    rw [hfile]
    exact ((Transform.valid_setup (orient_fits h) hv).victim (orient.color_self _ _ _) hlegal).2
  have hmem : (ranksOf (M.pawnGroups.map (pawnChunk (oriented M reflected p).board)).flatten,
      (legalEp p).map fun s => (if reflected then s.flipHorizontal else s).file)
        ∈ PawnMap.configurations M.pawnGroups := by
    refine PawnMap.mem_configurations.mpr ⟨ranks_mem_rankLists hwhite.arranged.pawns, fun f hf => ?_⟩
    rw [hwhite.arranged.mem_victims_iff, hwhite.place_eq]
    exact hep f hf
  obtain ⟨slice, hslice⟩ := List.getElem?_of_mem hmem
  refine ⟨_, slice, hcoord, ?_⟩
  rw [List.take_left' hlen, LawfulShakmaty.legalEpSquare_eq p hv]
  exact hslice

/-- **Pawn slices** are exactly the pawn states: the map lists every choice of ranks with its en
    passant files, every valid position finds its entry, for either color to move and reflected
    or not, and every en passant entry decodes to setups with a capturer. -/
theorem pawn_slices_exact (l : List EgtElement) (hl : validateElements l = .ok ()) :
    ∃ plan, Indexer.fromElements l = .ok plan ∧
      (plan.nPawns = 0 → plan.pawns = [] ∧ plan.pawnMap = none) ∧
      (0 < plan.nPawns → plan.pawnMap = some (PawnMap.new plan.pawns)) ∧
      (PawnMap.new plan.pawns).Lists plan.pawns ∧ (PawnMap.new plan.pawns).Numbers ∧
      (∀ reflected p, Valid p →
        HasMaterial (validateElements_eq_ok.mp hl).material
          (oriented (validateElements_eq_ok.mp hl).material reflected p) →
        (0 < plan.nPawns → ∃ (coord : List Square) (slice : ℕ),
          plan.positionToCoord reflected p = .ok coord ∧
          (PawnMap.new plan.pawns).index ((coord.take plan.nPawns).map fun s => s.rank.val,
            (Shakmaty.legalEpSquare p).map fun square =>
              (if reflected then square.flipHorizontal else square).file) = .ok slice ∧
          slice < (PawnMap.new plan.pawns).table.fromIndex.length) ∧
        ∃ index, plan.positionToIndexImpl reflected p = .ok index ∧ index < plan.indexRange) ∧
      ∀ slice ranks f,
        (PawnMap.new plan.pawns).table.fromIndex[slice]? = some (ranks, some f) →
        ∀ j < plan.nonpawnCombinations, ∀ turn, ∃ s e,
          plan.setupFromIndex (slice * plan.nonpawnCombinations + j) turn = .ok s ∧
          s.turn = turn ∧ s.epSquare = some e ∧ e.file = f ∧ turn.relativeRank e.rank = 5 ∧
          ∃ c, s.board c = some ⟨s.turn, .pawn⟩ ∧
            Attacks s.board.occupied ⟨s.turn, .pawn⟩ c e := by
  have hvl := validateElements_eq_ok.mp hl
  have hM : hvl.material.nPieces ≤ maxPieces := by
    rw [hvl.nPieces_material]; exact hvl.total
  have hfiles := hvl.material.nodup_files_pawnGroups
  refine ⟨hvl.material.indexer, Indexer.fromElements_eq hvl, fun hp => ?_, fun hp => ?_,
    PawnMap.lists_new hfiles, PawnMap.numbers_new hfiles, fun reflected p hv h => ⟨fun hp => ?_, ?_⟩,
    fun slice ranks f hentry j hj turn => ?_⟩
  · exact ⟨Material.pawnGroups_of_pawnless hp, pawnMap_pawnless hp⟩
  · exact pawnMap_pawnful hp
  · obtain ⟨coord, slice, hcoord, hentry⟩ := exists_entry hM hv h hp
    rw [← PawnMap.fromIndex_new] at hentry
    exact ⟨coord, slice, hcoord, (PawnMap.numbers_new hfiles).index slice _ hentry,
      (List.getElem?_eq_some_iff.mp hentry).1⟩
  · obtain ⟨g, i, b, ep, hi, hc, -⟩ := positionToIndexImpl_eq hM hv h
    exact ⟨i, hi, hc.indexes.lt⟩
  · have hconf := hentry
    rw [show (PawnMap.new hvl.material.indexer.pawns).table.fromIndex
      = PawnMap.configurations hvl.material.pawnGroups from PawnMap.fromIndex_new _] at hconf
    -- A table without pawns has no en passant entries.
    have hp : 0 < hvl.material.nPawns := by
      by_contra hp
      rw [Material.pawnGroups_of_pawnless (Nat.eq_zero_of_not_pos hp)] at hconf
      have hmem := (PawnMap.mem_configurations.mp (List.mem_of_getElem? hconf)).2 f rfl
      exact absurd hmem List.not_mem_nil
    obtain ⟨b, hb⟩ := exists_indexes_of_configuration hM hp hconf hj
    have hep : (setupOf hvl.material b (some f) turn).epSquare = some
        ((Transform.normal (decide (0 < hvl.material.nPawns)) turn).symmetry • ⟨5, f⟩) := rfl
    obtain ⟨hrank, -⟩ := hb.canonical.marked turn _ hep
    obtain ⟨c, hc, hattacks⟩ := (hb.canonical.sound turn).capturer _ hep
    rw [setupOf_turn] at hrank
    refine ⟨_, _, hb.setup turn, setupOf_turn turn, hep, ?_, hrank, c, hc, hattacks⟩
    rw [decide_eq_true hp, (Transform.normal_keepsPawns turn).file_smul, Transform.file,
      Transform.normal_flipFiles]
    rfl

end

/-- A pawn of each side on neighbouring files. -/
def pawnDuel : List EgtElement :=
  [.pieceGroup .king .sideNotToMove 1, .pawnGroup 3 ⟨[.sideNotToMove], Nat.le_add_left 1 5⟩,
    .pawnGroup 4 ⟨[.sideToMove], Nat.le_add_left 1 5⟩, .pieceGroup .king .sideToMove 1]

theorem pawn_slices_exact_pawnDuel : ∃ plan, Indexer.fromElements pawnDuel = .ok plan ∧
    (PawnMap.new plan.pawns).index ([4, 4], some 3) = .ok 22 ∧
      ∃ s, plan.setupFromIndex (22 * plan.nonpawnCombinations) .black = .ok s ∧
        ∃ c, s.board c = some ⟨.black, .pawn⟩ := by
  obtain ⟨plan, hplan, -, -, -, hnumbers, -, hcapturer⟩ :=
    @pawn_slices_exact rulesShakmaty lawful_rulesShakmaty pawnDuel rfl
  have heq : (validateElements_eq_ok.mp (rfl : validateElements pawnDuel = .ok ())).material.indexer
      = plan := by
    rw [Indexer.fromElements_eq (validateElements_eq_ok.mp rfl)] at hplan
    exact Except.ok.inj hplan
  have hentry : (PawnMap.new plan.pawns).table.fromIndex[22]? = some ([4, 4], some 3) := by
    rw [← heq]
    decide +kernel
  have hpos : 0 < plan.nonpawnCombinations := by
    rw [← heq]
    decide +kernel
  obtain ⟨s, e, hs, hturn, -, -, -, c, hc, -⟩ := hcapturer 22 [4, 4] 3 hentry 0 hpos .black
  rw [hturn] at hc
  exact ⟨plan, hplan, hnumbers.index 22 _ hentry, s, hs, c, hc⟩

end ChessEgt
