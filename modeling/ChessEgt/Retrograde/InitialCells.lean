import ChessEgt.Retrograde.Cells
import ChessEgt.Retrograde.InitialCounts
import ChessEgt.Retrograde.Truth

/-!
# Initial values as cells

Initialization gives every index the cell that the propagation of its pair starts from.

* `initialCounter_eq` — the counter of a position is the weight of its moves;
* `recorded_conversions` — what the conversions of a position make of the counter;
* `encode_initial` — the initial value of an index is the initial cell of its node.
-/

namespace ChessEgt

open Rules Indexer MaybeDtcOutcome

/-! ### Counters -/

/-- A quiet king move takes the kings where the bitboard says, any other one leaves them. -/
theorem bothKingsOnDiagonal_play {p : Chess} {m : Move} (hm : Legal p m) (hq : m.isQuiet = true) :
    bothKingsOnDiagonal (normalize (play p m))
      = if m.role = .king then kingsOnLongDiagonal (kingsAfter (p.board.byRole .king) m)
        else bothKingsOnDiagonal p := by
  obtain ⟨role, s, t, rfl⟩ := Move.isQuiet_iff.mp hq
  have hmove := hm.1.quiet
  have hboard : (normalize (play p (.normal role s none t none))).board = p.board.relocate s t :=
    playBoard_quiet hmove.source
  have hne : s ≠ t := fun heq => by
    have h := hmove.source
    rw [heq, hmove.target] at h
    cases h
  unfold bothKingsOnDiagonal
  have hrole : (Move.normal role s none t none).role = role := rfl
  rw [hboard, hrole]
  by_cases hking : role = .king
  · rw [if_pos hking]
    congr 1
    funext u
    have hends : (Move.normal role s none t none).source = s ∧
        (Move.normal role s none t none).target = t := ⟨rfl, rfl⟩
    unfold kingsAfter
    rw [hends.1, hends.2, Bool.eq_iff_iff, Board.byRole_apply, Board.relocate_apply hmove.source]
    by_cases ht : u = t
    · rw [if_pos ht]
      simp [ht, hking]
    · rw [if_neg ht]
      by_cases hs : u = s
      · have hsource : p.board.byRole .king s = true :=
          Board.byRole_apply.mpr ⟨_, hmove.source, hking⟩
        rw [if_pos hs, hs]
        simp [hsource, hne]
      · rw [if_neg hs, ← Board.byRole_apply]
        simp [hs, ht]
  · rw [if_neg hking]
    congr 1
    funext u
    rw [Bool.eq_iff_iff, Board.byRole_apply, Board.byRole_apply,
      Board.relocate_apply hmove.source]
    by_cases ht : u = t
    · rw [if_pos ht, ht, hmove.target]
      simp [hking]
    · rw [if_neg ht]
      by_cases hs : u = s
      · rw [if_pos hs, hs, hmove.source]
        simp [hking]
      · rw [if_neg hs]

/-- Conversions are not quiet. -/
theorem isQuiet_of_conversionType {m : Move} {ct : ConversionType} (h : conversionType m = some ct) :
    m.isQuiet = false := by
  rw [← Bool.not_eq_true, ← conversionType_eq_none, h]
  exact Option.some_ne_none ct

/-- The weights of moves, those of conversions being one. -/
theorem sum_weights (w : Move → ℕ) {f : Move → DtcOutcome} {moves : List Move}
    (hw : ∀ m ∈ moves, m.isQuiet = false → w m = 1) : (moves.map w).sum
      = ((moves.filter Move.isQuiet).map w).sum
        + (moves.filterMap fun m => (conversionType m).map fun ct => (ct, f m)).length := by
  induction moves with
  | nil => rfl
  | cons m moves ih =>
    have ih' := ih fun m' hm' => hw m' (List.mem_cons_of_mem _ hm')
    cases hct : conversionType m with
    | none =>
      have hq := conversionType_eq_none.mp hct
      rw [List.filterMap_cons, hct, List.filter_cons_of_pos hq, List.map_cons, List.sum_cons, ih',
        List.map_cons, List.sum_cons, Nat.add_assoc]
      rfl
    | some ct =>
      have hq : m.isQuiet = false := isQuiet_of_conversionType hct
      rw [List.filterMap_cons, hct, List.filter_cons_of_neg (by rw [hq]; exact Bool.false_ne_true),
        List.map_cons, List.sum_cons, ih', hw m List.mem_cons_self hq]
      simp only [Option.map_some, List.length_cons]
      omega

section

variable [Shakmaty] [LawfulShakmaty] {M : Material} {x : Node} {p : Chess}

/-- The counter of a position is the weight of its quiet moves and the number of its
    conversions. -/
theorem initialCounter_eq (hx : x.Stands p) : initialCounter x.material.table p
    = (((pairGraph M).quiet x).map Prod.snd).sum + ((pairGraph M).conversions x).length := by
  have hlegal : ∀ m ∈ Shakmaty.legalMoves p, Legal p m := fun m hm =>
    (LawfulShakmaty.mem_legalMoves p hx.1.valid m).mp hm
  have hpawnless : x.material.table.isPawnless = decide (x.material.nPawns = 0) := rfl
  rw [pairGraph_quiet, pairGraph_conversions, hx.position_eq, List.map_map]
  -- The weights that the program gives to the moves.
  have hcount : ∀ w : Move → ℕ, (∀ m ∈ Shakmaty.legalMoves p, m.isQuiet = false → w m = 1) →
      (∀ m ∈ Shakmaty.legalMoves p, m.isQuiet = true →
        w m = moveWeight x.material p (normalize (play p m))) →
      ((Shakmaty.legalMoves p).map w).sum
        = ((quietMoves p).map (Prod.snd ∘ fun m =>
            (twinNode x.material (normalize (play p m)),
              moveWeight x.material p (normalize (play p m))))).sum
          + ((Shakmaty.legalMoves p).filterMap fun m =>
            (conversionType m).map fun ct => (ct, dtcOutcome (play p m))).length := by
    intro w hone hw
    rw [sum_weights w hone]
    congr 2
    refine List.map_congr_left fun m hm => ?_
    obtain ⟨hm, hq⟩ := List.mem_filter.mp hm
    exact hw m hm hq
  have hlength : (Shakmaty.legalMoves p).length = ((Shakmaty.legalMoves p).map fun _ => 1).sum := by
    rw [List.map_const', List.sum_replicate, smul_eq_mul, Nat.mul_one]
  unfold initialCounter
  rw [hpawnless]
  by_cases hp : x.material.nPawns = 0
  swap
  · rw [if_neg (by simpa using hp), hlength]
    refine hcount _ (fun _ _ _ => rfl) fun m _ _ => ?_
    exact (if_neg fun h => hp h.1).symm
  rw [if_pos (decide_eq_true hp)]
  unfold symmetryAdjustedMoveCounter
  dsimp only
  by_cases hkings : kingsOnLongDiagonal (p.board.byRole .king) = true
  · rw [if_pos hkings, hlength]
    refine hcount _ (fun _ _ _ => rfl) fun m _ _ => ?_
    refine (if_neg fun h => ?_).symm
    have hfalse : kingsOnLongDiagonal (p.board.byRole .king) = false := h.2.1
    rw [hkings] at hfalse
    cases hfalse
  · rw [if_neg hkings]
    rw [Bool.not_eq_true] at hkings
    have hkings' : bothKingsOnDiagonal p = false := hkings
    refine hcount _ (fun m hm hq => ?_) fun m hm hq => ?_
    · refine if_neg fun h => ?_
      simp only [Move.isQuiet] at hq
      simp only [Bool.and_eq_true, Bool.not_eq_true'] at h
      rw [h.1.1.2, h.1.2] at hq
      cases hq
    · have hplay := bothKingsOnDiagonal_play (hlegal m hm) hq
      unfold moveWeight
      rw [hplay, hkings']
      simp only [Move.isQuiet, Bool.and_eq_true, Bool.not_eq_true'] at hq
      by_cases hking : m.role = .king
      · simp [hking, hq.1, hq.2, hp]
      · simp [hking]

/-- What distinguishes the legal moves of a position. -/
def moveKey : Move → Square × Square × Option (Option Role)
  | .normal _ s _ t promotion => (s, t, some promotion)
  | .enPassant s t => (s, t, none)

omit [Shakmaty] [LawfulShakmaty] in
theorem moveKey_injOn (p : Chess) : Set.InjOn moveKey {m | Legal p m} := by
  intro m hm m' hm' h
  cases m with
  | enPassant s t =>
    cases m' with
    | normal _ s' _ t' _ => simp [moveKey] at h
    | enPassant s' t' =>
      simp only [moveKey, Prod.mk.injEq, and_true] at h
      rw [h.1, h.2]
  | normal role s capture t promotion =>
    cases m' with
    | enPassant s' t' => simp [moveKey] at h
    | normal role' s' capture' t' promotion' =>
      simp only [moveKey, Prod.mk.injEq, Option.some.injEq] at h
      obtain ⟨rfl, rfl, rfl⟩ := h
      -- The board knows the piece that moves and the one that is captured.
      have hrole : some (Piece.mk p.turn role) = some ⟨p.turn, role'⟩ := hm.1.1.symm.trans hm'.1.1
      have hcapture : capture = capture' := hm.1.2.1.trans hm'.1.2.1.symm
      simp only [Option.some.injEq, Piece.mk.injEq, true_and] at hrole
      rw [hrole, hcapture]

omit [Shakmaty] [LawfulShakmaty] in
/-- A legal move starts at a piece of the side to move. -/
theorem source_of_legal {p : Chess} {m : Move} (hm : Legal p m) :
    ∃ role, p.board m.source = some ⟨p.turn, role⟩ := by
  cases m with
  | normal role s capture t promotion => exact ⟨role, hm.1.1⟩
  | enPassant s t => exact ⟨.pawn, hm.1.1⟩

omit [Shakmaty] [LawfulShakmaty] in
theorem Square.card_eq : Fintype.card Square = 64 := by
  have huniv : (Finset.univ : Finset Square) = Square.all.toFinset := by
    ext s
    simp [Square.mem_all]
  rw [← Finset.card_univ, huniv, List.toFinset_card_of_nodup Square.nodup_all]
  rfl

/-- The number of legal moves is bounded by the number of pieces. -/
theorem length_legalMoves_le (hp : Valid p) :
    (Shakmaty.legalMoves p).length ≤ (p.board.occupied.count - 1) * 512 := by
  have hlegal : ∀ m ∈ Shakmaty.legalMoves p, Legal p m := fun m hm =>
    (LawfulShakmaty.mem_legalMoves p hp m).mp hm
  -- The king of the other side does not move.
  obtain ⟨k, hk⟩ := hp.kings p.turn.other
  have hking : p.board k = some ⟨p.turn.other, .king⟩ := (hk k).mpr rfl
  let own : Finset Square := p.board.occupied.toList.toFinset.erase k
  have hown : own.card = p.board.occupied.count - 1 := by
    rw [Finset.card_erase_of_mem, List.toFinset_card_of_nodup (Bitboard.nodup_toList _)]
    · rfl
    · rw [List.mem_toFinset, Bitboard.mem_toList, Board.occupied_apply, hking]
      rfl
  obtain ⟨keys, hkeys, hsize⟩ : ∃ keys : Finset (Square × Option (Option Role)),
      (∀ k, k ∈ keys) ∧ keys.card = 512 :=
    ⟨Finset.univ, Finset.mem_univ, by
      rw [Finset.card_univ, Fintype.card_prod, Square.card_eq]
      rfl⟩
  have hmaps : ∀ m ∈ (Shakmaty.legalMoves p).toFinset,
      moveKey m ∈ own ×ˢ keys := by
    intro m hm
    obtain ⟨role, hsource⟩ := source_of_legal (hlegal m (List.mem_toFinset.mp hm))
    have hfst : (moveKey m).1 = m.source := by cases m <;> rfl
    rw [Finset.mem_product, hfst, Finset.mem_erase, List.mem_toFinset, Bitboard.mem_toList,
      Board.occupied_apply, hsource]
    refine ⟨⟨fun heq => ?_, rfl⟩, hkeys _⟩
    rw [heq, hking] at hsource
    have hcolor := congrArg (Option.map Piece.color) hsource
    simp only [Option.map_some, Option.some.injEq] at hcolor
    revert hcolor
    cases p.turn <;> decide
  have hcard := Finset.card_le_card_of_injOn moveKey hmaps fun m hm m' hm' h =>
    moveKey_injOn p (hlegal m (List.mem_toFinset.mp hm)) (hlegal m' (List.mem_toFinset.mp hm')) h
  rw [List.toFinset_card_of_nodup (LawfulShakmaty.legalMoves_nodup p hp), Finset.card_product,
    hown, hsize] at hcard
  exact hcard

omit [LawfulShakmaty] in
theorem symmetryAdjustedMoveCounter_le (p : Chess) (legals : List Move) :
    symmetryAdjustedMoveCounter p legals ≤ 2 * legals.length := by
  unfold symmetryAdjustedMoveCounter
  dsimp only
  split
  · omega
  · induction legals with
    | nil => exact le_rfl
    | cons m legals ih =>
      rw [List.map_cons, List.sum_cons, List.length_cons]
      split <;> omega

/-- The counter of a position fits into 13 bits. -/
theorem initialCounter_le (hM : x.material.nPieces ≤ maxPieces) (hx : x.Stands p) :
    initialCounter x.material.table p ≤ 8191 := by
  have hcount : p.board.occupied.count ≤ 8 := by
    obtain ⟨-, b, ep, hi, rfl⟩ := hx
    have h := hi.canonical.white.count_occupied
    have hmax : maxPieces = 8 := rfl
    show b.occupied.count ≤ 8
    omega
  have hlen := length_legalMoves_le hx.1.valid
  have hadjusted := symmetryAdjustedMoveCounter_le p (Shakmaty.legalMoves p)
  unfold initialCounter
  split <;> omega

/-! ### Conversions -/

omit [Shakmaty] [LawfulShakmaty] in
theorem betterLossCt_some (a b : ConversionType) : betterLossCt (some a) b = min a b := by
  cases a <;> cases b <;> decide

/-- The preferred kind among those seen so far and one more. -/
def bestOf (best : Option ConversionType) (ct : ConversionType) : Option ConversionType :=
  some ((best.map fun w => max w ct).getD ct)

omit [Shakmaty] [LawfulShakmaty] in
theorem foldl_bestOf (ct : ConversionType) (cts : List ConversionType) :
    cts.foldl bestOf (some ct) = some (cts.foldl max ct) := by
  induction cts generalizing ct with
  | nil => rfl
  | cons ct' cts ih => exact ih (max ct ct')

omit [Shakmaty] [LawfulShakmaty] in
theorem foldl_betterLossCt (ct : ConversionType) (cts : List ConversionType) :
    cts.foldl (fun best ct => some (betterLossCt best ct)) (some ct) = some (cts.foldl min ct) := by
  induction cts generalizing ct with
  | nil => rfl
  | cons ct' cts ih =>
    rw [List.foldl_cons, betterLossCt_some]
    exact ih (min ct ct')

/-- The conversions among some moves, with the outcomes of their successors. -/
noncomputable def conversionsAmong (p : Chess) (moves : List Move) :
    List (ConversionType × DtcOutcome) :=
  moves.filterMap fun m => (conversionType m).map fun ct => (ct, dtcOutcome (play p m))

/-- The probes of the conversions of a position give the true outcomes. -/
def ProbesConversions (probe : Chess → Run DtcOutcome) (p : Chess) : Prop :=
  ∀ m, Legal p m → m.isQuiet = false → probe (play p m) = .ok (dtcOutcome (play p m))

variable {probe : Chess → Run DtcOutcome}

omit [LawfulShakmaty] in
/-- Quiet moves are not recorded. -/
theorem recordConversion_quiet {acc : Conversions} {m : Move} (hct : conversionType m = none) :
    recordConversion probe p acc m = .ok acc := by
  have hnot : (m.isCapture || m.isPromotion) = false := by
    rw [← conversionType_isSome, hct]
    rfl
  unfold recordConversion
  rw [hnot]
  rfl

/-- What a conversion is recorded as. -/
theorem recordConversion_eq (hp : Valid p) (hprobe : ProbesConversions probe p)
    {acc acc' : Conversions} {m : Move} {ct : ConversionType} (hm : Legal p m)
    (hct : conversionType m = some ct) (h : recordConversion probe p acc m = .ok acc') :
    ((dtcOutcome (play p m)).IsLoss ∧ acc' = { acc with winConv := bestOf acc.winConv ct }) ∨
    ((dtcOutcome (play p m)).IsWin ∧ acc.counter = acc'.counter + 1 ∧
      acc' = ⟨acc'.counter, acc.winConv, some (betterLossCt acc.lossConv ct)⟩) ∨
    (dtcOutcome (play p m) = .draw ∧ acc' = acc) := by
  have hconv : (m.isCapture || m.isPromotion) = true := by
    rw [← conversionType_isSome, hct]
    rfl
  have hq : m.isQuiet = false := isQuiet_of_conversionType hct
  have hkind : (if m.isCapture then ConversionType.capture else ConversionType.promotion) = ct := by
    unfold conversionType at hct
    cases hcap : m.isCapture with
    | true =>
      rw [hcap] at hct
      exact Option.some.inj hct
    | false =>
      rw [hcap] at hct
      cases hpr : m.isPromotion with
      | true =>
        rw [hpr] at hct
        exact Option.some.inj hct
      | false =>
        rw [hpr] at hct
        cases hct
  unfold recordConversion at h
  rw [hconv, if_pos rfl, LawfulShakmaty.playUnchecked_eq p hp m hm, hprobe m hm hq, Run.ok_bind,
    hkind] at h
  cases ho : dtcOutcome (play p m) with
  | draw =>
    rw [ho] at h
    cases h
    exact Or.inr (Or.inr ⟨rfl, rfl⟩)
  | loss k n =>
    rw [ho] at h
    cases h
    exact Or.inl ⟨trivial, rfl⟩
  | win k n =>
    rw [ho] at h
    obtain ⟨counter, hcounter, h⟩ := Run.bind_eq_ok.mp h
    have hle : 1 ≤ acc.counter := by
      by_contra hlt
      have hfail : Run.sub acc.counter 1 = .error _ := if_neg hlt
      rw [hfail] at hcounter
      cases hcounter
    rw [Run.sub_eq hle] at hcounter
    cases hcounter
    cases h
    exact Or.inr (Or.inl ⟨trivial, (Nat.sub_add_cancel hle).symm, rfl⟩)

/-- The conversions that win, those that lose, and the counter that is left. -/
theorem recorded_conversions (hp : Valid p) (hprobe : ProbesConversions probe p)
    {moves : List Move} (hmoves : ∀ m ∈ moves, Legal p m) {acc conv : Conversions}
    (h : moves.foldlM (recordConversion probe p) acc = .ok conv) :
    conv.winConv = (((conversionsAmong p moves).filter fun c => c.2.IsLoss).map Prod.fst).foldl
        bestOf acc.winConv ∧
      conv.lossConv = (((conversionsAmong p moves).filter fun c => c.2.IsWin).map Prod.fst).foldl
        (fun best ct => some (betterLossCt best ct)) acc.lossConv ∧
      acc.counter = conv.counter + ((conversionsAmong p moves).filter fun c => c.2.IsWin).length := by
  induction moves generalizing acc with
  | nil =>
    cases h
    exact ⟨rfl, rfl, rfl⟩
  | cons m moves ih =>
    rw [List.foldlM_cons] at h
    obtain ⟨acc', hacc, h⟩ := Run.bind_eq_ok.mp h
    obtain ⟨hwin, hloss, hcounter⟩ := ih (fun m' hm' => hmoves m' (List.mem_cons_of_mem _ hm')) h
    rw [hwin, hloss]
    cases hct : conversionType m with
    | none =>
      rw [recordConversion_quiet hct] at hacc
      cases hacc
      have hsame : conversionsAmong p (m :: moves) = conversionsAmong p moves := by
        unfold conversionsAmong
        rw [List.filterMap_cons, hct]
        rfl
      rw [hsame]
      exact ⟨rfl, rfl, hcounter⟩
    | some ct =>
      have hcons : conversionsAmong p (m :: moves)
          = (ct, dtcOutcome (play p m)) :: conversionsAmong p moves := by
        unfold conversionsAmong
        rw [List.filterMap_cons, hct]
        rfl
      rw [hcons]
      rcases recordConversion_eq hp hprobe (hmoves m List.mem_cons_self) hct hacc with
        ⟨ho, rfl⟩ | ⟨ho, hc, hacc'⟩ | ⟨ho, rfl⟩
      · have hnot : ¬ (dtcOutcome (play p m)).IsWin := by
          obtain ⟨k, n, hk⟩ := Outcome.isLoss_iff.mp ho
          rw [hk]
          exact id
        simp only [List.filter_cons, ho, hnot, decide_true, decide_false, if_true,
          Bool.false_eq_true, if_false, List.map_cons, List.foldl_cons, true_and]
        exact hcounter
      · have hnot : ¬ (dtcOutcome (play p m)).IsLoss := by
          obtain ⟨k, n, hk⟩ := Outcome.isWin_iff.mp ho
          rw [hk]
          exact id
        rw [hacc']
        simp only [List.filter_cons, ho, hnot, decide_true, decide_false, if_true,
          Bool.false_eq_true, if_false, List.map_cons, List.foldl_cons, List.length_cons, true_and]
        omega
      · rw [ho]
        exact ⟨rfl, rfl, hcounter⟩

/-! ### Initial cells -/

/-- An index decodes to the position of its node. -/
theorem decoded_iff (hM : x.material.nPieces ≤ maxPieces)
    (hlt : x.index < x.material.indexer.indexRange) :
    x.material.indexer.positionFromIndexWithReason x.index .white = .ok (.ok p) ↔ x.Stands p := by
  obtain ⟨b, ep, hb⟩ := exists_indexes hM hlt
  unfold positionFromIndexWithReason
  rw [hb.setup .white, Run.ok_bind, setupOf_white,
    positionFromSetup_eq_ok_iff (setupOf_white (M := x.material) b ep ▸ hb.canonical.sound .white)]
  constructor
  · rintro ⟨rfl, hv, hl⟩
    exact ⟨⟨hv, hl⟩, b, ep, hb, rfl⟩
  · rintro ⟨ha, b', ep', hb', rfl⟩
    obtain ⟨rfl, rfl⟩ := hb.eq_setup hb'
    exact ⟨rfl, ha.valid, ha.legalEp⟩

omit [LawfulShakmaty] in
theorem conversions_eq (hx : x.Stands p) :
    (pairGraph M).conversions x = conversionsAmong p (Shakmaty.legalMoves p) := by
  rw [pairGraph_conversions, hx.position_eq]
  rfl

/-- A node has no moves if its position has none. -/
theorem moves_eq_nil_iff (hx : x.Stands p) :
    (pairGraph M).quiet x = [] ∧ (pairGraph M).conversions x = [] ↔ Shakmaty.legalMoves p = [] := by
  rw [← Propagation.edges_eq_empty, Set.eq_empty_iff_forall_notMem, List.eq_nil_iff_forall_not_mem]
  constructor
  · intro h m hm
    have hlegal := (LawfulShakmaty.mem_legalMoves p hx.1.valid m).mp hm
    exact h _ ((mem_edges_pairGraph hx).mpr ⟨m, hlegal, rfl⟩)
  · intro h e he
    obtain ⟨m, hm, -⟩ := (mem_edges_pairGraph hx).mp he
    exact h m ((LawfulShakmaty.mem_legalMoves p hx.1.valid m).mpr hm)

/-- What is left of the counter of a position after its conversions. -/
theorem counter_eq (hx : x.Stands p) (hprobe : ProbesConversions probe p) {conv : Conversions}
    (h : conversionsOf probe x.material.table p = .ok conv) :
    conv.counter
      = (((pairGraph M).quiet x).map Prod.snd).sum + (pairGraph M).openConversions x := by
  obtain ⟨-, -, hcounter⟩ := recorded_conversions hx.1.valid hprobe
    (fun m hm => (LawfulShakmaty.mem_legalMoves p hx.1.valid m).mp hm) h
  have hsplit := List.length_eq_length_filter_add (l := conversionsAmong p (Shakmaty.legalMoves p))
    fun c => decide c.2.IsWin
  have hinitial := initialCounter_eq (M := M) hx
  have hcounter' : initialCounter x.material.table p = _ := hcounter
  have hopen : (pairGraph M).openConversions x
      = ((conversionsAmong p (Shakmaty.legalMoves p)).filter fun c => !decide c.2.IsWin).length := by
    unfold Propagation.openConversions
    rw [conversions_eq hx]
    congr 2
    funext c
    exact decide_not
  rw [conversions_eq hx] at hinitial
  omega

/-- **Initialization.** The initial value of an index is the cell that the propagation starts
    from. -/
theorem encode_initial (hM : M.nPieces ≤ maxPieces) (hc : M.Canonical)
    (hx : x.material = M ∨ x.material = M.partnerTable)
    (hlt : x.index < x.material.indexer.indexRange)
    (hprobe : ∀ p, x.Stands p → ProbesConversions probe p) {v : MaybeDtcOutcome} {counts : InitCounts}
    (h : InitialAt probe x.material.table x.index v counts) :
    v = encode ((pairGraph M).expected Node.truth 0 x) := by
  have hbound : x.material.nPieces ≤ maxPieces := by
    rcases hx with hx | hx
    · rw [hx]
      exact hM
    · rw [hx, Material.nPieces_partnerTable]
      exact hM
  have hinvalid : ∀ reason, x.material.table.indexer.positionFromIndexWithReason x.index .white
      = .ok (.error reason) → .invalid = encode ((pairGraph M).expected Node.truth 0 x) := by
    intro reason hr
    rw [Propagation.expected_of_not_valid]
    · rfl
    · intro hmem
      obtain ⟨-, p, hp⟩ := mem_valid.mp hmem
      rw [Material.table_indexer, (decoded_iff hbound hlt).mpr hp] at hr
      cases hr
  have hvalid : ∀ p, x.material.table.indexer.positionFromIndexWithReason x.index .white
      = .ok (.ok p) → x.Stands p ∧
        (pairGraph M).expected Node.truth 0 x = (pairGraph M).initial x := by
    intro p hp
    have hstands := (decoded_iff hbound hlt).mp hp
    have hmem : x ∈ (pairGraph M).valid := mem_valid.mpr ⟨hx, p, hstands⟩
    exact ⟨hstands, (solution_truth hM hc).expected_zero (lawful_pairGraph hM hc) hmem⟩
  have hnonempty : ∀ {p}, x.Stands p → Shakmaty.legalMoves p ≠ [] →
      ¬ ((pairGraph M).quiet x = [] ∧ (pairGraph M).conversions x = []) :=
    fun hp hne h => hne ((moves_eq_nil_iff hp).mp h)
  have hkinds : ∀ {p conv}, x.Stands p → conversionsOf probe x.material.table p = .ok conv →
      conv.winConv = ((pairGraph M).winningKinds x).foldl bestOf none ∧
        conv.lossConv = ((pairGraph M).losingKinds x).foldl
          (fun best ct => some (betterLossCt best ct)) none := by
    intro p conv hp hconv
    obtain ⟨hwin, hloss, -⟩ := recorded_conversions hp.1.valid (hprobe p hp)
      (fun m hm => (LawfulShakmaty.mem_legalMoves p hp.1.valid m).mp hm) hconv
    unfold Propagation.winningKinds Propagation.losingKinds
    rw [conversions_eq hp]
    exact ⟨hwin, hloss⟩
  cases h with
  | redundant h _ _ => exact hinvalid _ h
  | rejected h _ _ => exact hinvalid _ h
  | @checkmate p h hnil hcheck =>
    obtain ⟨hp, hcell⟩ := hvalid p h
    rw [hcell, Propagation.initial_of_empty ((moves_eq_nil_iff hp).mpr hnil), pairGraph_terminal,
      hp.position_eq, if_pos ((LawfulShakmaty.isCheck_iff p hp.1.valid).mp hcheck)]
    rfl
  | @stalemate p h hnil hcheck =>
    obtain ⟨hp, hcell⟩ := hvalid p h
    have hnot : ¬ InCheck p := fun hin => by
      rw [(LawfulShakmaty.isCheck_iff p hp.1.valid).mpr hin] at hcheck
      cases hcheck
    rw [hcell, Propagation.initial_of_empty ((moves_eq_nil_iff hp).mpr hnil), pairGraph_terminal,
      hp.position_eq, if_neg hnot]
    rfl
  | @won p conv ct h hne hconv hct =>
    obtain ⟨hp, hcell⟩ := hvalid p h
    have hwin := (hkinds hp hconv).1
    rw [hct] at hwin
    cases hw : (pairGraph M).winningKinds x with
    | nil =>
      rw [hw] at hwin
      cases hwin
    | cons k ks =>
      rw [hw, List.foldl_cons] at hwin
      cases hwin.trans (foldl_bestOf k ks)
      rw [hcell, Propagation.initial_of_winning (hnonempty hp hne) hw]
      rfl
  | @lost p conv ct h hne hconv hnone hzero hct =>
    obtain ⟨hp, hcell⟩ := hvalid p h
    obtain ⟨hwin, hloss⟩ := hkinds hp hconv
    rw [hnone] at hwin
    rw [hct] at hloss
    rw [counter_eq (M := M) hp (hprobe p hp) hconv] at hzero
    cases hw : (pairGraph M).winningKinds x with
    | cons k ks =>
      rw [hw, List.foldl_cons] at hwin
      cases hwin.trans (foldl_bestOf k ks)
    | nil =>
      cases hl : (pairGraph M).losingKinds x with
      | nil =>
        rw [hl] at hloss
        cases hloss
      | cons k ks =>
        rw [hl, List.foldl_cons] at hloss
        cases hloss.trans (foldl_betterLossCt k ks)
        rw [hcell, Propagation.initial_of_losing (hnonempty hp hne) hw hzero hl]
        rfl
  | @unknown p conv h hne hconv hnone hpos =>
    obtain ⟨hp, hcell⟩ := hvalid p h
    have hwin := (hkinds hp hconv).1
    have hcounter := counter_eq (M := M) hp (hprobe p hp) hconv
    rw [hnone] at hwin
    cases hw : (pairGraph M).winningKinds x with
    | cons k ks =>
      rw [hw, List.foldl_cons] at hwin
      cases hwin.trans (foldl_bestOf k ks)
    | nil =>
      rw [hcell, Propagation.initial_of_open (hnonempty hp hne) hw (by omega), ← hcounter]
      rfl

end

end ChessEgt
