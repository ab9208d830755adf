import ChessEgt.Retrograde.Advances

/-!
# What initialization counts

* `InitialAt` — the initial value of an index, and what it adds to the counts;
* `initializeIndex_at`, `initializeTable_at` — initialization goes through the indices in order
  and adds up what each of them counts;
* `initializeTable_tally` — the counts of checkmates, stalemates and conversions are exact.
-/

namespace ChessEgt

open MaybeDtcOutcome

namespace InitCounts

instance : Zero InitCounts := ⟨InitCounts.default⟩

instance : Add InitCounts := ⟨InitCounts.merge⟩

theorem add_def (a b : InitCounts) : a + b = a.merge b := rfl

@[simp] theorem zero_checkmates : (0 : InitCounts).checkmates = 0 := rfl
@[simp] theorem zero_stalemates : (0 : InitCounts).stalemates = 0 := rfl
@[simp] theorem zero_found : (0 : InitCounts).found = 0 := rfl
@[simp] theorem add_checkmates (a b : InitCounts) :
    (a + b).checkmates = a.checkmates + b.checkmates := rfl
@[simp] theorem add_stalemates (a b : InitCounts) :
    (a + b).stalemates = a.stalemates + b.stalemates := rfl
@[simp] theorem add_found (a b : InitCounts) : (a + b).found = a.found + b.found := rfl

theorem ext_fields {a b : InitCounts} (hi : a.invalid = b.invalid)
    (hc : a.checkmates = b.checkmates) (hs : a.stalemates = b.stalemates)
    (hf : a.found = b.found) : a = b := by
  cases a
  cases b
  simp only at hi hc hs hf
  rw [hi, hc, hs, hf]

theorem merge_invalid_assoc (a b c : InvalidCounts) :
    (a.merge b).merge c = a.merge (b.merge c) := by
  simp only [InvalidCounts.merge, Nat.add_assoc]

theorem merge_invalid_comm (a b : InvalidCounts) : a.merge b = b.merge a := by
  simp only [InvalidCounts.merge, Nat.add_comm]

instance : AddCommMonoid InitCounts where
  add_assoc a b c := ext_fields (merge_invalid_assoc _ _ _) (Nat.add_assoc _ _ _)
    (Nat.add_assoc _ _ _) (add_assoc a.found b.found c.found)
  zero_add a := ext_fields (by simp [add_def, merge, InvalidCounts.merge, default,
    InvalidCounts.default, Zero.zero, OfNat.ofNat]) (Nat.zero_add _) (Nat.zero_add _)
    (zero_add a.found)
  add_zero a := ext_fields rfl (Nat.add_zero _) (Nat.add_zero _) (add_zero a.found)
  add_comm a b := ext_fields (merge_invalid_comm _ _) (Nat.add_comm _ _) (Nat.add_comm _ _)
    (add_comm a.found b.found)
  nsmul := nsmulRec

/-- The merged counts of the blocks are their sum. -/
theorem foldl_merge (counts : List InitCounts) (start : InitCounts) :
    counts.foldl InitCounts.merge start = start + counts.sum := by
  induction counts generalizing start with
  | nil => exact (add_zero start).symm
  | cons c counts ih => rw [List.foldl_cons, ih, List.sum_cons, ← add_assoc, add_def start c]

/-- One rejected index. -/
def rejected (reason : InvalidPosition) : InitCounts :=
  ⟨InvalidCounts.default.record reason, 0, 0, 0⟩

theorem add_rejected (counts : InitCounts) (reason : InvalidPosition) :
    counts + rejected reason = { counts with invalid := counts.invalid.record reason } := by
  cases reason <;> rfl

end InitCounts

theorem expect_eq_ok {α : Type} {o : Option α} {a : α} {reason : String}
    (h : Run.expect o reason = .ok a) : o = some a := by
  cases o with
  | none => cases h
  | some b => rw [Except.ok.inj h]

section

variable [Shakmaty] (probe : Chess → Run DtcOutcome)

/-- The initial counter of a position. -/
def initialCounter (egt : Egt) (position : Chess) : ℕ :=
  if egt.isPawnless then symmetryAdjustedMoveCounter position (Shakmaty.legalMoves position)
  else (Shakmaty.legalMoves position).length

/-- What the conversions of a position make of its initial counter. -/
def conversionsOf (egt : Egt) (position : Chess) : Run Conversions :=
  (Shakmaty.legalMoves position).foldlM (recordConversion probe position)
    ⟨initialCounter egt position, none, none⟩

/-- The initial value of an index, and what it adds to the counts. -/
inductive InitialAt (egt : Egt) (idx : ℕ) : MaybeDtcOutcome → InitCounts → Prop where
  /-- An index that does not decode is not counted if its partner comes first. -/
  | redundant {reason other} (h : egt.indexer.positionFromIndexWithReason idx .white
        = .ok (.error reason)) (hother : egt.diagonalSymmetric idx = .ok (some other))
      (hlt : other < idx) : InitialAt egt idx .invalid 0
  | rejected {reason other} (h : egt.indexer.positionFromIndexWithReason idx .white
        = .ok (.error reason)) (hother : egt.diagonalSymmetric idx = .ok other)
      (hfirst : ∀ i ∈ other, idx ≤ i) : InitialAt egt idx .invalid (.rejected reason)
  | checkmate {p} (h : egt.indexer.positionFromIndexWithReason idx .white = .ok (.ok p))
      (hmoves : Shakmaty.legalMoves p = []) (hcheck : Shakmaty.isCheck p = true) :
      InitialAt egt idx (.newLoss .checkmate 0) ⟨InvalidCounts.default, 1, 0, 0⟩
  | stalemate {p} (h : egt.indexer.positionFromIndexWithReason idx .white = .ok (.ok p))
      (hmoves : Shakmaty.legalMoves p = []) (hcheck : Shakmaty.isCheck p = false) :
      InitialAt egt idx .draw ⟨InvalidCounts.default, 0, 1, 0⟩
  | won {p conv ct} (h : egt.indexer.positionFromIndexWithReason idx .white = .ok (.ok p))
      (hmoves : Shakmaty.legalMoves p ≠ []) (hconv : conversionsOf probe egt p = .ok conv)
      (hct : conv.winConv = some ct) :
      InitialAt egt idx (.newWin ct 1) ⟨InvalidCounts.default, 0, 0, ⟨1, 0⟩⟩
  | lost {p conv ct} (h : egt.indexer.positionFromIndexWithReason idx .white = .ok (.ok p))
      (hmoves : Shakmaty.legalMoves p ≠ []) (hconv : conversionsOf probe egt p = .ok conv)
      (hwin : conv.winConv = none) (hzero : conv.counter = 0) (hct : conv.lossConv = some ct) :
      InitialAt egt idx (.newLoss ct 1) ⟨InvalidCounts.default, 0, 0, ⟨0, 1⟩⟩
  | unknown {p conv} (h : egt.indexer.positionFromIndexWithReason idx .white = .ok (.ok p))
      (hmoves : Shakmaty.legalMoves p ≠ []) (hconv : conversionsOf probe egt p = .ok conv)
      (hwin : conv.winConv = none) (hpos : 0 < conv.counter) :
      InitialAt egt idx (.newUnknown (.ofNat conv.counter)) 0

/-- Initialization gives an index its initial value, and counts it. -/
theorem initializeIndex_at {egt : Egt} {state state' : InitState} {idx : ℕ} {v : MaybeDtcOutcome}
    (h : initializeIndex probe egt state idx = .ok (v, state')) :
    ∃ c, InitialAt probe egt idx v c ∧ state'.counts = state.counts + c := by
  obtain ⟨decoded, hdecoded, h⟩ := Run.bind_eq_ok.mp h
  cases decoded with
  | error reason =>
    obtain ⟨other, hother, h⟩ := Run.bind_eq_ok.mp h
    split at h
    · next hany =>
      cases h
      obtain ⟨i, rfl, hi⟩ := Option.any_eq_true _ _ |>.mp hany
      exact ⟨0, .redundant hdecoded hother (of_decide_eq_true hi), (add_zero _).symm⟩
    · next hany =>
      cases h
      refine ⟨.rejected reason, .rejected hdecoded hother fun i hi => ?_,
        (InitCounts.add_rejected _ _).symm⟩
      by_contra hlt
      refine hany ?_
      rw [Option.mem_def.mp hi]
      exact decide_eq_true (not_le.mp hlt)
  | ok p =>
    dsimp only at h
    split at h
    · next hempty =>
      rw [List.isEmpty_iff] at hempty
      split at h
      · next hcheck =>
        cases h
        exact ⟨_, .checkmate hdecoded hempty hcheck, rfl⟩
      · next hcheck =>
        cases h
        exact ⟨_, .stalemate hdecoded hempty (Bool.not_eq_true _ ▸ hcheck), rfl⟩
    · next hempty =>
      rw [List.isEmpty_iff] at hempty
      obtain ⟨conv, hconv, h⟩ := Run.bind_eq_ok.mp h
      have hconv' : conversionsOf probe egt p = .ok conv := hconv
      split at h
      · next ct hct =>
        cases h
        exact ⟨_, .won hdecoded hempty hconv' hct, rfl⟩
      · next hwin =>
        split at h
        · next hzero =>
          obtain ⟨ct, hct, h⟩ := Run.bind_eq_ok.mp h
          cases h
          exact ⟨_, .lost hdecoded hempty hconv' hwin hzero (expect_eq_ok hct), rfl⟩
        · next hzero =>
          cases h
          exact ⟨0, .unknown hdecoded hempty hconv' hwin (Nat.pos_of_ne_zero hzero),
            (add_zero _).symm⟩

/-- The initial values of indices and the counts that they add up to. -/
structure InitialAll (egt : Egt) (indices : List ℕ) (values : List MaybeDtcOutcome)
    (counts : InitCounts) (pairs : List (MaybeDtcOutcome × InitCounts)) : Prop where
  values : values = pairs.map Prod.fst
  counts : counts = (pairs.map Prod.snd).sum
  each : List.Forall₂ (fun idx p => InitialAt probe egt idx p.1 p.2) indices pairs

theorem initializeBlock_at {egt : Egt} {chunk : List ℕ} {values : List MaybeDtcOutcome}
    {state : InitState} (h : initializeBlock probe egt chunk = .ok (values, state)) :
    ∃ pairs, InitialAll probe egt chunk values state.counts pairs := by
  suffices hrun : ∀ (chunk : List ℕ) (acc res : List MaybeDtcOutcome × InitState),
      chunk.foldlM (fun acc idx => initializeIndex probe egt acc.2 idx >>= fun r =>
        (pure (acc.1 ++ [r.1], r.2) : Run (List MaybeDtcOutcome × InitState))) acc = .ok res →
      ∃ pairs, res.1 = acc.1 ++ pairs.map Prod.fst ∧
        res.2.counts = acc.2.counts + (pairs.map Prod.snd).sum ∧
        List.Forall₂ (fun idx p => InitialAt probe egt idx p.1 p.2) chunk pairs by
    obtain ⟨pairs, hv, hc, hall⟩ := hrun chunk ([], InitState.default) (values, state) h
    exact ⟨pairs, hv, hc.trans (zero_add (pairs.map Prod.snd).sum), hall⟩
  intro chunk
  induction chunk with
  | nil =>
    intro acc res h
    cases h
    exact ⟨[], by simp, by simp, .nil⟩
  | cons idx chunk ih =>
    rintro ⟨values, state⟩ res h
    rw [List.foldlM_cons] at h
    obtain ⟨acc, hacc, h⟩ := Run.bind_eq_ok.mp h
    obtain ⟨⟨v, state'⟩, hv, hacc⟩ := Run.bind_eq_ok.mp hacc
    cases hacc
    obtain ⟨c, hat, hc⟩ := initializeIndex_at probe hv
    obtain ⟨pairs, hvalues, hcounts, hall⟩ := ih _ _ h
    refine ⟨(v, c) :: pairs, ?_, ?_, .cons hat hall⟩
    · rw [hvalues, List.append_assoc]
      rfl
    · rw [hcounts, hc, List.map_cons, List.sum_cons, add_assoc]

/-- Initialization gives every index its initial value, and adds up what they count. -/
theorem initializeTable_at {egt : Egt} {values : List MaybeDtcOutcome} {summary : PlySummary}
    {counts : InitCounts} (h : initializeTable probe egt = .ok (values, summary, counts)) :
    ∃ pairs, InitialAll probe egt (List.range egt.indexRange) values counts pairs := by
  obtain ⟨blocks, hblocks, h⟩ := Run.bind_eq_ok.mp h
  cases h
  have hall : List.Forall₂ (fun chunk block => initializeBlock probe egt chunk = .ok block)
      (Pieces.pieces summaryBlockSize (List.range egt.indexRange)) blocks := by
    rcases Run.mapM_forall₂ (initializeBlock probe egt)
      (Pieces.pieces summaryBlockSize (List.range egt.indexRange)) with ⟨bs, hbs, h⟩ | ⟨⟨e, he⟩, -⟩
    · rw [hblocks] at hbs
      cases hbs
      exact h
    · rw [hblocks] at he
      cases he
  -- The blocks, one after the other.
  have hjoin : ∀ {chunks : List (List ℕ)} {blocks : List (List MaybeDtcOutcome × InitState)},
      List.Forall₂ (fun chunk block => initializeBlock probe egt chunk = .ok block) chunks blocks →
      ∃ pairs, InitialAll probe egt chunks.flatten (blocks.flatMap (·.1))
        (blocks.map (·.2.counts)).sum pairs := by
    intro chunks blocks h
    induction h with
    | nil => exact ⟨[], rfl, rfl, .nil⟩
    | @cons chunk block chunks blocks hblock _ ih =>
      obtain ⟨pairs, hp⟩ := initializeBlock_at probe hblock
      obtain ⟨pairs', hp'⟩ := ih
      refine ⟨pairs ++ pairs', ?_, ?_, ?_⟩
      · rw [List.flatMap_cons, hp.values, hp'.values, List.map_append]
      · rw [List.map_cons, List.sum_cons, hp.counts, hp'.counts, List.map_append, List.sum_append]
      · rw [List.flatten_cons]
        exact List.rel_append hp.each hp'.each
  obtain ⟨pairs, hp⟩ := hjoin hall
  rw [Pieces.flatten_pieces summaryBlockSize_pos] at hp
  have hsum : (blocks.map (·.2.counts)).foldl InitCounts.merge InitCounts.default
      = (blocks.map (·.2.counts)).sum := (InitCounts.foldl_merge _ _).trans (zero_add _)
  exact ⟨pairs, hp.values, by rw [hsum, hp.counts], hp.each⟩

/-! ### The counts are exact -/

variable {probe}

theorem InitialAt.counts {egt : Egt} {idx : ℕ} {v : MaybeDtcOutcome} {c : InitCounts}
    (h : InitialAt probe egt idx v c) :
    resolvedAt 0 v = ⟨0, c.checkmates⟩ ∧ resolvedAt 1 v = c.found ∧
      ∀ p, 1 < p → resolvedAt p v = 0 := by
  have hone : ∀ ct, newLoss ct 1 = newLoss ct (.ofNat 1) := fun _ => rfl
  have hwin : ∀ ct, newWin ct 1 = newWin ct (.ofNat 1) := fun _ => rfl
  have hzero : ∀ ct, newLoss ct 0 = newLoss ct (.ofNat 0) := fun _ => rfl
  have hother : ∀ p, resolvedAt p .invalid = 0 ∧ resolvedAt p .draw = 0 := fun p => ⟨rfl, rfl⟩
  cases h with
  | redundant _ _ _ => exact ⟨rfl, rfl, fun p _ => (hother p).1⟩
  | rejected _ _ _ => exact ⟨rfl, rfl, fun p _ => (hother p).1⟩
  | stalemate _ _ _ => exact ⟨rfl, rfl, fun p _ => (hother p).2⟩
  | checkmate _ _ _ =>
    refine ⟨rfl, rfl, fun p hp => ?_⟩
    rw [hzero, resolvedAt_newLoss p _ (by omega), if_neg (by omega)]
  | @won _ _ ct _ _ _ _ =>
    rw [hwin]
    refine ⟨?_, ?_, fun p hp => ?_⟩
    · rw [resolvedAt_newWin 0 ct (by omega), if_neg (by omega)]
      rfl
    · rw [resolvedAt_newWin 1 ct (by omega), if_pos rfl]
    · rw [resolvedAt_newWin p ct (by omega), if_neg (by omega)]
  | @lost _ _ ct _ _ _ _ _ _ =>
    rw [hone]
    refine ⟨?_, ?_, fun p hp => ?_⟩
    · rw [resolvedAt_newLoss 0 ct (by omega), if_neg (by omega)]
      rfl
    · rw [resolvedAt_newLoss 1 ct (by omega), if_pos rfl]
    · rw [resolvedAt_newLoss p ct (by omega), if_neg (by omega)]
  | unknown _ _ _ _ _ =>
    refine ⟨resolvedAt_newUnknown 0 _, resolvedAt_newUnknown 1 _, fun p _ => resolvedAt_newUnknown p _⟩

theorem InitialAll.tally {egt : Egt} {indices : List ℕ} {values : List MaybeDtcOutcome}
    {counts : InitCounts} {pairs : List (MaybeDtcOutcome × InitCounts)}
    (h : InitialAll probe egt indices values counts pairs) :
    tally 0 values = ⟨0, counts.checkmates⟩ ∧ tally 1 values = counts.found ∧
      ∀ p, 1 < p → tally p values = 0 := by
  rw [h.values, h.counts]
  have heach := h.each
  clear h
  induction heach with
  | nil => exact ⟨rfl, rfl, fun _ _ => rfl⟩
  | @cons idx pair indices pairs hat _ ih =>
    obtain ⟨h₀, h₁, h₂⟩ := ih
    obtain ⟨c₀, c₁, c₂⟩ := hat.counts
    have hcons : ∀ p, ChessEgt.tally p ((pair :: pairs).map Prod.fst)
        = resolvedAt p pair.1 + ChessEgt.tally p (pairs.map Prod.fst) := fun _ => rfl
    rw [hcons, hcons, c₀, c₁, h₀, h₁, List.map_cons, List.sum_cons]
    refine ⟨Found.ext rfl rfl, rfl, fun p hp => ?_⟩
    rw [hcons, c₂ p hp, h₂ p hp, zero_add]

end

end ChessEgt
