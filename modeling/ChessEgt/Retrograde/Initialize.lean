import ChessEgt.Egt
import ChessEgt.Library.Chunks
import ChessEgt.Retrograde.Summary
import ChessEgt.Retrograde.Unmoves
import ChessEgt.Storage.Finalization

/-!
# Initial values

The initial value of every position of a table: invalid, checkmate (loss at ply 0), stalemate,
win or loss at ply 1 by conversion, or unknown with its move counter.

* `symmetryAdjustedMoveCounter` — the number of moves that unmoves will count down;
* `initializeTable` — the values of a table, with their summary and their counts.
-/

namespace ChessEgt

/-- Number of positions of a table resolved at a given ply. -/
@[ext] structure Found where
  wins : ℕ
  losses : ℕ
  deriving DecidableEq, Repr

namespace Found

instance : Zero Found := ⟨⟨0, 0⟩⟩

def merge (self other : Found) : Found := ⟨self.wins + other.wins, self.losses + other.losses⟩

instance : Add Found := ⟨merge⟩

@[simp] theorem zero_wins : (0 : Found).wins = 0 := rfl
@[simp] theorem zero_losses : (0 : Found).losses = 0 := rfl
@[simp] theorem add_wins (a b : Found) : (a + b).wins = a.wins + b.wins := rfl
@[simp] theorem add_losses (a b : Found) : (a + b).losses = a.losses + b.losses := rfl

instance : AddCommMonoid Found where
  add_assoc a b c := Found.ext (Nat.add_assoc _ _ _) (Nat.add_assoc _ _ _)
  zero_add a := Found.ext (Nat.zero_add _) (Nat.zero_add _)
  add_zero a := Found.ext (Nat.add_zero _) (Nat.add_zero _)
  add_comm a b := Found.ext (Nat.add_comm _ _) (Nat.add_comm _ _)
  nsmul := nsmulRec

def isEmpty (self : Found) : Bool := self.wins = 0 && self.losses = 0

theorem isEmpty_iff {self : Found} : self.isEmpty = true ↔ self = 0 := by
  unfold isEmpty
  rw [Bool.and_eq_true, decide_eq_true_eq, decide_eq_true_eq]
  exact ⟨fun h => Found.ext h.1 h.2, fun h => by rw [h]; exact ⟨rfl, rfl⟩⟩

end Found

namespace InvalidCounts

def default : InvalidCounts := ⟨0, 0, 0⟩

def record (self : InvalidCounts) : InvalidPosition → InvalidCounts
  | .oppositeCheck => { self with oppositeCheck := self.oppositeCheck + 1 }
  | .epSquaresOccupied => { self with epSquaresOccupied := self.epSquaresOccupied + 1 }
  | .illegalEpCapture => { self with illegalEpCapture := self.illegalEpCapture + 1 }

def merge (self other : InvalidCounts) : InvalidCounts where
  oppositeCheck := self.oppositeCheck + other.oppositeCheck
  epSquaresOccupied := self.epSquaresOccupied + other.epSquaresOccupied
  illegalEpCapture := self.illegalEpCapture + other.illegalEpCapture

end InvalidCounts

structure InitCounts where
  invalid : InvalidCounts
  checkmates : ℕ
  stalemates : ℕ
  /-- Wins and losses at ply 1, resolved by conversions. -/
  found : Found
  deriving DecidableEq, Repr

namespace InitCounts

def default : InitCounts := ⟨InvalidCounts.default, 0, 0, 0⟩

def merge (a b : InitCounts) : InitCounts where
  invalid := a.invalid.merge b.invalid
  checkmates := a.checkmates + b.checkmates
  stalemates := a.stalemates + b.stalemates
  found := a.found.merge b.found

end InitCounts

/-- The king bitboard after a king move, without replaying the position. -/
def kingsAfter (kings : Bitboard) (m : Move) : Bitboard :=
  fun s => (kings s ^^ decide (s = m.source)) || decide (s = m.target)

/-- The legal moves, with the moves onto a long diagonal counted for their reflections, too. -/
def symmetryAdjustedMoveCounter (position : Chess) (legals : List Move) : ℕ :=
  let kings := position.board.byRole .king
  -- No successor of a position on the diagonal can require an adjustment.
  if kingsOnLongDiagonal kings then legals.length
  else
    (legals.map fun m =>
      let adjust := m.role = .king && !m.isCapture && !m.isPromotion &&
        kingsOnLongDiagonal (kingsAfter kings m)
      if adjust then 2 else 1).sum

section

variable [Shakmaty] (probe : Chess → Run DtcOutcome)

/-- The counter that is left, and the preferred conversions that win and that lose. -/
structure Conversions where
  counter : ℕ
  winConv : Option ConversionType
  lossConv : Option ConversionType

/-- Probes the successor of a conversion. -/
def recordConversion (position : Chess) (acc : Conversions) (m : Move) : Run Conversions := do
  if m.isCapture || m.isPromotion then
    let depOutcome ← probe (Shakmaty.playUnchecked position m)
    let ct := if m.isCapture then ConversionType.capture else ConversionType.promotion
    match depOutcome with
    | .loss _ _ => pure { acc with winConv := some ((acc.winConv.map fun w => max w ct).getD ct) }
    | .win _ _ => do
      let counter ← Run.sub acc.counter 1
      pure { acc with counter := counter, lossConv := some (betterLossCt acc.lossConv ct) }
    | .draw => pure acc
  else pure acc

/-- The counts and the bounds of a block during its initialization. -/
structure InitState where
  counts : InitCounts
  plyBounds : SummaryKind → ℕ

def InitState.default : InitState := ⟨InitCounts.default, fun _ => 0⟩

namespace InitState

variable (self : InitState)

def countInvalid (reason : InvalidPosition) : InitState :=
  { self with counts := { self.counts with invalid := self.counts.invalid.record reason } }

def countCheckmate : InitState where
  counts := { self.counts with checkmates := self.counts.checkmates + 1 }
  plyBounds := Function.update self.plyBounds .loss (max (self.plyBounds .loss) 1)

def countStalemate : InitState :=
  { self with counts := { self.counts with stalemates := self.counts.stalemates + 1 } }

def countWin (ct : ConversionType) : InitState where
  counts := { self.counts with found := self.counts.found + ⟨1, 0⟩ }
  plyBounds := Function.update self.plyBounds (.win ct) 2

def countLoss : InitState where
  counts := { self.counts with found := self.counts.found + ⟨0, 1⟩ }
  plyBounds := Function.update self.plyBounds .loss 2

@[simp] theorem countCheckmate_plyBounds :
    self.countCheckmate.plyBounds .loss = max (self.plyBounds .loss) 1 :=
  Function.update_self SummaryKind.loss _ self.plyBounds

@[simp] theorem countWin_plyBounds (ct : ConversionType) :
    (self.countWin ct).plyBounds (.win ct) = 2 := Function.update_self _ _ _

@[simp] theorem countLoss_plyBounds : self.countLoss.plyBounds .loss = 2 :=
  Function.update_self SummaryKind.loss _ self.plyBounds

end InitState

/-- The initial value of an index. -/
def initializeIndex (egt : Egt) (state : InitState) (idx : ℕ) :
    Run (MaybeDtcOutcome × InitState) := do
  match ← egt.indexer.positionFromIndexWithReason idx .white with
  | .error reason =>
    -- Finalization counts redundant indices before invalidity.
    let other ← egt.diagonalSymmetric idx
    if other.any (· < idx) then pure (.invalid, state)
    else pure (.invalid, state.countInvalid reason)
  | .ok position =>
    let legals := Shakmaty.legalMoves position
    if legals.isEmpty then
      if Shakmaty.isCheck position then pure (.newLoss .checkmate 0, state.countCheckmate)
      else pure (.draw, state.countStalemate)
    else
      let counter := if egt.isPawnless then symmetryAdjustedMoveCounter position legals
        else legals.length
      let conv ← legals.foldlM (recordConversion probe position) ⟨counter, none, none⟩
      match conv.winConv with
      -- A checkmate in 1 found by the first phase may still upgrade the conversion type.
      | some ct => pure (.newWin ct 1, state.countWin ct)
      | none =>
        if conv.counter = 0 then do
          -- All moves are conversions to won positions.
          let ct ← Run.expect conv.lossConv "a loss by conversion has a losing conversion"
          pure (.newLoss ct 1, state.countLoss)
        else pure (.newUnknown (.ofNat conv.counter), state)

/-- The initial values of a block, in order. -/
def initializeBlock (egt : Egt) (chunk : List ℕ) : Run (List MaybeDtcOutcome × InitState) :=
  chunk.foldlM (fun (values, state) idx => do
    let (value, state) ← initializeIndex probe egt state idx
    pure (values ++ [value], state)) ([], InitState.default)

/-- The initial values of a table, with the bounds of its blocks and its counts. The blocks are
    initialized in parallel; each one only writes its own part. -/
def initializeTable (egt : Egt) : Run (List MaybeDtcOutcome × PlySummary × InitCounts) := do
  let blocks ← (Pieces.pieces summaryBlockSize (List.range egt.indexRange)).mapM
    (initializeBlock probe egt)
  let summary := (PlySummary.new egt.indexRange).storeBounds (blocks.map (·.2.plyBounds))
  let counts := (blocks.map (·.2.counts)).foldl InitCounts.merge InitCounts.default
  pure (blocks.flatMap (·.1), summary, counts)

/-! ### What initialization records -/

/-- The bounds and counts of a state account for a value: a loss at ply 0 or 1, or a win at
    ply 1. -/
structure InitState.Records (state : InitState) (v : MaybeDtcOutcome) : Prop where
  loss : v.isLoss = true → ply v + 1 ≤ state.plyBounds .loss ∧
    (ply v = 0 ∧ 0 < state.counts.checkmates ∨ ply v = 1 ∧ 0 < state.counts.found.losses)
  win : v.isWin = true → ply v + 1 ≤ state.plyBounds (.win (outcomeCt v)) ∧
    ply v = 1 ∧ 0 < state.counts.found.wins

/-- Later states of the initialization of a block. -/
structure InitState.Extends (state state' : InitState) : Prop where
  bounds : ∀ kind, state.plyBounds kind ≤ state'.plyBounds kind
  small : ∀ kind, state'.plyBounds kind ≤ 2
  checkmates : state.counts.checkmates ≤ state'.counts.checkmates
  wins : state.counts.found.wins ≤ state'.counts.found.wins
  losses : state.counts.found.losses ≤ state'.counts.found.losses

theorem InitState.Records.extend {state state' : InitState} {v : MaybeDtcOutcome}
    (h : state.Records v) (he : state.Extends state') : state'.Records v where
  loss hl := by
    obtain ⟨hb, hc⟩ := h.loss hl
    have h₁ := he.bounds .loss
    have h₂ := he.checkmates
    have h₃ := he.losses
    refine ⟨by omega, ?_⟩
    rcases hc with ⟨hp, hc⟩ | ⟨hp, hc⟩
    · exact Or.inl ⟨hp, by omega⟩
    · exact Or.inr ⟨hp, by omega⟩
  win hw := by
    obtain ⟨hb, hp, hc⟩ := h.win hw
    have h₁ := he.bounds (.win (outcomeCt v))
    have h₂ := he.wins
    exact ⟨by omega, hp, by omega⟩

theorem InitState.Records.of_other {state : InitState} {v : MaybeDtcOutcome}
    (hl : v.isLoss = false) (hw : v.isWin = false) : state.Records v where
  loss h := by rw [hl] at h; cases h
  win h := by rw [hw] at h; cases h

theorem InitState.Extends.refl {state : InitState} (h : ∀ kind, state.plyBounds kind ≤ 2) :
    state.Extends state := ⟨fun _ => le_rfl, h, le_rfl, le_rfl, le_rfl⟩

/-- Setting one bound to at most 2, where no bound is above. -/
theorem update_bounds {f : SummaryKind → ℕ} {kind : SummaryKind} {n : ℕ} (hf : ∀ k, f k ≤ 2)
    (hn : f kind ≤ n) (hn' : n ≤ 2) :
    (∀ k, f k ≤ Function.update f kind n k) ∧ ∀ k, Function.update f kind n k ≤ 2 := by
  refine ⟨fun k => ?_, fun k => ?_⟩
  · by_cases h : k = kind
    · rw [h, Function.update_self]; exact hn
    · rw [Function.update_of_ne h]
  · by_cases h : k = kind
    · rw [h, Function.update_self]; exact hn'
    · rw [Function.update_of_ne h]; exact hf k

/-- An index is accounted for by the state that its initialization leaves. -/
theorem initializeIndex_records {egt : Egt} {state state' : InitState} {idx : ℕ}
    {v : MaybeDtcOutcome} (hb : ∀ kind, state.plyBounds kind ≤ 2)
    (h : initializeIndex probe egt state idx = .ok (v, state')) :
    state.Extends state' ∧ state'.Records v := by
  obtain ⟨decoded, -, h⟩ := Run.bind_eq_ok.mp h
  cases decoded with
  | error reason =>
    obtain ⟨other, -, h⟩ := Run.bind_eq_ok.mp h
    have hinvalid : ∀ s : InitState, s.Records .invalid := fun s => .of_other rfl rfl
    split at h <;> cases h
    · exact ⟨.refl hb, hinvalid _⟩
    · exact ⟨⟨fun _ => le_rfl, hb, le_rfl, le_rfl, le_rfl⟩, hinvalid _⟩
  | ok position =>
    dsimp only at h
    split at h
    · split at h <;> cases h
      · have hmax := hb .loss
        obtain ⟨hle, hsmall⟩ := update_bounds
          (n := max (state.plyBounds .loss) 1) hb (le_max_left _ _) (by omega)
        refine ⟨⟨hle, hsmall, Nat.le_succ _, le_rfl, le_rfl⟩, fun _ => ⟨?_, Or.inl ⟨?_, ?_⟩⟩, ?_⟩
        · rw [InitState.countCheckmate_plyBounds]
          exact le_max_right _ _
        · rfl
        · exact Nat.succ_pos _
        · intro hw
          cases hw
      · exact ⟨⟨fun _ => le_rfl, hb, le_rfl, le_rfl, le_rfl⟩, .of_other rfl rfl⟩
    · obtain ⟨conv, -, h⟩ := Run.bind_eq_ok.mp h
      split at h
      · next ct _ =>
        cases h
        obtain ⟨hle, hsmall⟩ := update_bounds (n := 2) hb (hb _) le_rfl
        have hp : ply (.newWin ct 1) = 1 := MaybeDtcOutcome.ply_newWin ct (n := 1) (by decide)
        refine ⟨⟨hle, hsmall, le_rfl, Nat.le_succ _, le_rfl⟩, ?_, fun _ => ⟨?_, hp, ?_⟩⟩
        · intro hl
          rw [MaybeDtcOutcome.not_isLoss_of_isWin (MaybeDtcOutcome.isWin_newWin ct 1)] at hl
          cases hl
        · rw [hp, MaybeDtcOutcome.outcomeCt_newWin, InitState.countWin_plyBounds]
        · exact Nat.succ_pos _
      · split at h
        · obtain ⟨ct, -, h⟩ := Run.bind_eq_ok.mp h
          cases h
          obtain ⟨hle, hsmall⟩ := update_bounds (n := 2) hb (hb _) le_rfl
          have hp : ply (.newLoss ct 1) = 1 := MaybeDtcOutcome.ply_newLoss ct (n := 1) (by decide)
          refine ⟨⟨hle, hsmall, le_rfl, le_rfl, Nat.le_succ _⟩,
            fun _ => ⟨?_, Or.inr ⟨hp, ?_⟩⟩, ?_⟩
          · rw [hp, InitState.countLoss_plyBounds]
          · exact Nat.succ_pos _
          · intro hw
            rw [MaybeDtcOutcome.not_isWin_newLoss] at hw
            cases hw
        · cases h
          exact ⟨.refl hb, .of_other (MaybeDtcOutcome.not_isLoss_newUnknown _)
            (MaybeDtcOutcome.not_isWin_newUnknown _)⟩

/-- A block is accounted for, value by value, by the state that its initialization leaves. -/
theorem initializeBlock_records {egt : Egt} {chunk : List ℕ} {values : List MaybeDtcOutcome}
    {state : InitState} (h : initializeBlock probe egt chunk = .ok (values, state)) :
    values.length = chunk.length ∧ ∀ v ∈ values, state.Records v := by
  suffices hrun : ∀ (chunk : List ℕ) (acc : List MaybeDtcOutcome × InitState)
      (res : List MaybeDtcOutcome × InitState), (∀ kind, acc.2.plyBounds kind ≤ 2) →
      (∀ v ∈ acc.1, acc.2.Records v) →
      chunk.foldlM (fun (values, state) idx => (do
        let (value, state) ← initializeIndex probe egt state idx
        pure (values ++ [value], state) : Run _)) acc = .ok res →
      res.1.length = acc.1.length + chunk.length ∧ ∀ v ∈ res.1, res.2.Records v by
    have := hrun chunk ([], InitState.default) (values, state) (fun _ => Nat.zero_le _)
      (fun v hv => absurd hv List.not_mem_nil) h
    simpa using this
  intro chunk
  induction chunk with
  | nil =>
    rintro acc res hb hr h
    cases h
    exact ⟨rfl, hr⟩
  | cons idx chunk ih =>
    rintro ⟨values, state⟩ res hb hr h
    rw [List.foldlM_cons] at h
    obtain ⟨acc, hacc, h⟩ := Run.bind_eq_ok.mp h
    obtain ⟨⟨v, state'⟩, hv, hacc⟩ := Run.bind_eq_ok.mp hacc
    cases hacc
    obtain ⟨hext, hrec⟩ := initializeIndex_records probe hb hv
    obtain ⟨hlen, hall⟩ := ih (values ++ [v], state') res hext.small (by
      intro w hw
      rcases List.mem_append.mp hw with hw | hw
      · exact (hr w hw).extend hext
      · rw [List.mem_singleton.mp hw]
        exact hrec) h
    refine ⟨?_, hall⟩
    simp only [List.length_append, List.length_cons, List.length_nil] at hlen ⊢
    omega

/-- A block can be initialized if its indices can. -/
theorem exists_initializeBlock {egt : Egt} {chunk : List ℕ}
    (h : ∀ idx ∈ chunk, ∀ state, ∃ r, initializeIndex probe egt state idx = .ok r) :
    ∃ block, initializeBlock probe egt chunk = .ok block := by
  suffices hrun : ∀ acc, ∃ block, chunk.foldlM (fun (values, state) idx => (do
      let (value, state) ← initializeIndex probe egt state idx
      pure (values ++ [value], state) : Run (List MaybeDtcOutcome × InitState))) acc
        = .ok block from hrun _
  induction chunk with
  | nil => exact fun acc => ⟨acc, rfl⟩
  | cons idx chunk ih =>
    rintro ⟨values, state⟩
    obtain ⟨r, hr⟩ := h idx List.mem_cons_self state
    obtain ⟨block, hblock⟩ := ih (fun i hi => h i (List.mem_cons_of_mem _ hi))
      (values ++ [r.1], r.2)
    refine ⟨block, ?_⟩
    rw [List.foldlM_cons]
    dsimp only
    rw [hr, Run.ok_bind]
    exact hblock

/-- Merged counts are at least the counts merged. -/
theorem le_foldl_merge (counts : List InitCounts) (start : InitCounts) :
    let merged := counts.foldl InitCounts.merge start
    (start.checkmates ≤ merged.checkmates ∧ start.found.wins ≤ merged.found.wins ∧
      start.found.losses ≤ merged.found.losses) ∧
    ∀ c ∈ counts, c.checkmates ≤ merged.checkmates ∧ c.found.wins ≤ merged.found.wins ∧
      c.found.losses ≤ merged.found.losses := by
  induction counts generalizing start with
  | nil => exact ⟨⟨le_rfl, le_rfl, le_rfl⟩, fun c hc => absurd hc List.not_mem_nil⟩
  | cons c counts ih =>
    obtain ⟨⟨h₁, h₂, h₃⟩, hall⟩ := ih (start.merge c)
    have hc : (start.merge c).checkmates = start.checkmates + c.checkmates := rfl
    have hw : (start.merge c).found.wins = start.found.wins + c.found.wins := rfl
    have hl : (start.merge c).found.losses = start.found.losses + c.found.losses := rfl
    refine ⟨⟨?_, ?_, ?_⟩, fun c' hc' => ?_⟩
    · rw [List.foldl_cons]; omega
    · rw [List.foldl_cons]; omega
    · rw [List.foldl_cons]; omega
    · rcases List.mem_cons.mp hc' with rfl | hc'
      · rw [List.foldl_cons]; omega
      · exact hall c' hc'

/-- What the initial content of a table is like: every loss is at ply 0 or 1 and every win at
    ply 1, within the bounds of its block, and counted. -/
structure Initialized (size : ℕ) (values : List MaybeDtcOutcome) (summary : PlySummary)
    (counts : InitCounts) : Prop where
  length : values.length = size
  size : summary.size = size
  loss : ∀ idx v, values[idx]? = some v → v.isLoss = true →
    summary.Covers idx .loss (ply v) ∧
      (ply v = 0 ∧ 0 < counts.checkmates ∨ ply v = 1 ∧ 0 < counts.found.losses)
  win : ∀ idx v, values[idx]? = some v → v.isWin = true →
    summary.Covers idx (.win (outcomeCt v)) (ply v) ∧ ply v = 1 ∧ 0 < counts.found.wins

theorem initializeTable_initialized {egt : Egt} {values : List MaybeDtcOutcome}
    {summary : PlySummary} {counts : InitCounts}
    (h : initializeTable probe egt = .ok (values, summary, counts)) :
    Initialized egt.indexRange values summary counts := by
  obtain ⟨blocks, hblocks, h⟩ := Run.bind_eq_ok.mp h
  cases h
  have hall : List.Forall₂ (fun chunk block => initializeBlock probe egt chunk = .ok block)
      (Pieces.pieces summaryBlockSize (List.range egt.indexRange)) blocks := by
    rcases Run.mapM_forall₂ (initializeBlock probe egt)
      (Pieces.pieces summaryBlockSize (List.range egt.indexRange)) with ⟨bs, hbs, h⟩ | ⟨⟨e, he⟩, -⟩
    · rw [hblocks] at hbs
      cases hbs
      exact h
    · rw [hblocks] at he
      cases he
  obtain ⟨hlen, hget⟩ := Pieces.getElem?_flatMap summaryBlockSize_pos
    (hall.imp fun _ block hb => (initializeBlock_records probe
      hb).1)
  -- Every value has been recorded by the state of its block.
  have hrecords : ∀ idx v, (blocks.flatMap (·.1))[idx]? = some v → ∃ block,
      blocks[idx / summaryBlockSize]? = some block ∧ block.2.Records v := by
    intro idx v hv
    obtain ⟨block, hblock, hmem⟩ := hget idx v hv
    refine ⟨block, hblock, ?_⟩
    obtain ⟨chunk, -, hchunk⟩ := Chunks.exists_of_mem_right hall (List.mem_of_getElem? hblock)
    exact (initializeBlock_records probe hchunk).2 v hmem
  have hcounts : ∀ block ∈ blocks, _ := fun block hb =>
    (le_foldl_merge (blocks.map (·.2.counts)) InitCounts.default).2 block.2.counts
      (List.mem_map_of_mem hb)
  have hbound : ∀ {idx block}, blocks[idx / summaryBlockSize]? = some block →
      (blocks.map (·.2.plyBounds))[idx / summaryBlockSize]? = some block.2.plyBounds := by
    intro idx block hb
    rw [List.getElem?_map, hb]
    rfl
  refine ⟨by rw [hlen, List.length_range], rfl, fun idx v hv hl => ?_, fun idx v hv hw => ?_⟩
  · obtain ⟨block, hb, hr⟩ := hrecords idx v hv
    obtain ⟨hle, hc⟩ := hr.loss hl
    obtain ⟨h₁, h₂, h₃⟩ := hcounts block (List.mem_of_getElem? hb)
    refine ⟨PlySummary.covers_storeBounds (hbound hb) hle, ?_⟩
    rcases hc with ⟨hp, hc⟩ | ⟨hp, hc⟩
    · exact Or.inl ⟨hp, by omega⟩
    · exact Or.inr ⟨hp, by omega⟩
  · obtain ⟨block, hb, hr⟩ := hrecords idx v hv
    obtain ⟨hle, hp, hc⟩ := hr.win hw
    obtain ⟨h₁, h₂, h₃⟩ := hcounts block (List.mem_of_getElem? hb)
    exact ⟨PlySummary.covers_storeBounds (hbound hb) hle, hp, by omega⟩

end

end ChessEgt
