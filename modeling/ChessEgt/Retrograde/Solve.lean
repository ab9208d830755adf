import ChessEgt.Retrograde.Initialize

/-!
# Solving a pair of tables

The propagation loop as a step relation. A ply is a list of scans, one after the other; a scan
runs its blocks in parallel, and every load and every exchange of a worker is a step.

* `Entry`, `Phase`, `scansOf` — the tables of a pair, and the scans of a ply;
* `Entry.scan` — what a scan selects, emits and updates;
* `Solver`, `Solver.Step` — the states of a run and its steps;
* `solveStart` — the state after initialization.
-/

namespace ChessEgt

/-- A table of the pair with its twin, whether the twin has to be reflected, and their slots. -/
structure Entry where
  table : Egt
  twin : Egt
  mirrored : Bool
  slot : Slot
  twinSlot : Slot

/-- The tables of a pair; a self-pair has a single one. -/
def entriesOf (tableA : Egt) (tableB : Option Egt) : Run (List Entry) :=
  match tableB with
  | none => do
    let mirrored ← isMirrored tableA tableA
    pure [⟨tableA, tableA, mirrored, 0, 0⟩]
  | some tableB => do
    let mirroredA ← isMirrored tableA tableB
    let mirroredB ← isMirrored tableB tableA
    pure [⟨tableA, tableB, mirroredA, 0, 1⟩, ⟨tableB, tableA, mirroredB, 1, 0⟩]

/-- Losses make their predecessors wins; wins of one type decrement the counters of theirs. -/
inductive Phase where
  | losses
  | wins (ct : ConversionType)
  deriving DecidableEq, Repr

namespace Phase

def kind : Phase → SummaryKind
  | losses => .loss
  | wins ct => .win ct

/-- The values that a phase propagates at a ply. -/
def selects (phase : Phase) (plies : ℕ) (v : MaybeDtcOutcome) : Bool :=
  match phase with
  | losses => v.isLoss && ply v = plies - 1
  | wins ct => v = .newWin ct (.ofNat (plies - 1))

/-- The conversion type that a source passes on. -/
def sourceCt (phase : Phase) (v : MaybeDtcOutcome) : ConversionType :=
  match phase with
  | losses => outcomeCt v
  | wins ct => ct

/-- How many sources of a phase were resolved at the last ply. -/
def sourcesFound (phase : Phase) (found : Found) : ℕ :=
  match phase with
  | losses => found.losses
  | wins _ => found.wins

end Phase

/-- The scans of a ply: losses first, then wins, one conversion type after the other. -/
def scansOf (entries : List Entry) : List (Phase × Entry) :=
  entries.map (fun e => (.losses, e)) ++
    [ConversionType.checkmate, .capture, .promotion].flatMap fun ct =>
      entries.map fun e => (.wins ct, e)

/-- An update of a predecessor, with the conversion type of its source. -/
abbrev Update := (Slot × ℕ) × ConversionType

/-- Marks a predecessor as a win. -/
def attemptWin (plies : ℕ) (u : Update) (v : MaybeDtcOutcome) :
    Option (Exchange MaybeDtcOutcome PlyRecord Found) :=
  match markWin u.2 plies v with
  | none => none
  | some (value, update) => some {
      value := value
      -- An upgraded win has been counted before; the bound of its old type stays.
      count := if update = .newlyResolved then ⟨1, 0⟩ else 0
      note := some ⟨u.1.1, u.1.2, .win u.2, plies⟩ }

/-- Decrements the counter of a predecessor. -/
def attemptLoss (ct : ConversionType) (plies : ℕ) (u : Update) (v : MaybeDtcOutcome) :
    Option (Exchange MaybeDtcOutcome PlyRecord Found) :=
  match decrement ct plies v with
  | none => none
  | some (value, decided) => some {
      value := value
      count := if decided then ⟨0, 1⟩ else 0
      note := if decided then some ⟨u.1.1, u.1.2, .loss, plies⟩ else none }

def Phase.attempt (phase : Phase) (plies : ℕ) : Update → MaybeDtcOutcome →
    Option (Exchange MaybeDtcOutcome PlyRecord Found) :=
  match phase with
  | losses => attemptWin plies
  | wins ct => attemptLoss ct plies

/-! ### Which blocks are scanned -/

/-- The blocks that a scan visits: those that may hold a source, or all of them. -/
inductive Policy where
  | skipping
  | exhaustive
  deriving DecidableEq, Repr

def Policy.blocks (policy : Policy) (summary : PlySummary) (phase : Phase) (plies : ℕ) :
    List (ℕ × ℕ) :=
  match policy with
  | skipping => summary.blocksWith phase.kind (plies - 1)
  | exhaustive => summary.allBlocks

/-- Whether a scan is left out: the table resolved nothing at the last ply, or no block may hold a
    source. -/
def Policy.skips (policy : Policy) (previous : Found) (summary : PlySummary) (phase : Phase)
    (plies : ℕ) : Bool :=
  match policy with
  | skipping => phase.sourcesFound previous = 0 || (summary.blocksWith phase.kind (plies - 1)).isEmpty
  | exhaustive => false

/-- The addresses of the blocks. Every block is the part of a worker of its own; a worker that
    takes several blocks is one of the interleavings. -/
def partsOf (slot : Slot) (blocks : List (ℕ × ℕ)) : List (List (Slot × ℕ)) :=
  blocks.map fun (start, stop) => (List.range' start (stop - start)).map fun idx => (slot, idx)

/-! ### Steps -/

/-- The workers of a scan. -/
abbrev ScanPool := Pool WorkingPair Summaries (Slot × ℕ) MaybeDtcOutcome Update PlyRecord Found

/-- The state of the propagation loop. While a scan is running, its workers hold the values and
    the summaries. -/
structure Solver where
  plies : ℕ
  todo : List (Phase × Entry)
  scanning : Option ScanPool
  previous : Slot → Found
  found : Slot → Found
  maxWin : Slot → ℕ
  maxLoss : Slot → ℕ
  working : WorkingPair
  summaries : Summaries
  halted : Bool

section

variable [Shakmaty]

/-- The scan of a table in a phase of a ply. -/
def Entry.scan (e : Entry) (phase : Phase) (plies : ℕ) :
    ParallelScan (Slot × ℕ) MaybeDtcOutcome Update PlyRecord Found where
  select := phase.selects plies
  emit a v :=
    match quietUnmoves e.table e.twin a.2 e.mirrored with
    | .ok predecessors =>
      some (predecessors.map fun idx => ((e.twinSlot, idx), phase.sourceCt v))
    | .error _ => none
  target u := u.1
  attempt := phase.attempt plies

namespace Solver

/-- The state when all scans of a ply are done and some found something. -/
def advanced (entries : List Entry) (s : Solver) : Solver :=
  { s with
    plies := s.plies + 1
    todo := scansOf entries
    previous := s.found
    found := fun _ => 0
    maxWin := fun slot => if 0 < (s.found slot).wins then s.plies else s.maxWin slot
    maxLoss := fun slot => if 0 < (s.found slot).losses then s.plies else s.maxLoss slot }

/-- The state when a scan is done. -/
def joined (s : Solver) (e : Entry) (rest : List (Phase × Entry)) (pool : ScanPool) : Solver :=
  { s with
    todo := rest
    scanning := none
    found := Function.update s.found e.twinSlot (s.found e.twinSlot + pool.count)
    working := pool.memory
    summaries := pool.board }

/-- The steps of the propagation loop. -/
inductive Step (policy : Policy) (entries : List Entry) : Solver → Solver → Prop where
  | skip {s phase e rest} (hidle : s.scanning = none) (htodo : s.todo = (phase, e) :: rest)
      (hskip : policy.skips (s.previous e.slot) (s.summaries e.slot) phase s.plies = true) :
      Step policy entries s { s with todo := rest }
  | start {s phase e rest} (hidle : s.scanning = none) (htodo : s.todo = (phase, e) :: rest)
      (hskip : policy.skips (s.previous e.slot) (s.summaries e.slot) phase s.plies = false) :
      Step policy entries s { s with
        scanning := some (Pool.start s.working s.summaries
          (partsOf e.slot (policy.blocks (s.summaries e.slot) phase s.plies))) }
  | work {s phase e rest pool pool'} (hscan : s.scanning = some pool)
      (htodo : s.todo = (phase, e) :: rest) (h : (e.scan phase s.plies).PoolStep pool pool') :
      Step policy entries s { s with scanning := some pool' }
  | join {s phase e rest pool} (hscan : s.scanning = some pool)
      (htodo : s.todo = (phase, e) :: rest) (hdone : pool.Done) :
      Step policy entries s (s.joined e rest pool)
  | advance {s} (hidle : s.scanning = none) (htodo : s.todo = []) (hrun : s.halted = false)
      (hfound : ∃ slot, (s.found slot).isEmpty = false) :
      Step policy entries s (s.advanced entries)
  | halt {s} (hidle : s.scanning = none) (htodo : s.todo = []) (hrun : s.halted = false)
      (hempty : ∀ slot, (s.found slot).isEmpty = true) :
      Step policy entries s { s with halted := true }

end Solver

/-! ### The start -/

/-- The state with the initial values of one more table. -/
def Solver.installed (s : Solver) (e : Entry) (values : List MaybeDtcOutcome)
    (summary : PlySummary) (counts : InitCounts) : Solver :=
  { s with
    working := ⟨Function.update s.working.values e.slot values⟩
    summaries := Function.update s.summaries e.slot summary
    -- Checkmates count as losses at ply 0, so that the first phase scans them.
    previous := Function.update s.previous e.slot ⟨0, counts.checkmates⟩
    found := Function.update s.found e.slot counts.found }

/-- The state before initialization. -/
def Solver.blank (entries : List Entry) : Solver where
  plies := 1
  todo := scansOf entries
  scanning := none
  previous _ := 0
  found _ := 0
  maxWin _ := 0
  maxLoss _ := 0
  working := ⟨fun _ => []⟩
  summaries _ := PlySummary.new 0
  halted := false

/-- The initialization of one more table. -/
def Solver.install (probe : Chess → Run DtcOutcome) (s : Solver) (e : Entry) : Run Solver := do
  let (values, summary, counts) ← initializeTable probe e.table
  pure (s.installed e values summary counts)

/-- The state after the initialization of the tables of a pair. -/
def solveStart (probe : Chess → Run DtcOutcome) (entries : List Entry) : Run Solver :=
  entries.foldlM (Solver.install probe) (Solver.blank entries)

end

end ChessEgt
