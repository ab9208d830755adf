import ChessEgt.Chess.Concrete
import ChessEgt.Indexing.RoundTrip
import ChessEgt.Retrograde.Solve

/-!
# Initialization does not fail

With successors that can be probed, the tables of every material can be initialized: every index
decodes, no counter drops below zero, and a position without a move left has a losing conversion.

* `exists_conversions`, `exists_initializeIndex` — a position;
* `exists_initializeTable`, `exists_solveStart` — a table, and the tables of a pair;
* `bareKings` — a table without conversions.
-/

namespace ChessEgt

section

variable [Shakmaty] {probe : Chess → Run DtcOutcome}

/-- Every move is counted at least once. -/
theorem length_le_symmetryAdjustedMoveCounter (position : Chess) (legals : List Move) :
    legals.length ≤ symmetryAdjustedMoveCounter position legals := by
  unfold symmetryAdjustedMoveCounter
  dsimp only
  split
  · exact le_rfl
  · induction legals with
    | nil => exact le_rfl
    | cons m legals ih =>
      rw [List.map_cons, List.sum_cons, List.length_cons]
      split <;> omega

/-- The conversions of a position can be probed, and losing ones are recorded. -/
theorem exists_conversions (hprobe : ∀ p, ∃ o, probe p = .ok o) (position : Chess)
    {legals : List Move} {acc : Conversions} (h : legals.length ≤ acc.counter) :
    ∃ conv, legals.foldlM (recordConversion probe position) acc = .ok conv ∧
      (conv.lossConv = none → conv.counter = acc.counter ∧ acc.lossConv = none) := by
  induction legals generalizing acc with
  | nil => exact ⟨acc, rfl, fun hnone => ⟨rfl, hnone⟩⟩
  | cons m legals ih =>
    rw [List.length_cons] at h
    obtain ⟨acc', hacc', hlen, hloss⟩ : ∃ acc', recordConversion probe position acc m = .ok acc' ∧
        legals.length ≤ acc'.counter ∧
          (acc'.lossConv = none → acc'.counter = acc.counter ∧ acc.lossConv = none) := by
      unfold recordConversion
      split
      · obtain ⟨outcome, houtcome⟩ := hprobe (Shakmaty.playUnchecked position m)
        rw [houtcome, Run.ok_bind]
        cases outcome with
        | loss _ _ => exact ⟨_, rfl, by show _ ≤ acc.counter; omega, fun hnone => ⟨rfl, hnone⟩⟩
        | win _ _ =>
          dsimp only
          rw [Run.sub_eq (by omega), Run.ok_bind]
          exact ⟨_, rfl, by show _ ≤ acc.counter - 1; omega, fun hnone => nomatch hnone⟩
        | draw => exact ⟨acc, rfl, by omega, fun hnone => ⟨rfl, hnone⟩⟩
      · exact ⟨acc, rfl, by omega, fun hnone => ⟨rfl, hnone⟩⟩
    obtain ⟨conv, hconv, hnone⟩ := ih hlen
    refine ⟨conv, ?_, fun h => ?_⟩
    · rw [List.foldlM_cons, hacc', Run.ok_bind]
      exact hconv
    · obtain ⟨hc, hl⟩ := hnone h
      obtain ⟨hc', hl'⟩ := hloss hl
      exact ⟨hc.trans hc', hl'⟩

/-- An index that decodes and has a partner or none can be initialized. -/
theorem exists_initializeIndex (hprobe : ∀ p, ∃ o, probe p = .ok o) {egt : Egt} {idx : ℕ}
    (hdecode : ∃ r, egt.indexer.positionFromIndexWithReason idx .white = .ok r)
    (hother : ∃ o, egt.diagonalSymmetric idx = .ok o) (state : InitState) :
    ∃ r, initializeIndex probe egt state idx = .ok r := by
  obtain ⟨decoded, hdecoded⟩ := hdecode
  unfold initializeIndex
  rw [hdecoded, Run.ok_bind]
  cases decoded with
  | error reason =>
    obtain ⟨other, ho⟩ := hother
    dsimp only
    rw [ho, Run.ok_bind]
    split
    · exact ⟨_, rfl⟩
    · exact ⟨_, rfl⟩
  | ok position =>
    dsimp only
    cases hlegals : (Shakmaty.legalMoves position).isEmpty with
    | true =>
      rw [if_pos rfl]
      split
      · exact ⟨_, rfl⟩
      · exact ⟨_, rfl⟩
    | false =>
      rw [if_neg Bool.false_ne_true]
      have hpos : 0 < (Shakmaty.legalMoves position).length :=
        List.length_pos_iff.mpr (List.isEmpty_eq_false_iff.mp hlegals)
      have hcounter : (Shakmaty.legalMoves position).length ≤ (if egt.isPawnless then
          symmetryAdjustedMoveCounter position (Shakmaty.legalMoves position)
        else (Shakmaty.legalMoves position).length) := by
        split
        · exact length_le_symmetryAdjustedMoveCounter _ _
        · exact le_rfl
      generalize (if egt.isPawnless then
          symmetryAdjustedMoveCounter position (Shakmaty.legalMoves position)
        else (Shakmaty.legalMoves position).length) = counter at hcounter
      have hacc : (Shakmaty.legalMoves position).length
          ≤ (⟨counter, none, none⟩ : Conversions).counter := hcounter
      obtain ⟨conv, hconv, hnone⟩ := exists_conversions hprobe position hacc
      rw [hconv, Run.ok_bind]
      cases hwin : conv.winConv with
      | some ct => exact ⟨_, rfl⟩
      | none =>
        dsimp only
        by_cases hzero : conv.counter = 0
        · rw [if_pos hzero]
          -- A counter that has been used up was decremented, by a losing conversion.
          cases hloss : conv.lossConv with
          | some ct => exact ⟨_, rfl⟩
          | none =>
            have hsame : conv.counter = _ := (hnone hloss).1
            dsimp only at hsame
            omega
        · rw [if_neg hzero]
          exact ⟨_, rfl⟩

variable [LawfulShakmaty]

/-- The table of a material can be initialized. -/
theorem exists_initializeTable (hprobe : ∀ p, ∃ o, probe p = .ok o) {M : Material}
    (hM : M.nPieces ≤ maxPieces) {egt : Egt} (hegt : egt.indexer = M.indexer) :
    ∃ r, initializeTable probe egt = .ok r := by
  have hblock : ∀ chunk ∈ Pieces.pieces summaryBlockSize (List.range egt.indexRange),
      ∃ block, initializeBlock probe egt chunk = .ok block := by
    intro chunk hchunk
    refine exists_initializeBlock probe fun idx hidx state => ?_
    obtain ⟨k, -, rfl⟩ := List.mem_map.mp hchunk
    have hlt : idx < M.indexer.indexRange := by
      rw [← hegt]
      exact List.mem_range.mp (List.mem_of_mem_drop (List.mem_of_mem_take hidx))
    obtain ⟨b, ep, hb⟩ := exists_indexes hM hlt
    refine exists_initializeIndex hprobe ?_ ?_ state
    · obtain ⟨r, hr⟩ := hb.exists_positionFromSetup .white
      refine ⟨r, ?_⟩
      rw [hegt]
      unfold Indexer.positionFromIndexWithReason
      rw [hb.setup .white, Run.ok_bind]
      exact hr
    · unfold Egt.diagonalSymmetric
      rw [hegt]
      exact hb.exists_diagonalSymmetric hM
  unfold initializeTable
  rcases Run.mapM_forall₂ (initializeBlock probe egt)
    (Pieces.pieces summaryBlockSize (List.range egt.indexRange)) with
    ⟨blocks, hblocks, -⟩ | ⟨-, chunk, hchunk, fault, hfault⟩
  · rw [hblocks, Run.ok_bind]
    exact ⟨_, rfl⟩
  · obtain ⟨block, hok⟩ := hblock chunk hchunk
    rw [hok] at hfault
    cases hfault

/-- The tables of a pair can be initialized. -/
theorem exists_solveStart (hprobe : ∀ p, ∃ o, probe p = .ok o) {entries : List Entry}
    (h : ∀ e ∈ entries, ∃ M : Material, M.nPieces ≤ maxPieces ∧ e.table.indexer = M.indexer) :
    ∃ s, solveStart probe entries = .ok s := by
  unfold solveStart
  suffices hrun : ∀ s, ∃ s', entries.foldlM (Solver.install probe) s = .ok s' from hrun _
  induction entries with
  | nil => exact fun s => ⟨s, rfl⟩
  | cons e entries ih =>
    intro s
    obtain ⟨M, hM, hegt⟩ := h e List.mem_cons_self
    obtain ⟨r, hr⟩ := exists_initializeTable hprobe hM hegt
    obtain ⟨s', hs'⟩ := ih (fun e he => h e (List.mem_cons_of_mem _ he))
      (s.installed e r.1 r.2.1 r.2.2)
    refine ⟨s', ?_⟩
    rw [List.foldlM_cons, Solver.install, hr, Run.ok_bind]
    exact hs'

end

/-- The two kings alone. -/
def bareKings : Egt where
  elements := [.pieceGroup .king .sideToMove 1, .pieceGroup .king .sideNotToMove 1]
  indexer := (validateElements_eq_ok.mp (rfl : validateElements
    [.pieceGroup .king .sideToMove 1, .pieceGroup .king .sideNotToMove 1] = .ok ())).material.indexer
  tablename := "K_K".toList

theorem fromElements_bareKings : Egt.fromElements bareKings.elements = .ok bareKings := by
  have hsort : sortElements bareKings.elements = bareKings.elements := by decide
  unfold Egt.fromElements
  dsimp only
  rw [hsort, Indexer.fromElements_eq (validateElements_eq_ok.mp rfl)]
  rfl

/-- The two kings alone are their own twin, and can be initialized. -/
theorem exists_bareKings : ∃ table entries s₀, Egt.fromElements bareKings.elements = .ok table ∧
    entriesOf table none = .ok entries ∧
    @solveStart rulesShakmaty (fun _ => .ok .draw) entries = .ok s₀ := by
  have hentries : entriesOf bareKings none
      = .ok [⟨bareKings, bareKings, false, 0, 0⟩] := rfl
  obtain ⟨s₀, hs₀⟩ := @exists_solveStart rulesShakmaty (fun _ => .ok .draw) lawful_rulesShakmaty
    (fun _ => ⟨.draw, rfl⟩) [⟨bareKings, bareKings, false, 0, 0⟩] (by
      intro e he
      rw [List.mem_singleton.mp he]
      exact ⟨_, by decide, rfl⟩)
  exact ⟨_, _, s₀, fromElements_bareKings, hentries, hs₀⟩

end ChessEgt
