import ChessEgt.Retrograde.InitialCells
import ChessEgt.Retrograde.Skipping

/-!
# Scans as updates of cells

* `PairEntries` — the entries of a table and its twin, and their slots;
* `cellAt` — the cells expected before a ply, `Phase.sourceOf` — the sources among them;
* `scanUpdates`, `emitted_eq` — the updates that a scan runs;
* `reached`, `typesAt_scanUpdates` — the types of the updates that reach a cell.
-/

namespace ChessEgt

open Rules Indexer ParallelScan MaybeDtcOutcome SharedMemory

/-! ### The tables of a pair -/

/-- The material of the table at a slot. -/
def materialAt (M : Material) (slot : Slot) : Material :=
  match slot with
  | ⟨0, _⟩ => M
  | ⟨_ + 1, _⟩ => M.partnerTable

/-- The node of an address. -/
def nodeAt (M : Material) (a : Slot × ℕ) : Node := ⟨materialAt M a.1, a.2⟩

@[simp] theorem nodeAt_material (M : Material) (a : Slot × ℕ) :
    (nodeAt M a).material = materialAt M a.1 := rfl
@[simp] theorem nodeAt_index (M : Material) (a : Slot × ℕ) : (nodeAt M a).index = a.2 := rfl

theorem materialAt_cases (M : Material) (slot : Slot) :
    materialAt M slot = M ∨ materialAt M slot = M.partnerTable := by
  match slot with
  | ⟨0, _⟩ => exact Or.inl rfl
  | ⟨_ + 1, _⟩ => exact Or.inr rfl

theorem nPieces_materialAt {M : Material} (hM : M.nPieces ≤ maxPieces) (slot : Slot) :
    (materialAt M slot).nPieces ≤ maxPieces := by
  rcases materialAt_cases M slot with h | h
  · rwa [h]
  · rwa [h, Material.nPieces_partnerTable]

/-- The table that is solved together with the one of a material: none if it is its own twin. -/
def IsTwinTable (M : Material) (tableB : Option Egt) : Prop :=
  tableB = none ∧ M.partnerTable = M ∨ tableB = some M.partnerTable.table

/-- The entries are those of a table and its twin. -/
structure PairEntries (M : Material) (entries : List Entry) : Prop where
  table : ∀ e ∈ entries, e.table = (materialAt M e.slot).table
  twin : ∀ e ∈ entries, e.twin = (materialAt M e.twinSlot).table
  mirrored : ∀ e ∈ entries, e.mirrored = (materialAt M e.slot).reflectsTwin
  partner : ∀ e ∈ entries, materialAt M e.twinSlot = (materialAt M e.slot).partnerTable
  targets : (entries.map Entry.twinSlot).Nodup
  slots : ∀ e ∈ entries, ∃ e' ∈ entries, e'.twinSlot = e.slot
  twins : ∀ e ∈ entries, ∃ e' ∈ entries, e'.slot = e.twinSlot

theorem pairEntries {M : Material} (hM : M.nPieces ≤ maxPieces) (hc : M.Canonical)
    {tableB : Option Egt} (htwin : IsTwinTable M tableB) {entries : List Entry}
    (h : entriesOf M.table tableB = .ok entries) : PairEntries M entries := by
  have hzero : materialAt M 0 = M := rfl
  have hone : materialAt M 1 = M.partnerTable := rfl
  have hA : isMirrored M.table M.partnerTable.table = .ok M.reflectsTwin := isMirrored_table hM
  rcases htwin with ⟨rfl, hself⟩ | rfl
  · rw [hself] at hA
    have hentries : entries = [⟨M.table, M.table, M.reflectsTwin, 0, 0⟩] := by
      unfold entriesOf at h
      rw [hA] at h
      exact (Except.ok.inj h).symm
    subst hentries
    have hall : ∀ P : Entry → Prop, (∀ e ∈ [(⟨M.table, M.table, M.reflectsTwin, 0, 0⟩ : Entry)], P e)
        ↔ P ⟨M.table, M.table, M.reflectsTwin, 0, 0⟩ := fun P => List.forall_mem_singleton
    refine ⟨(hall _).mpr ?_, (hall _).mpr ?_, (hall _).mpr ?_, (hall _).mpr ?_, ?_,
      (hall _).mpr ⟨_, List.mem_singleton_self _, rfl⟩,
      (hall _).mpr ⟨_, List.mem_singleton_self _, rfl⟩⟩
    · rw [hzero]
    · rw [hzero]
    · rw [hzero]
    · show materialAt M 0 = (materialAt M 0).partnerTable
      rw [hzero, hself]
    · exact List.nodup_singleton _
  · have hB : isMirrored M.partnerTable.table M.table = .ok M.partnerTable.reflectsTwin := by
      have hM' : M.partnerTable.nPieces ≤ maxPieces := by rwa [Material.nPieces_partnerTable]
      have h := isMirrored_table hM'
      rwa [Material.partnerTable_partnerTable hc] at h
    have hentries : entries = [⟨M.table, M.partnerTable.table, M.reflectsTwin, 0, 1⟩,
        ⟨M.partnerTable.table, M.table, M.partnerTable.reflectsTwin, 1, 0⟩] := by
      unfold entriesOf at h
      dsimp only at h
      rw [hA, Run.ok_bind, hB] at h
      exact (Except.ok.inj h).symm
    subst hentries
    have hall : ∀ {P : Entry → Prop}, P ⟨M.table, M.partnerTable.table, M.reflectsTwin, 0, 1⟩ →
        P ⟨M.partnerTable.table, M.table, M.partnerTable.reflectsTwin, 1, 0⟩ →
        ∀ e ∈ [(⟨M.table, M.partnerTable.table, M.reflectsTwin, 0, 1⟩ : Entry),
          ⟨M.partnerTable.table, M.table, M.partnerTable.reflectsTwin, 1, 0⟩], P e := by
      intro P h₀ h₁ e he
      rcases List.mem_cons.mp he with rfl | he
      · exact h₀
      · rw [List.mem_singleton.mp he]
        exact h₁
    refine ⟨hall ?_ ?_, hall ?_ ?_, hall ?_ ?_, hall ?_ ?_, ?_, hall ?_ ?_, hall ?_ ?_⟩
    · rw [hzero]
    · rw [hone]
    · rw [hone]
    · rw [hzero]
    · rw [hzero]
    · rw [hone]
    · show materialAt M 1 = (materialAt M 0).partnerTable
      rw [hzero, hone]
    · show materialAt M 0 = (materialAt M 1).partnerTable
      rw [hzero, hone, Material.partnerTable_partnerTable hc]
    · simp
    · exact ⟨_, List.mem_cons_of_mem _ List.mem_cons_self, rfl⟩
    · exact ⟨_, List.mem_cons_self, rfl⟩
    · exact ⟨_, List.mem_cons_of_mem _ List.mem_cons_self, rfl⟩
    · exact ⟨_, List.mem_cons_self, rfl⟩

/-- Either material is the one of an entry. -/
theorem PairEntries.exists_entry {M T : Material} {entries : List Entry} (h : PairEntries M entries)
    (hc : M.Canonical) {e : Entry} (he : e ∈ entries) (hT : T = M ∨ T = M.partnerTable) :
    ∃ e ∈ entries, materialAt M e.slot = T := by
  obtain ⟨e', he', hslot⟩ := h.twins e he
  have htwin : materialAt M e'.slot = (materialAt M e.slot).partnerTable := by
    rw [hslot]
    exact h.partner e he
  rcases materialAt_cases M e.slot with hm | hm
  · rcases hT with rfl | rfl
    · exact ⟨e, he, hm⟩
    · exact ⟨e', he', by rw [htwin, hm]⟩
  · rcases hT with rfl | rfl
    · exact ⟨e', he', by rw [htwin, hm, Material.partnerTable_partnerTable hc]⟩
    · exact ⟨e, he, hm⟩

/-! ### Sources -/

/-- The type that a cell passes on in a phase of a ply, if it is a source there. -/
def Phase.sourceOf (phase : Phase) (p : ℕ) : Cell ConversionType → Option ConversionType
  | .known (.loss ct n) => if phase = .losses ∧ n = p then some ct else none
  | .known (.win ct n) => if phase = .wins ct ∧ n = p then some ct else none
  | _ => none

/-- The cell that a source is. -/
def Phase.sourceCell (phase : Phase) (p : ℕ) (ct : ConversionType) : Cell ConversionType :=
  match phase with
  | losses => .known (.loss ct p)
  | wins _ => .known (.win ct p)

theorem Phase.sourceOf_eq_some {phase : Phase} {p : ℕ} {c : Cell ConversionType}
    {ct : ConversionType} : phase.sourceOf p c = some ct ↔
      c = phase.sourceCell p ct ∧ ∀ ct', phase = .wins ct' → ct = ct' := by
  cases c with
  | invalid => cases phase <;> simp [sourceOf, sourceCell]
  | unknown n => cases phase <;> simp [sourceOf, sourceCell]
  | known o =>
    cases o with
    | draw => cases phase <;> simp [sourceOf, sourceCell]
    | loss k n =>
      cases phase with
      | losses => simp [sourceOf, sourceCell, and_comm]
      | wins ct' => simp [sourceOf, sourceCell]
    | win k n =>
      cases phase with
      | losses => simp [sourceOf, sourceCell]
      | wins ct' =>
        simp only [sourceOf, sourceCell, wins.injEq, Option.ite_none_right_eq_some,
          Option.some.injEq, Cell.known.injEq, Outcome.win.injEq, forall_eq']
        constructor
        · rintro ⟨⟨rfl, rfl⟩, rfl⟩
          exact ⟨⟨rfl, rfl⟩, rfl⟩
        · rintro ⟨⟨rfl, rfl⟩, rfl⟩
          exact ⟨⟨rfl, rfl⟩, rfl⟩

/-- The updates of a ply neither change nor create the sources of the ply before. -/
theorem Phase.sourceOf_update (phase phase' : Phase) (p : ℕ) (c : Cell ConversionType)
    (ct : ConversionType) :
    phase.sourceOf p (phase'.update (p + 1) c ct) = phase.sourceOf p c := by
  have hnow : ∀ o : DtcOutcome, o.plies? = some (p + 1) → phase.sourceOf p (.known o) = none := by
    intro o ho
    cases o with
    | draw => rfl
    | win k n =>
      obtain rfl : n = p + 1 := by simpa using ho
      exact if_neg fun h => by have := h.2; omega
    | loss k n =>
      obtain rfl : n = p + 1 := by simpa using ho
      exact if_neg fun h => by have := h.2; omega
  cases phase' with
  | losses =>
    show phase.sourceOf p (c.mark (p + 1) ct) = _
    cases c with
    | invalid => rfl
    | unknown n => exact hnow _ rfl
    | known o =>
      cases o with
      | draw => rfl
      | loss k n => rfl
      | win k n =>
        by_cases hn : n = p + 1
        · subst hn
          rw [Cell.mark_win, hnow _ rfl, hnow _ rfl]
        · rw [Cell.mark_win_of_ne hn]
  | wins k =>
    show phase.sourceOf p (c.decrement k (p + 1)) = _
    cases c with
    | invalid => rfl
    | known o => rfl
    | unknown n =>
      unfold Cell.decrement
      dsimp only
      split
      · exact hnow _ rfl
      · rfl

theorem Phase.sourceOf_foldl (phase phase' : Phase) (p : ℕ) (c : Cell ConversionType)
    (cts : List ConversionType) :
    phase.sourceOf p (cts.foldl (phase'.update (p + 1)) c) = phase.sourceOf p c := by
  induction cts generalizing c with
  | nil => rfl
  | cons ct cts ih => rw [List.foldl_cons, ih, sourceOf_update]

/-- What a phase selects, and the type that it passes on. -/
theorem selects_encode {phase : Phase} {p : ℕ} {c : Cell ConversionType} (hp : p ≤ 8191)
    (h : InBits c) : phase.selects (p + 1) (encode c) = true ↔ ∃ ct, phase.sourceOf p c = some ct := by
  have hply : p + 1 - 1 = p := Nat.add_sub_cancel p 1
  cases phase with
  | losses =>
    rw [selects_losses, hply, isLoss_encode]
    constructor
    · rintro ⟨⟨ct, n, rfl⟩, hn⟩
      rw [ply_encode_known h rfl] at hn
      exact ⟨ct, if_pos ⟨rfl, hn⟩⟩
    · rintro ⟨ct, hct⟩
      obtain ⟨rfl, -⟩ := Phase.sourceOf_eq_some.mp hct
      exact ⟨⟨ct, p, rfl⟩, ply_encode_known h rfl⟩
  | wins ct =>
    rw [selects_wins, hply]
    constructor
    · intro heq
      have hwin : (encode c).isWin = true := by
        rw [heq]
        exact isWin_newWin ct _
      obtain ⟨ct', n, rfl⟩ := isWin_encode.mp hwin
      have hn : n = p := by
        rw [← ply_encode_known h rfl, heq]
        exact ply_newWin ct (by omega)
      have hct : ct' = ct := by
        rw [← outcomeCt_newWin ct' (.ofNat n), ← outcomeCt_newWin ct (.ofNat p), ← heq]
        rfl
      exact ⟨ct, Phase.sourceOf_eq_some.mpr ⟨by rw [hn, hct]; rfl, by simp⟩⟩
    · rintro ⟨ct', hct⟩
      obtain ⟨rfl, heq⟩ := Phase.sourceOf_eq_some.mp hct
      rw [heq ct rfl]
      rfl

theorem sourceCt_encode {phase : Phase} {p : ℕ} {c : Cell ConversionType} {ct : ConversionType}
    (h : phase.sourceOf p c = some ct) : phase.sourceCt (encode c) = ct := by
  obtain ⟨rfl, heq⟩ := Phase.sourceOf_eq_some.mp h
  cases phase with
  | losses => exact outcomeCt_newLoss ct _
  | wins ct' => exact (heq ct' rfl).symm

/-! ### The updates of a scan -/

section

variable [Shakmaty]

/-- The cell expected at an address before the scans of a ply. -/
@[irreducible] noncomputable def cellAt (M : Material) (p : ℕ) (a : Slot × ℕ) : Cell ConversionType :=
  (pairGraph M).expected Node.truth p (nodeAt M a)

theorem cellAt_eq (M : Material) (p : ℕ) (a : Slot × ℕ) :
    cellAt M p a = (pairGraph M).expected Node.truth p (nodeAt M a) := by rw [cellAt]

/-- The updates that an index runs if it is a source. -/
noncomputable def sourceUpdates (M : Material) (p : ℕ) (phase : Phase) (e : Entry) (idx : ℕ) :
    List Update :=
  (phase.sourceOf p (cellAt M p (e.slot, idx))).toList.flatMap fun ct =>
    ((pairGraph M).preds (nodeAt M (e.slot, idx))).map fun x => ((e.twinSlot, x.index), ct)

/-- The updates of a scan, in the order of their sources. -/
@[irreducible] noncomputable def scanUpdates (M : Material) (p : ℕ) (phase : Phase) (e : Entry) : List Update :=
  (List.range (materialAt M e.slot).indexer.indexRange).flatMap (sourceUpdates M p phase e)

/-- Every source is a node of the pair. -/
theorem mem_valid_of_sourceOf {M : Material} {p : ℕ} {phase : Phase} {a : Slot × ℕ}
    {ct : ConversionType} (h : phase.sourceOf p (cellAt M p a) = some ct) :
    nodeAt M a ∈ (pairGraph M).valid := by
  by_contra hmem
  rw [cellAt_eq, Propagation.expected_of_not_valid hmem] at h
  cases h

variable [LawfulShakmaty] {M : Material} {entries : List Entry} {e : Entry} {phase : Phase} {p : ℕ}

/-- What a source emits. -/
theorem emitted_source (hM : M.nPieces ≤ maxPieces) (hc : M.Canonical) (h : PairEntries M entries)
    (he : e ∈ entries) {idx : ℕ} {v : MaybeDtcOutcome} {ct : ConversionType}
    (hsource : phase.sourceOf p (cellAt M p (e.slot, idx)) = some ct)
    (hct : phase.sourceCt v = ct) :
    (e.scan phase (p + 1)).emitted ((e.slot, idx), v) = (sourceUpdates M p phase e idx).map some := by
  have hvalid := mem_valid_of_sourceOf hsource
  obtain ⟨-, q, hq⟩ := mem_valid.mp hvalid
  obtain ⟨indices, hindices, hpreds⟩ :=
    exists_preds (M := M) (pairOf_of_mem hM hc hvalid).bounded hq
  have hemit : (e.scan phase (p + 1)).emit (e.slot, idx) v
      = some (indices.map fun i => ((e.twinSlot, i), ct)) := by
    rw [nodeAt_material, nodeAt_index, ← h.partner e he, ← h.table e he, ← h.twin e he,
      ← h.mirrored e he] at hindices
    unfold Entry.scan
    dsimp only
    rw [hindices, hct]
  unfold emitted sourceUpdates
  rw [hemit, hsource, hpreds]
  simp only [Option.toList_some, List.flatMap_cons, List.flatMap_nil, List.append_nil, List.map_map]
  rfl

/-- The updates of a scan, whatever the scans of the ply before it have made of the cells. -/
theorem emitted_eq (hM : M.nPieces ≤ maxPieces) (hc : M.Canonical) (h : PairEntries M entries)
    (he : e ∈ entries) (hp : p ≤ 8191) {m : WorkingPair} {cell : Slot × ℕ → Cell ConversionType}
    (hr : Represents m cell) (hb : ∀ a, InBits (cell a))
    (hs : ∀ a, phase.sourceOf p (cell a) = phase.sourceOf p (cellAt M p a))
    (hlen : (m.values e.slot).length = (materialAt M e.slot).indexer.indexRange) :
    ((e.scan phase (p + 1)).sources m (m.addresses e.slot)).flatMap (e.scan phase (p + 1)).emitted
      = (scanUpdates M p phase e).map some := by
  unfold ParallelScan.sources WorkingPair.addresses scanUpdates
  rw [hlen, List.filterMap_map, flatMap_filterMap, List.map_flatMap]
  refine List.flatMap_congr fun idx hidx => ?_
  rw [List.mem_range, ← hlen] at hidx
  have hget : get m (e.slot, idx) = some ((m.values e.slot)[idx]) := List.getElem?_eq_getElem hidx
  have hv := hr _ _ hget
  have hselects : phase.selects (p + 1) (encode (cell (e.slot, idx))) = true ↔ _ :=
    selects_encode hp (hb (e.slot, idx))
  rw [hs, ← hv] at hselects
  have hselect : (e.scan phase (p + 1)).select = phase.selects (p + 1) := rfl
  simp only [Function.comp_apply, hget, Option.bind_some, hselect]
  cases hsource : phase.sourceOf p (cellAt M p (e.slot, idx)) with
  | none =>
    have hnot : ¬ phase.selects (p + 1) ((m.values e.slot)[idx]) = true := by
      rw [hselects, hsource]
      simp
    rw [if_neg hnot]
    unfold sourceUpdates
    rw [hsource]
    rfl
  | some ct =>
    rw [if_pos (hselects.mpr ⟨ct, hsource⟩), Option.elim_some]
    refine emitted_source hM hc h he hsource ?_
    rw [hv]
    exact sourceCt_encode ((hs _).trans hsource)

/-! ### The updates of a cell -/

/-- The types of the updates by which a scan reaches a cell. -/
@[irreducible] noncomputable def reached (M : Material) (p : ℕ) (phase : Phase) (e : Entry) (a : Slot × ℕ) :
    List ConversionType :=
  (List.range (materialAt M e.slot).indexer.indexRange).flatMap fun idx =>
    (phase.sourceOf p (cellAt M p (e.slot, idx))).toList.flatMap fun ct =>
      List.replicate ((pairGraph M).emissionsOf (nodeAt M (e.slot, idx)) (nodeAt M a)) ct

theorem typesAt_flatMap {α : Type*} (a : Slot × ℕ) (l : List α) (f : α → List Update) :
    typesAt a (l.flatMap f) = l.flatMap fun x => typesAt a (f x) := by
  unfold typesAt
  rw [List.filter_flatMap, List.map_flatMap]

/-- A scan reaches the cells of the twin table only. -/
theorem typesAt_scanUpdates (h : PairEntries M entries) (he : e ∈ entries) (a : Slot × ℕ) :
    typesAt a (scanUpdates M p phase e) = if a.1 = e.twinSlot then reached M p phase e a else [] := by
  have hpreds : ∀ idx ct, typesAt a (((pairGraph M).preds (nodeAt M (e.slot, idx))).map fun x =>
      ((e.twinSlot, x.index), ct)) = if a.1 = e.twinSlot then
        List.replicate ((pairGraph M).emissionsOf (nodeAt M (e.slot, idx)) (nodeAt M a)) ct
        else [] := by
    intro idx ct
    have hmaterial : ∀ x ∈ (pairGraph M).preds (nodeAt M (e.slot, idx)),
        x.material = materialAt M e.twinSlot := by
      intro x hx
      rw [pairGraph_preds] at hx
      rw [h.partner e he]
      exact fst_of_mem_emittedNodes hx
    unfold Propagation.emissionsOf
    generalize (pairGraph M).preds (nodeAt M (e.slot, idx)) = l at hmaterial
    induction l with
    | nil => simp [typesAt]
    | cons x l ih =>
      have ih' := ih fun y hy => hmaterial y (List.mem_cons_of_mem _ hy)
      have hx := hmaterial x List.mem_cons_self
      rw [List.map_cons]
      by_cases hslot : a.1 = e.twinSlot
      · rw [if_pos hslot] at ih' ⊢
        by_cases hidx : x.index = a.2
        · have hnode : x = nodeAt M a := Node.ext (by rw [hx, nodeAt_material, hslot]) hidx
          rw [typesAt_cons_self (Prod.ext hslot.symm hidx), ih', hnode, List.count_cons_self,
            List.replicate_succ]
        · have hne : x ≠ nodeAt M a := fun heq => hidx (congrArg Node.index heq)
          rw [typesAt_cons_of_ne (fun heq => hidx (congrArg Prod.snd heq)), ih',
            List.count_cons_of_ne hne]
      · rw [if_neg hslot] at ih' ⊢
        rw [typesAt_cons_of_ne (fun heq => hslot (congrArg Prod.fst heq).symm), ih']
  unfold scanUpdates sourceUpdates reached
  rw [typesAt_flatMap]
  simp only [typesAt_flatMap, hpreds]
  split
  · rfl
  · simp

end

end ChessEgt
