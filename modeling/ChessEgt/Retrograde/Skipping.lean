import ChessEgt.Retrograde.Starting
import ChessEgt.Retrograde.Tracking

/-!
# Block skipping

The loop that skips blocks and tables makes the same progress as the one that scans every index.

* `Progress`, `Progress.Step` — what a run makes of the values, one whole scan at a time;
* `tracks_start` — initialization records what it resolves;
* `Linked`, `Linked.step` — a run under a policy follows the steps of its progress;
* `Linked.exists_run` — a run under a policy can take every step of progress;
* `block_skipping_lossless` — a scan misses no source, and runs do not depend on the policy.
-/

namespace ChessEgt

open ParallelScan MaybeDtcOutcome Relation

/-! ### The cells of the blocks -/

theorem mem_flatten_partsOf {slot : Slot} {blocks : List (ℕ × ℕ)} {a : Slot × ℕ} :
    a ∈ (partsOf slot blocks).flatten ↔ a.1 = slot ∧ ∃ r ∈ blocks, r.1 ≤ a.2 ∧ a.2 < r.2 := by
  simp only [partsOf, List.mem_flatten, List.mem_map]
  constructor
  · rintro ⟨part, ⟨r, hr, rfl⟩, ha⟩
    obtain ⟨idx, hidx, rfl⟩ := List.mem_map.mp ha
    rw [List.mem_range'_1] at hidx
    exact ⟨rfl, r, hr, hidx.1, by omega⟩
  · rintro ⟨rfl, r, hr, hle, hlt⟩
    refine ⟨_, ⟨r, hr, rfl⟩, List.mem_map.mpr ⟨a.2, ?_, rfl⟩⟩
    rw [List.mem_range'_1]
    omega

/-- Disjoint blocks have no cell in common. -/
theorem nodup_flatten_partsOf (slot : Slot) {blocks : List (ℕ × ℕ)}
    (h : blocks.Pairwise fun r r' => r.2 ≤ r'.1) : (partsOf slot blocks).flatten.Nodup := by
  rw [List.nodup_flatten]
  constructor
  · intro part hpart
    obtain ⟨r, -, rfl⟩ := List.mem_map.mp hpart
    exact List.Nodup.map (fun _ _ hij => (Prod.mk.inj hij).2) (List.nodup_range' 1 Nat.one_pos)
  · unfold partsOf
    rw [List.pairwise_map]
    refine h.imp fun {r r'} hle => ?_
    intro a ha ha'
    obtain ⟨i, hi, rfl⟩ := List.mem_map.mp ha
    obtain ⟨j, hj, heq⟩ := List.mem_map.mp ha'
    rw [List.mem_range'_1] at hi hj
    have hij : j = i := (Prod.mk.inj heq).2
    omega

/-- The addresses of a table. -/
def WorkingPair.addresses (working : WorkingPair) (slot : Slot) : List (Slot × ℕ) :=
  (List.range (working.values slot).length).map fun idx => (slot, idx)

theorem WorkingPair.mem_addresses {working : WorkingPair} {slot : Slot} {a : Slot × ℕ}
    {v : MaybeDtcOutcome} (h : SharedMemory.get working a = some v) :
    a ∈ working.addresses slot ↔ a.1 = slot := by
  unfold addresses
  rw [List.mem_map]
  constructor
  · rintro ⟨idx, -, rfl⟩
    rfl
  · rintro rfl
    exact ⟨a.2, List.mem_range.mpr (List.getElem?_eq_some_iff.mp h).1, rfl⟩

theorem WorkingPair.nodup_addresses (working : WorkingPair) (slot : Slot) :
    (working.addresses slot).Nodup :=
  List.nodup_range.map fun _ _ hij => (Prod.mk.inj hij).2

section

variable [Shakmaty] {entries : List Entry} {e : Entry} {phase : Phase} {policy : Policy}
  {s s' : Solver} {rest : List (Phase × Entry)}

namespace Solver

/-- Whatever the policy, a scan selects every source once. -/
theorem Tracks.sources_perm (h : s.Tracks) (hle : s.plies ≤ 8192) (policy : Policy) (e : Entry)
    (phase : Phase) :
    ((partsOf e.slot (policy.blocks (s.summaries e.slot) phase s.plies)).flatMap
      ((e.scan phase s.plies).sources s.working)).Perm
        ((e.scan phase s.plies).sources s.working (s.working.addresses e.slot)) := by
  rw [flatMap_sources]
  have hsub : (policy.blocks (s.summaries e.slot) phase s.plies).Sublist
      (s.summaries e.slot).allBlocks := by
    cases policy with
    | skipping => exact PlySummary.blocksWith_sublist _ _ _
    | exhaustive => exact List.Sublist.refl _
  refine ParallelScan.sources_perm
    (nodup_flatten_partsOf e.slot ((PlySummary.allBlocks_pairwise _).sublist hsub))
    (s.working.nodup_addresses e.slot) fun a v hv hsel => ?_
  rw [mem_flatten_partsOf, WorkingPair.mem_addresses hv]
  refine ⟨And.left, fun ha => ⟨ha, ?_⟩⟩
  obtain ⟨slot, idx⟩ := a
  subst ha
  cases policy with
  | skipping => exact h.exists_range hle hv hsel
  | exhaustive =>
    have hidx : idx < (s.summaries e.slot).size := by
      rw [← h.size]
      exact (List.getElem?_eq_some_iff.mp hv).1
    exact PlySummary.exists_block_range hidx

/-- The blocks are within the table, so that their cells can be loaded. -/
theorem Tracks.isSome_of_blocks (h : s.Tracks) (policy : Policy) (phase : Phase) (e : Entry) :
    ∀ a ∈ (partsOf e.slot (policy.blocks (s.summaries e.slot) phase s.plies)).flatten,
      (SharedMemory.get s.working a).isSome := by
  rintro ⟨slot, idx⟩ ha
  obtain ⟨rfl, r, hr, -, hlt⟩ := mem_flatten_partsOf.mp ha
  have hr' : r ∈ (s.summaries e.slot).allBlocks := by
    cases policy with
    | skipping => exact (PlySummary.blocksWith_sublist _ _ _).subset hr
    | exhaustive => exact hr
  have hsize := (PlySummary.range_within hr').2
  rw [← h.size] at hsize
  show (s.working.values e.slot)[idx]?.isSome = true
  rw [List.getElem?_eq_getElem (lt_of_lt_of_le hlt hsize)]
  rfl

/-- A scan that is left out would have selected nothing. -/
theorem Tracks.sources_eq_nil (h : s.Tracks) (hle : s.plies ≤ 8192)
    (hskip : policy.skips (s.previous e.slot) (s.summaries e.slot) phase s.plies = true) :
    (e.scan phase s.plies).sources s.working (s.working.addresses e.slot) = [] := by
  cases policy with
  | exhaustive => cases hskip
  | skipping =>
    refine List.eq_nil_iff_forall_not_mem.mpr fun x hx => ?_
    obtain ⟨ha, hv, hsel⟩ := mem_sources_iff.mp hx
    obtain ⟨⟨slot, idx⟩, v⟩ := x
    obtain rfl : slot = e.slot := (WorkingPair.mem_addresses hv).mp ha
    unfold Policy.skips at hskip
    rw [Bool.or_eq_true, decide_eq_true_eq, List.isEmpty_iff] at hskip
    rcases hskip with hnone | hnil
    · have hfalse := h.selects_eq_false hle hnone hv
      have hsel' : phase.selects s.plies v = true := hsel
      rw [hfalse] at hsel'
      cases hsel'
    · obtain ⟨r, hr, -⟩ := h.exists_range hle hv hsel
      rw [hnil] at hr
      cases hr

end Solver

/-! ### Progress -/

/-- What a run has made of the values: its state without the scan under way and the summaries. -/
structure Progress where
  plies : ℕ
  todo : List (Phase × Entry)
  previous : Slot → Found
  found : Slot → Found
  maxWin : Slot → ℕ
  maxLoss : Slot → ℕ
  working : WorkingPair
  halted : Bool

def Solver.progress (s : Solver) : Progress where
  plies := s.plies
  todo := s.todo
  previous := s.previous
  found := s.found
  maxWin := s.maxWin
  maxLoss := s.maxLoss
  working := s.working
  halted := s.halted

namespace Progress

def Fits (c : Progress) : Prop := c.plies ≤ 8191 ∨ c.plies = 8192 ∧ ∀ slot, c.found slot = 0

/-- The progress when all scans of a ply are done and some found something. -/
def advanced (entries : List Entry) (c : Progress) : Progress :=
  { c with
    plies := c.plies + 1
    todo := scansOf entries
    previous := c.found
    found := fun _ => 0
    maxWin := fun slot => if 0 < (c.found slot).wins then c.plies else c.maxWin slot
    maxLoss := fun slot => if 0 < (c.found slot).losses then c.plies else c.maxLoss slot }

/-- The progress after a scan with the result `x`. -/
def scanned (c : Progress) (e : Entry) (rest : List (Phase × Entry)) (x : WorkingPair × Found) :
    Progress :=
  { c with
    todo := rest
    found := Function.update c.found e.twinSlot (c.found e.twinSlot + x.2)
    working := x.1 }

/-- The steps of progress: a scan of every index of a table, or the end of a ply. -/
inductive Step (entries : List Entry) : Progress → Progress → Prop where
  | scan {c phase e rest x} (htodo : c.todo = (phase, e) :: rest)
      (h : (e.scan phase c.plies).Result c.working (c.working.addresses e.slot) x) :
      Step entries c (c.scanned e rest x)
  | advance {c} (htodo : c.todo = []) (hrun : c.halted = false)
      (hfound : ∃ slot, (c.found slot).isEmpty = false) : Step entries c (c.advanced entries)
  | halt {c} (htodo : c.todo = []) (hrun : c.halted = false)
      (hempty : ∀ slot, (c.found slot).isEmpty = true) :
      Step entries c { c with halted := true }

/-- Progress is deterministic. -/
theorem Step.unique {c c₁ c₂ : Progress} (h₁ : Step entries c c₁) (h₂ : Step entries c c₂) :
    c₁ = c₂ := by
  cases h₁ with
  | scan htodo h =>
    cases h₂ with
    | scan htodo' h' =>
      rw [htodo, List.cons.injEq, Prod.mk.injEq] at htodo'
      obtain ⟨⟨rfl, rfl⟩, rfl⟩ := htodo'
      rw [h.unique h']
    | advance htodo' _ _ =>
      rw [htodo] at htodo'
      cases htodo'
    | halt htodo' _ _ =>
      rw [htodo] at htodo'
      cases htodo'
  | advance htodo _ hfound =>
    cases h₂ with
    | scan htodo' _ =>
      rw [htodo] at htodo'
      cases htodo'
    | advance _ _ _ => rfl
    | halt _ _ hempty =>
      obtain ⟨slot, hslot⟩ := hfound
      rw [hempty slot] at hslot
      cases hslot
  | halt htodo _ hempty =>
    cases h₂ with
    | scan htodo' _ =>
      rw [htodo] at htodo'
      cases htodo'
    | advance _ _ hfound =>
      obtain ⟨slot, hslot⟩ := hfound
      rw [hempty slot] at hslot
      cases hslot
    | halt _ _ _ => rfl

/-- Only the last ply of a run can be the one after the last distance. -/
theorem Step.fits {c c' : Progress} (h : Step entries c c') (hfits : c'.Fits) : c.Fits := by
  cases h with
  | @scan phase e rest x _ _ =>
    rcases hfits with hle | ⟨hp, hzero⟩
    · exact Or.inl hle
    · refine Or.inr ⟨hp, fun slot => ?_⟩
      have hslot := hzero slot
      by_cases heq : slot = e.twinSlot
      · have hsum : c.found slot + x.2 = 0 := by
          simpa only [scanned, heq, Function.update_self] using hslot
        exact (add_eq_zero.mp hsum).1
      · simpa only [scanned, Function.update_of_ne heq] using hslot
  | advance _ _ _ =>
    refine Or.inl ?_
    rcases hfits with hle | ⟨hp, -⟩
    · have : c.plies + 1 ≤ 8191 := hle
      omega
    · have : c.plies + 1 = 8192 := hp
      omega
  | halt _ _ _ => exact hfits

end Progress

/-! ### The start -/

/-- The slots of the tables of a pair differ. -/
theorem nodup_slots {tableA : Egt} {tableB : Option Egt}
    (h : entriesOf tableA tableB = .ok entries) : (entries.map Entry.slot).Nodup := by
  cases tableB with
  | none =>
    obtain ⟨mirrored, -, h⟩ := Run.bind_eq_ok.mp h
    cases h
    simp
  | some tableB =>
    obtain ⟨mirroredA, -, h⟩ := Run.bind_eq_ok.mp h
    obtain ⟨mirroredB, -, h⟩ := Run.bind_eq_ok.mp h
    cases h
    simp

/-- What initialization leaves: the values of the tables that are done, and their counts. -/
structure Started (entries done : List Entry) (s : Solver) : Prop where
  plies : s.plies = 1
  todo : s.todo = scansOf entries
  scanning : s.scanning = none
  halted : s.halted = false
  tables : ∀ e ∈ done, ∃ counts, Initialized e.table.indexRange (s.working.values e.slot)
    (s.summaries e.slot) counts ∧ s.previous e.slot = ⟨0, counts.checkmates⟩ ∧
      s.found e.slot = counts.found
  others : ∀ slot ∉ done.map Entry.slot, s.working.values slot = [] ∧
    (s.summaries slot).size = 0

theorem started_of_foldlM {probe : Chess → Run DtcOutcome} {all done : List Entry}
    (hnodup : ((done ++ entries).map Entry.slot).Nodup) (hs : Started all done s)
    (h : entries.foldlM (Solver.install probe) s = .ok s') : Started all (done ++ entries) s' := by
  induction entries generalizing done s with
  | nil =>
    cases h
    rwa [List.append_nil]
  | cons e entries ih =>
    rw [List.foldlM_cons] at h
    obtain ⟨s₁, hs₁, h⟩ := Run.bind_eq_ok.mp h
    obtain ⟨⟨values, summary, counts⟩, hinit, hs₁⟩ := Run.bind_eq_ok.mp hs₁
    cases hs₁
    have happend : done ++ e :: entries = (done ++ [e]) ++ entries := by simp
    have hnew : e.slot ∉ done.map Entry.slot := by
      rw [List.map_append, List.map_cons] at hnodup
      exact fun hmem => (List.nodup_append.mp hnodup).2.2 _ hmem _ List.mem_cons_self rfl
    rw [happend] at hnodup ⊢
    have hs' : Started all (done ++ [e]) (s.installed e values summary counts) := by
      refine ⟨hs.plies, hs.todo, hs.scanning, hs.halted, ?_, ?_⟩
      · intro e' he'
        rcases List.mem_append.mp he' with he' | he'
        · -- The slots of the tables that are done are not written again.
          have hne : e'.slot ≠ e.slot := fun heq => hnew (heq ▸ List.mem_map_of_mem he')
          obtain ⟨counts', hi, hp, hf⟩ := hs.tables e' he'
          refine ⟨counts', ?_, ?_, ?_⟩
          · simpa only [Solver.installed, Function.update_of_ne hne] using hi
          · simpa only [Solver.installed, Function.update_of_ne hne] using hp
          · simpa only [Solver.installed, Function.update_of_ne hne] using hf
        · rw [List.mem_singleton.mp he']
          refine ⟨counts, ?_, ?_, ?_⟩
          · simpa only [Solver.installed, Function.update_self]
              using initializeTable_initialized probe hinit
          · simp only [Solver.installed, Function.update_self]
          · simp only [Solver.installed, Function.update_self]
      · intro slot hslot
        rw [List.map_append, List.mem_append, List.map_singleton, List.mem_singleton, not_or] at hslot
        simpa only [Solver.installed, Function.update_of_ne hslot.2] using hs.others slot hslot.1
    exact ih hnodup hs' h

theorem started {probe : Chess → Run DtcOutcome} (hnodup : (entries.map Entry.slot).Nodup)
    (h : solveStart probe entries = .ok s) : Started entries entries s := by
  have hblank : Started entries [] (Solver.blank entries) :=
    ⟨rfl, rfl, rfl, rfl, by simp, fun _ _ => ⟨rfl, rfl⟩⟩
  refine started_of_foldlM ?_ hblank h
  exact hnodup

/-- Initialization records what it resolves. -/
theorem Started.tracks (h : Started entries entries s) : s.Tracks where
  pos := by rw [h.plies]; exact Nat.one_pos
  size slot := by
    by_cases hslot : slot ∈ entries.map Entry.slot
    · obtain ⟨e, he, rfl⟩ := List.mem_map.mp hslot
      obtain ⟨counts, hi, -, -⟩ := h.tables e he
      rw [hi.length, hi.size]
    · obtain ⟨hv, hsize⟩ := h.others slot hslot
      rw [hv, hsize]
      rfl
  values := by
    rintro ⟨slot, idx⟩ v kind hv hk
    have hv' : (s.working.values slot)[idx]? = some v := hv
    by_cases hslot : slot ∈ entries.map Entry.slot
    · obtain ⟨e, he, rfl⟩ := List.mem_map.mp hslot
      obtain ⟨counts, hi, hprevious, hfound⟩ := h.tables e he
      rcases kindOf_cases hk with ⟨hl, rfl⟩ | ⟨hw, rfl⟩
      · obtain ⟨hcovers, hcount⟩ := hi.loss idx v hv' hl
        refine ⟨hcovers, ?_, fun hp => ?_, fun hp => ?_⟩
        · rw [h.plies]
          omega
        · rw [hprevious]
          show 0 < counts.checkmates
          rw [h.plies] at hp
          omega
        · rw [hfound]
          show 0 < counts.found.losses
          rw [h.plies] at hp
          omega
      · obtain ⟨hcovers, hp₁, hcount⟩ := hi.win idx v hv' hw
        refine ⟨hcovers, ?_, fun hp => ?_, fun _ => ?_⟩
        · rw [h.plies, hp₁]
        · rw [h.plies] at hp
          omega
        · rw [hfound]
          exact hcount
    · rw [(h.others slot hslot).1] at hv'
      cases hv'

/-! ### Runs and their progress -/

/-- A state of a run under a policy, whose progress has been made from `c₀`. -/
structure Linked (policy : Policy) (entries : List Entry) (c₀ : Progress) (s : Solver) : Prop where
  tracks : s.Tracks
  sized : ∀ e ∈ entries, (s.summaries e.slot).size = e.table.indexRange
  todo : s.todo <:+ scansOf entries
  halted : s.halted = true → s.todo = []
  scanning : ∀ pool, s.scanning = some pool → ∃ phase e rest events,
    s.todo = (phase, e) :: rest ∧ (e.scan phase s.plies).Trace (Pool.start s.working s.summaries
      (partsOf e.slot (policy.blocks (s.summaries e.slot) phase s.plies))) events pool
  progress : ReflTransGen (Progress.Step entries) c₀ s.progress

theorem fits_iff : s.Fits ↔ s.progress.Fits := Iff.rfl

variable {c₀ c c' : Progress}

/-- A table that is still to be scanned is a table of the pair. -/
theorem Linked.mem_entries (h : Linked policy entries c₀ s) (htodo : s.todo = (phase, e) :: rest) :
    e ∈ entries := by
  have hmem : (phase, e) ∈ scansOf entries := h.todo.subset (by rw [htodo]; exact List.mem_cons_self)
  unfold scansOf at hmem
  rw [List.mem_append, List.mem_map, List.mem_flatMap] at hmem
  rcases hmem with ⟨e', he', heq⟩ | ⟨ct, -, hmem⟩
  · rw [← (Prod.mk.inj heq).2]
    exact he'
  · obtain ⟨e', he', heq⟩ := List.mem_map.mp hmem
    rw [← (Prod.mk.inj heq).2]
    exact he'

/-- The scan under way is the first one that is to be done. -/
theorem Linked.trace (h : Linked policy entries c₀ s) {pool : ScanPool}
    (hscan : s.scanning = some pool) (htodo : s.todo = (phase, e) :: rest) :
    ∃ events, (e.scan phase s.plies).Trace (Pool.start s.working s.summaries
      (partsOf e.slot (policy.blocks (s.summaries e.slot) phase s.plies))) events pool := by
  obtain ⟨phase', e', rest', events, htodo', htrace⟩ := h.scanning pool hscan
  rw [htodo, List.cons.injEq, Prod.mk.injEq] at htodo'
  obtain ⟨⟨rfl, rfl⟩, rfl⟩ := htodo'
  exact ⟨events, htrace⟩

/-- A scan that is left out makes the progress of one that selects nothing. -/
theorem scanned_of_skip (htodo : s.todo = (phase, e) :: rest) :
    s.progress.scanned e rest (s.working, 0) = ({ s with todo := rest } : Solver).progress := by
  unfold Progress.scanned Solver.progress
  simp only [add_zero, Function.update_eq_self]

/-- The state before a step fits if the one after it does. -/
theorem fits_of_step (h : Solver.Step policy entries s s') (hfits : s'.Fits) : s.Fits := by
  cases h with
  | skip _ _ _ => exact hfits
  | start _ _ _ => exact hfits
  | work _ _ _ => exact hfits
  | @join phase e rest pool _ _ _ =>
    rcases hfits with hle | ⟨hp, hzero⟩
    · exact Or.inl hle
    · refine Or.inr ⟨hp, fun slot => ?_⟩
      have hslot : Function.update s.found e.twinSlot (s.found e.twinSlot + pool.count) slot = 0 :=
        hzero slot
      by_cases heq : slot = e.twinSlot
      · rw [heq, Function.update_self] at hslot
        rw [heq]
        exact (add_eq_zero.mp hslot).1
      · rwa [Function.update_of_ne heq] at hslot
  | advance hidle htodo hrun hfound =>
    have hadvance : Progress.Step entries s.progress (s.progress.advanced entries) :=
      .advance htodo hrun hfound
    exact hadvance.fits hfits
  | halt _ _ _ _ => exact hfits

/-- Nothing is counted at the ply after the last distance. -/
theorem count_of_scanned {x : WorkingPair × Found} (hfits : (s.progress.scanned e rest x).Fits) :
    s.plies ≤ 8191 ∨ x.2 = 0 := by
  rcases hfits with hle | ⟨-, hzero⟩
  · exact Or.inl hle
  · refine Or.inr ?_
    have hslot := hzero e.twinSlot
    simp only [Progress.scanned, Function.update_self] at hslot
    exact (add_eq_zero.mp hslot).2

/-- Every step of a run makes a step of progress, or none. -/
theorem Linked.step (h : Linked policy entries c₀ s) (hstep : Solver.Step policy entries s s')
    (hfits : s'.Fits) : Linked policy entries c₀ s' := by
  have hle := (fits_of_step hstep hfits).le
  cases hstep with
  | @skip phase e rest hidle htodo hskip =>
    refine ⟨h.tracks.untouched rest s.scanning s.halted, h.sized, ?_, ?_, ?_, ?_⟩
    · exact (List.suffix_cons _ _).trans (htodo ▸ h.todo)
    · intro hh
      have := h.halted hh
      rw [htodo] at this
      cases this
    · intro pool hpool
      have hnone : s.scanning = some pool := hpool
      rw [hidle] at hnone
      cases hnone
    · refine h.progress.tail ?_
      rw [← scanned_of_skip htodo]
      exact .scan htodo (result_of_sources_eq_nil (h.tracks.sources_eq_nil hle hskip))
  | @start phase e rest hidle htodo hskip =>
    refine ⟨h.tracks.untouched s.todo _ s.halted, h.sized, h.todo, h.halted, ?_, h.progress⟩
    intro pool hpool
    cases hpool
    exact ⟨phase, e, rest, [], htodo, .refl⟩
  | @work phase e rest pool pool' hscan htodo hpool =>
    refine ⟨h.tracks.untouched s.todo _ s.halted, h.sized, h.todo, h.halted, ?_, h.progress⟩
    intro pool₁ hpool₁
    cases hpool₁
    obtain ⟨events, htrace⟩ := h.trace hscan htodo
    obtain ⟨events', hpool⟩ := hpool
    exact ⟨phase, e, rest, events ++ events', htodo, htrace.tail hpool⟩
  | @join phase e rest pool hscan htodo hd =>
    obtain ⟨events, htrace⟩ := h.trace hscan htodo
    refine ⟨h.tracks.join htrace hd hfits, fun e' he' => ?_, ?_, ?_, ?_, ?_⟩
    · exact (size_board htrace e'.slot).trans (h.sized e' he')
    · exact (List.suffix_cons _ _).trans (htodo ▸ h.todo)
    · intro hh
      have := h.halted hh
      rw [htodo] at this
      cases this
    · intro pool' hpool'
      cases hpool'
    · refine h.progress.tail ?_
      have hscanned : (s.progress.scanned e rest (pool.memory, pool.count)).Fits := hfits
      have hresult := htrace.result (stable e phase s.plies) hd
        (h.tracks.sources_perm hle policy e phase) (order_irrelevant (count_of_scanned hscanned))
      have hnext : Progress.Step entries s.progress
          (s.progress.scanned e rest (pool.memory, pool.count)) := .scan htodo hresult
      exact hnext
  | advance hidle htodo hrun hfound =>
    refine ⟨h.tracks.advance entries, h.sized, List.suffix_refl _, ?_, ?_, ?_⟩
    · intro hh
      have hfalse : s.halted = true := hh
      rw [hrun] at hfalse
      cases hfalse
    · intro pool hpool
      have hnone : s.scanning = some pool := hpool
      rw [hidle] at hnone
      cases hnone
    · exact h.progress.tail (.advance htodo hrun hfound)
  | halt hidle htodo hrun hempty =>
    refine ⟨h.tracks.untouched s.todo s.scanning true, h.sized, h.todo, fun _ => htodo, ?_,
      h.progress.tail (.halt htodo hrun hempty)⟩
    intro pool hpool
    have hnone : s.scanning = some pool := hpool
    rw [hidle] at hnone
    cases hnone

/-- Every run that fits makes its progress step by step. -/
theorem Linked.run (h : Linked policy entries c₀ s)
    (hrun : ReflTransGen (Solver.Step policy entries) s s') (hfits : s'.Fits) :
    Linked policy entries c₀ s' := by
  induction hrun with
  | refl => exact h
  | tail _ hstep ih => exact (ih (fits_of_step hstep hfits)).step hstep hfits

theorem Started.linked (h : Started entries entries s) (policy : Policy) :
    Linked policy entries s.progress s where
  tracks := h.tracks
  sized e he := by
    obtain ⟨counts, hi, -, -⟩ := h.tables e he
    exact hi.size
  todo := by rw [h.todo]
  halted hh := by rw [h.halted] at hh; cases hh
  scanning pool hpool := by rw [h.scanning] at hpool; cases hpool
  progress := .refl

/-! ### Every policy makes all progress -/

/-- The steps of a pool are steps of the loop. -/
theorem work_run {pool pool' : ScanPool} (htodo : s.todo = (phase, e) :: rest)
    (h : ReflTransGen (e.scan phase s.plies).PoolStep pool pool') :
    ReflTransGen (Solver.Step policy entries) { s with scanning := some pool }
      { s with scanning := some pool' } := by
  induction h with
  | refl => exact .refl
  | tail _ hstep ih => exact ih.tail (.work rfl htodo hstep)

/-- A run under a policy can take the next step of progress. -/
theorem Linked.exists_step (h : Linked policy entries c₀ s) (hidle : s.scanning = none)
    (hstep : Progress.Step entries s.progress c') (hfits : c'.Fits) :
    ∃ s', ReflTransGen (Solver.Step policy entries) s s' ∧ s'.scanning = none ∧
      s'.progress = c' := by
  have hle : s.plies ≤ 8192 := (fits_iff.mpr (hstep.fits hfits)).le
  cases hstep with
  | @scan phase e rest x htodo hresult =>
    have htodo' : s.todo = (phase, e) :: rest := htodo
    cases hskip : policy.skips (s.previous e.slot) (s.summaries e.slot) phase s.plies with
    | true =>
      have hnil := result_of_sources_eq_nil (h.tracks.sources_eq_nil hle hskip)
      rw [hresult.unique hnil]
      exact ⟨_, .single (.skip hidle htodo' hskip), hidle, (scanned_of_skip htodo').symm⟩
    | false =>
      obtain ⟨pool, hd, hrun, hx⟩ := Result.exists_done (stable e phase s.plies) hresult
        (h.tracks.isSome_of_blocks policy phase e) (h.tracks.sources_perm hle policy e phase)
        (order_irrelevant (count_of_scanned hfits))
        (.refl : (e.scan phase s.plies).Trace (Pool.start s.working s.summaries _) [] _)
      refine ⟨s.joined e rest pool, ?_, rfl, ?_⟩
      · refine .head (.start hidle htodo' hskip) (.tail (work_run htodo' hrun) ?_)
        exact .join (s := { s with scanning := some pool }) rfl htodo' hd
      · rw [← hx]
        rfl
  | advance htodo hrun hfound =>
    exact ⟨_, .single (.advance hidle htodo hrun hfound), hidle, rfl⟩
  | halt htodo hrun hempty =>
    exact ⟨_, .single (.halt hidle htodo hrun hempty), hidle, rfl⟩

/-- Whatever comes before a progress that fits, fits. -/
theorem fits_of_progress (h : ReflTransGen (Progress.Step entries) c c') (hfits : c'.Fits) :
    c.Fits := by
  induction h with
  | refl => exact hfits
  | tail _ hstep ih => exact ih (hstep.fits hfits)

/-- A run under a policy can make any progress. -/
theorem Linked.exists_run (h : Linked policy entries c₀ s) (hidle : s.scanning = none)
    (hrun : ReflTransGen (Progress.Step entries) s.progress c) (hfits : c.Fits) :
    ∃ s', ReflTransGen (Solver.Step policy entries) s s' ∧ s'.scanning = none ∧
      s'.progress = c := by
  induction hrun with
  | refl => exact ⟨s, .refl, hidle, rfl⟩
  | tail _ hstep ih =>
    obtain ⟨s₁, hrun₁, hidle₁, rfl⟩ := ih (hstep.fits hfits)
    have h₁ := h.run hrun₁ (fits_iff.mpr (hstep.fits hfits))
    obtain ⟨s', hrun', hidle', hc⟩ := h₁.exists_step hidle₁ hstep hfits
    exact ⟨s', hrun₁.trans hrun', hidle', hc⟩

/-- A run that has halted makes no more progress. -/
theorem Linked.no_step (h : Linked policy entries c₀ s) (hs : s.halted = true) {c : Progress} :
    ¬ Progress.Step entries s.progress c := by
  intro hstep
  have htodo : s.progress.todo = [] := h.halted hs
  have hhalted : s.progress.halted = true := hs
  cases hstep with
  | scan htodo' _ =>
    rw [htodo] at htodo'
    cases htodo'
  | advance _ hrun _ =>
    rw [hhalted] at hrun
    cases hrun
  | halt _ hrun _ =>
    rw [hhalted] at hrun
    cases hrun

/-- Two runs that have halted have made the same progress. -/
theorem Linked.halted_eq {policy' : Policy} (h : Linked policy entries c₀ s)
    (h' : Linked policy' entries c₀ s') (hs : s.halted = true) (hs' : s'.halted = true) :
    s.progress = s'.progress := by
  have hunique : Relator.RightUnique (Progress.Step entries) := fun _ _ _ h₁ h₂ => h₁.unique h₂
  rcases ReflTransGen.total_of_right_unique hunique h.progress h'.progress with hrun | hrun
  · rcases hrun.cases_head with heq | ⟨c, hstep, -⟩
    · exact heq
    · exact absurd hstep (h.no_step hs)
  · rcases hrun.cases_head with heq | ⟨c, hstep, -⟩
    · exact heq.symm
    · exact absurd hstep (h'.no_step hs')

/-- The scan of a table misses nothing: every source lies in one of the ranges, the ranges are
    disjoint and within the table, and a table with nothing counted holds no source. -/
structure Solver.MissesNothing (s : Solver) (phase : Phase) (e : Entry) : Prop where
  sources : ∀ (idx : ℕ) (v : MaybeDtcOutcome), (s.working.values e.slot)[idx]? = some v →
    phase.selects s.plies v = true →
      ∃ r ∈ (s.summaries e.slot).blocksWith phase.kind (s.plies - 1), r.1 ≤ idx ∧ idx < r.2
  disjoint : ((s.summaries e.slot).blocksWith phase.kind (s.plies - 1)).Pairwise
    fun r r' => r.2 ≤ r'.1
  within : ∀ r ∈ (s.summaries e.slot).blocksWith phase.kind (s.plies - 1),
    r.1 < r.2 ∧ r.2 ≤ e.table.indexRange
  skipped : phase.sourcesFound (s.previous e.slot) = 0 →
    ∀ (idx : ℕ) (v : MaybeDtcOutcome), (s.working.values e.slot)[idx]? = some v →
      phase.selects s.plies v = false

/-- Skipping loses nothing. No scan of a run misses a source, and for every state between two scans
    of a run under one policy there is one of a run under the other with the same values, counts
    and maxima; runs that have halted have the same ones whatever their policies. -/
theorem block_skipping_lossless {probe : Chess → Run DtcOutcome} {tableA : Egt}
    {tableB : Option Egt} {s₀ : Solver} (hentries : entriesOf tableA tableB = .ok entries)
    (hstart : solveStart probe entries = .ok s₀) :
    (∀ s, ReflTransGen (Solver.Step .skipping entries) s₀ s → s.Fits → s.scanning = none →
      ∀ phase e rest, s.todo = (phase, e) :: rest → s.MissesNothing phase e) ∧
    (∀ policy policy' s, ReflTransGen (Solver.Step policy entries) s₀ s → s.Fits →
      s.scanning = none → ∃ s', ReflTransGen (Solver.Step policy' entries) s₀ s' ∧
        s'.scanning = none ∧ s'.progress = s.progress) ∧
    ∀ policy policy' s s', ReflTransGen (Solver.Step policy entries) s₀ s → s.Fits →
      s.halted = true → ReflTransGen (Solver.Step policy' entries) s₀ s' → s'.Fits →
      s'.halted = true → s'.progress = s.progress := by
  have hstarted := started (nodup_slots hentries) hstart
  refine ⟨fun s hrun hfits _ phase e rest htodo => ?_,
    fun policy policy' s hrun hfits _ => ?_,
    fun policy policy' s s' hrun hfits hhalted hrun' hfits' hhalted' => ?_⟩
  · have h := (hstarted.linked .skipping).run hrun hfits
    refine ⟨fun idx v hv hsel => h.tracks.exists_range hfits.le hv hsel, ?_, fun r hr => ?_,
      fun hnone idx v hv => h.tracks.selects_eq_false hfits.le hnone hv⟩
    · exact (PlySummary.allBlocks_pairwise _).sublist (PlySummary.blocksWith_sublist _ _ _)
    · rw [← h.sized e (h.mem_entries htodo)]
      exact PlySummary.range_within ((PlySummary.blocksWith_sublist _ _ _).subset hr)
  · have h := (hstarted.linked policy).run hrun hfits
    exact (hstarted.linked policy').exists_run hstarted.scanning h.progress hfits
  · have h := (hstarted.linked policy).run hrun hfits
    have h' := (hstarted.linked policy').run hrun' hfits'
    exact h'.halted_eq h hhalted' hhalted

end

theorem block_skipping_lossless_bareKings : ∃ table entries s₀,
    Egt.fromElements bareKings.elements = .ok table ∧ entriesOf table none = .ok entries ∧
    @solveStart rulesShakmaty (fun _ => .ok .draw) entries = .ok s₀ ∧
    ∀ s, ReflTransGen (@Solver.Step rulesShakmaty .exhaustive entries) s₀ s → s.Fits →
      s.scanning = none → ∃ s', ReflTransGen (@Solver.Step rulesShakmaty .skipping entries) s₀ s' ∧
        s'.scanning = none ∧ s'.progress = s.progress := by
  obtain ⟨table, entries, s₀, htable, hentries, hs₀⟩ := exists_bareKings
  exact ⟨table, entries, s₀, htable, hentries, hs₀,
    (@block_skipping_lossless rulesShakmaty entries _ _ _ _ hentries hs₀).2.1 .exhaustive .skipping⟩

end ChessEgt
