import ChessEgt.Retrograde.Phases

/-!
# What the summaries track

Every value of a reachable state is within the bound of its block and within the counts of its
ply, so that a scan that skips blocks visits all its sources.

* `kindOf`, `selects_kind` — the sources of a phase, by kind and ply;
* `Tracks` — the invariant, with `Tracks.join` and `Tracks.advance`;
* `Tracks.exists_range`, `Tracks.sources_perm`, `Tracks.sources_eq_nil` — skipping loses no source.
-/

namespace ChessEgt

open ParallelScan MaybeDtcOutcome Relation

/-! ### Kinds of values -/

/-- The kind of source that a value can be. -/
def kindOf (v : MaybeDtcOutcome) : Option SummaryKind :=
  if v.isLoss then some .loss
  else if v.isWin then some (.win (outcomeCt v))
  else none

/-- How many values of a kind were resolved. -/
def SummaryKind.count : SummaryKind → Found → ℕ
  | .loss, found => found.losses
  | .win _, found => found.wins

theorem sourcesFound_eq (phase : Phase) (found : Found) :
    phase.sourcesFound found = phase.kind.count found := by
  cases phase <;> rfl

theorem SummaryKind.count_add (kind : SummaryKind) (a b : Found) :
    kind.count (a + b) = kind.count a + kind.count b := by
  cases kind <;> rfl

@[simp] theorem kindOf_newLoss (ct : ConversionType) (d : UInt16) :
    kindOf (newLoss ct d) = some .loss := by
  simp [kindOf]

@[simp] theorem kindOf_newWin (ct : ConversionType) (d : UInt16) :
    kindOf (newWin ct d) = some (.win ct) := by
  simp [kindOf, not_isLoss_of_isWin (isWin_newWin ct d)]

@[simp] theorem kindOf_newUnknown (c : UInt16) : kindOf (newUnknown c) = none := by
  simp [kindOf, not_isLoss_newUnknown, not_isWin_newUnknown]

theorem kindOf_of_isLoss {v : MaybeDtcOutcome} (h : v.isLoss = true) : kindOf v = some .loss := by
  simp [kindOf, h]

/-- A value of a kind is a loss, or a win of a type. -/
theorem kindOf_cases {v : MaybeDtcOutcome} {kind : SummaryKind} (h : kindOf v = some kind) :
    v.isLoss = true ∧ kind = .loss ∨ v.isWin = true ∧ kind = .win (outcomeCt v) := by
  unfold kindOf at h
  split at h
  · next hl => exact Or.inl ⟨hl, (Option.some.inj h).symm⟩
  · split at h
    · next hw => exact Or.inr ⟨hw, (Option.some.inj h).symm⟩
    · cases h

/-- The sources of a phase are of its kind, and were resolved one ply ago. -/
theorem selects_kind {phase : Phase} {plies : ℕ} {v : MaybeDtcOutcome} (hpos : 0 < plies)
    (hle : plies ≤ 8192) (h : phase.selects plies v = true) :
    kindOf v = some phase.kind ∧ ply v + 1 = plies := by
  cases phase with
  | losses =>
    obtain ⟨hl, hp⟩ := selects_losses.mp h
    exact ⟨kindOf_of_isLoss hl, by omega⟩
  | wins ct =>
    rw [selects_wins.mp h]
    refine ⟨kindOf_newWin ct _, ?_⟩
    rw [ply_newWin ct (by omega)]
    omega

section

variable [Shakmaty] {e : Entry} {phase : Phase} {plies : ℕ} {m₀ : WorkingPair}

/-! ### What a scan resolves -/

/-- What a scan has resolved so far: a source that was not there before has the ply of the scan,
    and has been counted, unless it upgrades a win of the same ply. -/
def Resolves (m₀ : WorkingPair) (plies : ℕ) (slot : Slot) (x : WorkingPair × Found) : Prop :=
  ∀ a v kind, SharedMemory.get x.1 a = some v → kindOf v = some kind →
    SharedMemory.get m₀ a = some v ∨
      a.1 = slot ∧ (plies ≤ 8191 → ply v = plies) ∧ (0 < kind.count x.2 ∨
        ∃ v₀ ct, SharedMemory.get m₀ a = some v₀ ∧ v₀.isWin = true ∧ ply v₀ = plies ∧
          kind = .win ct)

/-- The exchange of an update leaves a source that it counts, unless it upgrades a win. -/
theorem attempt_kind {u : Update} {w : MaybeDtcOutcome}
    {x : Exchange MaybeDtcOutcome PlyRecord Found} {kind : SummaryKind}
    (h : (e.scan phase plies).attempt u w = some x) (hk : kindOf x.value = some kind) :
    (plies ≤ 8191 → ply x.value = plies) ∧
      x.note = some ⟨u.1.1, u.1.2, kind, plies⟩ ∧
      (0 < kind.count x.count ∨ w.isWin = true ∧ ply w = plies ∧ ∃ ct, kind = .win ct) := by
  cases phase with
  | losses =>
    obtain ⟨hv, hn, hcases⟩ := attemptWin_cases h
    rw [hv, kindOf_newWin, Option.some.injEq] at hk
    subst hk
    refine ⟨fun hp => by rw [hv]; exact ply_newWin _ (by omega), hn, ?_⟩
    rcases hcases with ⟨-, hc⟩ | ⟨hw, hp, -, -⟩
    · rw [hc]
      exact Or.inl Nat.one_pos
    · exact Or.inr ⟨hw, hp, _, rfl⟩
  | wins ct =>
    rcases (attemptLoss_cases h).2 with rfl | ⟨c, -, -, rfl⟩
    · rw [kindOf_newLoss, Option.some.injEq] at hk
      subst hk
      exact ⟨fun hp => ply_newLoss _ (by omega), rfl, Or.inl Nat.one_pos⟩
    · rw [kindOf_newUnknown] at hk
      cases hk

theorem Resolves.visit {x : WorkingPair × Found} {u : Update} (hu : u.1.1 = e.twinSlot)
    (h : Resolves m₀ plies e.twinSlot x) :
    Resolves m₀ plies e.twinSlot ((e.scan phase plies).visit x u) := by
  intro a v kind hv hk
  -- A value that was there before is counted as before.
  have hkeep : ∀ n : Found, SharedMemory.get x.1 a = some v →
      SharedMemory.get m₀ a = some v ∨ a.1 = e.twinSlot ∧ (plies ≤ 8191 → ply v = plies) ∧
        (0 < kind.count (x.2 + n) ∨ ∃ v₀ ct, SharedMemory.get m₀ a = some v₀ ∧
          v₀.isWin = true ∧ ply v₀ = plies ∧ kind = .win ct) := by
    intro n hv
    rcases h a v kind hv hk with h₀ | ⟨hslot, hp, hc⟩
    · exact Or.inl h₀
    · refine Or.inr ⟨hslot, hp, hc.imp_left fun hc => ?_⟩
      rw [SummaryKind.count_add]
      omega
  cases hw : SharedMemory.get x.1 ((e.scan phase plies).target u) with
  | none =>
    have hstay : (e.scan phase plies).visit x u = x := by
      unfold ParallelScan.visit
      rw [hw]
    rw [hstay] at hv ⊢
    exact h a v kind hv hk
  | some w =>
    obtain ⟨m, n⟩ := x
    rw [visit_eq hw] at hv ⊢
    cases hx : (e.scan phase plies).attempt u w with
    | none =>
      rw [apply_of_attempt_none hx, SharedMemory.set_eq_self (fun w' hw' => by
        rw [hw] at hw'; exact (Option.some.inj hw').symm)] at hv
      exact hkeep _ hv
    | some x =>
      rw [apply_of_attempt_some hx] at hv ⊢
      by_cases ha : (e.scan phase plies).target u = a
      · subst ha
        rw [SharedMemory.get_set_self _ hw, Option.some.injEq] at hv
        subst hv
        obtain ⟨hp, -, hc⟩ := attempt_kind hx hk
        refine Or.inr ⟨hu, hp, ?_⟩
        rcases hc with hc | ⟨hwin, hply, ct, rfl⟩
        · refine Or.inl ?_
          rw [SummaryKind.count_add]
          show 0 < kind.count n + kind.count x.count
          omega
        · -- The upgraded win was there before, or has been counted since.
          have hkw : kindOf w = some (.win (outcomeCt w)) := by
            simp [kindOf, hwin, not_isLoss_of_isWin hwin]
          rcases h _ w _ hw hkw with h₀ | ⟨-, -, hc | ⟨v₀, ct', h₀, h₁, h₂, -⟩⟩
          · exact Or.inr ⟨w, ct, h₀, hwin, hply, rfl⟩
          · refine Or.inl ?_
            have hc' : 0 < n.wins := hc
            show 0 < n.wins + x.count.wins
            omega
          · exact Or.inr ⟨v₀, ct, h₀, h₁, h₂, rfl⟩
      · rw [SharedMemory.get_set_of_ne _ _ ha] at hv
        exact hkeep _ hv

/-- The updates of a scan go to the table of the twin. -/
theorem target_twinSlot {x : (Slot × ℕ) × MaybeDtcOutcome} {u : Update}
    (h : some u ∈ (e.scan phase plies).emitted x) : u.1.1 = e.twinSlot := by
  unfold ParallelScan.emitted at h
  cases hemit : (e.scan phase plies).emit x.1 x.2 with
  | none =>
    rw [hemit] at h
    simp at h
  | some us =>
    rw [hemit, List.mem_map] at h
    obtain ⟨u', hu', heq⟩ := h
    cases heq
    simp only [Entry.scan] at hemit
    split at hemit
    · cases hemit
      obtain ⟨idx, -, rfl⟩ := List.mem_map.mp hu'
      rfl
    · cases hemit

theorem resolves_foldl {us : List Update} (hus : ∀ u ∈ us, u.1.1 = e.twinSlot) :
    Resolves m₀ plies e.twinSlot (us.foldl (e.scan phase plies).visit (m₀, 0)) := by
  suffices hrun : ∀ x, Resolves m₀ plies e.twinSlot x →
      Resolves m₀ plies e.twinSlot (us.foldl (e.scan phase plies).visit x) from
    hrun (m₀, 0) fun a v kind hv _ => Or.inl hv
  induction us with
  | nil => exact fun x hx => hx
  | cons u us ih =>
    intro x hx
    rw [List.foldl_cons]
    exact ih (fun u hu => hus u (List.mem_cons_of_mem _ hu)) _ (hx.visit (hus u List.mem_cons_self))

variable {board : Summaries} {parts : List (List (Slot × ℕ))} {pool : ScanPool}
  {events : List (Event (Slot × ℕ) MaybeDtcOutcome Update)}

theorem resolves_of_trace (h : (e.scan phase plies).Trace (Pool.start m₀ board parts) events pool) :
    Resolves m₀ plies e.twinSlot (pool.memory, pool.count) := by
  have hi := h.invariant (stable e phase plies)
  rw [hi.memory]
  refine resolves_foldl fun u hu => ?_
  have hmem := hi.updates.subset (List.mem_append_left _ (List.mem_map_of_mem hu))
  obtain ⟨x, -, hx⟩ := List.mem_flatMap.mp hmem
  exact target_twinSlot hx

/-- After a scan, every source that it resolved is within the bound of its block. -/
theorem covers_of_trace (h : (e.scan phase plies).Trace (Pool.start m₀ board parts) events pool)
    (hd : pool.Done) {a : Slot × ℕ} {v : MaybeDtcOutcome} {kind : SummaryKind}
    (hv : SharedMemory.get pool.memory a = some v) (hk : kindOf v = some kind) :
    SharedMemory.get m₀ a = some v ∨ (pool.board a.1).Covers a.2 kind plies := by
  have hannounces : (e.scan phase plies).Announces fun a v =>
      (kindOf v).map fun kind => ⟨a.1, a.2, kind, plies⟩ := by
    intro u w x r hx hr
    obtain ⟨kind, hkind, rfl⟩ := Option.map_eq_some_iff.mp hr
    exact (attempt_kind hx hkind).2.1
  exact noted_of_done hannounces h.run hd hv (by rw [hk]; rfl)

/-- The bounds of the blocks only grow during a scan. -/
theorem covers_mono (h : (e.scan phase plies).Trace (Pool.start m₀ board parts) events pool)
    {slot : Slot} {idx p : ℕ} {kind : SummaryKind} (hc : (board slot).Covers idx kind p) :
    (pool.board slot).Covers idx kind p := by
  refine board_of_run (P := fun s : Summaries => (s slot).Covers idx kind p)
    (fun r s hs => ?_) h.run hc
  have hmissing : Notes.missing (⟨slot, idx, kind, p⟩ : PlyRecord) s = false := hs
  exact Notes.missing_mono r hmissing

theorem size_board (h : (e.scan phase plies).Trace (Pool.start m₀ board parts) events pool)
    (slot : Slot) : (pool.board slot).size = (board slot).size :=
  board_of_run (P := fun s : Summaries => (s slot).size = (board slot).size)
    (fun r s hs => (size_leave r s slot).trans hs) h.run rfl

theorem length_values (h : (e.scan phase plies).Trace (Pool.start m₀ board parts) events pool)
    (slot : Slot) : (pool.memory.values slot).length = (m₀.values slot).length := by
  have hi := h.invariant (stable e phase plies)
  have hcells : ∀ idx, idx < (pool.memory.values slot).length ↔ idx < (m₀.values slot).length := by
    intro idx
    have hm : pool.memory = _ := congrArg Prod.fst hi.memory
    have hsome : (SharedMemory.get (((settledOf events).map Prod.fst).foldl
        (e.scan phase plies).visit (m₀, 0)).1 (slot, idx)).isSome
          = (SharedMemory.get m₀ (slot, idx)).isSome := isSome_foldl_visit _ _ _
    rw [← hm] at hsome
    have hiff : (pool.memory.values slot)[idx]?.isSome ↔ (m₀.values slot)[idx]?.isSome := by
      rw [Bool.eq_iff_iff] at hsome
      exact hsome
    simpa using hiff
  refine le_antisymm ?_ ?_
  · by_contra hlt
    exact lt_irrefl _ ((hcells _).mp (not_le.mp hlt))
  · by_contra hlt
    exact lt_irrefl _ ((hcells _).mpr (not_le.mp hlt))

/-! ### The invariant -/

namespace Solver

/-- No distance is above 8191 plies: the last ply that is looked at resolves nothing. -/
def Fits (s : Solver) : Prop :=
  s.plies ≤ 8191 ∨ s.plies = 8192 ∧ ∀ slot, s.found slot = 0

/-- A source is within the bound of its block, and counted at its ply. -/
structure TracksAt (s : Solver) (a : Slot × ℕ) (v : MaybeDtcOutcome) (kind : SummaryKind) :
    Prop where
  covers : (s.summaries a.1).Covers a.2 kind (ply v)
  le : ply v ≤ s.plies
  last : ply v + 1 = s.plies → 0 < kind.count (s.previous a.1)
  now : ply v = s.plies → 0 < kind.count (s.found a.1)

/-- Every source of a state is tracked. -/
structure Tracks (s : Solver) : Prop where
  pos : 0 < s.plies
  size : ∀ slot, (s.working.values slot).length = (s.summaries slot).size
  values : ∀ a v kind, SharedMemory.get s.working a = some v → kindOf v = some kind →
    s.TracksAt a v kind

variable {s : Solver}

theorem Fits.le (h : s.Fits) : s.plies ≤ 8192 := by
  rcases h with h | ⟨h, -⟩ <;> omega

/-- The sources are tracked whatever is still to be done. -/
theorem Tracks.untouched (h : s.Tracks) (todo : List (Phase × Entry)) (scanning : Option ScanPool)
    (halted : Bool) :
    ({ s with todo := todo, scanning := scanning, halted := halted } : Solver).Tracks where
  pos := h.pos
  size := h.size
  values a v kind hv hk := by
    have ht := h.values a v kind hv hk
    exact ⟨ht.covers, ht.le, ht.last, ht.now⟩

/-- The end of a scan keeps track of what it resolved. -/
theorem Tracks.join (h : s.Tracks) {rest : List (Phase × Entry)}
    (ht : (e.scan phase s.plies).Trace (Pool.start s.working s.summaries parts) events pool)
    (hd : pool.Done) (hfits : (s.joined e rest pool).Fits) : (s.joined e rest pool).Tracks where
  pos := h.pos
  size slot := by
    show (pool.memory.values slot).length = (pool.board slot).size
    rw [length_values ht, size_board ht]
    exact h.size slot
  values := by
    intro a v kind hv hk
    have hmono : ∀ slot, kind.count (s.found slot)
        ≤ kind.count ((s.joined e rest pool).found slot) := by
      intro slot
      show _ ≤ kind.count (Function.update s.found e.twinSlot _ slot)
      by_cases hslot : slot = e.twinSlot
      · rw [hslot, Function.update_self, SummaryKind.count_add]
        exact Nat.le_add_right _ _
      · rw [Function.update_of_ne hslot]
    have hold : SharedMemory.get s.working a = some v → (s.joined e rest pool).TracksAt a v kind := by
      intro h₀
      have htracks := h.values a v kind h₀ hk
      exact ⟨covers_mono ht htracks.covers, htracks.le, htracks.last, fun hp =>
        lt_of_lt_of_le (htracks.now hp) (hmono _)⟩
    rcases resolves_of_trace ht a v kind hv hk with h₀ | ⟨hslot, hply, hc⟩
    · exact hold h₀
    · -- At ply 8192 nothing is resolved, and no win can be upgraded.
      have hcount : 0 < kind.count ((s.joined e rest pool).found a.1) := by
        rcases hc with hc | ⟨v₀, ct, h₀, hw, hp, rfl⟩
        · show 0 < kind.count (Function.update s.found e.twinSlot _ a.1)
          rw [hslot, Function.update_self, SummaryKind.count_add]
          exact Nat.add_pos_right _ hc
        · have hk₀ : kindOf v₀ = some (.win (outcomeCt v₀)) := by
            simp [kindOf, hw, not_isLoss_of_isWin hw]
          have hwins : 0 < (s.found a.1).wins := (h.values a v₀ _ h₀ hk₀).now hp
          exact lt_of_lt_of_le hwins (hmono a.1)
      have hle : s.plies ≤ 8191 := by
        rcases hfits with hfits | ⟨-, hzero⟩
        · exact hfits
        · rw [hzero] at hcount
          cases kind <;> cases hcount
      rcases covers_of_trace ht hd hv hk with h₀ | hcovers
      · exact hold h₀
      · refine ⟨?_, (hply hle).le, fun hp => ?_, fun _ => hcount⟩
        · rw [hply hle]
          exact hcovers
        · have := hply hle
          have hs : ply v + 1 = s.plies := hp
          omega

/-- The next ply looks for what this one has found. -/
theorem Tracks.advance (h : s.Tracks) (entries : List Entry) : (s.advanced entries).Tracks where
  pos := Nat.succ_pos _
  size := h.size
  values := by
    intro a v kind hv hk
    have htracks := h.values a v kind hv hk
    refine ⟨htracks.covers, Nat.le_succ_of_le htracks.le, fun hp => ?_, fun hp => ?_⟩
    · exact htracks.now (Nat.succ_injective hp)
    · have hle := htracks.le
      have hs : ply v = s.plies + 1 := hp
      omega

/-! ### What a scan visits -/

/-- Every source lies in a block that is visited. -/
theorem Tracks.exists_range (h : s.Tracks) (hle : s.plies ≤ 8192) {slot : Slot} {idx : ℕ}
    {v : MaybeDtcOutcome} (hv : SharedMemory.get s.working (slot, idx) = some v)
    (hsel : phase.selects s.plies v = true) :
    ∃ r ∈ (s.summaries slot).blocksWith phase.kind (s.plies - 1), r.1 ≤ idx ∧ idx < r.2 := by
  obtain ⟨hk, hp⟩ := selects_kind h.pos hle hsel
  have hcovers := (h.values (slot, idx) v _ hv hk).covers
  have hidx : idx < (s.summaries slot).size := by
    rw [← h.size]
    exact (List.getElem?_eq_some_iff.mp hv).1
  rw [show s.plies - 1 = ply v by omega]
  exact hcovers.exists_range hidx

/-- A table that resolved nothing at the last ply holds no source. -/
theorem Tracks.selects_eq_false (h : s.Tracks) (hle : s.plies ≤ 8192) {slot : Slot}
    (hnone : phase.sourcesFound (s.previous slot) = 0) {idx : ℕ} {v : MaybeDtcOutcome}
    (hv : SharedMemory.get s.working (slot, idx) = some v) : phase.selects s.plies v = false := by
  rw [← Bool.not_eq_true]
  intro hsel
  obtain ⟨hk, hp⟩ := selects_kind h.pos hle hsel
  have hpos : 0 < phase.kind.count (s.previous slot) := (h.values (slot, idx) v _ hv hk).last hp
  rw [sourcesFound_eq] at hnone
  omega

end Solver

end

end ChessEgt
