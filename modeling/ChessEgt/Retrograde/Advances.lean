import ChessEgt.Retrograde.Interleaving

/-!
# How values advance

What a run of updates can make of a value, and how the counts follow the values.

* `Advances`, `Advances.trans` — the changes of a value within a ply;
* `tally`, `unknowns` — the values of a table that are resolved at a ply, and those that are open;
* `foldl_visit_advances`, `foldl_visit_tally`, `foldl_visit_unknowns` — a run of updates counts
  exactly what it resolves, and resolves only what is open.
-/

namespace ChessEgt

open ParallelScan MaybeDtcOutcome

/-- How a value may change while a ply is solved. -/
inductive Advances (plies : ℕ) (v : MaybeDtcOutcome) : MaybeDtcOutcome → Prop where
  | same : Advances plies v v
  | counted {n} (hu : v.isUnknown = true) (hpos : 0 < n) (hlt : n < ply v) :
      Advances plies v (newUnknown (.ofNat n))
  | won {ct} (hle : plies ≤ 8191) (hu : v.isUnknown = true) :
      Advances plies v (newWin ct (.ofNat plies))
  | lost {ct} (hle : plies ≤ 8191) (hu : v.isUnknown = true) :
      Advances plies v (newLoss ct (.ofNat plies))
  | upgraded {ct} (hw : v.isWin = true) (hp : ply v = plies) (hct : outcomeCt v < ct) :
      Advances plies v (newWin ct (.ofNat plies))

theorem not_isUnknown_newWin (ct : ConversionType) (d : UInt16) :
    (newWin ct d).isUnknown = false := not_isUnknown_of_isWin (isWin_newWin ct d)

theorem not_isUnknown_newLoss (ct : ConversionType) (d : UInt16) :
    (newLoss ct d).isUnknown = false := not_isUnknown_of_isLoss (isLoss_newLoss ct d)

/-- A loss stays as it is. -/
theorem Advances.of_newLoss {plies : ℕ} {ct : ConversionType} {d : UInt16} {w : MaybeDtcOutcome}
    (h : Advances plies (newLoss ct d) w) : w = newLoss ct d := by
  have hu := not_isUnknown_newLoss ct d
  cases h with
  | same => rfl
  | counted hu' _ _ => rw [hu] at hu'; cases hu'
  | won _ hu' => rw [hu] at hu'; cases hu'
  | lost _ hu' => rw [hu] at hu'; cases hu'
  | upgraded hw _ _ => rw [not_isWin_newLoss] at hw; cases hw

/-- A win stays a win of its ply. -/
theorem Advances.of_newWin {plies n : ℕ} {ct : ConversionType} {w : MaybeDtcOutcome} (hn : n ≤ 8191)
    (h : Advances plies (newWin ct (.ofNat n)) w) :
    w = newWin ct (.ofNat n) ∨ n = plies ∧ ∃ ct', ct < ct' ∧ w = newWin ct' (.ofNat n) := by
  have hu := not_isUnknown_newWin ct (.ofNat n)
  cases h with
  | same => exact Or.inl rfl
  | counted hu' _ _ => rw [hu] at hu'; cases hu'
  | won _ hu' => rw [hu] at hu'; cases hu'
  | lost _ hu' => rw [hu] at hu'; cases hu'
  | upgraded _ hp hct =>
    rw [ply_newWin ct (by omega)] at hp
    rw [outcomeCt_newWin] at hct
    exact Or.inr ⟨hp, _, hct, by rw [hp]⟩

theorem Advances.trans {plies : ℕ} {v w x : MaybeDtcOutcome} (h : Advances plies v w) (h' : Advances plies w x) : Advances plies v x := by
  cases h with
  | same => exact h'
  | @counted n hu hpos hlt =>
    have hn : n < 8192 := hlt.trans (ply_lt v)
    cases h' with
    | same => exact .counted hu hpos hlt
    | counted _ hpos' hlt' =>
      rw [ply_newUnknown hn] at hlt'
      exact .counted hu hpos' (hlt'.trans hlt)
    | won hle _ => exact .won hle hu
    | lost hle _ => exact .lost hle hu
    | upgraded hw _ _ => rw [not_isWin_newUnknown] at hw; cases hw
  | won hle hu =>
    rcases h'.of_newWin hle with rfl | ⟨-, ct', -, rfl⟩
    · exact .won hle hu
    · exact .won hle hu
  | lost hle hu =>
    rw [h'.of_newLoss]
    exact .lost hle hu
  | upgraded hw hply hct =>
    have hlt := ply_lt v
    rcases h'.of_newWin (by omega) with rfl | ⟨-, ct', hct', rfl⟩
    · exact .upgraded hw hply hct
    · exact .upgraded hw hply (hct.trans hct')

/-! ### What is resolved, and what is open -/

/-- A value among those that are resolved at a ply. -/
def resolvedAt (p : ℕ) (v : MaybeDtcOutcome) : Found where
  wins := if v.isWin = true ∧ ply v = p then 1 else 0
  losses := if v.isLoss = true ∧ ply v = p then 1 else 0

/-- The wins and losses of a table at a ply. -/
def tally (p : ℕ) (values : List MaybeDtcOutcome) : Found := (values.map (resolvedAt p)).sum

/-- A value among those that are still unknown. -/
def pending (v : MaybeDtcOutcome) : ℕ := if v.isUnknown = true then 1 else 0

/-- How many values of a table are unknown. -/
def unknowns (values : List MaybeDtcOutcome) : ℕ := (values.map pending).sum

theorem tally_wins (p : ℕ) (values : List MaybeDtcOutcome) :
    (tally p values).wins = values.countP fun v => v.isWin && decide (ply v = p) := by
  induction values with
  | nil => rfl
  | cons v values ih =>
    show (resolvedAt p v).wins + (tally p values).wins = _
    rw [ih, List.countP_cons, Nat.add_comm]
    by_cases h : v.isWin = true ∧ ply v = p
    · simp [resolvedAt, h]
    · simp [resolvedAt, h]

theorem tally_losses (p : ℕ) (values : List MaybeDtcOutcome) :
    (tally p values).losses = values.countP fun v => v.isLoss && decide (ply v = p) := by
  induction values with
  | nil => rfl
  | cons v values ih =>
    show (resolvedAt p v).losses + (tally p values).losses = _
    rw [ih, List.countP_cons, Nat.add_comm]
    by_cases h : v.isLoss = true ∧ ply v = p
    · simp [resolvedAt, h]
    · simp [resolvedAt, h]

/-- Overwriting an element by one that weighs `n` more adds `n` to the sum. -/
theorem sum_map_set {α M : Type*} [AddCommMonoid M] (f : α → M) {l : List α} {i : ℕ} {v w : α}
    {n : M} (hv : l[i]? = some v) (hw : f w = f v + n) :
    ((l.set i w).map f).sum = (l.map f).sum + n := by
  induction l generalizing i with
  | nil => cases hv
  | cons x l ih =>
    cases i with
    | zero =>
      obtain rfl : x = v := Option.some.inj hv
      rw [List.set_cons_zero, List.map_cons, List.map_cons, List.sum_cons, List.sum_cons, hw,
        add_right_comm]
    | succ i =>
      rw [List.set_cons_succ, List.map_cons, List.map_cons, List.sum_cons, List.sum_cons,
        ih hv, add_assoc]

@[simp] theorem resolvedAt_newUnknown (p : ℕ) (c : UInt16) : resolvedAt p (newUnknown c) = 0 := by
  simp [resolvedAt, not_isWin_newUnknown, not_isLoss_newUnknown]
  rfl

theorem resolvedAt_of_isUnknown (p : ℕ) {v : MaybeDtcOutcome} (h : v.isUnknown = true) :
    resolvedAt p v = 0 := by
  rw [eq_newUnknown h, resolvedAt_newUnknown]

theorem resolvedAt_newWin (p : ℕ) (ct : ConversionType) {n : ℕ} (hn : n ≤ 8191) :
    resolvedAt p (newWin ct (.ofNat n)) = if p = n then ⟨1, 0⟩ else 0 := by
  have hply := ply_newWin ct (n := n) (by omega)
  by_cases h : p = n
  · simp [resolvedAt, not_isLoss_of_isWin (isWin_newWin ct (.ofNat n)), hply, h]
  · simp [resolvedAt, not_isLoss_of_isWin (isWin_newWin ct (.ofNat n)), hply, h, Ne.symm h]
    rfl

theorem resolvedAt_newLoss (p : ℕ) (ct : ConversionType) {n : ℕ} (hn : n ≤ 8191) :
    resolvedAt p (newLoss ct (.ofNat n)) = if p = n then ⟨0, 1⟩ else 0 := by
  have hply := ply_newLoss ct (n := n) (by omega)
  by_cases h : p = n
  · simp [resolvedAt, not_isWin_newLoss, hply, h]
  · simp [resolvedAt, not_isWin_newLoss, hply, h, Ne.symm h]
    rfl

section

variable [Shakmaty] {e : Entry} {phase : Phase} {plies : ℕ}

/-- An update advances its target, and counts exactly what it resolves. Above ply 8191 this holds
    as long as nothing is counted. -/
theorem apply_spec (u : Update) (v : MaybeDtcOutcome)
    (h : plies ≤ 8191 ∨ ((e.scan phase plies).apply u v).2 = 0) :
    Advances plies v ((e.scan phase plies).apply u v).1 ∧
      (∀ p, resolvedAt p ((e.scan phase plies).apply u v).1
        = resolvedAt p v + if p = plies then ((e.scan phase plies).apply u v).2 else 0) ∧
      pending v = pending ((e.scan phase plies).apply u v).1 +
        (((e.scan phase plies).apply u v).2.wins + ((e.scan phase plies).apply u v).2.losses) := by
  cases hx : (e.scan phase plies).attempt u v with
  | none =>
    rw [apply_of_attempt_none hx]
    refine ⟨.same, fun p => ?_, rfl⟩
    simp
  | some x =>
    rw [apply_of_attempt_some hx] at h ⊢
    cases phase with
    | losses =>
      obtain ⟨hv, -, hcases⟩ := attemptWin_cases hx
      rcases hcases with ⟨hu, hc⟩ | ⟨hw, hp, hct, hc⟩
      · have hle : plies ≤ 8191 := h.resolve_right fun h0 => by
          have h0' : x.count = 0 := h0
          rw [hc] at h0'
          exact absurd h0' (by decide)
        rw [hv, hc]
        refine ⟨.won hle hu, fun p => ?_, ?_⟩
        · rw [resolvedAt_newWin p u.2 hle, resolvedAt_of_isUnknown p hu, zero_add]
        · simp [pending, hu, not_isUnknown_newWin]
      · have hle : plies ≤ 8191 := by
          have := ply_lt v
          omega
        rw [hv, hc]
        refine ⟨.upgraded hw hp hct, fun p => ?_, ?_⟩
        · rw [resolvedAt_newWin p u.2 hle, eq_newWin hw, hp, resolvedAt_newWin p _ hle]
          simp
        · simp [pending, not_isUnknown_of_isWin hw, not_isUnknown_newWin]
    | wins ct =>
      have hu := (attemptLoss_cases hx).1
      have hlt := ply_lt v
      have hpos := ply_pos_of_isUnknown hu
      have hattempt : attemptLoss ct plies u v = some x := hx
      rw [attemptLoss_of_isUnknown u hu] at hattempt
      split at hattempt
      · -- The counter was one.
        cases hattempt
        have hle : plies ≤ 8191 := h.resolve_right one_loss_ne_zero
        refine ⟨.lost hle hu, fun p => ?_, ?_⟩
        · rw [resolvedAt_newLoss p ct hle, resolvedAt_of_isUnknown p hu, zero_add]
        · simp [pending, hu, not_isUnknown_newLoss]
      · cases hattempt
        refine ⟨.counted hu (by omega) (by omega), fun p => ?_, ?_⟩
        · rw [resolvedAt_newUnknown, resolvedAt_of_isUnknown p hu]
          simp
        · simp [pending, hu, isUnknown_newUnknown (n := ply v - 1) (by omega) (by omega)]

/-! ### Runs of updates -/

theorem foldl_visit_count (x : WorkingPair × Found) (us : List Update) :
    ∃ n, (us.foldl (e.scan phase plies).visit x).2 = x.2 + n := by
  obtain ⟨m, n⟩ := x
  refine ⟨(us.foldl (e.scan phase plies).visit (m, 0)).2, ?_⟩
  have h := @foldl_visit_add _ _ _ _ _ _ _ _ (e.scan phase plies) m 0 n us
  rw [zero_add] at h
  rw [h, add_comm]

/-- What a run of updates leaves: the values have advanced, and the counts follow them. -/
structure Updated (plies : ℕ) (slot : Slot) (m : WorkingPair) (x : WorkingPair × Found) : Prop where
  values : ∀ a v, SharedMemory.get m a = some v → ∃ w, SharedMemory.get x.1 a = some w ∧
    (a.1 = slot ∧ Advances plies v w ∨ w = v)
  tally : ∀ p, tally p (x.1.values slot) = tally p (m.values slot) + if p = plies then x.2 else 0
  unknowns : unknowns (m.values slot) = unknowns (x.1.values slot) + (x.2.wins + x.2.losses)
  others : ∀ slot' ≠ slot, x.1.values slot' = m.values slot'

theorem Updated.refl (plies : ℕ) (slot : Slot) (m : WorkingPair) : Updated plies slot m (m, 0) where
  values a v hv := ⟨v, hv, Or.inr rfl⟩
  tally p := by simp
  unknowns := rfl
  others _ _ := rfl

/-- One more update. -/
theorem Updated.visit {slot : Slot} {m : WorkingPair} {x : WorkingPair × Found} {u : Update}
    (hx : Updated plies slot m x) (hu : u.1.1 = slot)
    (h : plies ≤ 8191 ∨ ((e.scan phase plies).visit x u).2 = 0) :
    Updated plies slot m ((e.scan phase plies).visit x u) := by
  obtain ⟨m', n⟩ := x
  cases hv : SharedMemory.get m' ((e.scan phase plies).target u) with
  | none =>
    have hstay : (e.scan phase plies).visit (m', n) u = (m', n) := by simp [ParallelScan.visit, hv]
    rw [hstay]
    exact hx
  | some v =>
    rw [visit_eq hv] at h ⊢
    obtain ⟨hadv, htally, hunknown⟩ := @apply_spec _ e phase plies u v
      (h.imp_right fun h0 => (add_eq_zero.mp h0).2)
    generalize (e.scan phase plies).apply u v = y at h hadv htally hunknown
    obtain ⟨⟨slot', idx⟩, ct⟩ := u
    obtain rfl : slot' = slot := hu
    have hget : (m'.values slot')[idx]? = some v := hv
    have hvalues : (m'.set (slot', idx) y.1).values slot' = (m'.values slot').set idx y.1 :=
      WorkingPair.values_set_self _ _ _ _
    refine ⟨fun a v₀ hv₀ => ?_, fun p => ?_, ?_, fun slot'' hne => ?_⟩
    · obtain ⟨w, hw, hcase⟩ := hx.values a v₀ hv₀
      by_cases ha : (slot', idx) = a
      · subst ha
        have hw' : SharedMemory.get m' (slot', idx) = some w := hw
        rw [show SharedMemory.get m' (slot', idx) = some v from hv] at hw'
        cases hw'
        refine ⟨y.1, SharedMemory.get_set_self y.1 hv, Or.inl ⟨rfl, ?_⟩⟩
        rcases hcase with ⟨-, hadv'⟩ | rfl
        · exact hadv'.trans hadv
        · exact hadv
      · exact ⟨w, (SharedMemory.get_set_of_ne m' y.1 ha).trans hw, hcase⟩
    · show ChessEgt.tally p ((m'.set (slot', idx) y.1).values slot') = _
      rw [hvalues]
      have hset : ChessEgt.tally p ((m'.values slot').set idx y.1) = _ :=
        sum_map_set (resolvedAt p) hget (htally p)
      rw [hset]
      show ChessEgt.tally p (m'.values slot') + _ = _
      rw [hx.tally p, add_assoc]
      by_cases hp : p = plies
      · simp [hp]
      · simp [hp]
    · show _ = ChessEgt.unknowns ((m'.set (slot', idx) y.1).values slot') + ((n + y.2).wins + (n + y.2).losses)
      -- Undoing the update gives the open values back.
      have hback : ChessEgt.unknowns (((m'.values slot').set idx y.1).set idx v) = _ :=
        sum_map_set pending
          (List.getElem?_set_self (List.getElem?_eq_some_iff.mp hget).1) hunknown
      have hsame : ((m'.values slot').set idx y.1).set idx v = m'.values slot' := by
        rw [List.set_set]
        obtain ⟨hlt, rfl⟩ := List.getElem?_eq_some_iff.mp hget
        exact List.set_getElem_self hlt
      rw [hsame] at hback
      have hx' : ChessEgt.unknowns (m.values slot')
          = ChessEgt.unknowns (m'.values slot') + (n.wins + n.losses) := hx.unknowns
      have hback' : ChessEgt.unknowns (m'.values slot')
          = ChessEgt.unknowns ((m'.values slot').set idx y.1) + (y.2.wins + y.2.losses) := hback
      rw [hvalues, hx', hback', Found.add_wins, Found.add_losses]
      omega
    · show (m'.set (slot', idx) y.1).values slot'' = m.values slot''
      rw [WorkingPair.values_set_of_ne _ _ _ (Ne.symm hne)]
      exact hx.others slot'' hne

theorem updated_foldl {slot : Slot} {m : WorkingPair} {us : List Update}
    (hus : ∀ u ∈ us, u.1.1 = slot)
    (h : plies ≤ 8191 ∨ (us.foldl (e.scan phase plies).visit (m, 0)).2 = 0) :
    Updated plies slot m (us.foldl (e.scan phase plies).visit (m, 0)) := by
  suffices hrun : ∀ x, Updated plies slot m x →
      (plies ≤ 8191 ∨ (us.foldl (e.scan phase plies).visit x).2 = 0) →
        Updated plies slot m (us.foldl (e.scan phase plies).visit x) from
    hrun (m, 0) (.refl plies slot m) h
  clear h
  induction us with
  | nil => exact fun x hx _ => hx
  | cons u us ih =>
    intro x hx h
    rw [List.foldl_cons] at h ⊢
    refine ih (fun u hu => hus u (List.mem_cons_of_mem _ hu)) _
      (hx.visit (hus u List.mem_cons_self) (h.imp_right fun h0 => ?_)) h
    obtain ⟨n, hn⟩ := @foldl_visit_count _ e phase plies ((e.scan phase plies).visit x u) us
    exact (add_eq_zero.mp (hn.symm.trans h0)).1

/-- What the updates of a scan leave, at any point of a run of its workers. -/
theorem updated_of_trace {m : WorkingPair} {board : Summaries} {parts : List (List (Slot × ℕ))}
    {pool : ScanPool} {events : List (Event (Slot × ℕ) MaybeDtcOutcome Update)}
    (h : (e.scan phase plies).Trace (Pool.start m board parts) events pool)
    (hle : plies ≤ 8191 ∨ pool.count = 0) :
    Updated plies e.twinSlot m (pool.memory, pool.count) := by
  have hi := h.invariant (stable e phase plies)
  rw [hi.memory]
  refine updated_foldl (fun u hu => ?_) (hle.imp_right fun h0 => ?_)
  · have hmem := hi.updates.subset (List.mem_append_left _ (List.mem_map_of_mem hu))
    obtain ⟨x, -, hx⟩ := List.mem_flatMap.mp hmem
    exact target_twinSlot hx
  · rw [← hi.memory]
    exact h0

/-- What a whole scan leaves. -/
theorem updated_of_result {m : WorkingPair} {cells : List (Slot × ℕ)} {x : WorkingPair × Found}
    (h : (e.scan phase plies).Result m cells x) (hle : plies ≤ 8191 ∨ x.2 = 0) :
    Updated plies e.twinSlot m x := by
  obtain ⟨us, hus, -, rfl⟩ := h
  refine updated_foldl (fun u hu => ?_) hle
  have hmem : some u ∈ us.map some := List.mem_map_of_mem hu
  rw [← hus] at hmem
  obtain ⟨x, -, hx⟩ := List.mem_flatMap.mp hmem
  exact target_twinSlot hx

end

end ChessEgt
