import ChessEgt.Cache.Coherent

/-!
# Probing one position

* `enforceLimit_triple` — evicting keeps the view, and ends below the limit;
* `routedSpec`, `directSpec` — the outcome of a position in a view;
* `probeRouted_triple`, `probeDirectOutcome_triple` — a probe returns it in every coherent cache.
-/

namespace ChessEgt

namespace SharedFileCache

open Op

section

variable [Codec] {store : Store} {v : List Char → Run EgtFileReader} {cache : SharedFileCache}
  {addr : ℕ} {r₀ : EgtFileReader}

/-! ### Eviction -/

/-- A recorded frame of a file that is alive becomes cold. -/
theorem At.evict (h : At store v cache) {e : FrameKey × CachedFrame} (he : e ∈ cache.cache.frames)
    {r : EgtFileReader} (hr : cache.readers e.1.file = some r) {memory : CacheMemory}
    (hmemory : cache.cache.remove e.1 = .ok memory) :
    At store v { cache with
      readers := Function.update cache.readers e.1.file (some (r.clearFrame e.1.frame))
      cache := memory } := by
  obtain ⟨memory', hremove, hacc, -, -, hframes, -⟩ := h.1.accounted.remove he
  obtain rfl : memory' = memory := Except.ok.inj (hremove.symm.trans hmemory)
  -- The frame is no longer recorded, and the others are as warm as before.
  obtain ⟨hc, hv⟩ := h
  have hmem : ∀ e' ∈ memory'.frames, e' ∈ cache.cache.frames ∧ e'.1 ≠ e.1 := by
    intro e' he'
    rw [hframes, List.mem_filter, decide_eq_true_eq] at he'
    exact he'
  refine ⟨⟨hacc, fun name i hi => ?_, hc.unique, fun i x hx => ?_, fun i hi => ?_,
    fun e' he' => ?_⟩, ?_⟩
  · obtain ⟨x, hx⟩ := hc.registered name i hi
    by_cases hid : i = e.1.file
    · subst hid
      exact ⟨_, Function.update_self _ _ _⟩
    · exact ⟨x, (Function.update_of_ne hid _ _).trans hx⟩
  · dsimp only at hx
    by_cases hid : i = e.1.file
    · rw [hid, Function.update_self] at hx
      rw [← Option.some.inj hx]
      exact (hc.disk _ r hr).clearFrame e.1.frame
    · rw [Function.update_of_ne hid] at hx
      exact hc.disk i x hx
  · dsimp only
    rw [Function.update_of_ne]
    · exact hc.fresh i hi
    · rintro rfl
      rw [hc.fresh _ hi] at hr
      cases hr
  · obtain ⟨he', hne⟩ := hmem e' he'
    obtain ⟨hlt, hrec⟩ := hc.recorded e' he'
    refine ⟨hlt, fun x hx => ?_⟩
    dsimp only at hx
    by_cases hid : e'.1.file = e.1.file
    · rw [hid, Function.update_self] at hx
      rw [← Option.some.inj hx]
      have hframe : e.1.frame ≠ e'.1.frame := by
        intro hf
        apply hne
        rcases hk : e'.1 with ⟨a, b⟩
        rw [hk] at hid hf
        rcases hk' : e.1 with ⟨c, d⟩
        rw [hk'] at hid hf
        dsimp only at hid hf
        rw [hid, hf]
      have hwarm := hrec r (by rw [hid]; exact hr)
      unfold EgtFileReader.IsWarm EgtFileReader.clearFrame
      dsimp only
      rw [List.getElem?_set_ne hframe]
      exact hwarm
    · rw [Function.update_of_ne hid] at hx
      exact hrec x hx
  · rw [← hv]
    funext name
    unfold view
    dsimp only
    cases cache.files name with
    | none => rfl
    | some i =>
      dsimp only
      by_cases hid : i = e.1.file
      · subst hid
        rw [Function.update_self, hr]
        exact congrArg Except.ok (EgtFileReader.cold_clearFrame r _)
      · rw [Function.update_of_ne hid]

/-- The record of a frame whose file is gone is dropped. -/
theorem At.dropRecord (h : At store v cache) {e : FrameKey × CachedFrame}
    (he : e ∈ cache.cache.frames) {memory : CacheMemory}
    (hmemory : cache.cache.remove e.1 = .ok memory) :
    At store v { cache with cache := memory } := by
  obtain ⟨memory', hremove, hacc, -, -, hframes, -⟩ := h.1.accounted.remove he
  obtain rfl : memory' = memory := Except.ok.inj (hremove.symm.trans hmemory)
  obtain ⟨hc, hv⟩ := h
  refine ⟨⟨hacc, hc.registered, hc.unique, hc.disk, hc.fresh, fun e' he' => ?_⟩, hv⟩
  rw [hframes, List.mem_filter] at he'
  exact hc.recorded e' he'.1

/-- **Evicting** drops one frame a round until the memory is below its limit. -/
theorem enforceLimitLoop_triple (rounds : ℕ) :
    Triple (fun s => At store v s ∧ s.cache.frames.length < rounds) (enforceLimitLoop rounds)
      fun x s => x = .ok ⟨⟩ ∧ At store v s ∧ s.cache.overLimit = false := by
  induction rounds with
  | zero =>
    intro s hs
    exact absurd hs.2 (Nat.not_lt_zero _)
  | succ rounds ih =>
    refine Triple.get_bind fun s hs => ?_
    obtain ⟨hs, hlen⟩ := hs
    by_cases hover : s.cache.overLimit = true
    · obtain ⟨⟨key, frame⟩, he, hvictim, -⟩ := hs.1.accounted.exists_victim hover
      have hfile : frame.file = key.file := hs.1.accounted.file _ he
      have huntouched : s.cache.untouched key frame.lastUsed = true := by
        unfold CacheMemory.untouched
        rw [hs.1.accounted.find_of_mem he]
        simp
      obtain ⟨memory, hremove, -, -, -, hframes, -⟩ := hs.1.accounted.remove he
      -- One frame less is recorded.
      have hshorter : memory.frames.length < rounds := by
        have : memory.frames.length < s.cache.frames.length := by
          rw [hframes]
          exact List.length_filter_lt_length_iff_exists.mpr ⟨_, he, by simp⟩
        omega
      rw [hover, hvictim]
      simp only [Bool.not_true, Bool.false_eq_true, if_false, huntouched, hfile]
      rcases hreader : s.readers key.file with _ | r
      · dsimp only
        rw [exec_bind_ok (exec_lift _ _ |>.trans (by rw [hremove]))]
        rw [exec_bind_ok (exec_set _ _)]
        exact ih _ ⟨hs.dropRecord he hremove, hshorter⟩
      · have hwarm := (hs.1.recorded _ he).2 r hreader
        obtain ⟨vs, hvs⟩ := EgtFileReader.isWarm_iff.mp hwarm
        have htable := (hs.1.disk _ r hreader).seekTable
        have hresident := EgtFileReader.resident_eq hvs
        have hgood : ¬ (r.seekTable.isNone = true ∨ (some vs).isNone = true) := by
          rw [← Option.not_isSome, htable]
          simp
        dsimp only
        rw [exec_bind_ok (exec_lift _ _ |>.trans (by rw [hresident])), if_neg hgood,
          exec_bind_ok (exec_lift _ _ |>.trans (by rw [hremove])), exec_bind_ok (exec_set _ _)]
        exact ih _ ⟨hs.evict he hreader hremove, hshorter⟩
    · rw [Bool.not_eq_true] at hover
      rw [hover]
      exact ⟨rfl, hs, hover⟩

theorem enforceLimit_triple : Triple (At store v) enforceLimit
    fun x s => x = .ok ⟨⟩ ∧ At store v s ∧ s.cache.overLimit = false := by
  refine Triple.get_bind fun s hs => ?_
  exact enforceLimitLoop_triple (s.cache.frames.length + 1) s ⟨hs, Nat.lt_succ_self _⟩

/-- An access to a warm frame is recorded. -/
theorem recordAccess_triple {r : EgtFileReader} {frame : ℕ} (hwarm : r.IsWarm frame) (bytes : ℕ) :
    Triple (fun s => At store v s ∧ s.readers addr = some r) (recordAccess addr frame bytes)
      fun x s => (∃ b, x = .ok b) ∧ At store v s ∧ s.readers addr = some r := by
  rintro s ⟨hs, hr⟩
  unfold recordAccess
  rw [exec_bind_ok (exec_modify _ _), exec_bind_ok (exec_get _), exec_pure]
  exact ⟨⟨_, rfl⟩, hs.recordAccess hr hwarm bytes, hr⟩

/-- Recording an access, and evicting if the memory is over its limit. -/
theorem recordAndEnforce_triple {α : Type} {r : EgtFileReader} {frame : ℕ}
    (hwarm : r.IsWarm frame) (bytes : ℕ) (a : α) :
    Triple (fun s => At store v s ∧ s.readers addr = some r)
      (do
        if ← recordAccess addr frame bytes then
          enforceLimit
        return a : CacheOp α)
      fun x s => x = .ok a ∧ At store v s := by
  refine Triple.bind (recordAccess_triple hwarm bytes) (fun b => ?_) fun e s he => ?_
  · cases b with
    | false =>
      rintro s ⟨-, hs, -⟩
      exact ⟨rfl, hs⟩
    | true =>
      rintro s ⟨-, hs, -⟩
      obtain ⟨hx, hs, -⟩ := enforceLimit_triple s hs
      simp only [if_true]
      rw [exec_bind, show exec enforceLimit s = (.ok ⟨⟩, (exec enforceLimit s).2) from
        Prod.ext hx rfl]
      exact ⟨rfl, hs⟩
  · obtain ⟨⟨b, hb⟩, -⟩ := he
    cases hb

end

/-! ### Probes -/

section

variable [Codec] [Shakmaty] {store : Store} {v : List Char → Run EgtFileReader}

/-- The index and the outcome of a position in a view. -/
def routedSpec (store : Store) (v : List Char → Run EgtFileReader) (position : Chess)
    (endgame : List Char) (reflected : Bool) : Run (ℕ × MaybeDtcOutcome) := do
  let reader ← v endgame
  let index ← reader.mapRoutedPositionToIndex position reflected
  let outcome ← reader.stored store index
  pure (index, outcome)

/-- The outcome of a position in a view. -/
def directSpec (store : Store) (v : List Char → Run EgtFileReader) (position : Chess) :
    Run DtcOutcome := do
  let (name, reflected) ← positionTableName position
  let (index, outcome) ← routedSpec store v position name reflected
  outcome.toOutcomeAt index

omit [Codec] in
theorem mapRoutedPositionToIndex_lt {r : EgtFileReader} {position : Chess} {reflected : Bool}
    {i : ℕ} (h : r.mapRoutedPositionToIndex position reflected = .ok i) : i < r.indexRange := by
  have hcheck : ∀ x : Run ℕ, (do
      let index ← x
      r.checkIndex index
      pure index) = .ok i → r.checkIndex i = .ok () := by
    intro x hx
    obtain ⟨j, -, hx⟩ := Run.bind_eq_ok.mp hx
    obtain ⟨u, hu, hx⟩ := Run.bind_eq_ok.mp hx
    obtain rfl : j = i := Except.ok.inj hx
    exact hu
  have hu : r.checkIndex i = .ok () := by
    unfold EgtFileReader.mapRoutedPositionToIndex at h
    cases reflected
    · exact hcheck _ h
    · exact hcheck _ h
  by_contra hge
  unfold EgtFileReader.checkIndex at hu
  rw [if_pos (Nat.le_of_not_lt hge)] at hu
  cases hu

omit [Shakmaty] in
theorem exists_frameBytes {r : EgtFileReader} (h : OnDisk store r) {k : ℕ}
    (hk : k < r.frames.length) : ∃ bytes, frameBytes r.frameLayout k = .ok bytes := by
  unfold frameBytes
  rw [h.descriptor hk]
  exact ⟨_, rfl⟩

/-- **A routed probe** returns the outcome of the view. -/
theorem probeRouted_triple (position : Chess) (endgame : List Char) (reflected : Bool) :
    Triple (At store v) (probeRouted store position endgame reflected)
      fun x s => x = routedSpec store v position endgame reflected ∧ At store v s := by
  refine Triple.bind (file_triple store v endgame) (fun addr => ?_) fun e s he => ?_
  · rintro s ⟨r₀, hv, hs, r, hr, rfl⟩
    have hdisk := hs.1.disk addr r hr
    rw [exec_bind_ok (exec_readFile hr)]
    unfold routedSpec
    rw [hv, Run.ok_bind, EgtFileReader.cold_mapRoutedPositionToIndex, EgtFileReader.cold_stored]
    rcases hindex : r.mapRoutedPositionToIndex position reflected with e | i
    · rw [exec_bind_error (exec_lift _ _)]
      exact ⟨rfl, hs⟩
    rw [exec_bind_ok (exec_lift _ _), Run.ok_bind]
    have hi := mapRoutedPositionToIndex_lt hindex
    obtain ⟨-, hlocate, hk⟩ := hdisk.locate hi
    obtain ⟨bytes, hbytes⟩ := exists_frameBytes hdisk hk
    rw [hlocate, exec_bind_ok (exec_lift _ _)]
    dsimp only
    rw [hbytes, exec_bind_ok (exec_lift _ _), hdisk.readFromIndexCached hi]
    by_cases hwarm : r.IsWarm (i / r.frameSize)
    · -- The frame is warm.
      obtain ⟨vs, hvs⟩ := EgtFileReader.isWarm_iff.mp hwarm
      obtain ⟨o, ho, -⟩ := hdisk.exists_stored hi (hdisk.warm _ vs hvs)
      rw [if_pos hwarm, ho, Run.map_ok]
      rw [exec_bind_ok (exec_lift (.ok (some o)) s)]
      exact recordAndEnforce_triple hwarm bytes (i, o) s ⟨hs, hr⟩
    · -- The frame is cold.
      rw [if_neg hwarm, exec_bind_ok (exec_lift (.ok none) s), hdisk.readFromIndex hi]
      dsimp only
      rcases hvs : r.coldFrame store (i / r.frameSize) with e | vs
      · rw [hdisk.stored_eq hi, hvs, Run.error_bind, exec_bind_error (exec_lift (.error e) s)]
        exact ⟨rfl, hs⟩
      obtain ⟨o, ho, hget⟩ := hdisk.exists_stored hi hvs
      have hmono : ∀ k, r.IsWarm k → (r.setFrame (i / r.frameSize) vs).IsWarm k :=
        fun k hw => (EgtFileReader.isWarm_setFrame hk).mpr (Or.inr hw)
      have hs' := hs.setReader hr (hdisk.setFrame hvs) (EgtFileReader.cold_setFrame r _ vs) hmono
      rw [ho, Run.ok_bind, hget, Run.ok_bind, Run.pure_eq_ok,
        exec_bind_ok (exec_lift (.ok (r.setFrame (i / r.frameSize) vs, o)) s),
        exec_bind_ok (exec_setReader _ _ s), exec_bind_ok (exec_pure _ _)]
      exact recordAndEnforce_triple ((EgtFileReader.isWarm_setFrame hk).mpr (Or.inl rfl)) bytes (i, o)
        _ ⟨hs', Function.update_self _ _ _⟩
  · obtain ⟨hs, hv⟩ := he
    refine ⟨?_, hs⟩
    unfold routedSpec
    rw [hv]
    rfl

/-- **A direct probe** returns the outcome of the view. -/
theorem probeDirectOutcome_triple (position : Chess) :
    Triple (At store v) (probeDirectOutcome store position)
      fun x s => x = directSpec store v position ∧ At store v s := by
  intro s hs
  unfold probeDirectOutcome directSpec
  rcases positionTableName position with e | ⟨name, reflected⟩
  · rw [exec_bind_error (exec_lift _ s)]
    exact ⟨rfl, hs⟩
  rw [exec_bind_ok (exec_lift _ s), Run.ok_bind]
  obtain ⟨x, s', hexec, hx, hs'⟩ :=
    (probeRouted_triple position name reflected).exists_exec hs
  rcases x with e | ⟨index, outcome⟩
  · dsimp only
    rw [exec_bind_error hexec, ← hx]
    exact ⟨rfl, hs'⟩
  · dsimp only
    rw [exec_bind_ok hexec, exec_lift, ← hx]
    exact ⟨rfl, hs'⟩

end

end SharedFileCache

end ChessEgt
