import ChessEgt.Cache.Batch
import ChessEgt.Chess.Concrete
import ChessEgt.Storage.Raw

/-!
# Batch probing and scalar probing

* `Reachable` — the caches after any operations over fixed objects;
* `Reachable.coherent` — they are coherent;
* `batch_probing_is_scalar` — a batch of direct probes returns what the probes of its positions
  return one by one, in every such cache.
-/

namespace ChessEgt

namespace SharedFileCache

open Op

section

variable [Codec] {store : Store} {v : List Char → Run EgtFileReader} {cache : SharedFileCache}

/-! ### Other operations -/

theorem Coherent.at (h : Coherent store cache) : At store (cache.view store) cache := ⟨h, rfl⟩

/-- A file that is no longer registered may be dropped. -/
theorem forgetFile_triple (addr : ℕ) :
    Triple (fun s => Coherent store s ∧ ∀ name, s.files name ≠ some addr) (forgetFile addr)
      fun x s => x = .ok ⟨⟩ ∧ Coherent store s := by
  refine Triple.get_bind fun s hs => ?_
  obtain ⟨hc, hname⟩ := hs
  obtain ⟨memory, hforget, hacc, -, hframes⟩ := hc.accounted.forget addr
  rw [hforget, exec_bind_ok (exec_lift _ s), exec_set]
  refine ⟨rfl, ⟨hacc, fun name i hi => ?_, hc.unique, fun i x hx => ?_, fun i hi => ?_,
    fun e he => ?_⟩⟩
  · obtain ⟨x, hx⟩ := hc.registered name i hi
    have hne : i ≠ addr := by
      rintro rfl
      exact hname name hi
    exact ⟨x, (Function.update_of_ne hne _ _).trans hx⟩
  · dsimp only at hx
    by_cases hid : i = addr
    · rw [hid, Function.update_self] at hx
      cases hx
    · rw [Function.update_of_ne hid] at hx
      exact hc.disk i x hx
  · dsimp only
    by_cases hid : i = addr
    · rw [hid, Function.update_self]
    · rw [Function.update_of_ne hid]
      exact hc.fresh i hi
  · rw [hframes, List.mem_filter, decide_eq_true_eq] at he
    obtain ⟨hlt, hrec⟩ := hc.recorded e he.1
    refine ⟨hlt, fun x hx => ?_⟩
    dsimp only at hx
    rw [Function.update_of_ne he.2] at hx
    exact hrec x hx

theorem insert_keeps {reader : EgtFileReader} (hr : OnDisk store reader) :
    Keeps (Coherent store) (insert reader) := by
  refine Triple.get_bind fun s hs => ?_
  have hregister := hs.register hr reader.id.name
  rw [exec_bind_ok (exec_set s _)]
  cases hold : s.files reader.id.name with
  | none => exact hregister
  | some old =>
    -- The old file is not registered under any other name.
    refine (forgetFile_triple old (s.register reader.id.name reader) ⟨hregister, fun name hn => ?_⟩).2
    unfold SharedFileCache.register at hn
    dsimp only at hn
    obtain ⟨x, hx⟩ := hs.registered _ _ hold
    by_cases hname : name = reader.id.name
    · rw [hname, Function.update_self] at hn
      rw [← Option.some.inj hn, hs.fresh _ le_rfl] at hx
      cases hx
    · rw [Function.update_of_ne hname] at hn
      exact hname (hs.unique _ _ old hn hold)

theorem remove_keeps (names : List (List Char)) : Keeps (Coherent store) (remove names) := by
  refine Triple.forM (fun name _ => Triple.get_bind fun s hs => ?_) fun s hs => hs
  rw [exec_bind_ok (exec_set s _)]
  have hfiles : ∀ name' i, Function.update s.files name none name' = some i →
      name' ≠ name ∧ s.files name' = some i := by
    intro name' i hi
    by_cases hn : name' = name
    · rw [hn, Function.update_self] at hi
      cases hi
    · rw [Function.update_of_ne hn] at hi
      exact ⟨hn, hi⟩
  have hc : Coherent store { s with files := Function.update s.files name none } :=
    ⟨hs.accounted, fun name' i hi => hs.registered name' i (hfiles name' i hi).2,
      fun n n' i hn hn' => hs.unique n n' i (hfiles n i hn).2 (hfiles n' i hn').2, hs.disk, hs.fresh,
      hs.recorded⟩
  cases hold : s.files name with
  | none => exact ⟨rfl, hc⟩
  | some old =>
    refine forgetFile_triple old _ ⟨hc, fun name' hn => ?_⟩
    obtain ⟨hne, hn⟩ := hfiles name' old hn
    exact hne (hs.unique _ _ old hn hold)

theorem clear_keeps : Keeps (Coherent store) clear := by
  refine Triple.modify fun s hs => ?_
  exact {
    accounted := ⟨List.nodup_nil, fun _ he => absurd he List.not_mem_nil, rfl⟩
    registered := fun _ _ hi => by cases hi
    unique := fun _ _ _ hi => by cases hi
    disk := fun _ _ hi => by cases hi
    fresh := fun _ _ => rfl
    recorded := fun _ he => absurd he List.not_mem_nil }

theorem setInputPath_keeps (input : Option Location) :
    Keeps (Coherent store) (setInputPath input) := by
  refine Triple.bind (clear_keeps) (fun _ => Triple.modify fun s hs => ?_) fun _ _ hs => hs
  exact ⟨hs.accounted, hs.registered, hs.unique, hs.disk, hs.fresh, hs.recorded⟩

theorem enforceLimit_keeps : Keeps (Coherent store) enforceLimit :=
  fun s hs => (enforceLimit_triple s hs.at).2.1.1

theorem setCacheSize_keeps (assigned : ℕ) : Keeps (Coherent store) (setCacheSize assigned) := by
  refine Triple.bind (Triple.modify (Q := fun _ => Coherent store) fun s hs => ?_)
    (fun _ => enforceLimit_keeps) fun _ _ hs => hs
  exact ⟨⟨hs.accounted.nodup, hs.accounted.file, hs.accounted.resident⟩, hs.registered, hs.unique,
    hs.disk, hs.fresh, hs.recorded⟩

/-! ### Chunks -/

/-- The outcomes of a range in a view. -/
def chunkSpec (store : Store) (v : List Char → Run EgtFileReader) (endgame : List Char)
    (start stop : ℕ) : Run (List MaybeDtcOutcome) := do
  let reader ← v endgame
  reader.checkChunk start stop
  if start = stop then
    return []
  let (frame, offset) ← reader.locateChunk start stop
  let data ← reader.coldFrame store frame
  pure ((data.drop offset).take (stop - start))

/-- **Copying a chunk** returns the outcomes of the view. -/
theorem readChunk_triple (endgame : List Char) (start stop : ℕ) :
    Triple (At store v) (readChunk store endgame start stop)
      fun x s => x = chunkSpec store v endgame start stop ∧ At store v s := by
  refine Triple.bind (file_triple store v endgame) (fun addr => ?_) fun e s he => ?_
  · rintro s ⟨r₀, hv, hs, r, hr, rfl⟩
    have hdisk := hs.1.disk addr r hr
    rw [exec_bind_ok (exec_readFile hr)]
    unfold chunkSpec
    rw [hv, Run.ok_bind]
    have hcold : r.cold.checkChunk start stop = r.checkChunk start stop ∧
        r.cold.locateChunk start stop = r.locateChunk start stop := ⟨rfl, rfl⟩
    rw [hcold.1, hcold.2]
    rcases hcheck : r.checkChunk start stop with e | u
    · rw [exec_bind_error (exec_lift _ s)]
      exact ⟨rfl, hs⟩
    rw [exec_bind_ok (exec_lift _ s), Run.ok_bind]
    by_cases heq : start = stop
    · rw [if_pos heq, if_pos heq]
      exact ⟨rfl, hs⟩
    rw [if_neg heq, if_neg heq]
    have hlt : start < stop ∧ stop ≤ r.indexRange := by
      unfold EgtFileReader.checkChunk at hcheck
      split at hcheck
      · cases hcheck
      · omega
    obtain ⟨-, hlocate, hk⟩ := hdisk.locate (i := start) (by omega)
    obtain ⟨bytes, hbytes⟩ := exists_frameBytes hdisk hk
    rw [hlocate, exec_bind_ok (exec_lift _ s)]
    dsimp only
    rw [hbytes, exec_bind_ok (exec_lift _ s)]
    rcases hx : r.locateChunk start stop with e | x
    · -- The range crosses a frame boundary.
      have hcached : r.frameChunkCached start stop = .error e := by
        unfold EgtFileReader.frameChunkCached
        rw [hcheck, Run.ok_bind, if_neg heq, hx]
        rfl
      rw [hcached, exec_bind_error (exec_lift _ s)]
      exact ⟨rfl, hs⟩
    obtain ⟨hxeq, -⟩ := hdisk.chunk_le hlt.1 hlt.2 hx
    rw [hdisk.frameChunkCached hlt.1 hlt.2 hx, Run.ok_bind]
    have hcoldFrame : r.cold.coldFrame store = r.coldFrame store := rfl
    rw [hcoldFrame]
    by_cases hwarm : r.IsWarm x.1
    · obtain ⟨vs, hvs⟩ := EgtFileReader.isWarm_iff.mp hwarm
      rw [if_pos hwarm, hdisk.warm _ vs hvs]
      dsimp only [Except.map]
      rw [exec_bind_ok (exec_lift (.ok _) s)]
      rw [hxeq] at hwarm
      exact recordAndEnforce_triple hwarm bytes _ s ⟨hs, hr⟩
    · rw [if_neg hwarm, exec_bind_ok (exec_lift (.ok none) s), hdisk.frameChunk hlt.1 hlt.2 hx]
      dsimp only
      rcases hvs : r.coldFrame store x.1 with e | vs
      · rw [Run.error_bind, exec_bind_error (exec_lift (.error e) s)]
        exact ⟨rfl, hs⟩
      have hk' : x.1 < r.frames.length := by rw [hxeq]; exact hk
      have hmono : ∀ k, r.IsWarm k → (r.setFrame x.1 vs).IsWarm k :=
        fun k hw => (EgtFileReader.isWarm_setFrame hk').mpr (Or.inr hw)
      have hs' := hs.setReader hr (hdisk.setFrame hvs) (EgtFileReader.cold_setFrame r _ vs) hmono
      have hwarm' : (r.setFrame x.1 vs).IsWarm (start / r.frameSize) :=
        (EgtFileReader.isWarm_setFrame hk').mpr (Or.inl (by rw [hxeq]))
      rw [Run.ok_bind, Run.pure_eq_ok, exec_bind_ok (exec_lift (.ok _) s),
        exec_bind_ok (exec_setReader _ _ s), exec_bind_ok (exec_pure _ _)]
      exact recordAndEnforce_triple hwarm' bytes _ _ ⟨hs', Function.update_self _ _ _⟩
  · obtain ⟨hs, hv⟩ := he
    refine ⟨?_, hs⟩
    unfold chunkSpec
    rw [hv]
    rfl

/-! ### Reachable caches -/

variable [Shakmaty]

/-- The caches after any operations over fixed objects. -/
inductive Reachable (store : Store) : SharedFileCache → Prop
  | new (base : Location) (input : Option Location) (size : Option ℕ) :
    Reachable store (new base input size)
  | indexed {s : SharedFileCache} (position : Chess) : Reachable store s →
    Reachable store (exec (probeIndexed store position) s).2
  | direct {s : SharedFileCache} (position : Chess) : Reachable store s →
    Reachable store (exec (probeDirectOutcome store position) s).2
  | batch {s : SharedFileCache} (positions : List Chess) : Reachable store s →
    Reachable store (exec (probeDirectOutcomes store positions) s).2
  | chunk {s : SharedFileCache} (endgame : List Char) (start stop : ℕ) : Reachable store s →
    Reachable store (exec (readChunk store endgame start stop) s).2
  | resized {s : SharedFileCache} (assigned : ℕ) : Reachable store s →
    Reachable store (exec (setCacheSize assigned) s).2
  | pinned {s : SharedFileCache} {location : Location} {name : List Char} {reader : EgtFileReader} :
    Reachable store s → EgtFileReader.openIn store location name = .ok reader →
    Reachable store (exec (insert reader) s).2
  | removed {s : SharedFileCache} (names : List (List Char)) : Reachable store s →
    Reachable store (exec (remove names) s).2
  | cleared {s : SharedFileCache} : Reachable store s → Reachable store (exec clear s).2
  | redirected {s : SharedFileCache} (input : Option Location) : Reachable store s →
    Reachable store (exec (setInputPath input) s).2

theorem probeIndexed_keeps (position : Chess) : Keeps (At store v) (probeIndexed store position) := by
  intro s hs
  unfold probeIndexed
  rcases positionTableName position with e | ⟨name, reflected⟩
  · exact hs
  · rw [exec_bind_ok (exec_lift _ s)]
    exact (probeRouted_triple position name reflected s hs).2

/-- **Reachable caches** are coherent. -/
theorem Reachable.coherent (h : Reachable store cache) : Coherent store cache := by
  induction h with
  | new base input size => exact coherent_new base input size
  | indexed position _ ih => exact (probeIndexed_keeps position _ ih.at).1
  | direct position _ ih => exact (probeDirectOutcome_triple position _ ih.at).2.1
  | @batch s positions _ ih =>
    have hpost := probeDirectOutcomes_triple positions s ih.at
    cases hx : (exec (probeDirectOutcomes store positions) s).1 with
    | ok outcomes =>
      rw [hx] at hpost
      exact hpost.1.1
    | error e =>
      rw [hx] at hpost
      exact hpost.1.1
  | chunk endgame start stop _ ih => exact (readChunk_triple endgame start stop _ ih.at).2.1
  | resized assigned _ ih => exact setCacheSize_keeps assigned _ ih
  | pinned _ hopen ih => exact insert_keeps (onDisk_of_openIn hopen) _ ih
  | removed names _ ih => exact remove_keeps names _ ih
  | cleared _ ih => exact clear_keeps _ ih
  | redirected input _ ih => exact setInputPath_keeps input _ ih

/-- The caches after any probes of one cache. -/
inductive Probed (store : Store) (cache : SharedFileCache) : SharedFileCache → Prop
  | start : Probed store cache cache
  | direct {s : SharedFileCache} (position : Chess) : Probed store cache s →
    Probed store cache (exec (probeDirectOutcome store position) s).2
  | batch {s : SharedFileCache} (positions : List Chess) : Probed store cache s →
    Probed store cache (exec (probeDirectOutcomes store positions) s).2

/-- Probes do not change the view. -/
theorem Probed.at {s : SharedFileCache} (h : Probed store cache s) (hc : At store v cache) :
    At store v s := by
  induction h with
  | start => exact hc
  | direct position _ ih => exact (probeDirectOutcome_triple position _ ih).2
  | @batch s positions _ ih =>
    have hpost := probeDirectOutcomes_triple positions s ih
    cases hx : (exec (probeDirectOutcomes store positions) s).1 with
    | ok outcomes =>
      rw [hx] at hpost
      exact hpost.1
    | error e =>
      rw [hx] at hpost
      exact hpost.1

/-- **Batch probing is scalar probing**: in every reachable cache a batch of direct probes succeeds
    exactly if the direct probe of each of its positions does, in the same cache or after any
    other probes, and it returns their outcomes in order. -/
theorem batch_probing_is_scalar (h : Reachable store cache) (positions : List Chess)
    {s : SharedFileCache} (hs : Probed store cache s) :
    ((∃ outcomes, (exec (probeDirectOutcomes store positions) cache).1 = .ok outcomes) ↔
      ∀ position ∈ positions, ∃ o, (exec (probeDirectOutcome store position) s).1 = .ok o) ∧
    ∀ outcomes : List DtcOutcome,
      (exec (probeDirectOutcomes store positions) cache).1 = .ok outcomes →
      outcomes.length = positions.length ∧ ∀ (k : ℕ) position, positions[k]? = some position →
        ∃ o, outcomes[k]? = some o ∧ (exec (probeDirectOutcome store position) s).1 = .ok o := by
  have hc := h.coherent.at
  have hbatch := probeDirectOutcomes_triple positions cache hc
  -- Every scalar probe returns the outcome of the view.
  have hscalar : ∀ position, (exec (probeDirectOutcome store position) s).1
      = directSpec store (cache.view store) position :=
    fun position => (probeDirectOutcome_triple position s (hs.at hc)).1
  simp only [hscalar]
  cases hx : (exec (probeDirectOutcomes store positions) cache).1 with
  | error e =>
    rw [hx] at hbatch
    obtain ⟨-, position, hposition, e', he'⟩ := hbatch
    refine ⟨⟨fun ⟨_, ho⟩ => (by cases ho), fun hall => ?_⟩, fun _ ho => (by cases ho)⟩
    obtain ⟨o, ho⟩ := hall position hposition
    rw [he'] at ho
    cases ho
  | ok outcomes =>
    rw [hx] at hbatch
    obtain ⟨-, hall⟩ := hbatch
    refine ⟨⟨fun _ position hposition => ?_, fun _ => ⟨outcomes, rfl⟩⟩, fun outcomes' ho => ?_⟩
    · obtain ⟨k, hk⟩ := List.mem_iff_getElem?.mp hposition
      obtain ⟨o, ho⟩ : ∃ o, outcomes[k]? = some o := ⟨_, List.getElem?_eq_getElem
        (by rw [← hall.length_eq]; exact (List.getElem?_eq_some_iff.mp hk).1)⟩
      exact ⟨o, Chunks.forall₂_getElem? hall hk ho⟩
    · obtain rfl := Except.ok.inj ho
      refine ⟨hall.length_eq.symm, fun k position hk => ?_⟩
      obtain ⟨o, ho⟩ : ∃ o, outcomes[k]? = some o := ⟨_, List.getElem?_eq_getElem
        (by rw [← hall.length_eq]; exact (List.getElem?_eq_some_iff.mp hk).1)⟩
      exact ⟨o, ho, Chunks.forall₂_getElem? hall hk ho⟩

end

/-- White king on a1 and black king on c1. -/
def kings : Chess where
  board s := if s = ⟨0, 0⟩ then some ⟨.white, .king⟩
    else if s = ⟨0, 2⟩ then some ⟨.black, .king⟩ else none
  turn := .white
  castlingRights := []
  epSquare := none

/-- No table is found for the two kings in an empty root, alone or twice in a batch. -/
theorem batch_probing_is_scalar_kings :
    ¬ ∃ outcomes, (@exec _ _ _ (@probeDirectOutcomes rawCodec (fun _ => none) rulesShakmaty
      [kings, kings]) (new ⟨[], true⟩ none (some 0))).1 = .ok outcomes := by
  let _ : Codec := rawCodec
  let _ : Shakmaty := rulesShakmaty
  intro h
  have hone := (batch_probing_is_scalar (Reachable.new ⟨[], true⟩ none (some 0)) [kings, kings]
    Probed.start).1.mp h
  obtain ⟨o, ho⟩ := hone kings List.mem_cons_self
  have hfail : ((@exec _ _ _ (@probeDirectOutcome rawCodec (fun _ => none) rulesShakmaty kings)
      (new ⟨[], true⟩ none (some 0))).1).isOk = false := by decide +kernel
  rw [ho] at hfail
  cases hfail

end SharedFileCache

end ChessEgt
