import ChessEgt.Cache.Files
import ChessEgt.Storage.Cold
import ChessEgt.Storage.Finalized

/-!
# Coherent caches

* `Coherent` — registered files are alive and opened, and recorded frames are warm;
* `view` — the table that a name stands for, with all frames cold: what a probe depends on;
* `At` — coherent caches of one view, which all operations keep;
* `At.file`, `At.recordAccess`, `At.setReader`, `At.enforceLimit` — the steps of the operations.
-/

namespace ChessEgt

section

variable [Codec] {store : Store}

/-! ### Opened readers -/

theorem loadSeekTable_eq_ok {self r : EgtFileReader} (h : self.loadSeekTable store = .ok r) :
    ∃ table, r = { self with seekTable := some table } := by
  unfold EgtFileReader.loadSeekTable at h
  obtain ⟨⟨start, bytes⟩, -, h⟩ := Run.bind_eq_ok.mp h
  dsimp only at h
  split at h
  · cases h
  split at h
  · cases h
  split at h
  · cases h
  split at h
  · cases h
  obtain ⟨_, -, h⟩ := Run.bind_eq_ok.mp h
  exact ⟨_, (Except.ok.inj h).symm⟩

/-- An opened reader has its frames on disk. -/
theorem onDisk_of_openIn {location : Location} {name : List Char} {r : EgtFileReader}
    (h : EgtFileReader.openIn store location name = .ok r) : OnDisk store r := by
  obtain ⟨reader, hreader, h⟩ := Run.bind_eq_ok.mp h
  obtain ⟨_, -, h⟩ := Run.bind_eq_ok.mp h
  obtain ⟨loaded, hloaded, h⟩ := Run.bind_eq_ok.mp h
  obtain ⟨table, rfl⟩ := loadSeekTable_eq_ok hloaded
  obtain ⟨M, hc⟩ := constructed_of_ok hreader
  rw [← Except.ok.inj h]
  refine ⟨?_, hc.layout, ?_, rfl, fun k vs hk => ?_⟩
  · dsimp only
    rw [hc.frameSize]
    exact frameSize_pos
  · dsimp only
    rw [List.length_replicate, hc.frames, List.length_replicate]
  · exact absurd (List.eq_of_mem_replicate (List.mem_of_getElem? hk)) (by simp)

theorem onDisk_of_loadExistingFile {base : Location} {input : Option Location} {name : List Char}
    {r : EgtFileReader} (h : loadExistingFile store base input name = .ok r) : OnDisk store r := by
  unfold loadExistingFile at h
  split at h
  · exact onDisk_of_openIn h
  · split at h
    · rename_i hopen
      rw [← Except.ok.inj h]
      exact onDisk_of_openIn hopen
    · exact onDisk_of_openIn h
    · cases h

namespace SharedFileCache

/-! ### Coherence -/

/-- **Coherent caches**: the registered files are alive and opened, and the recorded frames of
    files that are alive are warm. -/
structure Coherent [Codec] (store : Store) (cache : SharedFileCache) : Prop where
  accounted : cache.cache.Accounted
  registered : ∀ name addr, cache.files name = some addr → ∃ r, cache.readers addr = some r
  unique : ∀ name name' addr, cache.files name = some addr → cache.files name' = some addr →
    name = name'
  disk : ∀ addr r, cache.readers addr = some r → OnDisk store r
  fresh : ∀ addr, cache.nextFile ≤ addr → cache.readers addr = none
  recorded : ∀ e ∈ cache.cache.frames, e.1.file < cache.nextFile ∧
    ∀ r, cache.readers e.1.file = some r → r.IsWarm e.1.frame

/-- The table of a name, with all frames cold. -/
def view (store : Store) (self : SharedFileCache) (name : List Char) : Run EgtFileReader :=
  match self.files name with
  | some addr => (Run.expect (self.readers addr) "dangling file").map EgtFileReader.cold
  | none => (loadExistingFile store self.basePath self.inputPath name).map EgtFileReader.cold

/-- A coherent cache of a view. -/
def At (store : Store) (v : List Char → Run EgtFileReader) (cache : SharedFileCache) : Prop :=
  Coherent store cache ∧ cache.view store = v

/-- A cache in which a file is held whose reader is `r₀` with some frames warm. -/
def Held (store : Store) (v : List Char → Run EgtFileReader) (file : ℕ) (r₀ : EgtFileReader)
    (cache : SharedFileCache) : Prop :=
  At store v cache ∧ ∃ r, cache.readers file = some r ∧ r.cold = r₀

variable {v : List Char → Run EgtFileReader} {cache : SharedFileCache} {addr : ℕ} {r₀ : EgtFileReader}

/-- A new cache is coherent. -/
theorem coherent_new (base : Location) (input : Option Location) (size : Option ℕ) :
    Coherent store (new base input size) where
  accounted := CacheMemory.accounted_new size
  registered name addr h := by cases h
  unique name name' addr h := by cases h
  disk addr r h := by cases h
  fresh _ _ := rfl
  recorded e he := absurd he List.not_mem_nil

/-- A reader may get warmer. -/
theorem At.setReader (h : At store v cache) {r r' : EgtFileReader} (hr : cache.readers addr = some r)
    (hdisk : OnDisk store r') (hcold : r'.cold = r.cold) (hwarm : ∀ k, r.IsWarm k → r'.IsWarm k) :
    At store v { cache with readers := Function.update cache.readers addr (some r') } := by
  obtain ⟨hc, hv⟩ := h
  refine ⟨⟨hc.accounted, fun name i hi => ?_, hc.unique, fun i x hx => ?_, fun i hi => ?_,
    fun e he => ?_⟩, ?_⟩
  · obtain ⟨x, hx⟩ := hc.registered name i hi
    by_cases hid : i = addr
    · subst hid
      exact ⟨r', Function.update_self _ _ _⟩
    · exact ⟨x, (Function.update_of_ne hid _ _).trans hx⟩
  · dsimp only at hx
    by_cases hid : i = addr
    · subst hid
      rw [Function.update_self] at hx
      rw [← Option.some.inj hx]
      exact hdisk
    · rw [Function.update_of_ne hid] at hx
      exact hc.disk i x hx
  · dsimp only
    rw [Function.update_of_ne]
    · exact hc.fresh i hi
    · rintro rfl
      rw [hc.fresh i hi] at hr
      cases hr
  · obtain ⟨hlt, hrec⟩ := hc.recorded e he
    refine ⟨hlt, fun x hx => ?_⟩
    dsimp only at hx
    by_cases hid : e.1.file = addr
    · rw [hid, Function.update_self] at hx
      rw [← Option.some.inj hx]
      exact hwarm _ (hrec r (by rw [hid]; exact hr))
    · rw [Function.update_of_ne hid] at hx
      exact hrec x hx
  · rw [← hv]
    funext name
    unfold view
    dsimp only
    cases cache.files name with
    | none => rfl
    | some i =>
      dsimp only
      by_cases hid : i = addr
      · subst hid
        rw [Function.update_self, hr]
        exact congrArg Except.ok hcold
      · rw [Function.update_of_ne hid]

/-- An access to a warm frame may be recorded. -/
theorem At.recordAccess (h : At store v cache) {r : EgtFileReader} (hr : cache.readers addr = some r)
    {frame : ℕ} (hwarm : r.IsWarm frame) (bytes : ℕ) :
    At store v { cache with cache := cache.cache.recordAccess addr frame bytes } := by
  obtain ⟨hc, hv⟩ := h
  refine ⟨⟨hc.accounted.recordAccess addr frame bytes, hc.registered, hc.unique, hc.disk, hc.fresh,
    fun e he => ?_⟩, hv⟩
  rcases CacheMemory.mem_recordAccess he with hkey | he
  · rw [hkey]
    refine ⟨?_, fun x hx => ?_⟩
    · by_contra hge
      rw [hc.fresh addr (Nat.le_of_not_lt hge)] at hr
      cases hr
    · dsimp only at hx
      rw [hr] at hx
      rw [← Option.some.inj hx]
      exact hwarm
  · exact hc.recorded e he

/-- A file may be opened and registered. -/
theorem Coherent.register (h : Coherent store cache) {r : EgtFileReader} (hr : OnDisk store r)
    (name : List Char) : Coherent store (cache.register name r) := by
  -- A registered file has an address that has been given away.
  have hlt : ∀ name' i, cache.files name' = some i → i ≠ cache.nextFile := by
    rintro name' i hi rfl
    obtain ⟨x, hx⟩ := h.registered name' _ hi
    rw [h.fresh _ le_rfl] at hx
    cases hx
  refine ⟨h.accounted, fun name' i hi => ?_, fun n n' i hn hn' => ?_, fun i x hx => ?_,
    fun i hi => ?_, fun e he => ?_⟩
  · unfold SharedFileCache.register at hi ⊢
    dsimp only at hi ⊢
    by_cases hname : name' = name
    · subst hname
      rw [Function.update_self] at hi
      rw [← Option.some.inj hi, Function.update_self]
      exact ⟨r, rfl⟩
    · rw [Function.update_of_ne hname] at hi
      rw [Function.update_of_ne (hlt name' i hi)]
      exact h.registered name' i hi
  · unfold SharedFileCache.register at hn hn'
    dsimp only at hn hn'
    by_cases h₁ : n = name <;> by_cases h₂ : n' = name
    · rw [h₁, h₂]
    · rw [h₁, Function.update_self] at hn
      rw [Function.update_of_ne h₂] at hn'
      exact absurd (Option.some.inj hn).symm (hlt n' i hn')
    · rw [h₂, Function.update_self] at hn'
      rw [Function.update_of_ne h₁] at hn
      exact absurd (Option.some.inj hn').symm (hlt n i hn)
    · rw [Function.update_of_ne h₁] at hn
      rw [Function.update_of_ne h₂] at hn'
      exact h.unique n n' i hn hn'
  · unfold SharedFileCache.register at hx
    dsimp only at hx
    by_cases hid : i = cache.nextFile
    · rw [hid, Function.update_self] at hx
      rw [← Option.some.inj hx]
      exact hr
    · rw [Function.update_of_ne hid] at hx
      exact h.disk i x hx
  · unfold SharedFileCache.register at hi ⊢
    dsimp only at hi ⊢
    rw [Function.update_of_ne (by omega)]
    exact h.fresh i (by omega)
  · obtain ⟨hlt, hrec⟩ := h.recorded e he
    unfold SharedFileCache.register
    dsimp only
    refine ⟨by omega, fun x hx => ?_⟩
    rw [Function.update_of_ne (by omega)] at hx
    exact hrec x hx

/-- Opening a table does not change any view. -/
theorem At.register (h : At store v cache) {name : List Char} (hname : cache.files name = none)
    {r : EgtFileReader} (hr : loadExistingFile store cache.basePath cache.inputPath name = .ok r) :
    Held store v cache.nextFile r.cold (cache.register name r) := by
  obtain ⟨hc, hv⟩ := h
  refine ⟨⟨hc.register (onDisk_of_loadExistingFile hr) name, ?_⟩, r, ?_, rfl⟩
  · rw [← hv]
    funext name'
    unfold view SharedFileCache.register
    dsimp only
    by_cases hn : name' = name
    · subst hn
      rw [Function.update_self, hname, hr]
      dsimp only
      rw [Function.update_self]
      rfl
    · rw [Function.update_of_ne hn]
      cases hfile : cache.files name' with
      | none => rfl
      | some i =>
        obtain ⟨x, hx⟩ := hc.registered name' i hfile
        dsimp only
        rw [Function.update_of_ne]
        rintro rfl
        rw [hc.fresh _ le_rfl] at hx
        cases hx
  · unfold SharedFileCache.register
    exact Function.update_self _ _ _

/-! ### Steps -/

open Op

omit [Codec] in
theorem exec_readFile {r : EgtFileReader} (h : cache.readers addr = some r) :
    exec (readFile addr) cache = (.ok r, cache) := by
  unfold readFile
  rw [exec_bind_ok (exec_get cache), exec_lift, h, Run.expect_some]

omit [Codec] in
theorem exec_setReader (addr : ℕ) (r : EgtFileReader) (cache : SharedFileCache) :
    exec (setReader addr r) cache = (.ok ⟨⟩, { cache with
      readers := Function.update cache.readers addr (some r) }) := rfl

/-- **Opening** gives the table of the view. -/
theorem file_triple (store : Store) (v : List Char → Run EgtFileReader) (name : List Char) :
    Triple (At store v) (file store name) (Post (fun addr s => ∃ r₀, v name = .ok r₀ ∧
      Held store v addr r₀ s) fun e s => At store v s ∧ v name = .error e) := by
  refine Triple.get_bind fun s hs => ?_
  cases hfile : s.files name with
  | some addr =>
    obtain ⟨r, hr⟩ := hs.1.registered name addr hfile
    refine ⟨r.cold, ?_, hs, r, hr, rfl⟩
    rw [← hs.2]
    unfold view
    rw [hfile]
    dsimp only
    rw [hr]
    rfl
  | none =>
    have hview : v name = (loadExistingFile store s.basePath s.inputPath name).map EgtFileReader.cold := by
      rw [← hs.2]
      unfold view
      rw [hfile]
    dsimp only
    rcases hload : loadExistingFile store s.basePath s.inputPath name with e | r
    · rw [exec_bind, exec_lift]
      refine ⟨hs, ?_⟩
      rw [hview, hload]
      rfl
    · rw [exec_bind, exec_lift]
      dsimp only
      rw [exec_bind, exec_set]
      dsimp only
      rw [exec_pure]
      refine ⟨r.cold, ?_, hs.register hfile hload⟩
      rw [hview, hload]
      rfl

end SharedFileCache

end

end ChessEgt
