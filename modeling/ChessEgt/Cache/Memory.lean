import ChessEgt.Error

/-!
# Accounting of cached frames

* `CacheMemory` — the recorded frames, and the bytes that they take;
* `CacheMemory.recordAccess`, `CacheMemory.victim`, `CacheMemory.remove`, `CacheMemory.forget` —
  the steps taken under the lock of the memory.
-/

namespace ChessEgt

/-- A frame of a shared file, which is known by its address. -/
structure FrameKey where
  file : ℕ
  frame : ℕ
  deriving DecidableEq, Repr

/-- A recorded frame. Its file is held weakly. -/
structure CachedFrame where
  file : ℕ
  bytes : ℕ
  lastUsed : UInt64
  deriving DecidableEq, Repr

structure CacheMemory where
  assigned : Option ℕ
  resident : ℕ
  clock : UInt64
  /-- The recorded frames, each key once. -/
  frames : List (FrameKey × CachedFrame)
  deriving DecidableEq, Repr

namespace CacheMemory

/-- No frame is recorded. -/
def new (assigned : Option ℕ) : CacheMemory := ⟨assigned, 0, 0, []⟩

variable (self : CacheMemory)

/-- The record of a frame. -/
def find (key : FrameKey) : Option CachedFrame :=
  (self.frames.find? fun e => e.1 = key).map (·.2)

/-- Whether the recorded frames take more than the assigned memory. -/
def overLimit : Bool := self.assigned.any fun limit => limit < self.resident

/-- The record of a frame after an access. -/
def touch (key : FrameKey) (clock : UInt64) (e : FrameKey × CachedFrame) :
    FrameKey × CachedFrame :=
  if e.1 = key then (e.1, { e.2 with lastUsed := clock }) else e

/-- Records an access. The frames are in memory, so that their bytes do not overflow. -/
def recordAccess (file frame bytes : ℕ) : CacheMemory :=
  let key : FrameKey := ⟨file, frame⟩
  let clock := self.clock + 1
  match self.find key with
  | some _ => { self with
      clock := clock
      frames := self.frames.map (touch key clock) }
  | none => { self with
      clock := clock
      resident := self.resident + bytes
      frames := self.frames ++ [(key, ⟨file, bytes, clock⟩)] }

/-- The frame whose last access is the oldest. -/
def victim : Option (FrameKey × CachedFrame) :=
  self.frames.argmin fun e => e.2.lastUsed.toNat

/-- Whether a frame has not been accessed since. -/
def untouched (key : FrameKey) (lastUsed : UInt64) : Bool :=
  (self.find key).map (·.lastUsed) = some lastUsed

/-- Removes the record of a frame. -/
def remove (key : FrameKey) : Run CacheMemory :=
  match self.find key with
  | none => .error (.error (.internal "cache frame missing during eviction"))
  | some frame => do
    let resident ← Run.sub self.resident frame.bytes
    pure { self with resident := resident, frames := self.frames.filter (·.1 ≠ key) }

/-- Removes the records of a file. -/
def forget (file : ℕ) : Run CacheMemory := do
  let released := ((self.frames.filter (·.1.file = file)).map (·.2.bytes)).sum
  let resident ← Run.sub self.resident released
  pure { self with resident := resident, frames := self.frames.filter (·.1.file ≠ file) }

/-! ### Consistent accounts -/

/-- **Consistent accounts**: each frame is recorded once, under its file, and its bytes are
    counted. -/
structure Accounted (memory : CacheMemory) : Prop where
  nodup : (memory.frames.map (·.1)).Nodup
  file : ∀ e ∈ memory.frames, e.2.file = e.1.file
  resident : memory.resident = (memory.frames.map (·.2.bytes)).sum

variable {self}

theorem accounted_new (assigned : Option ℕ) : (new assigned).Accounted :=
  ⟨List.nodup_nil, fun e he => absurd he List.not_mem_nil, rfl⟩

@[simp] theorem touch_fst (key : FrameKey) (clock : UInt64) (e : FrameKey × CachedFrame) :
    (touch key clock e).1 = e.1 := by
  unfold touch; split <;> rfl

@[simp] theorem touch_bytes (key : FrameKey) (clock : UInt64) (e : FrameKey × CachedFrame) :
    (touch key clock e).2.bytes = e.2.bytes := by
  unfold touch; split <;> rfl

@[simp] theorem touch_file (key : FrameKey) (clock : UInt64) (e : FrameKey × CachedFrame) :
    (touch key clock e).2.file = e.2.file := by
  unfold touch; split <;> rfl

theorem touch_of_ne {key : FrameKey} {clock : UInt64} {e : FrameKey × CachedFrame}
    (h : e.1 ≠ key) : touch key clock e = e := if_neg h

theorem find_eq_none {key : FrameKey} : self.find key = none ↔ ∀ e ∈ self.frames, e.1 ≠ key := by
  unfold find
  rw [Option.map_eq_none_iff, List.find?_eq_none]
  simp

theorem mem_of_find {key : FrameKey} {frame : CachedFrame} (h : self.find key = some frame) :
    (key, frame) ∈ self.frames := by
  obtain ⟨e, he, rfl⟩ := Option.map_eq_some_iff.mp h
  have hkey := List.find?_some he
  rw [decide_eq_true_eq] at hkey
  rw [← hkey]
  exact List.mem_of_find?_eq_some he

theorem eq_of_key {frames : List (FrameKey × CachedFrame)} (h : (frames.map (·.1)).Nodup)
    {e e' : FrameKey × CachedFrame} (he : e ∈ frames) (he' : e' ∈ frames) (hkey : e.1 = e'.1) :
    e = e' := List.inj_on_of_nodup_map h he he' hkey

theorem Accounted.find_of_mem (h : self.Accounted) {e : FrameKey × CachedFrame}
    (he : e ∈ self.frames) : self.find e.1 = some e.2 := by
  cases hfind : self.find e.1 with
  | none => exact absurd rfl (find_eq_none.mp hfind e he)
  | some frame => rw [← eq_of_key h.nodup (mem_of_find hfind) he rfl]

/-- The frames that are recorded after an access. -/
theorem mem_recordAccess {file frame bytes : ℕ} {e : FrameKey × CachedFrame}
    (he : e ∈ (self.recordAccess file frame bytes).frames) :
    e.1 = ⟨file, frame⟩ ∨ e ∈ self.frames := by
  unfold recordAccess at he
  dsimp only at he
  split at he
  · obtain ⟨e', he', rfl⟩ := List.mem_map.mp he
    by_cases hkey : e'.1 = ⟨file, frame⟩
    · rw [touch_fst]
      exact Or.inl hkey
    · rw [touch_of_ne hkey]
      exact Or.inr he'
  · rcases List.mem_append.mp he with he | he
    · exact Or.inr he
    · rw [List.mem_singleton] at he
      exact Or.inl (congrArg Prod.fst he)

/-- **An access** keeps the accounts consistent. -/
theorem Accounted.recordAccess (h : self.Accounted) (file frame bytes : ℕ) :
    (self.recordAccess file frame bytes).Accounted := by
  unfold CacheMemory.recordAccess
  dsimp only
  split
  · -- The frame is recorded already.
    refine ⟨?_, fun e he => ?_, ?_⟩
    · dsimp only
      have hfst : (fun e : FrameKey × CachedFrame => e.1) ∘ touch ⟨file, frame⟩ (self.clock + 1)
          = (·.1) := funext fun e => touch_fst _ _ e
      rw [List.map_map, hfst]
      exact h.nodup
    · obtain ⟨e', he', rfl⟩ := List.mem_map.mp he
      rw [touch_fst, touch_file]
      exact h.file e' he'
    · dsimp only
      have hbytes : (fun e : FrameKey × CachedFrame => e.2.bytes) ∘
          touch ⟨file, frame⟩ (self.clock + 1) = (·.2.bytes) := funext fun e => touch_bytes _ _ e
      rw [List.map_map, hbytes]
      exact h.resident
  · rename_i hfind
    rw [find_eq_none] at hfind
    refine ⟨?_, fun e he => ?_, ?_⟩
    · dsimp only
      rw [List.map_append, List.map_singleton]
      apply List.Nodup.append h.nodup (List.nodup_singleton _)
      rw [List.disjoint_singleton]
      intro hmem
      obtain ⟨e, he, hkey⟩ := List.mem_map.mp hmem
      exact hfind e he hkey
    · rcases List.mem_append.mp he with he | he
      · exact h.file e he
      · rw [List.mem_singleton.mp he]
    · dsimp only
      rw [List.map_append, List.sum_append, h.resident]
      rfl

/-- The bytes of a list are those of a part and of the rest. -/
theorem sum_filter_add (frames : List (FrameKey × CachedFrame)) (p : FrameKey × CachedFrame → Bool) :
    ((frames.filter p).map (·.2.bytes)).sum + ((frames.filter (!p ·)).map (·.2.bytes)).sum
      = (frames.map (·.2.bytes)).sum := by
  induction frames with
  | nil => rfl
  | cons e frames ih =>
    rw [List.map_cons, List.sum_cons, ← ih]
    by_cases hp : p e = true
    · rw [List.filter_cons_of_pos hp, List.filter_cons_of_neg (by simp [hp]), List.map_cons,
        List.sum_cons]
      omega
    · rw [List.filter_cons_of_neg hp, List.filter_cons_of_pos (by simp [hp]), List.map_cons,
        List.sum_cons]
      omega

/-- Some records are dropped, with their bytes. -/
theorem Accounted.drop (h : self.Accounted) (p : FrameKey × CachedFrame → Bool) :
    ((self.frames.filter p).map (·.2.bytes)).sum ≤ self.resident ∧
      Accounted { self with
        resident := self.resident - ((self.frames.filter p).map (·.2.bytes)).sum
        frames := self.frames.filter (!p ·) } := by
  have hsum := sum_filter_add self.frames p
  rw [← h.resident] at hsum
  refine ⟨by omega, ?_, fun e he => h.file e (List.mem_filter.mp he).1, ?_⟩
  · exact h.nodup.sublist (List.filter_sublist.map _)
  · dsimp only
    omega

/-- **Removing** a recorded frame does not underflow. -/
theorem Accounted.remove (h : self.Accounted) {e : FrameKey × CachedFrame} (he : e ∈ self.frames) :
    ∃ memory, self.remove e.1 = .ok memory ∧ memory.Accounted ∧ memory.assigned = self.assigned ∧
      memory.clock = self.clock ∧ memory.frames = self.frames.filter (·.1 ≠ e.1) ∧
      memory.resident = self.resident - e.2.bytes ∧ e.2.bytes ≤ self.resident := by
  obtain ⟨hle, hdrop⟩ := h.drop fun e' => e'.1 = e.1
  -- Only one frame has the key.
  have hone : self.frames.filter (fun e' => e'.1 = e.1) = [e] := by
    have hnd : (self.frames.filter fun e' => e'.1 = e.1).Nodup :=
      (List.Nodup.of_map _ h.nodup).filter _
    refine List.perm_singleton.mp ((List.perm_ext_iff_of_nodup hnd (List.nodup_singleton e)).mpr
      fun e' => ?_)
    rw [List.mem_filter, List.mem_singleton, decide_eq_true_eq]
    constructor
    · exact fun ⟨hm, hkey⟩ => eq_of_key h.nodup hm he hkey
    · rintro rfl
      exact ⟨he, rfl⟩
  rw [hone] at hle hdrop
  have hsum : ([e].map (·.2.bytes)).sum = e.2.bytes := by simp
  rw [hsum] at hle hdrop
  unfold CacheMemory.remove
  rw [h.find_of_mem he]
  dsimp only
  rw [Run.sub_eq hle, Run.ok_bind]
  refine ⟨_, rfl, ?_, rfl, rfl, rfl, rfl, hle⟩
  have hfilter : self.frames.filter (fun e' => !decide (e'.1 = e.1))
      = self.frames.filter (fun e' => decide (e'.1 ≠ e.1)) := by
    refine List.filter_congr fun e' _ => ?_
    simp
  rw [hfilter] at hdrop
  exact hdrop

/-- **Forgetting** a file does not underflow. -/
theorem Accounted.forget (h : self.Accounted) (file : ℕ) :
    ∃ memory, self.forget file = .ok memory ∧ memory.Accounted ∧ memory.assigned = self.assigned ∧
      memory.frames = self.frames.filter (·.1.file ≠ file) := by
  obtain ⟨hle, hdrop⟩ := h.drop fun e => e.1.file = file
  unfold CacheMemory.forget
  dsimp only
  rw [Run.sub_eq hle, Run.ok_bind]
  refine ⟨_, rfl, ?_, rfl, rfl⟩
  have hfilter : self.frames.filter (fun e => !decide (e.1.file = file))
      = self.frames.filter (fun e => decide (e.1.file ≠ file)) := by
    refine List.filter_congr fun e' _ => ?_
    simp
  rw [hfilter] at hdrop
  exact hdrop

/-- Memory over its limit has a victim. -/
theorem Accounted.exists_victim (h : self.Accounted) (hover : self.overLimit = true) :
    ∃ e ∈ self.frames, self.victim = some e ∧
      ∀ e' ∈ self.frames, e.2.lastUsed.toNat ≤ e'.2.lastUsed.toNat := by
  have hne : self.frames ≠ [] := by
    intro hnil
    have hzero : self.resident = 0 := by rw [h.resident, hnil]; rfl
    unfold overLimit at hover
    rw [Option.any_eq_true] at hover
    obtain ⟨limit, -, hlt⟩ := hover
    rw [decide_eq_true_eq] at hlt
    omega
  cases hv : self.victim with
  | none => exact absurd (List.argmin_eq_none.mp hv) hne
  | some e =>
    exact ⟨e, List.argmin_mem hv, rfl, fun e' he' =>
      List.le_of_mem_argmin (f := fun e : FrameKey × CachedFrame => e.2.lastUsed.toNat) he' hv⟩

end CacheMemory

end ChessEgt
