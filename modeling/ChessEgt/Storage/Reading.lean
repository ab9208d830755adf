import ChessEgt.Storage.Cold

/-!
# Reading on demand

* `Backed` — a reader over the stored outcomes of its table: frames that are decompressed hold
  them, and the others decode to them;
* `Backed.ensureUncompressed`, `Backed.ensureUncompressedFrames` — loading keeps this;
* `Backed.readFromIndex`, `Backed.frameChunk`, `Backed.readIndices` — so that every way to read
  returns the stored outcomes.
-/

namespace ChessEgt

/-- The outcomes of a frame. -/
def frameValues (frameSize : ℕ) (values : List MaybeDtcOutcome) (k : ℕ) : List MaybeDtcOutcome :=
  (values.drop (k * frameSize)).take frameSize

theorem length_frameValues (frameSize : ℕ) (values : List MaybeDtcOutcome) (k : ℕ) :
    (frameValues frameSize values k).length = min frameSize (values.length - k * frameSize) := by
  rw [frameValues, List.length_take, List.length_drop]

theorem getElem?_frameValues {frameSize : ℕ} (hf : 0 < frameSize) (values : List MaybeDtcOutcome)
    (i : ℕ) : (frameValues frameSize values (i / frameSize))[i % frameSize]? = values[i]? := by
  rw [frameValues, List.getElem?_take_of_lt (Nat.mod_lt _ hf), List.getElem?_drop, Nat.mul_comm,
    Nat.div_add_mod]

/-- The stored bytes of a frame decode to its outcomes. -/
def StoresFrame [Codec] (store : Store) (self : EgtFileReader) (table : SeekTable)
    (values : List MaybeDtcOutcome) (k : ℕ) : Prop :=
  ∃ start stop bytes, table.frameStartComp k = .ok start ∧ table.frameEndComp k = .ok stop ∧
    store.getRange self.key (start, stop) = .ok bytes ∧ bytes.length = stop - start ∧
    decodeFrame bytes (min self.frameSize (self.indexRange - k * self.frameSize))
      = .ok (frameValues self.frameSize values k)

/-- A reader over the stored outcomes of its table. -/
structure Backed [Codec] (store : Store) (values : List MaybeDtcOutcome) (reader : EgtFileReader) :
    Prop where
  pos : 0 < reader.frameSize
  length : values.length = reader.indexRange
  layout : reader.frameLayout = frameLayout reader.frameSize reader.indexRange
  frames : reader.frames.length = reader.frameLayout.length
  resident : ∀ k vs, reader.frames[k]? = some (some vs) → vs = frameValues reader.frameSize values k
  stored : ∃ table, reader.seekTable = some table ∧
    ∀ k, k * reader.frameSize < reader.indexRange → StoresFrame store reader table values k

namespace Backed

variable [Codec] {store : Store} {values : List MaybeDtcOutcome} {self : EgtFileReader}

theorem lt_frames (h : Backed store values self) {k : ℕ} :
    k < self.frames.length ↔ k * self.frameSize < self.indexRange := by
  rw [h.frames, h.layout, length_frameLayout, Pieces.lt_count h.pos]

theorem descriptor (h : Backed store values self) {k : ℕ}
    (hk : k * self.frameSize < self.indexRange) : Run.index self.frameLayout k
      = .ok ⟨k * self.frameSize, min self.frameSize (self.indexRange - k * self.frameSize)⟩ := by
  rw [h.layout]
  exact Run.index_eq (getElem?_frameLayout h.pos hk)

/-- A frame may be decompressed, if it gets its outcomes. -/
theorem setFrame (h : Backed store values self) (k : ℕ) :
    Backed store values (self.setFrame k (frameValues self.frameSize values k)) where
  pos := h.pos
  length := h.length
  layout := h.layout
  frames := by rw [EgtFileReader.setFrame_frames, List.length_set]; exact h.frames
  resident j vs hj := by
    rw [EgtFileReader.setFrame_frames] at hj
    by_cases hjk : k = j
    · subst hjk
      rw [List.getElem?_set_self'] at hj
      obtain ⟨o, -, ho⟩ := Option.map_eq_some_iff.mp hj
      exact (Option.some.inj ho).symm
    · rw [List.getElem?_set_ne hjk] at hj
      exact h.resident j vs hj
  stored := h.stored

/-- The reader after a frame is needed. -/
theorem ensureUncompressed (h : Backed store values self) {k : ℕ}
    (hk : k * self.frameSize < self.indexRange) :
    ∃ r, self.ensureUncompressed store k = .ok r ∧ Backed store values r ∧
      (r = self ∨ r = self.setFrame k (frameValues self.frameSize values k)) ∧
      r.frames[k]? = some (some (frameValues self.frameSize values k)) := by
  have hlt := h.lt_frames.mpr hk
  obtain ⟨o, ho⟩ : ∃ o, self.frames[k]? = some o := ⟨_, List.getElem?_eq_getElem hlt⟩
  unfold EgtFileReader.ensureUncompressed
  rw [EgtFileReader.resident_eq ho, Run.ok_bind]
  cases o with
  | some vs =>
    rw [h.resident k vs ho] at ho
    exact ⟨self, rfl, h, Or.inl rfl, ho⟩
  | none =>
    obtain ⟨table, htable, hstored⟩ := h.stored
    obtain ⟨start, stop, bytes, hstart, hstop, hget, hlen, hdecode⟩ := hstored k hk
    refine ⟨_, ?_, h.setFrame k, Or.inr rfl, ?_⟩
    · rw [h.descriptor hk, htable]
      simp only [Option.isSome_none, Bool.false_eq_true, if_false, Run.ok_bind, hstart, hstop,
        hget, hlen, ne_eq, not_true_eq_false, hdecode, Run.pure_eq_ok]
    · rw [EgtFileReader.setFrame_frames, List.getElem?_set_self hlt]

theorem getFrameData (h : Backed store values self) {k : ℕ}
    (hk : k * self.frameSize < self.indexRange) :
    ∃ r, self.getFrameData store k = .ok (r, frameValues self.frameSize values k) ∧
      Backed store values r := by
  obtain ⟨r, hr, hb, -, hget⟩ := h.ensureUncompressed hk
  refine ⟨r, ?_, hb⟩
  unfold EgtFileReader.getFrameData
  rw [hr, Run.ok_bind, EgtFileReader.resident_eq hget, Run.ok_bind]
  rfl

theorem checkIndex (h : Backed store values self) {i : ℕ} {v : MaybeDtcOutcome}
    (hv : values[i]? = some v) : self.checkIndex i = .ok () ∧
      locateFrame self.frameLayout i = .ok (i / self.frameSize, i % self.frameSize) ∧
      i / self.frameSize * self.frameSize < self.indexRange := by
  have hi : i < self.indexRange := by
    rw [← h.length]
    exact (List.getElem?_eq_some_iff.mp hv).1
  refine ⟨if_neg (by omega), ?_, (Nat.div_mul_le_self _ _).trans_lt hi⟩
  rw [h.layout]
  exact locateFrame_eq h.pos hi

/-- **A single read** returns the stored outcome. -/
theorem readFromIndex (h : Backed store values self) {i : ℕ} {v : MaybeDtcOutcome}
    (hv : values[i]? = some v) :
    ∃ r, self.readFromIndex store i = .ok (r, v) ∧ Backed store values r := by
  obtain ⟨hcheck, hlocate, hk⟩ := h.checkIndex hv
  obtain ⟨r, hr, hb⟩ := h.getFrameData hk
  refine ⟨r, ?_, hb⟩
  have hindex := Run.index_eq ((getElem?_frameValues h.pos values i).trans hv)
  unfold EgtFileReader.readFromIndex
  simp only [hcheck, hlocate, hr, hindex, Run.ok_bind]
  rfl

/-- A read that finds its frame cold returns nothing. -/
theorem readFromIndexCached (h : Backed store values self) {i : ℕ} {v : MaybeDtcOutcome}
    (hv : values[i]? = some v) : self.readFromIndexCached i
      = .ok (if (self.frames[i / self.frameSize]?.join).isSome then some v else none) := by
  obtain ⟨hcheck, hlocate, hk⟩ := h.checkIndex hv
  obtain ⟨o, ho⟩ : ∃ o, self.frames[i / self.frameSize]? = some o :=
    ⟨_, List.getElem?_eq_getElem (h.lt_frames.mpr hk)⟩
  have hindex := Run.index_eq ((getElem?_frameValues h.pos values i).trans hv)
  unfold EgtFileReader.readFromIndexCached
  simp only [hcheck, hlocate, EgtFileReader.resident_eq ho, ho, Run.ok_bind]
  cases o with
  | none => rfl
  | some vs =>
    rw [h.resident _ vs ho]
    simp only [hindex]
    rfl

/-- A range within one frame. -/
theorem locateChunk (h : Backed store values self) {start stop : ℕ} (hlt : start < stop)
    (hstop : stop ≤ self.indexRange)
    (hone : start % self.frameSize + (stop - start) ≤ self.frameSize) :
    self.checkChunk start stop = .ok () ∧
      self.locateChunk start stop = .ok (start / self.frameSize, start % self.frameSize) ∧
      start / self.frameSize * self.frameSize < self.indexRange ∧
      start % self.frameSize + (stop - start)
        ≤ (frameValues self.frameSize values (start / self.frameSize)).length ∧
      ((frameValues self.frameSize values (start / self.frameSize)).drop
          (start % self.frameSize)).take (stop - start) = (values.drop start).take (stop - start) := by
  obtain ⟨v, hv⟩ : ∃ v, values[start]? = some v :=
    ⟨_, List.getElem?_eq_getElem (by rw [h.length]; omega)⟩
  obtain ⟨-, hlocate, hk⟩ := h.checkIndex hv
  have hmod := Nat.div_add_mod start self.frameSize
  rw [Nat.mul_comm] at hmod
  have hlen : start % self.frameSize + (stop - start)
      ≤ min self.frameSize (self.indexRange - start / self.frameSize * self.frameSize) := by
    omega
  refine ⟨if_neg (by omega), ?_, hk, ?_, ?_⟩
  · unfold EgtFileReader.locateChunk
    simp only [hlocate, h.descriptor hk, Run.ok_bind]
    rw [Run.sub_eq (by omega), Run.ok_bind, if_neg (by omega)]
    rfl
  · rw [length_frameValues, h.length]
    exact hlen
  · rw [frameValues, List.drop_take, List.take_take, List.drop_drop, hmod,
      Nat.min_eq_left (by omega)]

/-- A range that is located lies within one frame. -/
theorem chunk_le (h : Backed store values self) {start stop : ℕ} (hlt : start < stop)
    (hstop : stop ≤ self.indexRange) {x : ℕ × ℕ} (hx : self.locateChunk start stop = .ok x) :
    start % self.frameSize + (stop - start) ≤ self.frameSize := by
  obtain ⟨v, hv⟩ : ∃ v, values[start]? = some v :=
    ⟨_, List.getElem?_eq_getElem (by rw [h.length]; omega)⟩
  obtain ⟨-, hlocate, hk⟩ := h.checkIndex hv
  have hmod := Nat.div_add_mod start self.frameSize
  have hmodlt := Nat.mod_lt start h.pos
  rw [Nat.mul_comm] at hmod
  unfold EgtFileReader.locateChunk at hx
  simp only [hlocate, h.descriptor hk, Run.ok_bind] at hx
  rw [Run.sub_eq (by omega), Run.ok_bind] at hx
  split at hx
  · cases hx
  · omega

/-- **A chunk read** returns the stored outcomes. -/
theorem frameChunk (h : Backed store values self) {start stop : ℕ} (hle : start ≤ stop)
    (hstop : stop ≤ self.indexRange)
    (hone : start % self.frameSize + (stop - start) ≤ self.frameSize) :
    ∃ r, self.frameChunk store start stop = .ok (r, (values.drop start).take (stop - start)) ∧
      Backed store values r := by
  unfold EgtFileReader.frameChunk
  rcases Nat.eq_or_lt_of_le hle with rfl | hlt
  · refine ⟨self, ?_, h⟩
    have hcheck : self.checkChunk start start = .ok () := if_neg (by omega)
    rw [hcheck, Run.ok_bind, if_pos rfl, Nat.sub_self, List.take_zero]
    rfl
  · obtain ⟨hcheck, hlocate, hk, hlen, hvalues⟩ := h.locateChunk hlt hstop hone
    obtain ⟨r, hr, hb⟩ := h.getFrameData hk
    refine ⟨r, ?_, hb⟩
    rw [hcheck, Run.ok_bind, if_neg hlt.ne, hlocate]
    simp only [Run.ok_bind, hr]
    rw [Run.ensure_eq hlen, Run.ok_bind, hvalues]
    rfl

/-! ### Several frames at once -/

theorem installFrames (h : Backed store values self)
    {loaded : List (ℕ × (ℕ × ℕ) × Bytes)}
    (hloaded : ∀ x ∈ loaded, x.1 * self.frameSize < self.indexRange ∧
      x.2.2.length = x.2.1.2 - x.2.1.1 ∧
      decodeFrame x.2.2 (min self.frameSize (self.indexRange - x.1 * self.frameSize))
        = .ok (frameValues self.frameSize values x.1)) :
    ∃ r, EgtFileReader.installFrames loaded self = (r, .ok ()) ∧ Backed store values r ∧
      r.egt = self.egt ∧ r.frameSize = self.frameSize ∧ r.indexRange = self.indexRange ∧
      (∀ k : ℕ, (self.frames[k]?.join).isSome → (r.frames[k]?.join).isSome) ∧
      ∀ x ∈ loaded, (r.frames[x.1]?.join).isSome := by
  induction loaded generalizing self with
  | nil =>
    exact ⟨self, rfl, h, rfl, rfl, rfl, fun _ hk => hk, fun x hx => absurd hx List.not_mem_nil⟩
  | cons x loaded ih =>
    obtain ⟨k, range, bytes⟩ := x
    obtain ⟨hk, hlen, hdecode⟩ := hloaded _ List.mem_cons_self
    dsimp only at hk hlen hdecode
    have hset := h.setFrame k
    obtain ⟨r, hr, hb, h₁, h₂, h₃, hmono, hall⟩ :=
      ih hset fun y hy => hloaded y (List.mem_cons_of_mem _ hy)
    have hself : ((self.setFrame k (frameValues self.frameSize values k)).frames[k]?.join).isSome := by
      rw [EgtFileReader.setFrame_frames, List.getElem?_set_self (h.lt_frames.mpr hk)]
      rfl
    refine ⟨r, ?_, hb, h₁, h₂, h₃, fun j hj => hmono j ?_, fun y hy => ?_⟩
    · rw [EgtFileReader.installFrames]
      have hdecoded : (do
          if bytes.length ≠ range.2 - range.1 then
            throw (.error (.internal "truncated tablebase range"))
          let descriptor ← Run.index self.frameLayout k
          decodeFrame bytes descriptor.len : Run (List MaybeDtcOutcome))
          = .ok (frameValues self.frameSize values k) := by
        rw [if_neg (not_not.mpr hlen), h.descriptor hk]
        exact hdecode
      rw [hdecoded]
      exact hr
    · rw [EgtFileReader.setFrame_frames]
      by_cases hjk : k = j
      · subst hjk
        exact hself
      · rw [List.getElem?_set_ne hjk]
        exact hj
    · rcases List.mem_cons.mp hy with rfl | hy
      · exact hmono k hself
      · exact hall y hy

/-- **A multi-range read** makes all frames decompressed. -/
theorem ensureUncompressedFrames (h : Backed store values self) {frames : List ℕ}
    (hframes : ∀ k ∈ frames, k * self.frameSize < self.indexRange) :
    ∃ r, self.ensureUncompressedFrames store frames = (r, .ok ()) ∧ Backed store values r ∧
      r.egt = self.egt ∧ r.frameSize = self.frameSize ∧ r.indexRange = self.indexRange ∧
      (∀ k : ℕ, (self.frames[k]?.join).isSome → (r.frames[k]?.join).isSome) ∧
      ∀ k ∈ frames, (r.frames[k]?.join).isSome := by
  obtain ⟨table, htable, hstored⟩ := h.stored
  unfold EgtFileReader.ensureUncompressedFrames
  set missing := frames.filter fun frame => self.frames[frame]?.join.isNone with hmissing
  have hwarm : ∀ k ∈ frames, k ∉ missing → (self.frames[k]?.join).isSome := by
    intro k hk hnot
    rw [hmissing, List.mem_filter, not_and] at hnot
    have := hnot hk
    rwa [Bool.not_eq_true, Option.isNone_eq_false_iff] at this
  dsimp only
  by_cases hnone : missing = []
  · rw [if_pos hnone]
    refine ⟨self, rfl, h, rfl, rfl, rfl, fun _ hk => hk, fun k hk => hwarm k hk ?_⟩
    rw [hnone]
    exact List.not_mem_nil
  rw [if_neg hnone, htable]
  -- The ranges of the cold frames, and their bytes.
  have hmem : ∀ k ∈ missing, k ∈ frames := fun k hk => (List.mem_filter.mp hk).1
  choose! start stop bytes hstart hstop hget hlen hdecode using
    fun k (hk : k ∈ missing) => hstored k (hframes k (hmem k hk))
  have hranges : missing.mapM table.frameRange
      = .ok (missing.map fun k => (start k, stop k)) :=
    Run.mapM_eq_ok fun k hk => by
      rw [SeekTable.frameRange, hstart k hk, hstop k hk]
      rfl
  have hbytes : store.getRanges self.key (missing.map fun k => (start k, stop k))
      = .ok ((missing.map fun k => (start k, stop k)).map fun x =>
          ((store.getRange self.key x).toOption.getD [])) := by
    refine Run.mapM_eq_ok fun x hx => ?_
    obtain ⟨k, hk, rfl⟩ := List.mem_map.mp hx
    rw [hget k hk]
    rfl
  have hzip : missing.zip ((missing.map fun k => (start k, stop k)).zip
      ((missing.map fun k => (start k, stop k)).map fun x =>
        ((store.getRange self.key x).toOption.getD [])))
      = missing.map fun k => (k, (start k, stop k), bytes k) := by
    rw [Chunks.zip_map_self, List.map_map, Chunks.zip_map_self]
    refine List.map_congr_left fun k hk => ?_
    rw [Function.comp_apply, hget k hk]
    rfl
  have hloaded : ∀ x ∈ missing.map fun k => (k, (start k, stop k), bytes k),
      x.1 * self.frameSize < self.indexRange ∧ x.2.2.length = x.2.1.2 - x.2.1.1 ∧
      decodeFrame x.2.2 (min self.frameSize (self.indexRange - x.1 * self.frameSize))
        = .ok (frameValues self.frameSize values x.1) := by
    intro x hx
    obtain ⟨k, hk, rfl⟩ := List.mem_map.mp hx
    exact ⟨hframes k (hmem k hk), hlen k hk, hdecode k hk⟩
  obtain ⟨r, hr, hb, h₁, h₂, h₃, hmono, hall⟩ := h.installFrames hloaded
  refine ⟨r, ?_, hb, h₁, h₂, h₃, hmono, fun k hk => ?_⟩
  · have hload : self.loadFrames store table missing
        = .ok (missing.map fun k => (k, (start k, stop k), bytes k)) := by
      unfold EgtFileReader.loadFrames
      rw [hranges, Run.ok_bind, hbytes, Run.ok_bind, if_neg (by simp), hzip]
      rfl
    simp only [hload]
    exact hr
  · by_cases hm : k ∈ missing
    · exact hall _ (List.mem_map_of_mem hm)
    · exact hmono k (hwarm k hk hm)

/-- Cached reads of several indices. -/
theorem readIndicesCached (h : Backed store values self) {indices : List ℕ}
    {outcomes : List MaybeDtcOutcome}
    (hv : List.Forall₂ (fun i v => values[i]? = some v) indices outcomes) :
    self.readIndicesCached indices
      = .ok (if ∀ i ∈ indices, (self.frames[i / self.frameSize]?.join).isSome then some outcomes
        else none) := by
  induction hv with
  | nil => rfl
  | @cons i v indices outcomes hv _ ih =>
    rw [EgtFileReader.readIndicesCached, h.readFromIndexCached hv, Run.ok_bind, ih]
    by_cases hi : (self.frames[i / self.frameSize]?.join).isSome
    · simp only [hi, if_true, Run.ok_bind, List.forall_mem_cons, true_and]
      split <;> rfl
    · simp only [hi, Bool.false_eq_true, if_false, List.forall_mem_cons, false_and]
      rfl

/-- **Reads of several indices** return the stored outcomes once their frames are loaded. -/
theorem readIndices (h : Backed store values self) {indices frames : List ℕ}
    {outcomes : List MaybeDtcOutcome}
    (hv : List.Forall₂ (fun i v => values[i]? = some v) indices outcomes)
    (hframes : ∀ k ∈ frames, k * self.frameSize < self.indexRange)
    (hcover : ∀ i ∈ indices, i / self.frameSize ∈ frames) :
    ∃ r, self.ensureUncompressedFrames store frames = (r, .ok ()) ∧ Backed store values r ∧
      r.readIndicesCached indices = .ok (some outcomes) := by
  obtain ⟨r, hr, hb, -, h₂, -, -, hall⟩ := h.ensureUncompressedFrames hframes
  refine ⟨r, hr, hb, ?_⟩
  rw [hb.readIndicesCached hv, if_pos]
  intro i hi
  rw [h₂]
  exact hall _ (hcover i hi)

end Backed

end ChessEgt
