import ChessEgt.Storage.Reader
import ChessEgt.Library.Chunks

/-!
# Warm and cold frames

* `coldFrame`, `stored` — what a cold frame decodes to, and the outcome of an index there;
* `EgtFileReader.cold` — a reader with all frames cold;
* `OnDisk` — an opened reader: a frame that is decompressed holds what it would decode to cold;
* `OnDisk.readFromIndex`, `OnDisk.readIndicesCached`, `OnDisk.ensureUncompressedFrames` — reads do
  not depend on which frames are warm.
-/

namespace ChessEgt

/-! ### Decoded frames -/

theorem length_detransposeFrame {transposed : Bytes} {n : ℕ} {vs : List MaybeDtcOutcome}
    (h : detransposeFrame transposed n = .ok vs) : vs.length = n := by
  obtain ⟨⟨j, output⟩, hrun, hvs⟩ := Run.bind_eq_ok.mp h
  obtain rfl : output = vs := Except.ok.inj hvs
  -- Each step gives one word.
  have hlen : ∀ m x, (List.range m).foldlM (detransposeStep transposed) (n, []) = .ok x →
      x.2.length = m := by
    intro m
    induction m with
    | zero =>
      intro x hx
      rw [← Except.ok.inj hx]
      rfl
    | succ m ih =>
      intro x hx
      rw [List.range_succ, List.foldlM_append, Run.bind_eq_ok] at hx
      obtain ⟨⟨i, out⟩, hy, hx⟩ := hx
      rw [List.foldlM_cons, Run.bind_eq_ok] at hx
      obtain ⟨z, hz, hx⟩ := hx
      rw [← Except.ok.inj hx]
      have hout := ih _ hy
      unfold detransposeStep at hz
      obtain ⟨low, -, hz⟩ := Run.bind_eq_ok.mp hz
      split at hz
      · rw [← Except.ok.inj hz, List.length_append, hout, List.length_singleton]
      · obtain ⟨high, -, hz⟩ := Run.bind_eq_ok.mp hz
        rw [← Except.ok.inj hz, List.length_append, hout, List.length_singleton]
  exact hlen n _ hrun

theorem length_decodeFrame [Codec] {bytes : Bytes} {len : ℕ} {vs : List MaybeDtcOutcome}
    (h : decodeFrame bytes len = .ok vs) : vs.length = len := by
  unfold decodeFrame at h
  split at h
  · cases h
  split at h
  · cases h
  · exact length_detransposeFrame h

namespace EgtFileReader

theorem resident_eq {self : EgtFileReader} {k : ℕ} {o : Option (List MaybeDtcOutcome)}
    (h : self.frames[k]? = some o) : self.resident k = .ok o := Run.index_eq h

@[simp] theorem setFrame_key (self : EgtFileReader) (k : ℕ) (vs : List MaybeDtcOutcome) :
    (self.setFrame k vs).key = self.key := rfl

@[simp] theorem setFrame_egt (self : EgtFileReader) (k : ℕ) (vs : List MaybeDtcOutcome) :
    (self.setFrame k vs).egt = self.egt := rfl

@[simp] theorem setFrame_seekTable (self : EgtFileReader) (k : ℕ) (vs : List MaybeDtcOutcome) :
    (self.setFrame k vs).seekTable = self.seekTable := rfl

@[simp] theorem setFrame_frameLayout (self : EgtFileReader) (k : ℕ) (vs : List MaybeDtcOutcome) :
    (self.setFrame k vs).frameLayout = self.frameLayout := rfl

@[simp] theorem setFrame_frameSize (self : EgtFileReader) (k : ℕ) (vs : List MaybeDtcOutcome) :
    (self.setFrame k vs).frameSize = self.frameSize := rfl

@[simp] theorem setFrame_indexRange (self : EgtFileReader) (k : ℕ) (vs : List MaybeDtcOutcome) :
    (self.setFrame k vs).indexRange = self.indexRange := rfl

@[simp] theorem setFrame_frames (self : EgtFileReader) (k : ℕ) (vs : List MaybeDtcOutcome) :
    (self.setFrame k vs).frames = self.frames.set k (some vs) := rfl

/-- A reader with all frames cold. -/
def cold (self : EgtFileReader) : EgtFileReader :=
  { self with frames := List.replicate self.frames.length none }

/-- A frame of a reader becomes cold. -/
def clearFrame (self : EgtFileReader) (k : ℕ) : EgtFileReader :=
  { self with frames := self.frames.set k none }

@[simp] theorem cold_setFrame (self : EgtFileReader) (k : ℕ) (vs : List MaybeDtcOutcome) :
    (self.setFrame k vs).cold = self.cold := by
  unfold cold setFrame
  rw [List.length_set]

@[simp] theorem cold_clearFrame (self : EgtFileReader) (k : ℕ) :
    (self.clearFrame k).cold = self.cold := by
  unfold cold clearFrame
  rw [List.length_set]

theorem numFrames_eq_of_cold {r r' : EgtFileReader} (h : r.cold = r'.cold) :
    r.frames.length = r'.frames.length := by
  have := congrArg (fun r => r.frames.length) h
  simpa [cold] using this

theorem frameSize_eq_of_cold {r r' : EgtFileReader} (h : r.cold = r'.cold) :
    r.frameSize = r'.frameSize := by
  have := congrArg (fun r => r.frameSize) h
  exact this

theorem indexRange_eq_of_cold {r r' : EgtFileReader} (h : r.cold = r'.cold) :
    r.indexRange = r'.indexRange := by
  have := congrArg (fun r => r.indexRange) h
  exact this

/-- Whether a frame is decompressed. -/
def IsWarm (self : EgtFileReader) (k : ℕ) : Prop := (self.frames[k]?.join).isSome

instance (self : EgtFileReader) (k : ℕ) : Decidable (self.IsWarm k) := by
  unfold IsWarm; infer_instance

theorem isWarm_iff {self : EgtFileReader} {k : ℕ} :
    self.IsWarm k ↔ ∃ vs, self.frames[k]? = some (some vs) := by
  unfold IsWarm
  rw [Option.isSome_iff_exists]
  exact exists_congr fun vs => Option.join_eq_some_iff

theorem isWarm_setFrame {self : EgtFileReader} {j k : ℕ} {vs : List MaybeDtcOutcome}
    (hk : k < self.frames.length) : (self.setFrame k vs).IsWarm j ↔ j = k ∨ self.IsWarm j := by
  unfold IsWarm
  rw [setFrame_frames]
  by_cases hjk : k = j
  · subst hjk
    rw [List.getElem?_set_self hk]
    simp
  · rw [List.getElem?_set_ne hjk]
    simp [Ne.symm hjk]

section Cold

variable [Codec] (store : Store) (self : EgtFileReader)

/-- What a cold frame decodes to. -/
def coldFrame (frameIdx : ℕ) : Run (List MaybeDtcOutcome) := do
  let frame ← Run.index self.frameLayout frameIdx
  match self.seekTable with
  | some table => do
    let start ← table.frameStartComp frameIdx
    let stop ← table.frameEndComp frameIdx
    let compressed ← store.getRange self.key (start, stop)
    if compressed.length ≠ stop - start then
      throw (.error (.internal "truncated tablebase range"))
    decodeFrame compressed frame.len
  | none => pure (List.replicate frame.len MaybeDtcOutcome.invalid)

/-- The outcome of an index in the frames as they are decoded. -/
def stored (index : ℕ) : Run MaybeDtcOutcome := do
  let (frameIdx, offset) ← locateFrame self.frameLayout index
  let data ← self.coldFrame store frameIdx
  Run.index data offset

theorem cold_coldFrame : self.cold.coldFrame store = self.coldFrame store := rfl

theorem cold_stored : self.cold.stored store = self.stored store := rfl

omit [Codec] in
theorem cold_mapRoutedPositionToIndex [Shakmaty] :
    self.cold.mapRoutedPositionToIndex = self.mapRoutedPositionToIndex := rfl

theorem coldFrame_congr {r r' : EgtFileReader} (h : r.cold = r'.cold) :
    r.coldFrame store = r'.coldFrame store := by
  rw [← cold_coldFrame, h, cold_coldFrame]

theorem stored_congr {r r' : EgtFileReader} (h : r.cold = r'.cold) :
    r.stored store = r'.stored store := by
  rw [← cold_stored, h, cold_stored]

omit [Codec] in
theorem mapRoutedPositionToIndex_congr [Shakmaty] {r r' : EgtFileReader} (h : r.cold = r'.cold) :
    r.mapRoutedPositionToIndex = r'.mapRoutedPositionToIndex := by
  rw [← cold_mapRoutedPositionToIndex, h, cold_mapRoutedPositionToIndex]

end Cold

end EgtFileReader

/-- **An opened reader**: decompressed frames hold what they would decode to. -/
structure OnDisk [Codec] (store : Store) (reader : EgtFileReader) : Prop where
  pos : 0 < reader.frameSize
  layout : reader.frameLayout = frameLayout reader.frameSize reader.indexRange
  frames : reader.frames.length = reader.frameLayout.length
  seekTable : reader.seekTable.isSome
  warm : ∀ k vs, reader.frames[k]? = some (some vs) → reader.coldFrame store k = .ok vs

namespace OnDisk

open EgtFileReader

variable [Codec] {store : Store} {self : EgtFileReader} {k i : ℕ}

theorem lt_frames (h : OnDisk store self) :
    k < self.frames.length ↔ k * self.frameSize < self.indexRange := by
  rw [h.frames, h.layout, length_frameLayout, Pieces.lt_count h.pos]

theorem descriptor (h : OnDisk store self) (hk : k < self.frames.length) :
    Run.index self.frameLayout k
      = .ok ⟨k * self.frameSize, min self.frameSize (self.indexRange - k * self.frameSize)⟩ := by
  rw [h.layout]
  exact Run.index_eq (getElem?_frameLayout h.pos (h.lt_frames.mp hk))

/-- An index in range has its frame. -/
theorem locate (h : OnDisk store self) (hi : i < self.indexRange) : self.checkIndex i = .ok () ∧
    locateFrame self.frameLayout i = .ok (i / self.frameSize, i % self.frameSize) ∧
    i / self.frameSize < self.frames.length := by
  refine ⟨if_neg (Nat.not_le.mpr hi), ?_, ?_⟩
  · rw [h.layout]
    exact locateFrame_eq h.pos hi
  · rw [h.lt_frames]
    exact (Nat.div_mul_le_self _ _).trans_lt hi

theorem length_coldFrame (h : OnDisk store self) (hk : k < self.frames.length)
    {vs : List MaybeDtcOutcome} (hvs : self.coldFrame store k = .ok vs) :
    vs.length = min self.frameSize (self.indexRange - k * self.frameSize) := by
  obtain ⟨table, htable⟩ := Option.isSome_iff_exists.mp h.seekTable
  unfold coldFrame at hvs
  rw [h.descriptor hk, Run.ok_bind, htable] at hvs
  dsimp only at hvs
  obtain ⟨start, -, hvs⟩ := Run.bind_eq_ok.mp hvs
  obtain ⟨stop, -, hvs⟩ := Run.bind_eq_ok.mp hvs
  obtain ⟨bytes, -, hvs⟩ := Run.bind_eq_ok.mp hvs
  split at hvs
  · cases hvs
  · exact length_decodeFrame hvs

/-- A frame may be decompressed. -/
theorem setFrame (h : OnDisk store self) {vs : List MaybeDtcOutcome}
    (hvs : self.coldFrame store k = .ok vs) : OnDisk store (self.setFrame k vs) where
  pos := h.pos
  layout := h.layout
  frames := by rw [setFrame_frames, List.length_set]; exact h.frames
  seekTable := h.seekTable
  warm j ws hj := by
    rw [coldFrame_congr store (cold_setFrame self k vs)]
    rw [setFrame_frames] at hj
    by_cases hjk : k = j
    · subst hjk
      rw [List.getElem?_set_self'] at hj
      obtain ⟨o, -, ho⟩ := Option.map_eq_some_iff.mp hj
      rw [← Option.some.inj ho]
      exact hvs
    · rw [List.getElem?_set_ne hjk] at hj
      exact h.warm j ws hj

/-- A frame may become cold. -/
theorem clearFrame (h : OnDisk store self) (k : ℕ) : OnDisk store (self.clearFrame k) where
  pos := h.pos
  layout := h.layout
  frames := by
    show (self.frames.set k none).length = _
    rw [List.length_set]
    exact h.frames
  seekTable := h.seekTable
  warm j ws hj := by
    rw [coldFrame_congr store (cold_clearFrame self k)]
    have hj : (self.frames.set k none)[j]? = some (some ws) := hj
    by_cases hjk : k = j
    · subst hjk
      rw [List.getElem?_set_self'] at hj
      obtain ⟨o, -, ho⟩ := Option.map_eq_some_iff.mp hj
      cases ho
    · rw [List.getElem?_set_ne hjk] at hj
      exact h.warm j ws hj

/-- A warm frame decodes to what it holds. -/
theorem setFrame_of_warm (h : OnDisk store self) {vs ws : List MaybeDtcOutcome}
    (hk : self.frames[k]? = some (some vs)) (hws : self.coldFrame store k = .ok ws) :
    self.setFrame k ws = self := by
  have hvs := h.warm k vs hk
  rw [hws] at hvs
  obtain ⟨hlt, hget⟩ := List.getElem?_eq_some_iff.mp hk
  unfold EgtFileReader.setFrame
  rw [Except.ok.inj hvs, ← hget, List.set_getElem_self]

/-- Decompressing a frame does not depend on whether it is warm. -/
theorem ensureUncompressed (h : OnDisk store self) (hk : k < self.frames.length) :
    self.ensureUncompressed store k = (self.coldFrame store k).map (self.setFrame k) := by
  obtain ⟨o, ho⟩ : ∃ o, self.frames[k]? = some o := ⟨_, List.getElem?_eq_getElem hk⟩
  unfold EgtFileReader.ensureUncompressed
  rw [resident_eq ho, Run.ok_bind]
  cases o with
  | some vs =>
    have hvs := h.warm k vs ho
    rw [hvs]
    show _ = Except.ok _
    rw [h.setFrame_of_warm ho hvs]
    rfl
  | none =>
    obtain ⟨table, htable⟩ := Option.isSome_iff_exists.mp h.seekTable
    unfold coldFrame
    simp only [Option.isSome_none, Bool.false_eq_true, if_false, h.descriptor hk, htable,
      Run.ok_bind]
    rcases table.frameStartComp k with e | start
    · rfl
    rcases table.frameEndComp k with e | stop
    · rfl
    simp only [Run.ok_bind]
    rcases store.getRange self.key (start, stop) with e | compressed
    · rfl
    simp only [Run.ok_bind]
    split
    · rfl
    · rcases decodeFrame compressed (min self.frameSize (self.indexRange - k * self.frameSize)) with
        e | vs
      · rfl
      · rfl

theorem getFrameData (h : OnDisk store self) (hk : k < self.frames.length) :
    self.getFrameData store k = (self.coldFrame store k).map fun vs => (self.setFrame k vs, vs) := by
  unfold EgtFileReader.getFrameData
  rw [h.ensureUncompressed hk]
  cases hvs : self.coldFrame store k with
  | error e => rfl
  | ok vs =>
    show ((self.setFrame k vs).resident k >>= _) = _
    have hget : (self.setFrame k vs).frames[k]? = some (some vs) := by
      rw [setFrame_frames, List.getElem?_set_self hk]
    rw [resident_eq hget, Run.ok_bind]
    rfl

/-- **A single read** returns the stored outcome, and its frame is warm afterwards. -/
theorem readFromIndex (h : OnDisk store self) (hi : i < self.indexRange) :
    self.readFromIndex store i = (do
      let vs ← self.coldFrame store (i / self.frameSize)
      let v ← Run.index vs (i % self.frameSize)
      pure (self.setFrame (i / self.frameSize) vs, v)) := by
  obtain ⟨hcheck, hlocate, hk⟩ := h.locate hi
  unfold EgtFileReader.readFromIndex
  simp only [hcheck, hlocate, h.getFrameData hk, Run.ok_bind]
  cases self.coldFrame store (i / self.frameSize) <;> rfl

theorem stored_eq (h : OnDisk store self) (hi : i < self.indexRange) :
    self.stored store i = (do
      let vs ← self.coldFrame store (i / self.frameSize)
      Run.index vs (i % self.frameSize)) := by
  obtain ⟨-, hlocate, -⟩ := h.locate hi
  unfold stored
  rw [hlocate]
  rfl

/-- Every index in a frame that can be decoded has its outcome. -/
theorem exists_stored (h : OnDisk store self) (hi : i < self.indexRange) {vs : List MaybeDtcOutcome}
    (hvs : self.coldFrame store (i / self.frameSize) = .ok vs) :
    ∃ v, self.stored store i = .ok v ∧ Run.index vs (i % self.frameSize) = .ok v := by
  obtain ⟨-, -, hk⟩ := h.locate hi
  have hlen := h.length_coldFrame hk hvs
  have hmod := Nat.mod_lt i h.pos
  have hdiv := Nat.div_add_mod i self.frameSize
  rw [Nat.mul_comm] at hdiv
  have hlt : i % self.frameSize < vs.length := by omega
  have hget := Run.index_eq (List.getElem?_eq_getElem hlt)
  refine ⟨_, ?_, hget⟩
  rw [h.stored_eq hi, hvs, Run.ok_bind, hget]

/-- A cached read returns the stored outcome, unless its frame is cold. -/
theorem readFromIndexCached (h : OnDisk store self) (hi : i < self.indexRange) :
    self.readFromIndexCached i
      = if self.IsWarm (i / self.frameSize) then some <$> self.stored store i else .ok none := by
  obtain ⟨hcheck, hlocate, hk⟩ := h.locate hi
  obtain ⟨o, ho⟩ : ∃ o, self.frames[i / self.frameSize]? = some o :=
    ⟨_, List.getElem?_eq_getElem hk⟩
  unfold EgtFileReader.readFromIndexCached IsWarm
  simp only [hcheck, hlocate, resident_eq ho, ho, Run.ok_bind, Option.join_some]
  cases o with
  | none => rfl
  | some vs =>
    rw [h.stored_eq hi, h.warm _ vs ho]
    rfl

/-- Cached reads of several indices return the stored outcomes, unless a frame is cold. -/
theorem readIndicesCached (h : OnDisk store self) {indices : List ℕ}
    (hi : ∀ i ∈ indices, i < self.indexRange) : self.readIndicesCached indices
      = if ∀ i ∈ indices, self.IsWarm (i / self.frameSize) then
          some <$> indices.mapM (self.stored store) else .ok none := by
  induction indices with
  | nil => rfl
  | cons i indices ih =>
    have hlt := hi i List.mem_cons_self
    rw [EgtFileReader.readIndicesCached, h.readFromIndexCached hlt,
      ih fun j hj => hi j (List.mem_cons_of_mem _ hj)]
    by_cases hwarm : self.IsWarm (i / self.frameSize)
    · obtain ⟨vs, hvs⟩ := isWarm_iff.mp hwarm
      obtain ⟨v, hv, -⟩ := h.exists_stored hlt (h.warm _ vs hvs)
      simp only [hwarm, if_true, hv, List.forall_mem_cons, true_and, List.mapM_cons]
      split
      · show ((some <$> indices.mapM (self.stored store) : Run _) >>= _) = _
        cases indices.mapM (self.stored store) <;> rfl
      · rfl
    · simp only [hwarm, if_false, List.forall_mem_cons, false_and]
      rfl

/-- A range is located in the frame of its start, unless it does not lie within. -/
theorem locateChunk (h : OnDisk store self) {start stop : ℕ} (hlt : start < self.indexRange) :
    self.locateChunk start stop
      = if min self.frameSize (self.indexRange - start / self.frameSize * self.frameSize)
          - start % self.frameSize < stop - start then
        .error (.error (.internal "frame_chunk range crosses a frame boundary"))
      else .ok (start / self.frameSize, start % self.frameSize) := by
  obtain ⟨-, hlocate, hk⟩ := h.locate hlt
  have hmod := Nat.mod_lt start h.pos
  have hdiv := Nat.div_add_mod start self.frameSize
  rw [Nat.mul_comm] at hdiv
  unfold EgtFileReader.locateChunk
  simp only [hlocate, h.descriptor hk, Run.ok_bind]
  rw [Run.sub_eq (by omega), Run.ok_bind]
  split <;> rfl

/-- A located range lies within the outcomes of its frame. -/
theorem chunk_le (h : OnDisk store self) {start stop : ℕ} (hlt : start < stop)
    (hstop : stop ≤ self.indexRange) {x : ℕ × ℕ} (hx : self.locateChunk start stop = .ok x) :
    x = (start / self.frameSize, start % self.frameSize) ∧
      ∀ vs, self.coldFrame store x.1 = .ok vs → x.2 + (stop - start) ≤ vs.length := by
  obtain ⟨-, -, hk⟩ := h.locate (hlt.trans_le hstop)
  have hmod := Nat.mod_lt start h.pos
  have hdiv := Nat.div_add_mod start self.frameSize
  rw [Nat.mul_comm] at hdiv
  rw [h.locateChunk (hlt.trans_le hstop)] at hx
  split at hx
  · cases hx
  · obtain rfl := Except.ok.inj hx
    refine ⟨rfl, fun vs hvs => ?_⟩
    have hlen := h.length_coldFrame hk hvs
    dsimp only
    omega

/-- **A chunk read** returns the outcomes of its frame, which is warm afterwards. -/
theorem frameChunk (h : OnDisk store self) {start stop : ℕ} (hlt : start < stop)
    (hstop : stop ≤ self.indexRange) {x : ℕ × ℕ} (hx : self.locateChunk start stop = .ok x) :
    self.frameChunk store start stop = (do
      let vs ← self.coldFrame store x.1
      pure (self.setFrame x.1 vs, (vs.drop x.2).take (stop - start))) := by
  obtain ⟨-, -, hk⟩ := h.locate (hlt.trans_le hstop)
  obtain ⟨hxeq, hle⟩ := h.chunk_le hlt hstop hx
  have hcheck : self.checkChunk start stop = .ok () := if_neg (by omega)
  unfold EgtFileReader.frameChunk
  rw [hcheck, Run.ok_bind, if_neg hlt.ne, hx, Run.ok_bind]
  dsimp only
  rw [h.getFrameData (by rw [hxeq]; exact hk)]
  rcases hvs : self.coldFrame store x.1 with e | vs
  · rfl
  · show (Run.ensure _ _ >>= _) = _
    rw [Run.ensure_eq (hle vs hvs), Run.ok_bind]
    rfl

/-- A cached chunk read returns the outcomes of its frame, unless it is cold. -/
theorem frameChunkCached (h : OnDisk store self) {start stop : ℕ} (hlt : start < stop)
    (hstop : stop ≤ self.indexRange) {x : ℕ × ℕ} (hx : self.locateChunk start stop = .ok x) :
    self.frameChunkCached start stop
      = if self.IsWarm x.1 then
          (self.coldFrame store x.1).map fun vs => some ((vs.drop x.2).take (stop - start))
        else .ok none := by
  obtain ⟨-, -, hk⟩ := h.locate (hlt.trans_le hstop)
  obtain ⟨hxeq, hle⟩ := h.chunk_le hlt hstop hx
  have hcheck : self.checkChunk start stop = .ok () := if_neg (by omega)
  obtain ⟨o, ho⟩ : ∃ o, self.frames[x.1]? = some o :=
    ⟨_, List.getElem?_eq_getElem (by rw [hxeq]; exact hk)⟩
  unfold EgtFileReader.frameChunkCached
  rw [hcheck, Run.ok_bind, if_neg hlt.ne, hx, Run.ok_bind]
  dsimp only
  rw [resident_eq ho, Run.ok_bind]
  cases o with
  | none =>
    rw [if_neg (by rw [isWarm_iff, ho]; simp)]
    rfl
  | some vs =>
    have hvs := h.warm _ vs ho
    rw [if_pos (isWarm_iff.mpr ⟨vs, ho⟩)]
    dsimp only
    rw [Run.ensure_eq (hle vs hvs), Run.ok_bind, hvs]
    rfl

/-! ### Several frames at once -/

/-- What a multi-range read leaves: frames stay warm, and all are unless one cannot be decoded. -/
def Loaded (store : Store) (self : EgtFileReader) (frames : List ℕ) (r : EgtFileReader)
    (result : Run Unit) : Prop :=
  OnDisk store r ∧ r.cold = self.cold ∧ (∀ k, self.IsWarm k → r.IsWarm k) ∧
    ((result = .ok () ∧ ∀ k ∈ frames, r.IsWarm k) ∨
      (∃ e, result = .error e) ∧ ∃ k ∈ frames, ∃ e, self.coldFrame store k = .error e)

/-- The bytes of a frame decode to it. -/
theorem coldFrame_eq (h : OnDisk store self) {table : SeekTable} (htable : self.seekTable = some table)
    (hk : k < self.frames.length) {range : ℕ × ℕ} {bytes : Bytes}
    (hrange : table.frameRange k = .ok range) (hbytes : store.getRange self.key range = .ok bytes) :
    self.coldFrame store k = (do
      if bytes.length ≠ range.2 - range.1 then
        throw (.error (.internal "truncated tablebase range"))
      let descriptor ← Run.index self.frameLayout k
      decodeFrame bytes descriptor.len) := by
  obtain ⟨start, hstart, hrange⟩ := Run.bind_eq_ok.mp hrange
  obtain ⟨stop, hstop, hrange⟩ := Run.bind_eq_ok.mp hrange
  obtain rfl := Except.ok.inj hrange
  unfold coldFrame
  simp only [h.descriptor hk, htable, hstart, hstop, hbytes, Run.ok_bind]

/-- A frame whose bytes are not found cannot be decoded. -/
theorem coldFrame_error (h : OnDisk store self) {table : SeekTable}
    (htable : self.seekTable = some table) (hk : k < self.frames.length)
    (herror : (∃ e, table.frameRange k = .error e) ∨
      ∃ range, table.frameRange k = .ok range ∧ ∃ e, store.getRange self.key range = .error e) :
    ∃ e, self.coldFrame store k = .error e := by
  unfold coldFrame
  rw [h.descriptor hk, Run.ok_bind, htable]
  dsimp only
  rcases herror with ⟨e, he⟩ | ⟨range, hrange, e, he⟩
  · unfold SeekTable.frameRange at he
    rcases hstart : table.frameStartComp k with e₁ | start
    · exact ⟨e₁, rfl⟩
    rcases hstop : table.frameEndComp k with e₂ | stop
    · exact ⟨e₂, rfl⟩
    rw [hstart, hstop] at he
    cases he
  · obtain ⟨start, hstart, hrange⟩ := Run.bind_eq_ok.mp hrange
    obtain ⟨stop, hstop, hrange⟩ := Run.bind_eq_ok.mp hrange
    obtain rfl := Except.ok.inj hrange
    exact ⟨e, by simp only [hstart, hstop, he, Run.ok_bind]; rfl⟩

theorem installFrames (h : OnDisk store self) {table : SeekTable}
    (htable : self.seekTable = some table) {loaded : List (ℕ × (ℕ × ℕ) × Bytes)}
    (hloaded : ∀ x ∈ loaded, x.1 < self.frames.length ∧ table.frameRange x.1 = .ok x.2.1 ∧
      store.getRange self.key x.2.1 = .ok x.2.2) :
    Loaded store self (loaded.map (·.1)) (EgtFileReader.installFrames loaded self).1
      (EgtFileReader.installFrames loaded self).2 := by
  induction loaded generalizing self with
  | nil => exact ⟨h, rfl, fun _ hk => hk, Or.inl ⟨rfl, fun k hk => absurd hk List.not_mem_nil⟩⟩
  | cons x loaded ih =>
    obtain ⟨k, range, bytes⟩ := x
    obtain ⟨hk, hrange, hbytes⟩ := hloaded _ List.mem_cons_self
    have hcold := h.coldFrame_eq htable hk hrange hbytes
    rw [EgtFileReader.installFrames, ← hcold]
    rcases hvs : self.coldFrame store k with e | vs
    · -- The frames before stay.
      exact ⟨h, rfl, fun _ hj => hj, Or.inr ⟨⟨e, rfl⟩, k, List.mem_cons_self, e, hvs⟩⟩
    · have hset := cold_setFrame self k vs
      obtain ⟨hr, hc, hmono, hres⟩ := ih (h.setFrame hvs) htable fun y hy => by
        obtain ⟨h₁, h₂⟩ := hloaded y (List.mem_cons_of_mem _ hy)
        exact ⟨by rw [numFrames_eq_of_cold hset]; exact h₁, h₂⟩
      have hwarm : ∀ j, j = k ∨ self.IsWarm j → (self.setFrame k vs).IsWarm j :=
        fun j hj => (isWarm_setFrame hk).mpr hj
      refine ⟨hr, hc.trans hset, fun j hj => hmono j (hwarm j (Or.inr hj)), ?_⟩
      rcases hres with ⟨hok, hall⟩ | ⟨herror, j, hj, e, he⟩
      · refine Or.inl ⟨hok, fun j hj => ?_⟩
        rcases List.mem_cons.mp hj with rfl | hj
        · exact hmono _ (hwarm _ (Or.inl rfl))
        · exact hall j hj
      · rw [coldFrame_congr store hset] at he
        exact Or.inr ⟨herror, j, List.mem_cons_of_mem _ hj, e, he⟩

end OnDisk

namespace OnDisk

open EgtFileReader

variable [Codec] {store : Store} {self : EgtFileReader}

/-- The bytes of several frames are read, unless one of them cannot be decoded. -/
theorem loadFrames (h : OnDisk store self) {table : SeekTable}
    (htable : self.seekTable = some table) {missing : List ℕ}
    (hmissing : ∀ k ∈ missing, k < self.frames.length) :
    (∃ loaded, self.loadFrames store table missing = .ok loaded ∧ loaded.map (·.1) = missing ∧
      ∀ x ∈ loaded, table.frameRange x.1 = .ok x.2.1 ∧
        store.getRange self.key x.2.1 = .ok x.2.2) ∨
      (∃ e, self.loadFrames store table missing = .error e) ∧
        ∃ k ∈ missing, ∃ e, self.coldFrame store k = .error e := by
  unfold EgtFileReader.loadFrames Store.getRanges
  rcases Run.mapM_forall₂ table.frameRange missing with
    ⟨ranges, hranges, hall⟩ | ⟨⟨e, he⟩, k, hk, e', he'⟩
  · rw [hranges, Run.ok_bind]
    have hlen := hall.length_eq
    rcases Run.mapM_forall₂ (store.getRange self.key) ranges with
      ⟨compressed, hcompressed, hbytes⟩ | ⟨⟨e, he⟩, range, hrange, e', he'⟩
    · have hlen' := hbytes.length_eq
      rw [hcompressed, Run.ok_bind, if_neg (by rw [hlen, hlen', not_not])]
      refine Or.inl ⟨_, rfl, List.map_fst_zip (by rw [List.length_zip]; omega), fun x hx => ?_⟩
      obtain ⟨k, range, bytes⟩ := x
      -- The range and the bytes belong to the frame.
      obtain ⟨i, hi⟩ := List.mem_iff_getElem?.mp hx
      rw [List.getElem?_zip_eq_some, List.getElem?_zip_eq_some] at hi
      obtain ⟨hk, hr, hb⟩ := hi
      exact ⟨Chunks.forall₂_getElem? hall hk hr, Chunks.forall₂_getElem? hbytes hr hb⟩
    · rw [he]
      obtain ⟨i, hi⟩ := List.mem_iff_getElem?.mp hrange
      obtain ⟨k, hk⟩ : ∃ k, missing[i]? = some k :=
        ⟨_, List.getElem?_eq_getElem (by rw [hlen]; exact (List.getElem?_eq_some_iff.mp hi).1)⟩
      have hmem := List.mem_of_getElem? hk
      refine Or.inr ⟨⟨e, rfl⟩, k, hmem, ?_⟩
      exact h.coldFrame_error htable (hmissing k hmem)
        (Or.inr ⟨range, Chunks.forall₂_getElem? hall hk hi, e', he'⟩)
  · rw [he]
    exact Or.inr ⟨⟨e, rfl⟩, k, hk, h.coldFrame_error htable (hmissing k hk) (Or.inl ⟨e', he'⟩)⟩

/-- **A multi-range read** makes all frames warm, unless one of them cannot be decoded. -/
theorem ensureUncompressedFrames (h : OnDisk store self) {frames : List ℕ}
    (hframes : ∀ k ∈ frames, k < self.frames.length) :
    Loaded store self frames (self.ensureUncompressedFrames store frames).1
      (self.ensureUncompressedFrames store frames).2 := by
  obtain ⟨table, htable⟩ := Option.isSome_iff_exists.mp h.seekTable
  unfold EgtFileReader.ensureUncompressedFrames
  set missing := frames.filter fun frame => self.frames[frame]?.join.isNone with hmissing
  have hwarm : ∀ k ∈ frames, k ∉ missing → self.IsWarm k := by
    intro k hk hnot
    rw [hmissing, List.mem_filter, not_and] at hnot
    have := hnot hk
    rwa [Bool.not_eq_true, Option.isNone_eq_false_iff] at this
  have hmem : ∀ k ∈ missing, k ∈ frames := fun k hk => (List.mem_filter.mp hk).1
  dsimp only
  by_cases hnone : missing = []
  · rw [if_pos hnone]
    refine ⟨h, rfl, fun _ hk => hk, Or.inl ⟨rfl, fun k hk => hwarm k hk ?_⟩⟩
    rw [hnone]
    exact List.not_mem_nil
  rw [if_neg hnone]
  simp only [htable]
  rcases h.loadFrames htable fun k hk => hframes k (hmem k hk) with
    ⟨loaded, hloaded, hfst, hall⟩ | ⟨⟨e, he⟩, k, hk, e', he'⟩
  · rw [hloaded]
    dsimp only
    obtain ⟨hr, hc, hmono, hres⟩ := h.installFrames htable fun x hx => by
      have hx' : x.1 ∈ missing := by
        rw [← hfst]
        exact List.mem_map_of_mem hx
      exact ⟨hframes _ (hmem _ hx'), hall x hx⟩
    refine ⟨hr, hc, hmono, ?_⟩
    rw [hfst] at hres
    rcases hres with ⟨hok, hres⟩ | ⟨herror, k, hk, he⟩
    · refine Or.inl ⟨hok, fun k hk => ?_⟩
      by_cases hm : k ∈ missing
      · exact hres k hm
      · exact hmono k (hwarm k hk hm)
    · exact Or.inr ⟨herror, k, hmem k hk, he⟩
  · rw [he]
    exact ⟨h, rfl, fun _ hk => hk, Or.inr ⟨⟨e, rfl⟩, k, hmem k hk, e', he'⟩⟩

end OnDisk

end ChessEgt
