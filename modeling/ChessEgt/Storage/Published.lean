import ChessEgt.Storage.Writer

/-!
# Published objects

* `FrameFits`, `writeSegments_eq_ok` — the segments that a writer accepts;
* `segmentFrames` — the bytes of each frame of a segment;
* `loadSeekTable_published` — a published object passes the checks of the reader;
* `getRange_published` — and each frame is read at its own bytes.
-/

namespace ChessEgt

/-! ### Accepted segments -/

/-- A frame has compressed bytes, and the outcomes of its indices. -/
def FrameFits (frameSize length k : ℕ) (entry : UInt32 × UInt32) : Prop :=
  entry.1 ≠ 0 ∧ k * frameSize < length ∧
    entry.2.toNat = min frameSize (length - k * frameSize) * 2

namespace SeekTable

theorem frameSizeComp_eq {table : SeekTable} {i : ℕ} {e : UInt32 × UInt32} (h : table[i]? = some e) :
    table.frameSizeComp i = .ok e.1.toNat := by
  unfold frameSizeComp
  rw [h]

theorem frameSizeDecomp_eq {table : SeekTable} {i : ℕ} {e : UInt32 × UInt32}
    (h : table[i]? = some e) : table.frameSizeDecomp i = .ok e.2.toNat := by
  unfold frameSizeDecomp
  rw [h]

theorem sizeComp_append (a b : SeekTable) :
    SeekTable.sizeComp (a ++ b) = SeekTable.sizeComp a + SeekTable.sizeComp b := by
  rw [sizeComp, List.map_append, List.sum_append]
  rfl

theorem sizeComp_take_succ {table : SeekTable} {i : ℕ} {e : UInt32 × UInt32}
    (h : table[i]? = some e) :
    SeekTable.sizeComp (table.take (i + 1)) = SeekTable.sizeComp (table.take i) + e.1.toNat := by
  obtain ⟨hi, rfl⟩ := List.getElem?_eq_some_iff.mp h
  rw [List.take_succ_eq_append_getElem hi, sizeComp_append]
  simp [sizeComp]

end SeekTable

namespace EgtFileWriter

variable {self : EgtFileWriter} {table : SeekTable} {k : ℕ}

/-- One frame is accepted if it fits. -/
theorem checkFrame_eq_ok (hf : 0 < self.frameSize) {i n : ℕ} {e : UInt32 × UInt32}
    (he : table[i]? = some e) {p : Progress} :
    self.checkFrame table ⟨k, self.length - k * self.frameSize, n⟩ i = .ok p ↔
      FrameFits self.frameSize self.length k e ∧
        p = ⟨k + 1, self.length - (k + 1) * self.frameSize, n + e.1.toNat⟩ := by
  have hzero : e.1.toNat = 0 ↔ e.1 = 0 := by
    rw [← UInt32.toNat_inj]
    rfl
  have hnext : self.length - k * self.frameSize - min (self.length - k * self.frameSize)
      self.frameSize = self.length - (k + 1) * self.frameSize := by
    rw [Nat.succ_mul]
    omega
  unfold checkFrame FrameFits
  rw [SeekTable.frameSizeComp_eq he, SeekTable.frameSizeDecomp_eq he, Run.ok_bind, Run.ok_bind]
  dsimp only
  by_cases hbad : e.1.toNat = 0 ∨ min (self.length - k * self.frameSize) self.frameSize = 0 ∨
      e.2.toNat ≠ min (self.length - k * self.frameSize) self.frameSize * 2
  · rw [if_pos hbad]
    constructor
    · intro h
      cases h
    · rintro ⟨⟨h₁, h₂, h₃⟩, -⟩
      rw [min_comm] at h₃
      rcases hbad with hbad | hbad | hbad
      · exact absurd (hzero.mp hbad) h₁
      · omega
      · exact absurd h₃ hbad
  · rw [if_neg hbad, Run.pure_eq_ok, hnext]
    rw [not_or, not_or, not_not, hzero] at hbad
    obtain ⟨h₁, h₂, h₃⟩ := hbad
    constructor
    · intro h
      exact ⟨⟨h₁, by omega, by rw [min_comm]; exact h₃⟩, (Except.ok.inj h).symm⟩
    · rintro ⟨-, rfl⟩
      rfl

/-- The first frames of a segment are accepted if they fit. -/
theorem checkFrames_eq_ok (hf : 0 < self.frameSize) {n i : ℕ} (hi : i ≤ table.length)
    {p : Progress} :
    (List.range i).foldlM (self.checkFrame table) ⟨k, self.length - k * self.frameSize, n⟩
      = .ok p ↔
      (∀ j < i, ∀ e, table[j]? = some e → FrameFits self.frameSize self.length (k + j) e) ∧
        p = ⟨k + i, self.length - (k + i) * self.frameSize,
          n + SeekTable.sizeComp (table.take i)⟩ := by
  induction i generalizing p with
  | zero =>
    rw [List.range_zero, List.foldlM_nil, Run.pure_eq_ok]
    constructor
    · intro h
      exact ⟨fun j hj => absurd hj (Nat.not_lt_zero j), (Except.ok.inj h).symm⟩
    · rintro ⟨-, rfl⟩
      rfl
  | succ i ih =>
    obtain ⟨e, he⟩ : ∃ e, table[i]? = some e := ⟨_, List.getElem?_eq_getElem hi⟩
    rw [List.range_succ, List.foldlM_append, Run.bind_eq_ok, SeekTable.sizeComp_take_succ he]
    constructor
    · rintro ⟨q, hq, hp⟩
      obtain ⟨hfits, rfl⟩ := (ih (by omega)).mp hq
      rw [List.foldlM_cons, Run.bind_eq_ok] at hp
      obtain ⟨r, hr, hp⟩ := hp
      obtain ⟨hfit, rfl⟩ := (checkFrame_eq_ok hf he).mp hr
      refine ⟨fun j hj e' he' => ?_, by rw [← Except.ok.inj hp, Nat.add_assoc, Nat.add_assoc]⟩
      rcases Nat.lt_succ_iff_lt_or_eq.mp hj with hj | rfl
      · exact hfits j hj e' he'
      · rw [← Option.some.inj (he.symm.trans he')]
        exact hfit
    · rintro ⟨hfits, rfl⟩
      refine ⟨_, (ih (by omega)).mpr ⟨fun j hj => hfits j (by omega), rfl⟩, ?_⟩
      rw [List.foldlM_cons, (checkFrame_eq_ok hf he).mpr ⟨hfits i (by omega) e he, rfl⟩,
        Run.ok_bind, Nat.add_assoc, Nat.add_assoc]
      rfl

/-- A segment that a writer accepts from its `k`-th frame on. -/
structure SegmentFits (w : EgtFileWriter) (segments : List CompressedSegment) (k : ℕ)
    (segment : CompressedSegment) : Prop where
  nonempty : segment.seekTable.length = 0 →
    w.length = 0 ∧ segments.length = 1 ∧ segment.data = []
  frames : ∀ j e, segment.seekTable[j]? = some e → FrameFits w.frameSize w.length (k + j) e
  length : SeekTable.sizeComp segment.seekTable = segment.data.length

theorem checkSegment_eq_ok (hf : 0 < self.frameSize) {segments : List CompressedSegment}
    {segment : CompressedSegment} {n : ℕ} {p : Progress} :
    self.checkSegment segments ⟨k, self.length - k * self.frameSize, n⟩ segment = .ok p ↔
      SegmentFits self segments k segment ∧
        p = ⟨k + segment.seekTable.length,
          self.length - (k + segment.seekTable.length) * self.frameSize,
          segment.data.length⟩ := by
  have hframes := @checkFrames_eq_ok self segment.seekTable k hf 0 segment.seekTable.length le_rfl
  rw [List.take_length] at hframes
  unfold checkSegment
  dsimp only
  by_cases hempty : segment.seekTable.length = 0 ∧
      ¬ (self.length = 0 ∧ segments.length = 1 ∧ segment.data = [])
  · rw [if_pos hempty]
    constructor
    · intro h
      cases h
    · rintro ⟨h, -⟩
      exact absurd (h.nonempty hempty.1) hempty.2
  · rw [if_neg hempty, Run.bind_eq_ok]
    constructor
    · rintro ⟨q, hq, hp⟩
      obtain ⟨hfits, rfl⟩ := hframes.mp hq
      split at hp
      · cases hp
      · rename_i hlen
        have hlen : SeekTable.sizeComp segment.seekTable = segment.data.length := by
          rw [not_not] at hlen
          simpa using hlen
        rw [Run.pure_eq_ok] at hp
        refine ⟨⟨fun h => ?_, fun j e he => hfits j ?_ e he, hlen⟩, ?_⟩
        · by_contra hne
          exact hempty ⟨h, hne⟩
        · exact (List.getElem?_eq_some_iff.mp he).1
        · rw [← Except.ok.inj hp, Nat.zero_add, hlen]
    · rintro ⟨h, rfl⟩
      refine ⟨_, hframes.mpr ⟨fun j _ => h.frames j, rfl⟩, ?_⟩
      dsimp only
      rw [Nat.zero_add, h.length, if_neg (not_not.mpr rfl)]
      rfl

/-- The seek tables of all segments in order. -/
def allFrames (segments : List CompressedSegment) : SeekTable :=
  segments.flatMap (·.seekTable)

/-- Segments that a writer accepts in order from its `k`-th frame on. -/
def SegmentsFit (w : EgtFileWriter) (all : List CompressedSegment) :
    ℕ → List CompressedSegment → Prop
  | _, [] => True
  | k, segment :: segments =>
    SegmentFits w all k segment ∧ SegmentsFit w all (k + segment.seekTable.length) segments

theorem length_allFrames_cons (segment : CompressedSegment) (segments : List CompressedSegment) :
    (allFrames (segment :: segments)).length
      = segment.seekTable.length + (allFrames segments).length := by
  rw [allFrames, List.flatMap_cons, List.length_append]
  rfl

theorem segmentsFit_of_ok (hf : 0 < self.frameSize) {all segments : List CompressedSegment}
    {n : ℕ} {p : Progress}
    (h : segments.foldlM (self.checkSegment all) ⟨k, self.length - k * self.frameSize, n⟩ = .ok p) :
    SegmentsFit self all k segments ∧ p.frames = k + (allFrames segments).length ∧
      p.remaining = self.length - (k + (allFrames segments).length) * self.frameSize := by
  induction segments generalizing k n with
  | nil =>
    rw [List.foldlM_nil, Run.pure_eq_ok] at h
    rw [← Except.ok.inj h]
    exact ⟨trivial, rfl, rfl⟩
  | cons segment segments ih =>
    rw [List.foldlM_cons, Run.bind_eq_ok] at h
    obtain ⟨q, hq, hp⟩ := h
    obtain ⟨hfit, rfl⟩ := (checkSegment_eq_ok hf).mp hq
    obtain ⟨hrest, h₁, h₂⟩ := ih hp
    rw [length_allFrames_cons, ← Nat.add_assoc]
    exact ⟨⟨hfit, hrest⟩, h₁, h₂⟩

theorem ok_of_segmentsFit (hf : 0 < self.frameSize) {all segments : List CompressedSegment}
    {n : ℕ} (h : SegmentsFit self all k segments) :
    ∃ c, segments.foldlM (self.checkSegment all) ⟨k, self.length - k * self.frameSize, n⟩
      = .ok ⟨k + (allFrames segments).length,
        self.length - (k + (allFrames segments).length) * self.frameSize, c⟩ := by
  induction segments generalizing k n with
  | nil => exact ⟨n, rfl⟩
  | cons segment segments ih =>
    obtain ⟨c, hc⟩ := ih (n := segment.data.length) h.2
    refine ⟨c, ?_⟩
    rw [List.foldlM_cons, (checkSegment_eq_ok hf).mpr ⟨h.1, rfl⟩, Run.ok_bind, hc,
      length_allFrames_cons, Nat.add_assoc]

/-- **Writing** succeeds on a new writer if the segments fit and give all frames. -/
theorem writeSegments_eq_ok (hf : 0 < self.frameSize) (hnew : self.segments = none)
    (hfooter : self.footer = none) (hpublished : self.published = false)
    {segments : List CompressedSegment} {w : EgtFileWriter} :
    self.writeSegments segments = .ok w ↔ SegmentsFit self segments 0 segments ∧
      (allFrames segments).length = Pieces.count self.frameSize self.length ∧
      w = { self with segments := some segments } := by
  have hlength : self.writableTableLength = .ok self.length := by
    unfold writableTableLength
    rw [hnew, hfooter, hpublished]
    rfl
  have hleft : ∀ n, n = Pieces.count self.frameSize self.length →
      self.length - n * self.frameSize = 0 := by
    intro n hn
    have hnot : ¬ n < Pieces.count self.frameSize self.length := by omega
    rw [Pieces.lt_count hf] at hnot
    omega
  have hzero : self.length - 0 * self.frameSize = self.length := by omega
  unfold writeSegments
  rw [hlength, Run.ok_bind]
  dsimp only
  rw [Run.bind_eq_ok]
  constructor
  · rintro ⟨p, hp, hw⟩
    rw [← hzero] at hp
    obtain ⟨hfits, hframes, hremaining⟩ := segmentsFit_of_ok hf hp
    rw [Nat.zero_add] at hframes hremaining
    split at hw
    · cases hw
    · rename_i hcount
      rw [not_or, not_not, hframes] at hcount
      exact ⟨hfits, hcount.1, (Except.ok.inj hw).symm⟩
  · rintro ⟨hfits, hcount, rfl⟩
    obtain ⟨c, hc⟩ := ok_of_segmentsFit (n := 0) hf hfits
    rw [hzero, Nat.zero_add] at hc
    refine ⟨_, hc, ?_⟩
    rw [if_neg]
    · rfl
    · rw [not_or, not_not, not_not]
      exact ⟨hcount, hleft _ hcount⟩

/-! ### The frames of accepted segments -/

/-- Every frame of accepted segments fits. -/
theorem SegmentsFit.frameFits {all segments : List CompressedSegment}
    (h : SegmentsFit self all k segments) {j : ℕ} {e : UInt32 × UInt32}
    (he : (allFrames segments)[j]? = some e) : FrameFits self.frameSize self.length (k + j) e := by
  induction segments generalizing k j with
  | nil => cases he
  | cons segment segments ih =>
    rw [allFrames, List.flatMap_cons] at he
    rcases Nat.lt_or_ge j segment.seekTable.length with hj | hj
    · rw [List.getElem?_append_left hj] at he
      exact h.1.frames j e he
    · rw [List.getElem?_append_right hj] at he
      have := ih h.2 he
      rwa [Nat.add_assoc, Nat.add_sub_cancel' hj] at this

theorem SegmentsFit.sizeComp {all segments : List CompressedSegment}
    (h : SegmentsFit self all k segments) :
    SeekTable.sizeComp (allFrames segments) = (segments.map (·.data)).flatten.length := by
  induction segments generalizing k with
  | nil => rfl
  | cons segment segments ih =>
    have := ih h.2
    rw [allFrames, List.flatMap_cons, SeekTable.sizeComp_append, h.1.length, List.map_cons,
      List.flatten_cons, List.length_append, ← this]
    rfl

theorem collectSeekTable_eq (segments : List CompressedSegment) :
    collectSeekTable segments = .ok (allFrames segments) := by
  have hseg : ∀ (table : SeekTable) (before : SeekTable) (i : ℕ), i ≤ table.length →
      (List.range i).foldlM (fun acc index => do
        let compressed ← table.frameSizeComp index
        let decompressed ← table.frameSizeDecomp index
        (pure (acc.logFrame (UInt32.ofNat compressed) (UInt32.ofNat decompressed)) : Run _)) before
        = .ok (before ++ table.take i) := by
    intro table before i hi
    induction i with
    | zero => rw [List.range_zero, List.take_zero, List.append_nil]; rfl
    | succ i ih =>
      have he : table[i]? = some table[i] := List.getElem?_eq_getElem hi
      rw [List.range_succ, List.foldlM_append, ih (by omega), Run.ok_bind, List.foldlM_cons,
        SeekTable.frameSizeComp_eq he, SeekTable.frameSizeDecomp_eq he,
        List.take_succ_eq_append_getElem hi, ← List.append_assoc]
      simp only [Run.ok_bind, UInt32.ofNat_toNat]
      rfl
  have hall : ∀ (before : SeekTable), segments.foldlM (fun table segment =>
      (List.range segment.seekTable.length).foldlM (fun table index => do
        let compressed ← segment.seekTable.frameSizeComp index
        let decompressed ← segment.seekTable.frameSizeDecomp index
        (pure (table.logFrame (UInt32.ofNat compressed) (UInt32.ofNat decompressed)) : Run _))
        table) before = .ok (before ++ allFrames segments) := by
    induction segments with
    | nil =>
      intro before
      rw [allFrames, List.flatMap_nil, List.append_nil]
      rfl
    | cons segment segments ih =>
      intro before
      rw [List.foldlM_cons, hseg _ _ _ le_rfl, Run.ok_bind, List.take_length, ih,
        List.append_assoc]
      rfl
  exact (hall []).trans (by rw [List.nil_append])

end EgtFileWriter

/-! ### The bytes of each frame -/

/-- The bytes of each frame of a segment. -/
def segmentFrames (segment : CompressedSegment) : List Bytes :=
  (List.range segment.seekTable.length).map fun i =>
    (segment.data.drop (SeekTable.sizeComp (segment.seekTable.take i))).take
      (SeekTable.sizeComp (segment.seekTable.take (i + 1))
        - SeekTable.sizeComp (segment.seekTable.take i))

theorem SeekTable.sizeComp_take_le (table : SeekTable) (i : ℕ) :
    SeekTable.sizeComp (table.take i) ≤ SeekTable.sizeComp table := by
  conv_rhs => rw [← List.take_append_drop i table, SeekTable.sizeComp_append]
  exact Nat.le_add_right _ _

open EgtFileWriter in
/-- In the concatenation of all segments each frame stands at its own place. -/
theorem getElem?_segmentFrames {w : EgtFileWriter} {all segments : List CompressedSegment} {k : ℕ}
    (h : SegmentsFit w all k segments) (rest : Bytes) {j : ℕ}
    (hj : j < (allFrames segments).length) :
    (segments.flatMap segmentFrames)[j]?
      = some (((((segments.map (·.data)).flatten ++ rest).drop
          (SeekTable.sizeComp ((allFrames segments).take j)))).take
          (SeekTable.sizeComp ((allFrames segments).take (j + 1))
            - SeekTable.sizeComp ((allFrames segments).take j))) := by
  induction segments generalizing k j with
  | nil => exact absurd hj (Nat.not_lt_zero j)
  | cons segment segments ih =>
    have hlen : (segmentFrames segment).length = segment.seekTable.length := by
      rw [segmentFrames, List.length_map, List.length_range]
    have hall : allFrames (segment :: segments) = segment.seekTable ++ allFrames segments :=
      List.flatMap_cons
    rw [List.flatMap_cons, hall, List.map_cons, List.flatten_cons, List.append_assoc]
    have hj : j < segment.seekTable.length + (allFrames segments).length := by
      rwa [length_allFrames_cons] at hj
    rcases Nat.lt_or_ge j segment.seekTable.length with hlt | hge
    · -- A frame of the first segment.
      have hle := SeekTable.sizeComp_take_le segment.seekTable (j + 1)
      rw [h.1.length] at hle
      have hmono : SeekTable.sizeComp (segment.seekTable.take j)
          ≤ SeekTable.sizeComp (segment.seekTable.take (j + 1)) := by
        rw [SeekTable.sizeComp_take_succ (List.getElem?_eq_getElem hlt)]
        exact Nat.le_add_right _ _
      have hin : SeekTable.sizeComp (segment.seekTable.take (j + 1))
          - SeekTable.sizeComp (segment.seekTable.take j)
          ≤ (segment.data.drop (SeekTable.sizeComp (segment.seekTable.take j))).length := by
        rw [List.length_drop]
        exact Nat.sub_le_sub_right hle _
      rw [List.getElem?_append_left (by rw [hlen]; exact hlt), List.take_append_of_le_length hlt.le,
        List.take_append_of_le_length hlt, segmentFrames, List.getElem?_map,
        List.getElem?_range hlt, Option.map_some,
        List.drop_append_of_le_length (hmono.trans hle), List.take_append_of_le_length hin]
    · -- A frame of the other segments.
      have := ih h.2 (j := j - segment.seekTable.length) (Nat.sub_lt_left_of_lt_add hge hj)
      rw [List.getElem?_append_right (by rw [hlen]; exact hge), hlen, this,
        List.take_append, List.take_append, List.take_of_length_le hge,
        List.take_of_length_le (hge.trans (Nat.le_succ j)), SeekTable.sizeComp_append,
        SeekTable.sizeComp_append, h.1.length, ← List.drop_drop, List.drop_left,
        Nat.succ_sub hge, Nat.add_sub_add_left]

/-! ### Publishing and loading -/

theorem Run.forM_eq_ok {α : Type} {f : α → Run Unit} {l : List α} (h : ∀ a ∈ l, f a = .ok ()) :
    l.forM f = .ok () := by
  induction l with
  | nil => rfl
  | cons a l ih =>
    show (f a >>= fun _ => l.forM f) = _
    rw [h a List.mem_cons_self, Run.ok_bind]
    exact ih fun b hb => h b (List.mem_cons_of_mem _ hb)

section Loading

variable [Codec]

open EgtFileWriter in
/-- **Publishing** accepted segments stores their bytes and one footer for all of them. -/
theorem publish_eq_ok {w : EgtFileWriter} {segments : List CompressedSegment} (store : Store)
    (hsegments : w.segments = some segments) (hfooter : w.footer = none)
    (hpublished : w.published = false) (hwritable : w.location.writable = true) :
    ∃ w₁ w₂ object, object = (segments.map (·.data)).flatten ++
        Codec.serialize (allFrames segments) ∧ w.finish = .ok w₁ ∧
      w₁.publish store
        = .ok (store.put w.key object, w₂, object.length, Codec.sha256 object) := by
  have hfinish : w.finish = .ok { w with footer := some (Codec.serialize (allFrames segments)) } := by
    unfold finish
    rw [hpublished, hfooter]
    simp only [hsegments, collectSeekTable_eq]
    rfl
  refine ⟨_, { w with segments := none, footer := none, published := true }, _, rfl, hfinish, ?_⟩
  unfold publish publishBuffers Location.ensureWritable
  simp only [hpublished, hsegments, hwritable, if_true, Run.ok_bind, Option.getD_some,
    List.flatten_append, List.flatten_singleton]
  rfl

variable [LawfulCodec] {reader : EgtFileReader} {store : Store} {body : Bytes} {table : SeekTable}

/-- **Opening** a published object passes the checks of the seek table. -/
theorem loadSeekTable_published (hf : 0 < reader.frameSize)
    (hlayout : reader.frameLayout = frameLayout reader.frameSize reader.indexRange)
    (hframes : reader.frames.length = table.length)
    (hcount : table.length = Pieces.count reader.frameSize reader.indexRange)
    (hlt : table.length < 2 ^ 32)
    (hfits : ∀ j e, table[j]? = some e → FrameFits reader.frameSize reader.indexRange j e)
    (hsize : SeekTable.sizeComp table = body.length)
    (hstore : store reader.key = some (body ++ Codec.serialize table)) :
    reader.loadSeekTable store = .ok { reader with seekTable := some table } := by
  have hlen := LawfulCodec.length_serialize table
  have hsuffix : store.getSuffix reader.key (17 + 8 * table.length)
      = .ok (body.length, Codec.serialize table) := by
    unfold Store.getSuffix Store.get
    rw [hstore]
    have : (body ++ Codec.serialize table).length - (17 + 8 * table.length) = body.length := by
      rw [List.length_append, hlen, Nat.add_sub_cancel]
    simp only [Run.ok_bind, this, List.drop_left]
    rfl
  have hchecks : reader.frameLayout.zipIdx.forM (EgtFileReader.checkDescriptor table) = .ok () := by
    refine Run.forM_eq_ok fun x hx => ?_
    have hx := List.mem_zipIdx_iff_getElem?.mp hx
    have hj : x.2 < table.length := by
      rw [hcount, ← length_frameLayout, ← hlayout]
      exact (List.getElem?_eq_some_iff.mp hx).1
    obtain ⟨hne, hk, hd⟩ := hfits x.2 _ (List.getElem?_eq_getElem hj)
    rw [hlayout, getElem?_frameLayout hf hk] at hx
    have hget := List.getElem?_eq_getElem hj
    unfold EgtFileReader.checkDescriptor
    rw [SeekTable.frameSizeDecomp_eq hget, SeekTable.frameSizeComp_eq hget, Run.ok_bind,
      Run.ok_bind, if_neg]
    · rfl
    · rw [not_or, not_not, ← Option.some.inj hx]
      exact ⟨hd, fun h => hne (UInt32.toNat_inj.mp h)⟩
  unfold EgtFileReader.loadSeekTable EgtFileReader.numFrames
  simp only [hframes, hsuffix, Run.ok_bind, hlen, ne_eq, not_true_eq_false, if_false]
  have hdrop : 17 + 8 * table.length - 9 = 8 + 8 * table.length := by omega
  simp only [hdrop, LawfulCodec.count_serialize table hlt, not_true_eq_false, if_false,
    LawfulCodec.parse_serialize table hlt, hsize, hchecks, Run.ok_bind]
  rfl

omit [LawfulCodec] in
/-- A frame is read at its own bytes. -/
theorem getRange_published {j : ℕ} {e : UInt32 × UInt32} (he : table[j]? = some e)
    (hne : e.1 ≠ 0) (hsize : SeekTable.sizeComp table = body.length) {key : ObjectPath}
    (hstore : store key = some (body ++ Codec.serialize table)) :
    table.frameStartComp j = .ok (SeekTable.sizeComp (table.take j)) ∧
      table.frameEndComp j = .ok (SeekTable.sizeComp (table.take (j + 1))) ∧
      store.getRange key (SeekTable.sizeComp (table.take j), SeekTable.sizeComp (table.take (j + 1)))
        = .ok (((body ++ Codec.serialize table).drop (SeekTable.sizeComp (table.take j))).take
          (SeekTable.sizeComp (table.take (j + 1)) - SeekTable.sizeComp (table.take j))) := by
  have hj : j < table.length := (List.getElem?_eq_some_iff.mp he).1
  refine ⟨if_pos hj, if_pos hj, ?_⟩
  have hpos : e.1.toNat ≠ 0 := fun h => hne (UInt32.toNat_inj.mp h)
  have hlt : SeekTable.sizeComp (table.take j) < SeekTable.sizeComp (table.take (j + 1)) := by
    rw [SeekTable.sizeComp_take_succ he]
    omega
  have hle := SeekTable.sizeComp_take_le table (j + 1)
  unfold Store.getRange Store.get
  rw [hstore]
  simp only [Run.ok_bind]
  rw [if_pos ⟨hlt, by rw [List.length_append, ← hsize]; omega⟩]
  rfl

end Loading

end ChessEgt
