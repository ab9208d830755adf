import ChessEgt.Storage.Finalized
import ChessEgt.Storage.Raw
import ChessEgt.Storage.Reading

/-!
# From a working array to a file and back

* `Published` — an object that the reader opens, with each frame at its own bytes;
* `IsEntry` — the words of working arrays, which are stored without loss;
* `After` — the readers of an opened table after any reads;
* `ReadsBack` — every way to read returns the outcomes of the array;
* `table_file_round_trip` — accepted segments are published, and finalized arrays are read back.
-/

namespace ChessEgt

open Pieces EgtFileWriter

section

variable [Codec] {location : Location} {name : List Char} {M : Material} {reader : EgtFileReader}
  {store store₁ : Store} {writer : EgtFileWriter}

/-! ### New writers -/

/-- A root has a descriptor once it is ensured. -/
theorem validateFormat_of_ensureFormat [LawfulCodec]
    (h : location.ensureFormat store = .ok store₁) :
    location.writable = true ∧ location.validateFormat store₁ = .ok () := by
  unfold Location.ensureFormat at h
  obtain ⟨u, hu, h⟩ := Run.bind_eq_ok.mp h
  have hwritable : location.writable = true := by
    unfold Location.ensureWritable at hu
    by_contra hw
    rw [if_neg hw] at hu
    cases hu
  refine ⟨hwritable, ?_⟩
  rcases hv : location.validateFormat store with fault | u
  · rw [hv] at h
    split at h
    · rename_i heq
      cases heq
    · -- The descriptor is written.
      rw [← Except.ok.inj h]
      unfold Location.validateFormat Store.get Store.put
      rw [Function.update_self]
      simp only [Run.ok_bind, LawfulCodec.parseFormat_formatJson, if_true]
      rfl
    · cases h
  · rw [hv] at h
    rw [← Except.ok.inj h]
    exact hv

/-- What a new writer knows of its table. -/
structure NewWriter (location : Location) (reader : EgtFileReader) (store₁ : Store)
    (writer : EgtFileWriter) : Prop where
  key : writer.key = reader.key
  frameSize : writer.frameSize = reader.frameSize
  length : writer.length = reader.indexRange
  segments : writer.segments = none
  footer : writer.footer = none
  published : writer.published = false
  writable : writer.location.writable = true
  format : location.validateFormat store₁ = .ok ()

theorem Constructed.newWriter [LawfulCodec] (h : Constructed location M reader)
    (hw : EgtFileWriter.new store reader = .ok (store₁, writer)) :
    NewWriter location reader store₁ writer := by
  unfold EgtFileWriter.new at hw
  split at hw
  · cases hw
  obtain ⟨s, hs, hw⟩ := Run.bind_eq_ok.mp hw
  obtain ⟨rfl, rfl⟩ := Prod.mk.inj (Except.ok.inj hw)
  rw [h.location_eq] at hs
  obtain ⟨hwritable, hformat⟩ := validateFormat_of_ensureFormat hs
  exact ⟨rfl, rfl, rfl, rfl, rfl, rfl, by rw [h.location_eq]; exact hwritable, hformat⟩

/-- A new writer creates the descriptor of an empty root. -/
theorem Constructed.exists_newWriter (h : Constructed location M reader)
    (hwritable : location.writable = true) :
    ∃ store₁ writer, EgtFileWriter.new (fun _ => none) reader = .ok (store₁, writer) := by
  have hensure : location.ensureFormat (fun _ => none)
      = .ok (Store.put (fun _ => none) (location.key "format.json".toList) Codec.formatJson) := by
    unfold Location.ensureFormat Location.ensureWritable
    rw [if_pos hwritable]
    rfl
  unfold EgtFileWriter.new
  rw [h.frameSize, if_neg (by decide), h.location_eq, hensure]
  exact ⟨_, _, rfl⟩

/-! ### Published segments -/

/-- An object that the reader opens, and the bytes of its frames. -/
structure Published (location : Location) (name : List Char) (reader : EgtFileReader)
    (store : Store) (segments : List CompressedSegment) : Prop where
  opened : EgtFileReader.openIn store location name
    = .ok { reader with seekTable := some (allFrames segments) }
  count : (segments.flatMap segmentFrames).length = reader.numFrames
  frame : ∀ k, ∀ bytes, (segments.flatMap segmentFrames)[k]? = some bytes →
    ∃ range, (allFrames segments).frameRange k = .ok range ∧
      store.getRange reader.key range = .ok bytes ∧ bytes.length = range.2 - range.1

omit [Codec] in
theorem length_flatMap_segmentFrames (segments : List CompressedSegment) :
    (segments.flatMap segmentFrames).length = (allFrames segments).length := by
  rw [allFrames, List.length_flatMap, List.length_flatMap]
  congr 1
  refine List.map_congr_left fun s _ => ?_
  rw [segmentFrames, List.length_map, List.length_range]

theorem published_of_accepted [LawfulCodec]
    (hreader : EgtFileReader.construct location name = .ok reader)
    (h : Constructed location M reader) (hn : NewWriter location reader store₁ writer)
    {segments : List CompressedSegment} {written : EgtFileWriter}
    (hwritten : writer.writeSegments segments = .ok written) :
    ∃ finished store₂ result, written.finish = .ok finished ∧
      finished.publish store₁ = .ok (store₂, result) ∧
      Published location name reader store₂ segments := by
  have hf : 0 < writer.frameSize := by rw [hn.frameSize, h.frameSize]; exact frameSize_pos
  obtain ⟨hfits, hcount, hwritten⟩ :=
    (writeSegments_eq_ok hf hn.segments hn.footer hn.published).mp hwritten
  have hsegments : written.segments = some segments := by rw [hwritten]
  obtain ⟨finished, published, object, hobject, hfinish, hpublish⟩ :=
    publish_eq_ok store₁ hsegments (by rw [hwritten]; exact hn.footer)
      (by rw [hwritten]; exact hn.published) (by rw [hwritten]; exact hn.writable)
  have hkey : written.key = reader.key := by rw [hwritten]; exact hn.key
  rw [hkey] at hpublish
  have hframes : reader.frames.length = count reader.frameSize reader.indexRange := by
    rw [h.frames, List.length_replicate, h.layout, length_frameLayout]
  rw [hn.frameSize, hn.length] at hcount
  have hstore : store₁.put reader.key object reader.key
      = some ((segments.map (·.data)).flatten ++ Codec.serialize (allFrames segments)) := by
    rw [Store.put, Function.update_self, hobject]
  have hframe : ∀ j e, (allFrames segments)[j]? = some e →
      FrameFits reader.frameSize reader.indexRange j e := by
    intro j e he
    have := hfits.frameFits he
    rwa [Nat.zero_add, hn.frameSize, hn.length] at this
  refine ⟨finished, _, _, hfinish, hpublish, ?_, ?_, fun k bytes hk => ?_⟩
  · -- The format stays, as the table has another key.
    have hvalidate : location.validateFormat (store₁.put reader.key object) = .ok () := by
      have hformat := hn.format
      unfold Location.validateFormat Store.get at hformat ⊢
      rw [Store.put, Function.update_of_ne h.key.symm]
      exact hformat
    have hload := loadSeekTable_published (by rw [← hn.frameSize]; exact hf) h.layout
      (by rw [hframes, hcount]) hcount (by rw [hcount]; exact h.count_lt) hframe
      hfits.sizeComp hstore
    unfold EgtFileReader.openIn
    rw [hreader, Run.ok_bind, hvalidate, Run.ok_bind, hload, Run.ok_bind]
    dsimp only
    rw [show List.replicate reader.frames.length none = reader.frames by
      rw [h.frames, List.length_replicate]]
    rfl
  · rw [EgtFileReader.numFrames, hframes, ← hcount, length_flatMap_segmentFrames]
  · have hlt : k < (allFrames segments).length := by
      have := (List.getElem?_eq_some_iff.mp hk).1
      rwa [length_flatMap_segmentFrames] at this
    have he := List.getElem?_eq_getElem hlt
    obtain ⟨hstart, hstop, hget⟩ := getRange_published he (hframe k _ he).1 hfits.sizeComp hstore
    rw [getElem?_segmentFrames hfits (Codec.serialize (allFrames segments)) hlt] at hk
    refine ⟨(_, _), ?_, hget.trans (congrArg Except.ok (Option.some.inj hk)), ?_⟩
    · rw [SeekTable.frameRange, hstart, hstop]
      rfl
    · rw [← Option.some.inj hk, List.length_take, List.length_drop, List.length_append,
        ← hfits.sizeComp]
      have := SeekTable.sizeComp_take_le (allFrames segments) (k + 1)
      dsimp only
      omega

/-! ### Entries of working arrays -/

/-- The words of a working array. -/
inductive IsEntry : MaybeDtcOutcome → Prop
  | invalid : IsEntry .invalid
  | draw : IsEntry .draw
  | unknown (counter : UInt16) : counter.toNat < 2 ^ 13 → IsEntry (.newUnknown counter)
  | win (ct : ConversionType) (distance : UInt16) : distance.toNat < 2 ^ 13 →
    IsEntry (.newWin ct distance)
  | loss (ct : ConversionType) (distance : UInt16) : distance.toNat < 2 ^ 13 →
    IsEntry (.newLoss ct distance)

omit [Codec] in
/-- A resolved entry has a tag, or is zero. -/
theorem storable_resolveUnknown {v : MaybeDtcOutcome} (h : IsEntry v) :
    Storable (resolveUnknown v) := by
  have hassigned : ∀ w : MaybeDtcOutcome, 2 ≤ w.bits.toNat % 8 → Storable (resolveUnknown w) := by
    intro w hw
    unfold resolveUnknown Storable
    rw [if_neg (fun hu => by have := (MaybeDtcOutcome.isUnknown_iff.mp hu).1; omega)]
    intro hlow
    omega
  cases h with
  | invalid =>
    unfold Storable
    decide
  | draw =>
    unfold Storable
    decide
  | unknown counter hc =>
    unfold Storable resolveUnknown
    split
    · decide
    · -- A counter of zero is an invalid entry.
      rename_i hu
      rw [MaybeDtcOutcome.isUnknown_iff, MaybeDtcOutcome.toNat_newUnknown hc] at hu
      rw [MaybeDtcOutcome.toNat_newUnknown hc]
      omega
  | win ct distance hd =>
    refine hassigned _ ?_
    rw [MaybeDtcOutcome.toNat_newWin ct hd]
    have : 2 ≤ (MaybeDtcOutcome.winBits ct).toNat % 8 := by cases ct <;> decide
    omega
  | loss ct distance hd =>
    refine hassigned _ ?_
    rw [MaybeDtcOutcome.toNat_newLoss ct hd]
    have : 2 ≤ (MaybeDtcOutcome.lossBits ct).toNat % 8 := by cases ct <;> decide
    omega

/-! ### Reading back -/

/-- The readers after any successful reads of an opened table. -/
inductive After (store : Store) (opened : EgtFileReader) : EgtFileReader → Prop
  | opened : After store opened opened
  | single {r r' : EgtFileReader} {i : ℕ} {v : MaybeDtcOutcome} : After store opened r →
    r.readFromIndex store i = .ok (r', v) → After store opened r'
  | chunk {r r' : EgtFileReader} {start stop : ℕ} {vs : List MaybeDtcOutcome} :
    After store opened r → r.frameChunk store start stop = .ok (r', vs) → After store opened r'
  | frames {r r' : EgtFileReader} {frames : List ℕ} : After store opened r →
    (∀ k ∈ frames, k < r.numFrames) → r.ensureUncompressedFrames store frames = (r', .ok ()) →
    After store opened r'

/-- **Reads** keep a reader over the stored outcomes. -/
theorem Backed.after {values : List MaybeDtcOutcome} {opened r : EgtFileReader}
    (h : Backed store values opened) (ha : After store opened r) : Backed store values r := by
  induction ha with
  | opened => exact h
  | @single r r' i v _ hr ih =>
    have hi : i < r.indexRange := by
      by_contra hge
      have hcheck : r.checkIndex i = .error (.error (.indexOutOfRange i r.indexRange)) :=
        if_pos (Nat.le_of_not_lt hge)
      unfold EgtFileReader.readFromIndex at hr
      rw [hcheck] at hr
      cases hr
    rw [← ih.length] at hi
    obtain ⟨r₁, hr₁, hb⟩ := ih.readFromIndex (List.getElem?_eq_getElem hi)
    rw [(Prod.mk.inj (Except.ok.inj (hr.symm.trans hr₁))).1]
    exact hb
  | @chunk r r' start stop vs _ hr ih =>
    have hr₀ := hr
    unfold EgtFileReader.frameChunk at hr
    obtain ⟨u, hcheck, hr⟩ := Run.bind_eq_ok.mp hr
    have hbounds : start ≤ stop ∧ stop ≤ r.indexRange := by
      unfold EgtFileReader.checkChunk at hcheck
      split at hcheck
      · cases hcheck
      · omega
    have hone : start % r.frameSize + (stop - start) ≤ r.frameSize := by
      by_cases heq : start = stop
      · have := Nat.mod_lt start ih.pos
        omega
      · rw [if_neg heq] at hr
        obtain ⟨x, hx, -⟩ := Run.bind_eq_ok.mp hr
        exact ih.chunk_le (by omega) hbounds.2 hx
    obtain ⟨r₁, hr₁, hb⟩ := ih.frameChunk hbounds.1 hbounds.2 hone
    rw [(Prod.mk.inj (Except.ok.inj (hr₀.symm.trans hr₁))).1]
    exact hb
  | @frames r r' frames _ hframes hr ih =>
    obtain ⟨r₁, hr₁, hb, -⟩ := ih.ensureUncompressedFrames fun k hk => ih.lt_frames.mp (hframes k hk)
    rw [(Prod.mk.inj (hr.symm.trans hr₁)).1]
    exact hb

/-- Every way to read returns the outcomes of an array. -/
structure ReadsBack (store : Store) (values : List MaybeDtcOutcome) (r : EgtFileReader) : Prop where
  single : ∀ i v, values[i]? = some v → ∃ r', r.readFromIndex store i = .ok (r', v)
  chunk : ∀ start stop, start ≤ stop → stop ≤ values.length →
    start % r.frameSize + (stop - start) ≤ r.frameSize →
    ∃ r', r.frameChunk store start stop = .ok (r', (values.drop start).take (stop - start))
  several : ∀ indices outcomes frames, List.Forall₂ (fun i v => values[i]? = some v) indices outcomes →
    (∀ k ∈ frames, k < r.numFrames) → (∀ i ∈ indices, i / r.frameSize ∈ frames) →
    ∃ r', r.ensureUncompressedFrames store frames = (r', .ok ()) ∧
      r'.readIndicesCached indices = .ok (some outcomes)

theorem Backed.readsBack {values : List MaybeDtcOutcome} {r : EgtFileReader}
    (h : Backed store values r) : ReadsBack store values r where
  single i v hv := by
    obtain ⟨r', hr, -⟩ := h.readFromIndex hv
    exact ⟨r', hr⟩
  chunk start stop hle hstop hone := by
    rw [h.length] at hstop
    obtain ⟨r', hr, -⟩ := h.frameChunk hle hstop hone
    exact ⟨r', hr⟩
  several indices outcomes frames hv hframes hcover := by
    obtain ⟨r', hr, -, hread⟩ :=
      h.readIndices hv (fun k hk => h.lt_frames.mp (hframes k hk)) hcover
    exact ⟨r', hr, hread⟩

/-- A published array is read back. -/
theorem Constructed.backed [LawfulCodec] (h : Constructed location M reader)
    {values : List MaybeDtcOutcome} (hlen : values.length = reader.indexRange)
    (hstorable : ∀ v ∈ values, Storable v) {segments : List CompressedSegment}
    (hp : Published location name reader store segments)
    (hframes : segments.flatMap segmentFrames = (pieces reader.frameSize values).map
      fun c => Codec.compress (transposeFrame c)) :
    Backed store values { reader with seekTable := some (allFrames segments) } where
  pos := by dsimp only; rw [h.frameSize]; exact frameSize_pos
  length := hlen
  layout := h.layout
  frames := by dsimp only; rw [h.frames, List.length_replicate]
  resident k vs hk := by
    dsimp only at hk
    rw [h.frames] at hk
    exact absurd (List.eq_of_mem_replicate (List.mem_of_getElem? hk)) (by simp)
  stored := by
    refine ⟨_, rfl, fun k hk => ?_⟩
    have hf : 0 < reader.frameSize := by rw [h.frameSize]; exact frameSize_pos
    dsimp only at hk
    rw [← hlen] at hk
    have hbytes : (segments.flatMap segmentFrames)[k]?
        = some (Codec.compress (transposeFrame (frameValues reader.frameSize values k))) := by
      rw [hframes, List.getElem?_map, getElem?_pieces hf values hk]
      rfl
    obtain ⟨range, hrange, hget, hsize⟩ := hp.frame k _ hbytes
    obtain ⟨start, hstart, hrange⟩ := Run.bind_eq_ok.mp hrange
    obtain ⟨stop, hstop, hrange⟩ := Run.bind_eq_ok.mp hrange
    obtain rfl := Except.ok.inj hrange
    refine ⟨start, stop, _, hstart, hstop, hget, hsize, ?_⟩
    have hvalues : ∀ v ∈ frameValues reader.frameSize values k, Storable v :=
      fun v hv => hstorable v (List.mem_of_mem_drop (List.mem_of_mem_take hv))
    have hdecompress := LawfulCodec.decompress_compress
      (transposeFrame (frameValues reader.frameSize values k))
    have hlength := length_frameValues reader.frameSize values k
    rw [length_transposeFrame, hlength, hlen] at hdecompress
    unfold decodeFrame
    rw [hdecompress]
    dsimp only
    rw [length_transposeFrame, hlength, hlen, if_neg (not_not.mpr rfl), ← hlen, ← hlength]
    exact detransposeFrame_transposeFrame hvalues

/-- **Table files round trip**: every list of segments that a new writer accepts is published as an
    object that the reader opens, with each frame at its own bytes, whatever the split into
    segments; and every working array, finalized on any number of threads, is published and read
    back with its unknown outcomes as draws, after any reads. -/
theorem table_file_round_trip [LawfulCodec]
    (hreader : EgtFileReader.construct location name = .ok reader)
    (hwriter : EgtFileWriter.new store reader = .ok (store₁, writer)) :
    (∀ segments written, writer.writeSegments segments = .ok written →
      ∃ finished store₂ result, written.finish = .ok finished ∧
        finished.publish store₁ = .ok (store₂, result) ∧
        Published location name reader store₂ segments) ∧
    (∀ values : List MaybeDtcOutcome, values.length = reader.indexRange → (∀ v ∈ values, IsEntry v) →
      ∀ maxima threads, ∃ batches written finished store₂ result opened,
        finalizeBatches reader values maxima threads = .ok batches ∧
        writer.writeSegments (batches.map (·.1)) = .ok written ∧
        written.finish = .ok finished ∧
        finished.publish store₁ = .ok (store₂, result) ∧
        EgtFileReader.openIn store₂ location name = .ok opened ∧
        ∀ r, After store₂ opened r → ReadsBack store₂ (values.map resolveUnknown) r) := by
  obtain ⟨M, h⟩ := constructed_of_ok hreader
  have hn := h.newWriter hwriter
  refine ⟨fun segments written => published_of_accepted hreader h hn, fun values hlen hentries maxima threads => ?_⟩
  obtain ⟨batches, hbatches, hframes, hbytes, hsegments⟩ := segments_finalized h hlen maxima threads
  rw [resolvedFrames_eq] at hframes hbytes
  have hf : 0 < reader.frameSize := by rw [h.frameSize]; exact frameSize_pos
  have hlen' : (values.map resolveUnknown).length = reader.indexRange := by
    rw [List.length_map, hlen]
  -- The frames of the array fit.
  have hfits : SegmentsFit writer (batches.map (·.1)) 0 (batches.map (·.1)) := by
    refine segmentsFit_of_frames hsegments fun j e he => ?_
    rw [hframes, List.getElem?_map, Option.map_eq_some_iff] at he
    obtain ⟨c, hc, rfl⟩ := he
    have hj : j * reader.frameSize < (values.map resolveUnknown).length := by
      rw [← lt_count hf, ← length_pieces]
      exact (List.getElem?_eq_some_iff.mp hc).1
    have hle : c.length ≤ ChessEgt.frameSize :=
      h.frameSize ▸ (length_le_of_mem hf (List.mem_of_getElem? hc)).2
    obtain ⟨hcomp, hdecomp⟩ := toNat_frameEntry hle
    rw [getElem?_pieces hf _ hj] at hc
    rw [Nat.zero_add, hn.frameSize, hn.length, ← hlen']
    refine ⟨fun hzero => LawfulCodec.compress_ne_nil (transposeFrame c) ?_, hj, ?_⟩
    · rw [← List.length_eq_zero_iff, ← hcomp, hzero]
      rfl
    · rw [hdecomp, ← Option.some.inj hc, List.length_take, List.length_drop]
  have hcount : (allFrames (batches.map (·.1))).length = count writer.frameSize writer.length := by
    rw [hframes, List.length_map, length_pieces, hlen', hn.frameSize, hn.length]
  have hwritten := (writeSegments_eq_ok (by rw [hn.frameSize]; exact hf) hn.segments hn.footer
    hn.published).mpr ⟨hfits, hcount, rfl⟩
  obtain ⟨finished, store₂, result, hfinish, hpublish, hp⟩ :=
    published_of_accepted hreader h hn hwritten
  refine ⟨batches, _, finished, store₂, result, _, hbatches, hwritten, hfinish, hpublish,
    hp.opened, fun r hr => ?_⟩
  have hstorable : ∀ v ∈ values.map resolveUnknown, Storable v := by
    intro v hv
    obtain ⟨w, hw, rfl⟩ := List.mem_map.mp hv
    exact storable_resolveUnknown (hentries w hw)
  exact ((h.backed hlen' hstorable hp hbytes).after hr).readsBack

end

/-- The draws of the two kings are read back. -/
theorem table_file_round_trip_kings : ∃ store reader,
    @EgtFileReader.openIn rawCodec store ⟨[], true⟩ "K_K".toList = .ok reader ∧
      @ReadsBack rawCodec store (List.replicate 462 .draw) reader := by
  have hrange : ((EgtFileReader.construct ⟨[], true⟩ "K_K".toList).toOption.map (·.indexRange))
      = some 462 := by decide +kernel
  obtain ⟨reader, hr, hlen⟩ := Option.map_eq_some_iff.mp hrange
  have hreader : EgtFileReader.construct ⟨[], true⟩ "K_K".toList = .ok reader := by
    cases h : EgtFileReader.construct ⟨[], true⟩ "K_K".toList with
    | ok r =>
      rw [h] at hr
      exact congrArg Except.ok (Option.some.inj hr)
    | error fault =>
      rw [h] at hr
      cases hr
  obtain ⟨M, h⟩ := constructed_of_ok hreader
  obtain ⟨store₁, writer, hwriter⟩ := @Constructed.exists_newWriter rawCodec _ _ _ h rfl
  obtain ⟨-, hvalues⟩ :=
    @table_file_round_trip rawCodec _ _ _ _ _ _ lawful_rawCodec hreader hwriter
  obtain ⟨-, -, -, store₂, -, opened, -, -, -, -, hopened, hreads⟩ :=
    hvalues (List.replicate 462 .draw) (by rw [List.length_replicate, hlen])
      (fun v hv => by rw [List.eq_of_mem_replicate hv]; exact IsEntry.draw) (0, 0) 4
  have hback := hreads opened (@After.opened rawCodec store₂ opened)
  rw [List.map_replicate] at hback
  exact ⟨store₂, opened, hopened, hback⟩

end ChessEgt
