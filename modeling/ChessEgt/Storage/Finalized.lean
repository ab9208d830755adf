import ChessEgt.Indexing.Size
import ChessEgt.Indexing.Orbits
import ChessEgt.Routing.Names
import ChessEgt.Storage.Finalization
import ChessEgt.Storage.Published

/-!
# Finalized batches

* `Constructed` — what a constructed reader knows of its table;
* `segmentOf`, `finalizeBatches_eq_ok` — the segments of a finalized table, which together have the
  frames of the whole array;
* `segmentsFit_finalized` — they are accepted for every number of threads.
-/

namespace ChessEgt

open Pieces

/-! ### Constructed readers -/

/-- A reader of a table whose frames are all cold. -/
structure Constructed (location : Location) (M : Material) (reader : EgtFileReader) : Prop where
  small : M.nPieces ≤ maxPieces
  indexer : reader.egt.indexer = M.indexer
  indexRange : reader.indexRange = M.indexer.indexRange
  frameSize : reader.frameSize = ChessEgt.frameSize
  layout : reader.frameLayout = frameLayout reader.frameSize reader.indexRange
  frames : reader.frames = List.replicate reader.frameLayout.length none
  key : reader.key ≠ location.key "format.json".toList
  location_eq : reader.location = location

theorem getLast?_relativePath {id : TableId} {path : List Char}
    (h : id.relativePath "ggegt".toList = .ok path) : path.getLast? = some 't' := by
  obtain ⟨d, -, hd⟩ := Run.bind_eq_ok.mp h
  rw [← Except.ok.inj hd, List.append_assoc, ← List.append_assoc, List.getLast?_append_of_ne_nil]
  · rfl
  · exact List.cons_ne_nil _ _

theorem constructed_of_ok {location : Location} {name : List Char} {reader : EgtFileReader}
    (h : EgtFileReader.construct location name = .ok reader) :
    ∃ M, Constructed location M reader := by
  unfold EgtFileReader.construct at h
  obtain ⟨id, -, h⟩ := Run.bind_eq_ok.mp h
  obtain ⟨elements, -, h⟩ := Run.bind_eq_ok.mp h
  obtain ⟨egt, hegt, h⟩ := Run.bind_eq_ok.mp h
  obtain ⟨path, hpath, h⟩ := Run.bind_eq_ok.mp h
  obtain ⟨plan, hplan, hegt⟩ := Run.bind_eq_ok.mp hegt
  obtain ⟨tablename, -, hegt⟩ := Run.bind_eq_ok.mp hegt
  have hvalid := Indexer.validElements_of_fromElements hplan
  rw [Indexer.fromElements_eq hvalid] at hplan
  have hindexer : egt.indexer = hvalid.material.indexer := by
    rw [← Except.ok.inj hegt, ← Except.ok.inj hplan]
  rw [← Except.ok.inj h]
  refine ⟨hvalid.material, ?_, hindexer, congrArg Indexer.indexRange hindexer, rfl, rfl, rfl, ?_, rfl⟩
  · rw [hvalid.nPieces_material]
    exact hvalid.total
  · intro hkey
    -- The extensions differ.
    have hpath' : path = "format.json".toList := by
      have := List.append_cancel_left hkey
      exact (List.cons.inj this).2
    have hlast := getLast?_relativePath hpath
    rw [hpath'] at hlast
    exact absurd hlast (by decide)

theorem frameSize_pos : 0 < ChessEgt.frameSize := by decide

/-- Every index has a partner or none. -/
theorem Constructed.diagonalSymmetric {location : Location} {M : Material} {reader : EgtFileReader}
    (h : Constructed location M reader) {i : ℕ} (hi : i < reader.indexRange) :
    ∃ o, reader.egt.diagonalSymmetric i = .ok o := by
  rw [h.indexRange] at hi
  unfold Egt.diagonalSymmetric
  rw [h.indexer]
  obtain ⟨b, ep, hb⟩ := exists_indexes h.small hi
  exact hb.exists_diagonalSymmetric h.small

/-- The number of frames fits its word. -/
theorem Constructed.count_lt {location : Location} {M : Material} {reader : EgtFileReader}
    (h : Constructed location M reader) : count reader.frameSize reader.indexRange < 2 ^ 32 := by
  have hrange := indexRange_lt h.small
  rw [h.frameSize, h.indexRange]
  unfold Pieces.count
  refine Nat.div_lt_of_lt_mul ?_
  rw [show ChessEgt.frameSize = 2 ^ 18 from rfl]
  omega

/-! ### Outcomes are counted -/

/-- A run over a list succeeds if each step does. -/
theorem Run.foldlM_isOk {α β : Type} {f : β → α → Run β} {l : List α}
    (h : ∀ a ∈ l, ∀ b, ∃ b', f b a = .ok b') (b : β) : ∃ b', l.foldlM f b = .ok b' := by
  induction l generalizing b with
  | nil => exact ⟨b, rfl⟩
  | cons a l ih =>
    obtain ⟨b₁, h₁⟩ := h a List.mem_cons_self b
    rw [List.foldlM_cons, h₁, Run.ok_bind]
    exact ih (fun a ha => h a (List.mem_cons_of_mem _ ha)) b₁

variable {egt : Egt} {maxima : ℕ × ℕ}

theorem recordOutcome_isOk (stats : TableStats) (outcome : MaybeDtcOutcome) {i : ℕ}
    (h : ∃ o, egt.diagonalSymmetric i = .ok o) :
    ∃ stats', stats.recordOutcome outcome i egt maxima.1 maxima.2 = .ok stats' := by
  obtain ⟨o, ho⟩ := h
  unfold TableStats.recordOutcome
  rw [ho, Run.ok_bind]
  split
  · exact ⟨_, rfl⟩
  split
  · exact ⟨_, rfl⟩
  split
  · exact ⟨_, rfl⟩
  split
  · exact ⟨_, rfl⟩
  · exact ⟨_, rfl⟩

theorem recordOutcomes_isOk (maxima : ℕ × ℕ) (stats : TableStats) {start : ℕ}
    (values : List MaybeDtcOutcome) (h : ∀ i < start + values.length, ∃ o, egt.diagonalSymmetric i = .ok o) :
    ∃ stats', recordOutcomes egt maxima stats start values = .ok stats' := by
  refine Run.foldlM_isOk (fun x hx stats => ?_) stats
  have hlt := (List.getElem?_eq_some_iff.mp (List.mem_zipIdx_iff_getElem?.mp hx)).1
  exact recordOutcome_isOk stats x.1 (h _ (by omega))

/-- The resolved frames of a part of the array. -/
def resolvedFrames (frameSize : ℕ) (values : List MaybeDtcOutcome) : List (List MaybeDtcOutcome) :=
  (pieces frameSize values).map (List.map resolveUnknown)

theorem resolvedFrames_eq (frameSize : ℕ) (values : List MaybeDtcOutcome) :
    resolvedFrames frameSize values = pieces frameSize (values.map resolveUnknown) := by
  unfold resolvedFrames pieces
  rw [List.map_map, List.length_map]
  refine List.map_congr_left fun k _ => ?_
  rw [Function.comp_apply, List.map_take, List.map_drop]

/-! ### Segments -/

section Segments

variable [Codec]

/-- The entry of a frame in the seek table. -/
def frameEntry (values : List MaybeDtcOutcome) : UInt32 × UInt32 :=
  (UInt32.ofNat (Codec.compress (transposeFrame values)).length,
    UInt32.ofNat (transposeFrame values).length)

/-- The segment of some frames. -/
def segmentOf (chunks : List (List MaybeDtcOutcome)) : CompressedSegment :=
  ⟨(chunks.map fun c => Codec.compress (transposeFrame c)).flatten, chunks.map frameEntry⟩

theorem encodeFrame_segmentOf (chunks : List (List MaybeDtcOutcome)) (c : List MaybeDtcOutcome) :
    encodeFrame (segmentOf chunks) c = segmentOf (chunks ++ [c]) := by
  unfold encodeFrame segmentOf
  rw [List.map_append, List.map_append, List.flatten_append, List.map_singleton,
    List.flatten_singleton]
  rfl

/-- The frames so far are in the segment. -/
theorem foldlM_encodeFrame {frameSize : ℕ} (hf : 0 < frameSize) {values : List MaybeDtcOutcome}
    {start : ℕ} (h : ∀ i < start + values.length, ∃ o, egt.diagonalSymmetric i = .ok o) {n : ℕ}
    (hn : n ≤ (pieces frameSize values).length) : ∃ stats,
    ((pieces frameSize values).zipIdx.take n).foldlM (fun (encoder, stats) (chunk, frameIdx) => do
      let plain := chunk.map resolveUnknown
      let stats ← recordOutcomes egt maxima stats (start + frameIdx * frameSize) plain
      (pure (encodeFrame encoder plain, stats) : Run _)) (⟨[], []⟩, TableStats.default)
      = .ok (segmentOf ((resolvedFrames frameSize values).take n), stats) := by
  induction n with
  | zero =>
    rw [List.take_zero, List.take_zero]
    exact ⟨_, rfl⟩
  | succ n ih =>
    obtain ⟨stats, hstats⟩ := ih (by omega)
    have hk : n * frameSize < values.length := by
      rw [← lt_count hf, ← length_pieces]
      omega
    have hget := getElem?_pieces hf values hk
    have hlen : n < (pieces frameSize values).zipIdx.length := by
      rw [List.length_zipIdx]
      omega
    have helem : (pieces frameSize values).zipIdx[n] = ((values.drop (n * frameSize)).take frameSize, n) := by
      rw [List.getElem_zipIdx, Nat.zero_add]
      rw [List.getElem?_eq_getElem (by omega)] at hget
      rw [Option.some.inj hget]
    obtain ⟨stats', hstats'⟩ := recordOutcomes_isOk maxima stats
      (((values.drop (n * frameSize)).take frameSize).map resolveUnknown)
      (fun i (hi : i < start + n * frameSize + _) => h i (by
        rw [List.length_map, List.length_take, List.length_drop] at hi
        omega))
    have hresolved : (resolvedFrames frameSize values)[n]?
        = some (((values.drop (n * frameSize)).take frameSize).map resolveUnknown) := by
      rw [resolvedFrames, List.getElem?_map, hget]
      rfl
    refine ⟨stats', ?_⟩
    rw [List.take_succ_eq_append_getElem hlen, List.foldlM_append, hstats, Run.ok_bind,
      helem, List.foldlM_cons, List.take_add_one, hresolved, Option.toList_some,
      ← encodeFrame_segmentOf]
    dsimp only
    rw [hstats']
    rfl

/-- **A batch** is compressed into the segment of its frames. -/
theorem finalizeBatch_eq_ok {frameSize : ℕ} (hf : 0 < frameSize) {values : List MaybeDtcOutcome}
    {start : ℕ} (h : ∀ i < start + values.length, ∃ o, egt.diagonalSymmetric i = .ok o) :
    ∃ stats, finalizeBatch values start egt frameSize maxima
      = .ok (segmentOf (resolvedFrames frameSize values), stats) := by
  obtain ⟨stats, hstats⟩ := @foldlM_encodeFrame egt maxima _ _ hf _ _ h _ le_rfl
  refine ⟨stats, ?_⟩
  have hall : (resolvedFrames frameSize values).take (pieces frameSize values).length
      = resolvedFrames frameSize values :=
    List.take_of_length_le (by rw [resolvedFrames, List.length_map])
  rw [hall, List.take_of_length_le (by rw [List.length_zipIdx])] at hstats
  exact hstats

/-! ### All batches -/

/-- The frames of all batches are the frames of the array. -/
theorem flatMap_resolvedFrames {frameSize : ℕ} (hf : 0 < frameSize) {m : ℕ} (hm : 0 < m)
    (values : List MaybeDtcOutcome) : (pieces (m * frameSize) values).flatMap (resolvedFrames frameSize)
      = resolvedFrames frameSize values := by
  unfold resolvedFrames
  rw [← flatMap_pieces hf hm values, List.map_flatMap]

theorem finalizeBatches_eq_ok {location : Location} {M : Material} {reader : EgtFileReader}
    (h : Constructed location M reader) {values : List MaybeDtcOutcome}
    (hlen : values.length = reader.indexRange) (maxima : ℕ × ℕ) (threads : ℕ) :
    ∃ m batches, 0 < m ∧ finalizeBatches reader values maxima threads = .ok batches ∧
      batches.map (·.1) = (pieces (m * reader.frameSize) values).map
        fun batch => segmentOf (resolvedFrames reader.frameSize batch) := by
  have hf : 0 < reader.frameSize := by rw [h.frameSize]; exact frameSize_pos
  set m := max (count threads (count reader.frameSize values.length)) 1 with hm
  have hmpos : 0 < m := by omega
  have hbs : 0 < m * reader.frameSize := Nat.mul_pos hmpos hf
  have hbatch : ∀ x ∈ (pieces (m * reader.frameSize) values).zipIdx, ∃ stats,
      finalizeBatch x.1 (x.2 * (m * reader.frameSize)) reader.egt reader.frameSize maxima
        = .ok (segmentOf (resolvedFrames reader.frameSize x.1), stats) := by
    intro x hx
    have hx := List.mem_zipIdx_iff_getElem?.mp hx
    have hk : x.2 * (m * reader.frameSize) < values.length := by
      rw [← lt_count hbs, ← length_pieces]
      exact (List.getElem?_eq_some_iff.mp hx).1
    rw [getElem?_pieces hbs values hk] at hx
    refine finalizeBatch_eq_ok hf fun i hi => h.diagonalSymmetric ?_
    rw [← Option.some.inj hx, List.length_take, List.length_drop] at hi
    omega
  have : Nonempty TableStats := ⟨TableStats.default⟩
  choose! stats hstats using hbatch
  refine ⟨m, _, hmpos, Run.mapM_eq_ok (g := fun x => (segmentOf (resolvedFrames reader.frameSize x.1),
    stats x)) fun x hx => hstats x hx, ?_⟩
  rw [List.map_map]
  conv_rhs => rw [← List.zipIdx_map_fst 0 (pieces (m * reader.frameSize) values), List.map_map]
  rfl

/-- Segments are accepted if each has frames and its own bytes, and all frames fit. -/
theorem segmentsFit_of_frames {w : EgtFileWriter} {all segments : List CompressedSegment} {k : ℕ}
    (hsegments : ∀ s ∈ segments, s.seekTable ≠ [] ∧ SeekTable.sizeComp s.seekTable = s.data.length)
    (hframes : ∀ j e, (EgtFileWriter.allFrames segments)[j]? = some e →
      FrameFits w.frameSize w.length (k + j) e) : EgtFileWriter.SegmentsFit w all k segments := by
  induction segments generalizing k with
  | nil => trivial
  | cons s segments ih =>
    obtain ⟨hne, hsize⟩ := hsegments s List.mem_cons_self
    rw [EgtFileWriter.allFrames, List.flatMap_cons] at hframes
    refine ⟨⟨fun h => absurd (List.length_eq_zero_iff.mp h) hne, fun j e he => ?_, hsize⟩,
      ih (fun s hs => hsegments s (List.mem_cons_of_mem _ hs)) fun j e he => ?_⟩
    · apply hframes
      rw [List.getElem?_append_left (List.getElem?_eq_some_iff.mp he).1]
      exact he
    · rw [Nat.add_assoc]
      apply hframes
      rw [List.getElem?_append_right (Nat.le_add_right _ _), Nat.add_sub_cancel_left]
      exact he

variable [LawfulCodec]

/-- The entry of a frame that is not too long. -/
theorem toNat_frameEntry {chunk : List MaybeDtcOutcome} (h : chunk.length ≤ ChessEgt.frameSize) :
    (frameEntry chunk).1.toNat = (Codec.compress (transposeFrame chunk)).length ∧
      (frameEntry chunk).2.toNat = chunk.length * 2 := by
  have hlen := length_transposeFrame chunk
  have hle : (transposeFrame chunk).length ≤ 2 ^ 20 := by
    rw [hlen]
    have : ChessEgt.frameSize = 2 ^ 18 := rfl
    omega
  have hcomp := LawfulCodec.length_compress _ hle
  constructor
  · show (UInt32.ofNat _).toNat = _
    rw [UInt32.toNat_ofNat_of_lt' hcomp]
  · show (UInt32.ofNat _).toNat = _
    rw [UInt32.toNat_ofNat_of_lt' (show _ < 2 ^ 32 by omega), hlen]

theorem sizeComp_segmentOf {chunks : List (List MaybeDtcOutcome)}
    (h : ∀ c ∈ chunks, c.length ≤ ChessEgt.frameSize) :
    SeekTable.sizeComp (segmentOf chunks).seekTable = (segmentOf chunks).data.length := by
  induction chunks with
  | nil => rfl
  | cons c chunks ih =>
    have hc := (toNat_frameEntry (h c List.mem_cons_self)).1
    have ih := ih fun c hc => h c (List.mem_cons_of_mem _ hc)
    unfold segmentOf at ih ⊢
    rw [List.map_cons, List.map_cons, List.flatten_cons, List.length_append, ← ih, ← hc]
    rfl

/-- The bytes of each frame of a segment are those of its compressed frame. -/
theorem segmentFrames_segmentOf {chunks : List (List MaybeDtcOutcome)}
    (h : ∀ c ∈ chunks, c.length ≤ ChessEgt.frameSize) :
    segmentFrames (segmentOf chunks) = chunks.map fun c => Codec.compress (transposeFrame c) := by
  have hsize : ∀ i, SeekTable.sizeComp ((segmentOf chunks).seekTable.take i)
      = (((chunks.map fun c => Codec.compress (transposeFrame c)).map List.length).take i).sum := by
    intro i
    show (((chunks.map frameEntry).take i).map _).sum = _
    rw [List.map_take, List.map_map, List.map_map]
    congr 2
    exact List.map_congr_left fun c hc => (toNat_frameEntry (h c hc)).1
  unfold segmentFrames
  have hlen : (segmentOf chunks).seekTable.length
      = (chunks.map fun c => Codec.compress (transposeFrame c)).length := by
    rw [segmentOf, List.length_map, List.length_map]
  rw [hlen]
  refine List.ext_getElem (by rw [List.length_map, List.length_range]) fun i h₁ h₂ => ?_
  rw [List.getElem_map, List.getElem_range, hsize, hsize, ← List.drop_take]
  exact List.drop_take_succ_flatten_eq_getElem _ i h₂

/-- **The segments of a finalized table** are accepted, for every number of threads, and the bytes
    of their frames are those of the resolved array. -/
theorem segments_finalized {location : Location} {M : Material} {reader : EgtFileReader}
    (h : Constructed location M reader) {values : List MaybeDtcOutcome}
    (hlen : values.length = reader.indexRange) (maxima : ℕ × ℕ) (threads : ℕ) :
    ∃ batches, finalizeBatches reader values maxima threads = .ok batches ∧
      EgtFileWriter.allFrames (batches.map (·.1))
        = (resolvedFrames reader.frameSize values).map frameEntry ∧
      (batches.map (·.1)).flatMap segmentFrames = (resolvedFrames reader.frameSize values).map
        (fun c => Codec.compress (transposeFrame c)) ∧
      ∀ s ∈ batches.map (·.1), s.seekTable ≠ [] ∧ SeekTable.sizeComp s.seekTable = s.data.length := by
  have hf : 0 < reader.frameSize := by rw [h.frameSize]; exact frameSize_pos
  obtain ⟨m, batches, hm, hbatches, hsegments⟩ := finalizeBatches_eq_ok h hlen maxima threads
  have hbs : 0 < m * reader.frameSize := Nat.mul_pos hm hf
  have hshort : ∀ batch, ∀ c ∈ resolvedFrames reader.frameSize batch, c.length ≤ ChessEgt.frameSize := by
    intro batch c hc
    rw [resolvedFrames_eq] at hc
    exact h.frameSize ▸ (length_le_of_mem hf hc).2
  refine ⟨batches, hbatches, ?_, ?_, fun s hs => ?_⟩
  · rw [hsegments, EgtFileWriter.allFrames, List.flatMap_map, ← flatMap_resolvedFrames hf hm,
      List.map_flatMap]
    rfl
  · rw [hsegments, List.flatMap_map, ← flatMap_resolvedFrames hf hm, List.map_flatMap]
    exact List.flatMap_congr fun batch _ => segmentFrames_segmentOf (hshort batch)
  · rw [hsegments] at hs
    obtain ⟨batch, hbatch, rfl⟩ := List.mem_map.mp hs
    refine ⟨fun hnil => (length_le_of_mem hbs hbatch).1 ?_, sizeComp_segmentOf (hshort batch)⟩
    have hnone := List.map_eq_nil_iff.mp (List.map_eq_nil_iff.mp hnil)
    rw [← flatten_pieces hf batch, hnone]
    rfl

end Segments

end ChessEgt
