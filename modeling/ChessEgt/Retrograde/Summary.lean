import ChessEgt.Library.Pieces
import ChessEgt.Retrograde.Working

/-!
# Block summaries

For every block of a table and every kind of source, a bound on the plies of its values.

* `PlySummary`, `PlySummary.record`, `PlySummary.blocksWith` — the summary of a table;
* `PlySummary.Covers` — a ply is within the bounds of the block of an index;
* `Covers.exists_range`, `range_within`, `allBlocks_pairwise` — the ranges that a scan visits.
-/

namespace ChessEgt

/-- Number of positions per summary block. -/
def summaryBlockSize : ℕ := 4096

theorem summaryBlockSize_pos : 0 < summaryBlockSize := by decide

def numSummaryBlocks (size : ℕ) : ℕ := Pieces.count summaryBlockSize size

theorem block_lt {size idx : ℕ} (h : idx < size) :
    idx / summaryBlockSize < numSummaryBlocks size := by
  rw [numSummaryBlocks, Pieces.lt_count summaryBlockSize_pos]
  have := Nat.div_mul_le_self idx summaryBlockSize
  omega

inductive SummaryKind where
  | loss
  | win (ct : ConversionType)
  deriving DecidableEq, Repr

/-- Zero means empty; otherwise the bound is the maximum recorded ply + 1. -/
structure BlockSummary where
  plyBounds : SummaryKind → ℕ

def BlockSummary.raise (block : BlockSummary) (kind : SummaryKind) (plyBound : ℕ) : BlockSummary :=
  ⟨Function.update block.plyBounds kind (max (block.plyBounds kind) plyBound)⟩

theorem BlockSummary.le_raise (block : BlockSummary) (kind kind' : SummaryKind) (plyBound : ℕ) :
    block.plyBounds kind' ≤ (block.raise kind plyBound).plyBounds kind' := by
  show _ ≤ Function.update block.plyBounds kind _ kind'
  by_cases h : kind' = kind
  · subst h
    rw [Function.update_self]
    exact le_max_left _ _
  · rw [Function.update_of_ne h]

theorem BlockSummary.le_raise_self (block : BlockSummary) (kind : SummaryKind) (plyBound : ℕ) :
    plyBound ≤ (block.raise kind plyBound).plyBounds kind := by
  show _ ≤ Function.update block.plyBounds kind _ kind
  rw [Function.update_self]
  exact le_max_right _ _

/-- Conservative per-block ply bounds, separated by source kind. -/
structure PlySummary where
  size : ℕ
  blocks : List BlockSummary
  length_blocks : blocks.length = numSummaryBlocks size

namespace PlySummary

def new (size : ℕ) : PlySummary where
  size := size
  blocks := List.replicate (numSummaryBlocks size) ⟨fun _ => 0⟩
  length_blocks := List.length_replicate

variable (self : PlySummary)

/-- Each initialization chunk stores the bounds of its block. -/
def storeBounds (bounds : List (SummaryKind → ℕ)) : PlySummary where
  size := self.size
  blocks := self.blocks.mapIdx fun b block =>
    match bounds[b]? with
    | some plyBounds => ⟨plyBounds⟩
    | none => block
  length_blocks := by rw [List.length_mapIdx, self.length_blocks]

def numBlocks : ℕ := self.blocks.length

/-- Whether the bound of a record has not been reached yet. -/
def isBehind (localIndex : ℕ) (kind : SummaryKind) (plies : ℕ) : Bool :=
  match self.blocks[localIndex / summaryBlockSize]? with
  | some block => block.plyBounds kind < plies + 1
  | none => false

/-- The update of a record that is behind, a single maximum. -/
def fetchMax (localIndex : ℕ) (kind : SummaryKind) (plies : ℕ) : PlySummary where
  size := self.size
  blocks := self.blocks.modify (localIndex / summaryBlockSize) fun block =>
    block.raise kind (plies + 1)
  length_blocks := by rw [List.length_modify, self.length_blocks]

def blocksWith (kind : SummaryKind) (plies : ℕ) : List (ℕ × ℕ) :=
  (self.blocks.zipIdx.filter fun (block, _) => plies + 1 ≤ block.plyBounds kind).map fun (_, b) =>
    let start := b * summaryBlockSize
    (start, min (start + summaryBlockSize) self.size)

/-- The ranges of all blocks. -/
def allBlocks : List (ℕ × ℕ) :=
  self.blocks.zipIdx.map fun (_, b) =>
    let start := b * summaryBlockSize
    (start, min (start + summaryBlockSize) self.size)

/-- The bound of the block of an index reaches a ply. -/
def Covers (localIndex : ℕ) (kind : SummaryKind) (plies : ℕ) : Prop :=
  self.isBehind localIndex kind plies = false

variable {self} {localIndex plies : ℕ} {kind : SummaryKind}

theorem covers_storeBounds {bounds : List (SummaryKind → ℕ)} {plyBounds : SummaryKind → ℕ}
    (hb : bounds[localIndex / summaryBlockSize]? = some plyBounds)
    (h : plies + 1 ≤ plyBounds kind) :
    (self.storeBounds bounds).Covers localIndex kind plies := by
  unfold Covers isBehind storeBounds
  rw [List.getElem?_mapIdx, hb]
  cases self.blocks[localIndex / summaryBlockSize]? with
  | none => rfl
  | some block => simpa using h

@[simp] theorem size_fetchMax : (self.fetchMax localIndex kind plies).size = self.size := rfl

theorem covers_fetchMax : (self.fetchMax localIndex kind plies).Covers localIndex kind plies := by
  unfold Covers isBehind fetchMax
  rw [List.getElem?_modify_eq]
  cases self.blocks[localIndex / summaryBlockSize]? with
  | none => rfl
  | some block => simpa using block.le_raise_self kind (plies + 1)

theorem Covers.fetchMax (h : self.Covers localIndex kind plies) (localIndex' : ℕ)
    (kind' : SummaryKind) (plies' : ℕ) :
    (self.fetchMax localIndex' kind' plies').Covers localIndex kind plies := by
  unfold Covers isBehind at *
  unfold PlySummary.fetchMax
  rw [List.getElem?_modify]
  cases hb : self.blocks[localIndex / summaryBlockSize]? with
  | none => rfl
  | some block =>
    rw [hb] at h
    have hle : plies + 1 ≤ block.plyBounds kind := by simpa using h
    by_cases hi : localIndex' / summaryBlockSize = localIndex / summaryBlockSize
    · have := block.le_raise kind' kind (plies' + 1)
      simp only [hi, if_true, Option.map_some]
      simp; omega
    · simp only [if_neg hi, Option.map_some]
      simp; omega

/-- The bounds of a block, for an index of the table. -/
theorem Covers.exists_block (h : self.Covers localIndex kind plies) (hi : localIndex < self.size) :
    ∃ block, self.blocks[localIndex / summaryBlockSize]? = some block ∧
      plies + 1 ≤ block.plyBounds kind := by
  have hlt : localIndex / summaryBlockSize < self.blocks.length := by
    rw [self.length_blocks]
    exact block_lt hi
  refine ⟨_, List.getElem?_eq_getElem hlt, ?_⟩
  unfold Covers isBehind at h
  rw [List.getElem?_eq_getElem hlt] at h
  simpa using h

theorem mem_blocksWith_iff {r : ℕ × ℕ} : r ∈ self.blocksWith kind plies ↔
    ∃ b block, self.blocks[b]? = some block ∧ plies + 1 ≤ block.plyBounds kind ∧
      r = (b * summaryBlockSize, min (b * summaryBlockSize + summaryBlockSize) self.size) := by
  unfold blocksWith
  rw [List.mem_map]
  constructor
  · rintro ⟨⟨block, b⟩, hmem, rfl⟩
    rw [List.mem_filter, List.mem_zipIdx_iff_getElem?] at hmem
    exact ⟨b, block, hmem.1, by simpa using hmem.2, rfl⟩
  · rintro ⟨b, block, hb, hle, rfl⟩
    refine ⟨(block, b), ?_, rfl⟩
    rw [List.mem_filter, List.mem_zipIdx_iff_getElem?]
    exact ⟨hb, by simpa using hle⟩

/-- A covered index lies in one of the ranges. -/
theorem Covers.exists_range (h : self.Covers localIndex kind plies) (hi : localIndex < self.size) :
    ∃ r ∈ self.blocksWith kind plies, r.1 ≤ localIndex ∧ localIndex < r.2 := by
  obtain ⟨block, hb, hle⟩ := h.exists_block hi
  refine ⟨_, mem_blocksWith_iff.mpr ⟨_, block, hb, hle, rfl⟩, ?_, ?_⟩
  · exact Nat.div_mul_le_self _ _
  · show localIndex < min _ _
    unfold summaryBlockSize at *
    omega

theorem blocksWith_sublist (self : PlySummary) (kind : SummaryKind) (plies : ℕ) :
    (self.blocksWith kind plies).Sublist self.allBlocks :=
  List.filter_sublist.map _

theorem mem_allBlocks_iff {r : ℕ × ℕ} : r ∈ self.allBlocks ↔ ∃ b < self.blocks.length,
    r = (b * summaryBlockSize, min (b * summaryBlockSize + summaryBlockSize) self.size) := by
  unfold allBlocks
  rw [List.mem_map]
  constructor
  · rintro ⟨⟨block, b⟩, hmem, rfl⟩
    rw [List.mem_zipIdx_iff_getElem?] at hmem
    exact ⟨b, (List.getElem?_eq_some_iff.mp hmem).1, rfl⟩
  · rintro ⟨b, hb, rfl⟩
    exact ⟨(self.blocks[b], b), by
      rw [List.mem_zipIdx_iff_getElem?]; exact List.getElem?_eq_getElem hb, rfl⟩

/-- The ranges lie within the table. -/
theorem range_within {r : ℕ × ℕ} (h : r ∈ self.allBlocks) : r.1 < r.2 ∧ r.2 ≤ self.size := by
  obtain ⟨b, hlt, rfl⟩ := mem_allBlocks_iff.mp h
  rw [self.length_blocks] at hlt
  have := (Pieces.lt_count summaryBlockSize_pos).mp hlt
  show _ < min _ _ ∧ min _ _ ≤ _
  unfold summaryBlockSize at *
  omega

/-- Every index lies in one of the ranges of all blocks. -/
theorem exists_block_range (hi : localIndex < self.size) :
    ∃ r ∈ self.allBlocks, r.1 ≤ localIndex ∧ localIndex < r.2 := by
  refine ⟨_, mem_allBlocks_iff.mpr ⟨localIndex / summaryBlockSize, ?_, rfl⟩, ?_, ?_⟩
  · rw [self.length_blocks]
    exact block_lt hi
  · exact Nat.div_mul_le_self _ _
  · show localIndex < min _ _
    unfold summaryBlockSize at *
    omega

/-- The ranges are disjoint and in order. -/
theorem allBlocks_pairwise (self : PlySummary) :
    self.allBlocks.Pairwise fun r r' => r.2 ≤ r'.1 := by
  unfold allBlocks
  rw [List.pairwise_map]
  have horder : self.blocks.zipIdx.Pairwise fun x y => x.2 < y.2 := by
    rw [List.pairwise_iff_getElem]
    intro i j hi hj hij
    simpa using hij
  refine horder.imp fun {x y} h => ?_
  have : (x.2 + 1) * summaryBlockSize ≤ y.2 * summaryBlockSize := Nat.mul_le_mul_right _ h
  show min _ _ ≤ y.2 * summaryBlockSize
  unfold summaryBlockSize at *
  omega

end PlySummary

/-- The note that a value of a table asks for: its place, its kind and its ply. -/
structure PlyRecord where
  slot : Slot
  localIndex : ℕ
  kind : SummaryKind
  plies : ℕ
  deriving DecidableEq, Repr

/-- The summaries of the tables of a pair. -/
abbrev Summaries := Slot → PlySummary

instance : Notes Summaries PlyRecord where
  missing r s := (s r.slot).isBehind r.localIndex r.kind r.plies
  leave r s := Function.update s r.slot ((s r.slot).fetchMax r.localIndex r.kind r.plies)
  missing_leave := by
    intro r s
    rw [Function.update_self]
    exact PlySummary.covers_fetchMax
  missing_mono := by
    intro r s r' h
    by_cases hs : r.slot = r'.slot
    · rw [hs, Function.update_self]
      rw [hs] at h
      exact PlySummary.Covers.fetchMax h _ _ _
    · rw [Function.update_of_ne hs]
      exact h

theorem size_leave (r : PlyRecord) (s : Summaries) (slot : Slot) :
    ((Notes.leave r s : Summaries) slot).size = (s slot).size := by
  show (Function.update s r.slot _ slot).size = _
  by_cases h : slot = r.slot
  · rw [h, Function.update_self, PlySummary.size_fetchMax]
  · rw [Function.update_of_ne h]

end ChessEgt
