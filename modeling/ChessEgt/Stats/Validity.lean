import ChessEgt.Stats.Totals

/-!
# Aggregates of valid records are valid

* `EgtStats.Sound` — what the validation of a table's statistics says about the numbers;
* `SumsTo`, `Distributes`, `TotalOf` — aggregates as sums over all records;
* `aggregation_is_sum` — every order of folding and merging gives the sum, and it is valid.
-/

namespace ChessEgt

/-! ### Checked additions -/

theorem checkedAdd_eq_some {a b c : UInt64} :
    checkedAdd a b = some c ↔ c.toNat = a.toNat + b.toNat := by
  have hc : c.toNat < UInt64.size := c.toNat_lt_size
  unfold checkedAdd
  split
  · rename_i h
    rw [Option.some.injEq, ← UInt64.toNat_inj, UInt64.toNat_add,
      Nat.mod_eq_of_lt (by exact h), eq_comm]
  · simp only [reduceCtorEq, false_iff]
    omega

theorem foldlM_checkedAdd {l : List UInt64} {a c : UInt64} :
    l.foldlM checkedAdd a = some c ↔ c.toNat = a.toNat + (l.map UInt64.toNat).sum := by
  induction l generalizing a with
  | nil =>
    rw [List.foldlM_nil, Option.pure_def, Option.some.injEq, ← UInt64.toNat_inj, eq_comm]
    simp
  | cons b l ih =>
    rw [List.foldlM_cons, Option.bind_eq_bind, Option.bind_eq_some_iff, List.map_cons,
      List.sum_cons, ← Nat.add_assoc]
    constructor
    · rintro ⟨d, hd, hc⟩
      rw [ih.mp hc, checkedAdd_eq_some.mp hd]
    · intro hc
      have hlt : a.toNat + b.toNat < UInt64.size := by
        have := c.toNat_lt_size
        omega
      have hd : checkedAdd a b = some (a + b) := if_pos hlt
      refine ⟨a + b, hd, ih.mpr ?_⟩
      rw [checkedAdd_eq_some.mp hd, hc]

/-- A sum of words is the sum of the numbers, unless it overflows. -/
theorem toNat_sum {l : List UInt64} (h : (l.map UInt64.toNat).sum < UInt64.size) :
    l.sum.toNat = (l.map UInt64.toNat).sum := by
  induction l with
  | nil => rfl
  | cons a l ih =>
    rw [List.map_cons, List.sum_cons] at h ⊢
    rw [List.sum_cons, UInt64.toNat_add, ih (by omega), Nat.mod_eq_of_lt (by exact h)]

/-! ### The checks as statements about numbers -/

theorem validateOutcomes_eq_ok {indexRange unique win draw loss : UInt64} {rest : List UInt64} :
    validateOutcomes indexRange unique win draw loss rest = .ok () ↔
      unique.toNat = win.toNat + draw.toNat + loss.toNat ∧
        indexRange.toNat = unique.toNat + (rest.map UInt64.toNat).sum := by
  have hpair : ((checkedAdd win draw).bind fun n => checkedAdd n loss) = some unique ↔
      unique.toNat = win.toNat + draw.toNat + loss.toNat := by
    have := foldlM_checkedAdd (l := [draw, loss]) (a := win) (c := unique)
    simpa [List.foldlM_cons, Nat.add_assoc] using this
  unfold validateOutcomes
  rw [← hpair, ← foldlM_checkedAdd]
  split
  · rename_i h
    simp only [invalidData, reduceCtorEq, false_iff]
    tauto
  · rename_i h
    simp only [Run.pure_eq_ok, true_iff]
    tauto

/-- A histogram and its longest examples fit a count. -/
structure FitsCount (histogram : Histogram) (count : ℕ) (examples : List LongestDtcPosition) :
    Prop where
  positive : ∀ (k : ℕ) (v : UInt64), histogram[k]? = some v → v ≠ 0
  weight : histogram.weight UInt64.toNat = count
  texts : ∀ x ∈ examples, x.epd.all isWhitespace = false
  ranked : ∀ x ∈ examples, some x.ply = histogram.maxKey?

theorem validateDistribution_eq_ok {histogram : Histogram} {count : UInt64}
    {examples : List LongestDtcPosition} :
    validateDistribution histogram count examples = .ok () ↔
      FitsCount histogram count.toNat examples := by
  have hzero : ¬ (histogram.toList.map (·.2)).any (· = 0) ↔
      ∀ (k : ℕ) (v : UInt64), histogram[k]? = some v → v ≠ 0 := by
    simp only [Bool.not_eq_true, List.any_eq_false, List.mem_map, Prod.exists,
      exists_eq_right, decide_eq_true_eq, forall_exists_index,
      Std.ExtTreeMap.mem_toList_iff_getElem?_eq_some]
    exact ⟨fun h k v => h v k, fun h v k => h k v⟩
  have hsum : (histogram.toList.map (·.2)).foldlM checkedAdd 0 = some count ↔
      histogram.weight UInt64.toNat = count.toNat := by
    rw [foldlM_checkedAdd, List.map_map, eq_comm, UInt64.toNat_zero, Nat.zero_add]
    rfl
  have hexamples : ¬ examples.any
        (fun p => p.epd.all isWhitespace || some p.ply ≠ histogram.maxKey?) ↔
      ∀ x ∈ examples, x.epd.all isWhitespace = false ∧ some x.ply = histogram.maxKey? := by
    simp only [Bool.not_eq_true, List.any_eq_false, Bool.or_eq_true, decide_eq_true_eq, not_or,
      not_not]
  unfold validateDistribution
  dsimp only
  split
  · rename_i h
    simp only [invalidData, reduceCtorEq, false_iff]
    intro hf
    rcases h with h | h | h
    · exact hzero.mpr hf.positive h
    · exact h (hsum.mpr hf.weight)
    · exact hexamples.mpr (fun x hx => ⟨hf.texts x hx, hf.ranked x hx⟩) h
  · rename_i h
    obtain ⟨h₁, h₂, h₃⟩ := not_or.mp h |>.imp_right not_or.mp
    simp only [Run.pure_eq_ok, true_iff]
    have h₃ := hexamples.mp h₃
    exact ⟨hzero.mp h₁, hsum.mp (not_not.mp h₂), fun x hx => (h₃ x hx).1, fun x hx => (h₃ x hx).2⟩

/-- Valid statistics. -/
structure EgtStats.Sound (s : EgtStats) : Prop where
  bytes : 1 ≤ s.bytes.toNat
  frames : 1 ≤ s.numFrames.toNat
  range : s.numFrames.toNat ≤ s.indexRange.toNat
  outcomes : s.uniquePositions.toNat = s.win.toNat + s.draw.toNat + s.loss.toNat
  partition : s.indexRange.toNat = s.uniquePositions.toNat + (s.invalidOppositeCheck.toNat +
    s.invalidEpSquaresOccupied.toNat + s.invalidIllegalEpCapture.toNat + s.redundant.toNat)
  wins : FitsCount s.histogramWin s.win.toNat s.longestDtcWin
  losses : FitsCount s.histogramLoss s.loss.toNat s.longestDtcLoss

theorem one_le_toNat {a : UInt64} (h : a ≠ 0) : 1 ≤ a.toNat := by
  rw [Nat.one_le_iff_ne_zero]
  exact fun h0 => h (UInt64.toNat_inj.mp h0)

theorem divCeil_bounds {a b : UInt64} (ha : a ≠ 0) (hb : 1 < b.toNat) :
    1 ≤ (divCeil a b).toNat ∧ (divCeil a b).toNat ≤ a.toNat := by
  have ha := one_le_toNat ha
  have hlt := a.toNat_lt_size
  have hdiv : (a / b).toNat = a.toNat / b.toNat := UInt64.toNat_div a b
  have hmod : a % b = 0 ↔ a.toNat % b.toNat = 0 := by
    rw [← UInt64.toNat_inj, UInt64.toNat_mod]
    rfl
  have hle : a.toNat / b.toNat + 1 ≤ a.toNat := by
    have : a.toNat / b.toNat < a.toNat := Nat.div_lt_self ha hb
    omega
  unfold divCeil
  split
  · rename_i h
    rw [hdiv]
    have := Nat.div_add_mod a.toNat b.toNat
    rw [hmod.mp h] at this
    refine ⟨?_, by omega⟩
    rw [Nat.one_le_iff_ne_zero]
    intro h0
    rw [h0] at this
    omega
  · rw [UInt64.toNat_add, hdiv, show (1 : UInt64).toNat = 1 from rfl,
      Nat.mod_eq_of_lt (by unfold UInt64.size at hlt; omega)]
    omega

theorem EgtStats.sound_of_validate {s : EgtStats} {id : TableId}
    (h : s.validate id = .ok ()) : s.Sound := by
  unfold EgtStats.validate at h
  dsimp only at h
  split at h
  · cases h
  rename_i hc
  obtain ⟨_, houtcomes, h⟩ := Run.bind_eq_ok.mp h
  obtain ⟨_, hwin, hloss⟩ := Run.bind_eq_ok.mp h
  simp only [not_or, not_not] at hc
  obtain ⟨-, -, -, hbytes, hrange, hframe, hframes⟩ := hc
  obtain ⟨hsum, hpartition⟩ := validateOutcomes_eq_ok.mp houtcomes
  have hsize : 1 < s.frameSize.toNat := by
    rw [hframe]
    decide
  have hbounds := divCeil_bounds hrange hsize
  rw [← hframes] at hbounds
  refine ⟨one_le_toNat hbytes, hbounds.1, hbounds.2, hsum, ?_,
    validateDistribution_eq_ok.mp hwin, validateDistribution_eq_ok.mp hloss⟩
  simp only [List.map_cons, List.map_nil, List.sum_cons, List.sum_nil] at hpartition
  omega

/-! ### Totals as sums -/

namespace AggregateStats

/-- A computed field is the sum of the values of all tables. -/
def SumsTo (field : Option UInt64) (stats : List EgtStats) (f : EgtStats → UInt64) : Prop :=
  ∃ n, field = some n ∧ n.toNat = (stats.map fun s => (f s).toNat).sum

/-- A histogram is the sum of all histograms, with the examples at its largest ply. -/
def Distributes (histogram : Option Histogram) (examples : Option (List LongestDtcPosition))
    (stats : List EgtStats) (h : EgtStats → Histogram)
    (e : EgtStats → List LongestDtcPosition) : Prop :=
  ∃ m l, histogram = some m ∧ examples = some l ∧ (∀ k, k ∈ m ↔ ∃ s ∈ stats, k ∈ h s) ∧
    (∀ k : ℕ, m[k]?.elim 0 UInt64.toNat
      = (stats.map fun s => (h s)[k]?.elim 0 UInt64.toNat).sum) ∧
    l.Pairwise (· < ·) ∧ ∀ x, x ∈ l ↔ (∃ s ∈ stats, x ∈ e s) ∧ some x.ply = m.maxKey?

/-- The computed fields of complete statistics. -/
structure Computed (stats : List EgtStats) (a : AggregateStats) : Prop where
  bytes : SumsTo a.bytes stats (·.bytes)
  numFrames : SumsTo a.numFrames stats (·.numFrames)
  uniquePositions : SumsTo a.uniquePositions stats (·.uniquePositions)
  win : SumsTo a.win stats (·.win)
  draw : SumsTo a.draw stats (·.draw)
  loss : SumsTo a.loss stats (·.loss)
  invalidOppositeCheck : SumsTo a.invalidOppositeCheck stats (·.invalidOppositeCheck)
  invalidEpSquaresOccupied : SumsTo a.invalidEpSquaresOccupied stats (·.invalidEpSquaresOccupied)
  invalidIllegalEpCapture : SumsTo a.invalidIllegalEpCapture stats (·.invalidIllegalEpCapture)
  redundant : SumsTo a.redundant stats (·.redundant)
  wins : Distributes a.histogramWin a.longestDtcWin stats (·.histogramWin) (·.longestDtcWin)
  losses : Distributes a.histogramLoss a.longestDtcLoss stats (·.histogramLoss) (·.longestDtcLoss)

/-- An aggregate of records: sums if all are complete, and otherwise no computed field. -/
structure TotalOf (records : List StatsRecord) (a : AggregateStats) : Prop where
  selected : a.selectedTables.toNat = records.length
  available : a.availableTables.toNat = (records.filterMap StatsRecord.complete?).length
  indexRange : a.indexRange.toNat = (records.map (·.indexRange.toNat)).sum
  missing : (∃ r ∈ records, r.complete? = none) → ∀ present ∈ a.fields, present = false
  computed : ∀ stats, records = stats.map .complete → Computed stats a

/-- Records as they are stored. -/
def Stored : StatsRecord → Prop
  | .complete stats => ∃ id, stats.validate id = .ok ()
  | .missing stats => 0 < stats.indexRange

variable {records : List StatsRecord}

theorem allRanked_of_stored (hs : ∀ r ∈ records, Stored r) : AllRanked records := by
  intro s hmem
  obtain ⟨id, hid⟩ := hs _ hmem
  have hsound := EgtStats.sound_of_validate hid
  exact ⟨hsound.wins.ranked, hsound.losses.ranked⟩

theorem one_le_indexRange {r : StatsRecord} (h : Stored r) : 1 ≤ r.indexRange.toNat := by
  cases r with
  | complete s =>
    obtain ⟨id, hid⟩ := h
    have hsound := EgtStats.sound_of_validate hid
    exact hsound.frames.trans hsound.range
  | missing p => exact UInt64.lt_iff_toNat_lt.mp h

/-- Counts that are bounded below by one. -/
theorem length_le_sum {α : Type} {l : List α} {f : α → ℕ} (h : ∀ a ∈ l, 1 ≤ f a) :
    l.length ≤ (l.map f).sum := by
  have := List.card_nsmul_le_sum (l.map f) 1 (by simpa using h)
  simpa using this

theorem sum_le_sum {α : Type} {l : List α} {f g : α → ℕ} (h : ∀ a ∈ l, f a ≤ g a) :
    (l.map f).sum ≤ (l.map g).sum := List.sum_le_sum h

/-- The histogram of sound tables, as long as nothing overflows. -/
theorem histogramOf_facts {stats : List EgtStats} {h : EgtStats → Histogram} {f : EgtStats → UInt64}
    {e : EgtStats → List LongestDtcPosition}
    (hfit : ∀ s ∈ stats, FitsCount (h s) (f s).toNat (e s))
    (hlt : (stats.map fun s => (f s).toNat).sum < UInt64.size) :
    (histogramOf h stats).weight UInt64.toNat = (stats.map fun s => (f s).toNat).sum ∧
      (∀ (k : ℕ) (v : UInt64), (histogramOf h stats)[k]? = some v → v ≠ 0) ∧
      ∀ k : ℕ, (histogramOf h stats)[k]?.elim 0 UInt64.toNat
        = (stats.map fun s => (h s)[k]?.elim 0 UInt64.toNat).sum := by
  induction stats with
  | nil =>
    refine ⟨rfl, fun k v hv => ?_, fun k => ?_⟩
    · have : (histogramOf h [])[k]? = none := Tally.getElem?_zero k
      rw [this] at hv
      cases hv
    · have : (histogramOf h [])[k]? = none := Tally.getElem?_zero k
      rw [this]
      rfl
  | cons s stats ih =>
    rw [List.map_cons, List.sum_cons] at hlt
    obtain ⟨hweight, hpos, hkey⟩ :=
      ih (fun s hs => hfit s (List.mem_cons_of_mem _ hs)) (by omega)
    have hs := hfit s List.mem_cons_self
    have hcons : histogramOf h (s :: stats) = h s + histogramOf h stats := List.sum_cons
    -- The counts of one ply cannot overflow.
    have hadd : ∀ (k : ℕ) (x y : UInt64), (h s)[k]? = some x →
        (histogramOf h stats)[k]? = some y → (x + y).toNat = x.toNat + y.toNat := by
      intro k x y hx hy
      have h₁ := Tally.le_weight (f := UInt64.toNat) hx
      have h₂ := Tally.le_weight (f := UInt64.toNat) hy
      rw [hs.weight] at h₁
      rw [hweight] at h₂
      rw [UInt64.toNat_add, Nat.mod_eq_of_lt]
      unfold UInt64.size at hlt
      omega
    rw [hcons]
    refine ⟨?_, fun k v hv => ?_, fun k => ?_⟩
    · rw [Tally.weight_add hadd, hs.weight, hweight, List.map_cons, List.sum_cons]
    · rw [Tally.getElem?_add] at hv
      cases hx : (h s)[k]? with
      | none =>
        rw [hx, Option.merge_none_left] at hv
        exact hpos k v hv
      | some x =>
        cases hy : (histogramOf h stats)[k]? with
        | none =>
          rw [hx, hy, Option.merge_none_right] at hv
          exact hs.positive k v (hx.trans hv)
        | some y =>
          rw [hx, hy] at hv
          obtain rfl := Option.some.inj hv
          have h₁ := one_le_toNat (hs.positive k x hx)
          have h₂ := hadd k x y hx hy
          intro h0
          have h0 : x + y = 0 := h0
          rw [h0] at h₂
          have : (0 : UInt64).toNat = 0 := rfl
          omega
    · rw [List.map_cons, List.sum_cons, ← hkey k, Tally.getElem?_add]
      cases hx : (h s)[k]? with
      | none => simp
      | some x =>
        cases hy : (histogramOf h stats)[k]? with
        | none => simp
        | some y => exact hadd k x y hx hy

/-! ### The total is the sum, and it is valid -/

section Complete

variable {stats : List EgtStats}

theorem sumsTo_of_bound {f : EgtStats → UInt64}
    (h : (stats.map fun s => (f s).toNat).sum < UInt64.size) :
    SumsTo (some (stats.map f).sum) stats f := by
  refine ⟨_, rfl, ?_⟩
  have hmap : (stats.map f).map UInt64.toNat = stats.map fun s => (f s).toNat := by
    rw [List.map_map]
    rfl
  rw [← hmap] at h ⊢
  exact toNat_sum h

theorem distributes_of_bound {h : EgtStats → Histogram} {f : EgtStats → UInt64}
    {e : EgtStats → List LongestDtcPosition}
    (hfit : ∀ s ∈ stats, FitsCount (h s) (f s).toNat (e s))
    (hlt : (stats.map fun s => (f s).toNat).sum < UInt64.size) :
    Distributes (some (histogramOf h stats)) (some (examplesOf h e stats)) stats h e := by
  obtain ⟨-, -, hkey⟩ := histogramOf_facts hfit hlt
  refine ⟨_, _, rfl, rfl, fun k => mem_histogramOf, hkey, longestOf_pairwise, fun x => ?_⟩
  rw [examplesOf, mem_longestOf, List.mem_flatMap]

theorem computed_total (hsound : ∀ s ∈ stats, s.Sound)
    (hrange : (stats.map (·.indexRange.toNat)).sum < UInt64.size)
    (hbytes : (stats.map (·.bytes.toNat)).sum < UInt64.size) :
    Computed stats (total (stats.map .complete)) := by
  have hall : allComplete (stats.map .complete) = some stats := allComplete_eq_some.mpr rfl
  -- Every other count is part of the index range.
  have hbound : ∀ f : EgtStats → UInt64, (∀ s ∈ stats, (f s).toNat ≤ s.indexRange.toNat) →
      (stats.map fun s => (f s).toNat).sum < UInt64.size :=
    fun f hf => (sum_le_sum hf).trans_lt hrange
  have hpart : ∀ s ∈ stats, s.win.toNat + s.draw.toNat + s.loss.toNat +
      (s.invalidOppositeCheck.toNat + s.invalidEpSquaresOccupied.toNat +
        s.invalidIllegalEpCapture.toNat + s.redundant.toNat) = s.indexRange.toNat := by
    intro s hs
    rw [← (hsound s hs).outcomes]
    exact (hsound s hs).partition.symm
  have hwin : (stats.map fun s => s.win.toNat).sum < UInt64.size :=
    hbound (·.win) fun s hs => by have := hpart s hs; omega
  have hloss : (stats.map fun s => s.loss.toNat).sum < UInt64.size :=
    hbound (·.loss) fun s hs => by have := hpart s hs; omega
  unfold total
  rw [hall]
  exact {
    bytes := sumsTo_of_bound hbytes
    numFrames := sumsTo_of_bound (hbound _ fun s hs => (hsound s hs).range)
    uniquePositions := sumsTo_of_bound (hbound _ fun s hs => by
      have := (hsound s hs).partition
      omega)
    win := sumsTo_of_bound hwin
    draw := sumsTo_of_bound (hbound _ fun s hs => by have := hpart s hs; omega)
    loss := sumsTo_of_bound hloss
    invalidOppositeCheck := sumsTo_of_bound (hbound _ fun s hs => by
      have := hpart s hs
      omega)
    invalidEpSquaresOccupied := sumsTo_of_bound (hbound _ fun s hs => by
      have := hpart s hs
      omega)
    invalidIllegalEpCapture := sumsTo_of_bound (hbound _ fun s hs => by
      have := hpart s hs
      omega)
    redundant := sumsTo_of_bound (hbound _ fun s hs => by have := hpart s hs; omega)
    wins := distributes_of_bound (fun s hs => (hsound s hs).wins) hwin
    losses := distributes_of_bound (fun s hs => (hsound s hs).losses) hloss }

end Complete

variable (hstored : ∀ r ∈ records, Stored r)
  (hrange : (records.map (·.indexRange.toNat)).sum < UInt64.size)

include hstored hrange

theorem length_lt_size : records.length < UInt64.size :=
  (length_le_sum fun r hr => one_le_indexRange (hstored r hr)).trans_lt hrange

theorem totalOf_total
    (hbytes : ((records.filterMap StatsRecord.complete?).map (·.bytes.toNat)).sum < UInt64.size) :
    TotalOf records (total records) where
  selected := Nat.mod_eq_of_lt (length_lt_size hstored hrange)
  available := Nat.mod_eq_of_lt
    ((List.length_filterMap_le _ _).trans_lt (length_lt_size hstored hrange))
  indexRange := by
    have hmap : (records.map StatsRecord.indexRange).map UInt64.toNat
        = records.map (·.indexRange.toNat) := by
      rw [List.map_map]
      rfl
    rw [← hmap] at hrange ⊢
    exact toNat_sum hrange
  missing hmissing := by
    have hnone := allComplete_eq_none.mpr hmissing
    intro present hpresent
    unfold total fields at hpresent
    simpa [hnone] using hpresent
  computed stats heq := by
    subst heq
    have hself : (stats.map StatsRecord.complete).filterMap StatsRecord.complete? = stats := by
      rw [List.filterMap_map]
      exact List.filterMap_some
    rw [hself] at hbytes
    rw [List.map_map] at hrange
    refine computed_total (fun s hs => ?_) hrange hbytes
    obtain ⟨id, hid⟩ := hstored _ (List.mem_map_of_mem hs)
    exact EgtStats.sound_of_validate hid

omit hstored hrange in
/-- A distribution of sound tables fits the sum of their counts. -/
theorem fitsCount_of_bound {stats : List EgtStats} {h : EgtStats → Histogram}
    {f : EgtStats → UInt64} {e : EgtStats → List LongestDtcPosition}
    (hfit : ∀ s ∈ stats, FitsCount (h s) (f s).toNat (e s)) {n : UInt64}
    (hn : n.toNat = (stats.map fun s => (f s).toNat).sum) :
    FitsCount (histogramOf h stats) n.toNat (examplesOf h e stats) := by
  obtain ⟨hweight, hpos, -⟩ := histogramOf_facts hfit (hn ▸ n.toNat_lt_size)
  refine ⟨hpos, hweight.trans hn.symm, fun x hx => ?_, fun x hx => (mem_longestOf.mp hx).2⟩
  obtain ⟨s, hs, hxs⟩ := List.mem_flatMap.mp (mem_longestOf.mp hx).1
  exact (hfit s hs).texts x hxs

/-- Totals are in order as far as the tables are counted. -/
theorem counts_of_totalOf {a : AggregateStats} (ha : TotalOf records a) :
    a.availableTables ≤ a.selectedTables ∧
      decide (a.selectedTables = 0) = decide (a.indexRange = 0) ∧
      a.selectedTables ≤ a.indexRange ∧
      (a.availableTables = a.selectedTables ↔
        ∃ stats : List EgtStats, records = stats.map .complete) := by
  have hle := length_le_sum fun r hr => one_le_indexRange (hstored r hr)
  have hfilter := List.length_filterMap_le StatsRecord.complete? records
  refine ⟨?_, ?_, ?_, ?_⟩
  · rw [UInt64.le_iff_toNat_le, ha.selected, ha.available]
    exact hfilter
  · rw [decide_eq_decide, ← UInt64.toNat_inj, ← UInt64.toNat_inj, ha.selected, ha.indexRange,
      UInt64.toNat_zero]
    constructor
    · intro h
      rw [List.length_eq_zero_iff.mp h]
      rfl
    · omega
  · rw [UInt64.le_iff_toNat_le, ha.selected, ha.indexRange]
    exact hle
  · rw [← UInt64.toNat_inj, ha.selected, ha.available]
    constructor
    · intro heq
      cases hall : allComplete records with
      | some stats => exact ⟨stats, allComplete_eq_some.mp hall⟩
      | none =>
        -- A placeholder is not available.
        obtain ⟨r, hr, hnone⟩ := allComplete_eq_none.mp hall
        have hlt : (records.filterMap StatsRecord.complete?).length < records.length := by
          obtain ⟨l₁, l₂, rfl⟩ := List.append_of_mem hr
          have h₁ := List.length_filterMap_le StatsRecord.complete? l₁
          have h₂ := List.length_filterMap_le StatsRecord.complete? l₂
          rw [List.filterMap_append, List.filterMap_cons_none hnone, List.length_append,
            List.length_append, List.length_cons]
          omega
        omega
    · rintro ⟨stats, rfl⟩
      simp [List.filterMap_map, Function.comp_def, StatsRecord.complete?]

theorem validate_total
    (hbytes : ((records.filterMap StatsRecord.complete?).map (·.bytes.toNat)).sum < UInt64.size) :
    (total records).validate = .ok () := by
  have ha := totalOf_total hstored hrange hbytes
  obtain ⟨h₁, h₂, h₃, h₄⟩ := counts_of_totalOf hstored hrange ha
  have hfields : (total records).fields.any
      (· ≠ decide ((total records).availableTables = (total records).selectedTables)) = false := by
    rw [List.any_eq_false]
    cases hall : allComplete records with
    | none =>
      have hmissing := allComplete_eq_none.mp hall
      have hne : ¬ (total records).availableTables = (total records).selectedTables := by
        rw [h₄]
        rintro ⟨stats, rfl⟩
        rw [allComplete_eq_some.mpr rfl] at hall
        cases hall
      intro present hpresent
      simp [ha.missing hmissing present hpresent, hne]
    | some stats =>
      have heq := h₄.mpr ⟨stats, allComplete_eq_some.mp hall⟩
      intro present hpresent
      unfold total fields at hpresent
      have : present = true := by simpa [hall] using hpresent
      simp [this, heq]
  unfold validate
  dsimp only
  rw [if_neg (by
    rw [not_or, not_or, not_or, UInt64.not_lt, UInt64.not_lt, not_not]
    exact ⟨h₁, h₂, h₃, by rw [hfields]; exact Bool.false_ne_true⟩)]
  by_cases hcomplete : (total records).availableTables = (total records).selectedTables
  swap
  · simp [hcomplete]
  obtain ⟨stats, rfl⟩ := h₄.mp hcomplete
  rw [decide_eq_true hcomplete, Bool.not_true, if_neg Bool.false_ne_true]
  by_cases hempty : (total (stats.map .complete)).selectedTables = 0
  · -- The aggregate of no table.
    have hnil : stats = [] := by
      have := ha.selected
      rw [hempty, List.length_map] at this
      exact List.length_eq_zero_iff.mp this.symm
    subst hnil
    rw [if_pos hempty, List.map_nil, total_nil, if_pos rfl]
    rfl
  rw [if_neg hempty]
  have hsound : ∀ s ∈ stats, s.Sound := by
    intro s hs
    obtain ⟨id, hid⟩ := hstored _ (List.mem_map_of_mem hs)
    exact EgtStats.sound_of_validate hid
  have hc := ha.computed stats rfl
  have hall : allComplete (stats.map .complete) = some stats := allComplete_eq_some.mpr rfl
  obtain ⟨bytes, hbytes, hbytes'⟩ := hc.bytes
  obtain ⟨frames, hframes, hframes'⟩ := hc.numFrames
  obtain ⟨unique, hunique, hunique'⟩ := hc.uniquePositions
  obtain ⟨win, hwin, hwin'⟩ := hc.win
  obtain ⟨draw, hdraw, hdraw'⟩ := hc.draw
  obtain ⟨loss, hloss, hloss'⟩ := hc.loss
  obtain ⟨check, hcheck, hcheck'⟩ := hc.invalidOppositeCheck
  obtain ⟨squares, hsquares, hsquares'⟩ := hc.invalidEpSquaresOccupied
  obtain ⟨capture, hcapture, hcapture'⟩ := hc.invalidIllegalEpCapture
  obtain ⟨redundant, hredundant, hredundant'⟩ := hc.redundant
  have hwins : (total (stats.map .complete)).histogramWin = some (histogramOf (·.histogramWin) stats) ∧
      (total (stats.map .complete)).longestDtcWin
        = some (examplesOf (·.histogramWin) (·.longestDtcWin) stats) := by
    unfold total
    rw [hall]
    exact ⟨rfl, rfl⟩
  have hlosses :
      (total (stats.map .complete)).histogramLoss = some (histogramOf (·.histogramLoss) stats) ∧
      (total (stats.map .complete)).longestDtcLoss
        = some (examplesOf (·.histogramLoss) (·.longestDtcLoss) stats) := by
    unfold total
    rw [hall]
    exact ⟨rfl, rfl⟩
  have hrange' : (total (stats.map .complete)).indexRange.toNat
      = (stats.map (·.indexRange.toNat)).sum := by
    have := ha.indexRange
    rwa [List.map_map] at this
  have hselected := ha.selected
  rw [List.length_map] at hselected
  -- Every table has a byte and a frame, and no more frames than indices.
  have hfiles : ¬ (bytes < (total (stats.map .complete)).availableTables ∨
      frames < (total (stats.map .complete)).availableTables ∨
      (total (stats.map .complete)).indexRange < frames) := by
    rw [not_or, not_or, UInt64.not_lt, UInt64.not_lt, UInt64.not_lt, UInt64.le_iff_toNat_le,
      UInt64.le_iff_toNat_le, UInt64.le_iff_toNat_le, hcomplete, hselected, hbytes', hframes',
      hrange']
    exact ⟨length_le_sum fun s hs => (hsound s hs).bytes,
      length_le_sum fun s hs => (hsound s hs).frames, sum_le_sum fun s hs => (hsound s hs).range⟩
  have houtcomes : unique.toNat = win.toNat + draw.toNat + loss.toNat := by
    rw [hunique', hwin', hdraw', hloss', ← List.sum_map_add, ← List.sum_map_add]
    exact congrArg List.sum (List.map_congr_left fun s hs => (hsound s hs).outcomes)
  have hpartition : (total (stats.map .complete)).indexRange.toNat = unique.toNat +
      (check.toNat + squares.toNat + capture.toNat + redundant.toNat) := by
    rw [hrange', hunique', hcheck', hsquares', hcapture', hredundant', ← List.sum_map_add,
      ← List.sum_map_add, ← List.sum_map_add, ← List.sum_map_add]
    exact congrArg List.sum (List.map_congr_left fun s hs => (hsound s hs).partition)
  simp only [unwrap, hbytes, hframes, hunique, hwin, hdraw, hloss, hcheck, hsquares, hcapture,
    hredundant, hwins.1, hwins.2, hlosses.1, hlosses.2, Run.expect_some, Run.ok_bind]
  rw [if_neg hfiles, validateOutcomes_eq_ok.mpr ⟨houtcomes, by
      simp only [List.map_cons, List.map_nil, List.sum_cons, List.sum_nil]
      omega⟩, Run.ok_bind,
    validateDistribution_eq_ok.mpr (fitsCount_of_bound (fun s hs => (hsound s hs).wins) hwin'),
    Run.ok_bind]
  exact validateDistribution_eq_ok.mpr
    (fitsCount_of_bound (fun s hs => (hsound s hs).losses) hloss')

end AggregateStats

open AggregateStats in
/-- However records are folded and merged, the result is their sum, and a valid aggregate. -/
theorem aggregation_is_sum (records : List StatsRecord) (hstored : ∀ r ∈ records, Stored r)
    (hrange : (records.map (·.indexRange.toNat)).sum < UInt64.size)
    (hbytes : ((records.filterMap StatsRecord.complete?).map (·.bytes.toNat)).sum < UInt64.size) :
    ∃ a : AggregateStats, (∀ m : Merging, m.records.Perm records → m.run = a) ∧
      TotalOf records a ∧ a.validate = .ok () := by
  refine ⟨total records, fun m hm => ?_, totalOf_total hstored hrange hbytes,
    validate_total hstored hrange hbytes⟩
  have hranked := (allRanked_of_stored hstored).of_subset hm.subset
  rw [m.run_eq hranked, total_perm hm]

/-- King and queen against king, as if no table had more than one position. -/
def smallStats : EgtStats where
  tablename := "KQ_K".toList
  bytes := 1
  sha256 := List.replicate 64 '0'
  indexRange := 3
  frameSize := 262144
  numFrames := 1
  uniquePositions := 2
  win := 2
  draw := 0
  loss := 0
  invalidOppositeCheck := 1
  invalidEpSquaresOccupied := 0
  invalidIllegalEpCapture := 0
  redundant := 0
  histogramWin := (∅ : Histogram).insert 1 2
  histogramLoss := ∅
  longestDtcWin := [⟨"8/8/8/8/8/1k6/8/1K1Q4 w - -".toList, 1⟩]
  longestDtcLoss := []

theorem fitsCount_smallStats :
    FitsCount smallStats.histogramWin smallStats.win.toNat smallStats.longestDtcWin := by
  have hget : ∀ k : ℕ, smallStats.histogramWin[k]? = if k = 1 then some 2 else none := by
    intro k
    show ((∅ : Histogram).insert 1 2)[k]? = _
    rw [Std.ExtTreeMap.getElem?_insert, Std.ExtTreeMap.getElem?_empty]
    simp only [Std.LawfulEqOrd.compare_eq_iff_eq, eq_comm (a := k)]
  have hmem : ∀ k : ℕ, k ∈ smallStats.histogramWin ↔ k = 1 := by
    intro k
    rw [Tally.mem_iff_getElem?, hget]
    by_cases h : k = 1 <;> simp [h]
  refine ⟨fun k v hv => ?_, ?_, by decide, fun x hx => ?_⟩
  · rw [hget] at hv
    split at hv
    · rw [← Option.some.inj hv]
      decide
    · cases hv
  · rw [Tally.weight_eq_sum _ _ {1} (fun k hk => by simpa using (hmem k).mp hk),
      Finset.sum_singleton, hget]
    rfl
  · rw [List.mem_singleton.mp hx]
    exact (Tally.maxKey?_eq_some.mpr ⟨(hmem 1).mpr rfl, fun k hk => ((hmem k).mp hk).le⟩).symm

theorem validate_smallStats : smallStats.validate ⟨"KQ_K".toList⟩ = .ok () := by
  unfold EgtStats.validate
  dsimp only
  rw [if_neg (by decide), validateOutcomes_eq_ok.mpr (by decide), Run.ok_bind,
    validateDistribution_eq_ok.mpr fitsCount_smallStats, Run.ok_bind]
  refine validateDistribution_eq_ok.mpr ⟨fun k v hv => ?_, rfl, by decide, by decide⟩
  have : smallStats.histogramLoss[k]? = none := Std.ExtTreeMap.getElem?_empty
  rw [this] at hv
  cases hv

open AggregateStats in
theorem aggregation_is_sum_smallStats :
    ∃ a : AggregateStats, a.validate = .ok () ∧ a.indexRange.toNat = 8 ∧
      (Merging.merge (.fold [.missing ⟨"K_K".toList, 5⟩]) (.fold [.complete smallStats])).run = a := by
  have hstored : ∀ r ∈ [.complete smallStats, .missing ⟨"K_K".toList, 5⟩], Stored r := by
    intro r hr
    rw [List.mem_cons, List.mem_singleton] at hr
    rcases hr with rfl | rfl
    · exact ⟨_, validate_smallStats⟩
    · show (0 : UInt64) < 5
      decide
  obtain ⟨a, hrun, htotal, hvalid⟩ :=
    aggregation_is_sum [.complete smallStats, .missing ⟨"K_K".toList, 5⟩] hstored
      (by decide) (by decide)
  exact ⟨a, hvalid, htotal.indexRange, hrun _ (List.Perm.swap _ _ _)⟩

end ChessEgt
