import ChessEgt.Library.Chunks
import ChessEgt.Stats.Aggregate

/-!
# Totals

The aggregate of a list of records as a function of the whole list, and the runs that reach it.

* `longestOf` — the examples at the largest ply, sorted, each once;
* `total` — the aggregate of the records;
* `Merging`, `Merging.run_eq` — however the records are folded and merged, the result is the
  total.
-/

namespace ChessEgt

namespace AggregateStats

/-! ### The longest examples -/

/-- The examples at the largest ply of a histogram, sorted, each once. -/
def longestOf (histogram : Histogram) (examples : List LongestDtcPosition) :
    List LongestDtcPosition :=
  dedup ((examples.filter (some ·.ply = histogram.maxKey?)).mergeSort fun a b => decide (a ≤ b))

variable {h : Histogram} {e e' : List LongestDtcPosition}

theorem pairwise_dedup {l : List LongestDtcPosition} (hl : l.Pairwise (· ≤ ·)) :
    (dedup l).Pairwise (· < ·) := by
  have hsub : (dedup l).Sublist l := List.destutter_sublist _ l
  have hle : (dedup l).IsChain (· ≤ ·) := (hl.sublist hsub).isChain
  have hne : (dedup l).IsChain (· ≠ ·) := List.isChain_destutter _ l
  refine List.isChain_iff_pairwise.mp ?_
  rw [List.isChain_iff_getElem] at hle hne ⊢
  exact fun i hi => lt_of_le_of_ne (hle i hi) (hne i hi)

theorem mem_dedup {l : List LongestDtcPosition} {x : LongestDtcPosition} :
    x ∈ dedup l ↔ x ∈ l := Chunks.mem_destutter

theorem pairwise_mergeSort (l : List LongestDtcPosition) :
    (l.mergeSort fun a b => decide (a ≤ b)).Pairwise (· ≤ ·) := by
  have := @List.pairwise_mergeSort _ (fun a b : LongestDtcPosition => decide (a ≤ b))
    (fun a b c hab hbc => by
      rw [decide_eq_true_eq] at *
      exact hab.trans hbc)
    (fun a b => by simpa using le_total a b) l
  exact this.imp fun h => by simpa using h

theorem longestOf_pairwise : (longestOf h e).Pairwise (· < ·) :=
  pairwise_dedup (pairwise_mergeSort _)

@[simp] theorem mem_longestOf {x : LongestDtcPosition} :
    x ∈ longestOf h e ↔ x ∈ e ∧ some x.ply = h.maxKey? := by
  rw [longestOf, mem_dedup, List.mem_mergeSort, List.mem_filter, decide_eq_true_eq]

/-- Sorted lists without repetitions are determined by their elements. -/
theorem eq_of_pairwise_lt {l l' : List LongestDtcPosition} (hl : l.Pairwise (· < ·))
    (hl' : l'.Pairwise (· < ·)) (hmem : ∀ x, x ∈ l ↔ x ∈ l') : l = l' := by
  have hperm : l.Perm l' :=
    (List.perm_ext_iff_of_nodup (hl.imp ne_of_lt) (hl'.imp ne_of_lt)).mpr hmem
  exact hperm.eq_of_pairwise (fun a b _ _ hab hba => absurd hba (lt_asymm hab)) hl hl'

/-- Only the examples at the largest ply matter. -/
theorem longestOf_congr (hmem : ∀ x, some x.ply = h.maxKey? → (x ∈ e ↔ x ∈ e')) :
    longestOf h e = longestOf h e' := by
  refine eq_of_pairwise_lt longestOf_pairwise longestOf_pairwise fun x => ?_
  rw [mem_longestOf, mem_longestOf]
  exact and_congr_left (hmem x)

theorem mergeExamples_eq : mergeExamples h e e' = longestOf h (e ++ e') := rfl

/-! ### The total of a list -/

section Distribution

variable (histogram : EgtStats → Histogram) (examples : EgtStats → List LongestDtcPosition)

/-- The examples of each table are at its largest ply. -/
def Ranked (stats : List EgtStats) : Prop :=
  ∀ s ∈ stats, ∀ x ∈ examples s, some x.ply = (histogram s).maxKey?

def histogramOf (stats : List EgtStats) : Histogram := (stats.map histogram).sum

def examplesOf (stats : List EgtStats) : List LongestDtcPosition :=
  longestOf (histogramOf histogram stats) (stats.flatMap examples)

/-- Examples that are as good as all examples of the tables. -/
structure Represents (e : List LongestDtcPosition) (stats : List EgtStats) : Prop where
  mem : ∀ x ∈ e, x ∈ stats.flatMap examples
  longest : ∀ x ∈ stats.flatMap examples,
    some x.ply = (histogramOf histogram stats).maxKey? → x ∈ e

variable {histogram examples} {a b : List EgtStats}

theorem histogramOf_append :
    histogramOf histogram (a ++ b) = histogramOf histogram a + histogramOf histogram b := by
  rw [histogramOf, List.map_append, List.sum_append]
  rfl

theorem mem_histogramOf {k : ℕ} :
    k ∈ histogramOf histogram a ↔ ∃ s ∈ a, k ∈ histogram s := by
  induction a with
  | nil => simp [histogramOf, Tally.mem_iff_getElem?]
  | cons s a ih =>
    have hcons : histogramOf histogram (s :: a) = histogram s + histogramOf histogram a :=
      List.sum_cons
    rw [hcons, Tally.mem_add, ih, List.exists_mem_cons_iff]

theorem Ranked.mem_histogramOf (hr : Ranked histogram examples a) {x : LongestDtcPosition}
    (hx : x ∈ a.flatMap examples) : x.ply ∈ histogramOf histogram a := by
  obtain ⟨s, hs, hxs⟩ := List.mem_flatMap.mp hx
  exact AggregateStats.mem_histogramOf.mpr
    ⟨s, hs, (Tally.maxKey?_eq_some.mp (hr s hs x hxs).symm).1⟩

theorem represents_examplesOf : Represents histogram examples (examplesOf histogram examples a) a where
  mem _ hx := (mem_longestOf.mp hx).1
  longest _ hx hply := mem_longestOf.mpr ⟨hx, hply⟩

theorem represents_singleton (s : EgtStats) : Represents histogram examples (examples s) [s] where
  mem x hx := by simpa using hx
  longest x hx _ := by simpa using hx

/-- Keeping only the longest examples of each part loses none of the longest of both. -/
theorem Represents.merge (ha : Ranked histogram examples a) (hb : Ranked histogram examples b)
    (he : Represents histogram examples e a) (he' : Represents histogram examples e' b) :
    mergeExamples (histogramOf histogram a + histogramOf histogram b) e e'
      = examplesOf histogram examples (a ++ b) := by
  rw [mergeExamples_eq, examplesOf, histogramOf_append]
  refine longestOf_congr fun x hply => ?_
  rw [List.mem_append, List.flatMap_append, List.mem_append]
  constructor
  · exact Or.imp (he.mem x) (he'.mem x)
  · -- The largest ply of both is the largest of the part that the example comes from.
    apply Or.imp
    · intro hx
      exact he.longest x hx (Tally.maxKey?_of_add hply.symm (ha.mem_histogramOf hx)).symm
    · intro hx
      rw [add_comm] at hply
      exact he'.longest x hx (Tally.maxKey?_of_add hply.symm (hb.mem_histogramOf hx)).symm

theorem histogramOf_perm (hab : a.Perm b) : histogramOf histogram a = histogramOf histogram b :=
  (hab.map _).sum_eq

theorem examplesOf_perm (hab : a.Perm b) :
    examplesOf histogram examples a = examplesOf histogram examples b := by
  rw [examplesOf, examplesOf, histogramOf_perm hab]
  exact longestOf_congr fun x _ => (hab.flatMap_right _).mem_iff

end Distribution

/-- The statistics of the records, if all are complete. -/
def allComplete (records : List StatsRecord) : Option (List EgtStats) :=
  records.mapM StatsRecord.complete?

/-- The aggregate of a list of records. -/
def total (records : List StatsRecord) : AggregateStats :=
  let sumOf (f : EgtStats → UInt64) := (allComplete records).map fun stats => (stats.map f).sum
  { selectedTables := UInt64.ofNat records.length
    availableTables := UInt64.ofNat (records.filterMap StatsRecord.complete?).length
    indexRange := (records.map StatsRecord.indexRange).sum
    bytes := sumOf (·.bytes)
    numFrames := sumOf (·.numFrames)
    uniquePositions := sumOf (·.uniquePositions)
    win := sumOf (·.win)
    draw := sumOf (·.draw)
    loss := sumOf (·.loss)
    invalidOppositeCheck := sumOf (·.invalidOppositeCheck)
    invalidEpSquaresOccupied := sumOf (·.invalidEpSquaresOccupied)
    invalidIllegalEpCapture := sumOf (·.invalidIllegalEpCapture)
    redundant := sumOf (·.redundant)
    histogramWin := (allComplete records).map (histogramOf (·.histogramWin))
    histogramLoss := (allComplete records).map (histogramOf (·.histogramLoss))
    longestDtcWin := (allComplete records).map (examplesOf (·.histogramWin) (·.longestDtcWin))
    longestDtcLoss := (allComplete records).map
      (examplesOf (·.histogramLoss) (·.longestDtcLoss)) }

/-- The examples of every complete record are at its largest plies. -/
def AllRanked (records : List StatsRecord) : Prop :=
  ∀ s, .complete s ∈ records →
    (∀ x ∈ s.longestDtcWin, some x.ply = s.histogramWin.maxKey?) ∧
      ∀ x ∈ s.longestDtcLoss, some x.ply = s.histogramLoss.maxKey?

variable {a b : List StatsRecord}

theorem allComplete_eq_some {stats : List EgtStats} :
    allComplete a = some stats ↔ a = stats.map .complete := by
  induction a generalizing stats with
  | nil => cases stats <;> simp [allComplete]
  | cons r a ih =>
    cases r with
    | missing p => cases stats <;> simp [allComplete, StatsRecord.complete?]
    | complete s =>
      have hcons : allComplete (.complete s :: a) = (allComplete a).map (s :: ·) := by
        rw [allComplete, List.mapM_cons]
        cases h : a.mapM StatsRecord.complete? <;> simp [allComplete, StatsRecord.complete?, h]
      rw [hcons, Option.map_eq_some_iff]
      cases stats with
      | nil => simp
      | cons s' stats => simp [ih, and_comm]

theorem allComplete_eq_none : allComplete a = none ↔ ∃ r ∈ a, r.complete? = none := by
  induction a with
  | nil => simp [allComplete]
  | cons r a ih =>
    cases r with
    | missing p => simp [allComplete, StatsRecord.complete?]
    | complete s =>
      have hcons : allComplete (.complete s :: a) = (allComplete a).map (s :: ·) := by
        rw [allComplete, List.mapM_cons]
        cases h : a.mapM StatsRecord.complete? <;> simp [allComplete, StatsRecord.complete?, h]
      rw [hcons, Option.map_eq_none_iff, ih, List.exists_mem_cons_iff]
      simp [StatsRecord.complete?]

theorem allComplete_append :
    allComplete (a ++ b) = Option.map₂ (· ++ ·) (allComplete a) (allComplete b) := by
  rw [allComplete, List.mapM_append]
  show _ = Option.map₂ _ (a.mapM StatsRecord.complete?) (b.mapM StatsRecord.complete?)
  cases a.mapM StatsRecord.complete? with
  | none => rfl
  | some c => cases b.mapM StatsRecord.complete? <;> rfl

/-- A computed field of two parts. -/
theorem map₂_map {β γ : Type} {F : β → β → γ} {f : List EgtStats → β} {g : List EgtStats → γ}
    {s t : Option (List EgtStats)}
    (hf : ∀ c ∈ s, ∀ d ∈ t, F (f c) (f d) = g (c ++ d)) :
    Option.map₂ F (s.map f) (t.map f) = (Option.map₂ (· ++ ·) s t).map g := by
  cases s with
  | none => rfl
  | some c =>
    cases t with
    | none => rfl
    | some d => exact congrArg some (hf c rfl d rfl)

theorem sum_map {f : EgtStats → UInt64} :
    sum ((allComplete a).map fun stats => (stats.map f).sum)
        ((allComplete b).map fun stats => (stats.map f).sum)
      = (allComplete (a ++ b)).map fun stats => (stats.map f).sum := by
  rw [allComplete_append]
  refine map₂_map fun c _ d _ => ?_
  rw [List.map_append, List.sum_append]

theorem AllRanked.win (hr : AllRanked a) {stats : List EgtStats} (hs : allComplete a = some stats) :
    Ranked (·.histogramWin) (·.longestDtcWin) stats := fun s hmem =>
  (hr s (allComplete_eq_some.mp hs ▸ List.mem_map_of_mem hmem)).1

theorem AllRanked.loss (hr : AllRanked a) {stats : List EgtStats}
    (hs : allComplete a = some stats) :
    Ranked (·.histogramLoss) (·.longestDtcLoss) stats := fun s hmem =>
  (hr s (allComplete_eq_some.mp hs ▸ List.mem_map_of_mem hmem)).2

/-- The distributions of two parts, whatever represents the examples of the second. -/
theorem mergeDistribution_eq {histogram : EgtStats → Histogram}
    {examples : EgtStats → List LongestDtcPosition} {s t : Option (List EgtStats)}
    {g : List EgtStats → List LongestDtcPosition}
    (hs : ∀ c, s = some c → Ranked histogram examples c)
    (ht : ∀ d, t = some d → Ranked histogram examples d)
    (he' : ∀ d, t = some d → Represents histogram examples (g d) d) :
    mergeDistribution (s.map (histogramOf histogram)) (t.map (histogramOf histogram))
        (s.map (examplesOf histogram examples)) (t.map g)
      = ((Option.map₂ (· ++ ·) s t).map (histogramOf histogram),
        (Option.map₂ (· ++ ·) s t).map (examplesOf histogram examples)) := by
  cases s with
  | none => rfl
  | some c =>
    cases t with
    | none => rfl
    | some d =>
      have := Represents.merge (hs c rfl) (ht d rfl) represents_examplesOf (he' d rfl)
      simp only [Option.map_some, Option.map₂_some_some, mergeDistribution, this,
        histogramOf_append]

/-- Merging the totals of two parts gives the total. -/
theorem merge_total (ha : AllRanked a) (hb : AllRanked b) :
    (total a).merge (total b) = total (a ++ b) := by
  have hwin := mergeDistribution_eq (s := allComplete a) (t := allComplete b)
    (fun _ h => ha.win h) (fun _ h => hb.win h) (fun _ _ => represents_examplesOf)
  have hloss := mergeDistribution_eq (s := allComplete a) (t := allComplete b)
    (fun _ h => ha.loss h) (fun _ h => hb.loss h) (fun _ _ => represents_examplesOf)
  rw [← allComplete_append] at hwin hloss
  unfold merge total
  simp only [sum_map, hwin, hloss, List.length_append, List.filterMap_append, UInt64.ofNat_add,
    List.map_append, List.sum_append]

/-! ### Every run reaches the total -/

theorem total_nil : total [] = default := by
  have hexamples : ∀ h e, examplesOf h e [] = [] := by
    intro h e
    simp [examplesOf, longestOf, dedup]
  simp only [total, allComplete, List.mapM_nil, Option.pure_def, Option.map_some, hexamples]
  rfl

/-- One more record. -/
theorem addRecord_total {r : StatsRecord} (ha : AllRanked a) (hr : AllRanked [r]) :
    (total a).addRecord r = total (a ++ [r]) := by
  cases r with
  | missing p =>
    have hnone : allComplete (a ++ [.missing p]) = none :=
      allComplete_eq_none.mpr ⟨_, List.mem_append_right _ List.mem_cons_self, rfl⟩
    unfold total addRecord
    simp only [hnone, Option.map_none, List.length_append, List.length_singleton,
      UInt64.ofNat_add, List.filterMap_append, List.map_append, List.sum_append]
    have hfilter : [StatsRecord.missing p].filterMap StatsRecord.complete? = [] := rfl
    simp [hfilter, StatsRecord.indexRange]
  | complete s =>
    have hsingle : allComplete [.complete s] = some [s] := allComplete_eq_some.mpr rfl
    have hwin := mergeDistribution_eq (s := allComplete a) (t := some [s])
      (g := fun _ => s.longestDtcWin) (fun _ h => ha.win h)
      (fun _ h => hr.win (hsingle.trans h)) (fun d h => by
        rw [← Option.some.inj h]
        exact represents_singleton s)
    have hloss := mergeDistribution_eq (s := allComplete a) (t := some [s])
      (g := fun _ => s.longestDtcLoss) (fun _ h => ha.loss h)
      (fun _ h => hr.loss (hsingle.trans h)) (fun d h => by
        rw [← Option.some.inj h]
        exact represents_singleton s)
    have hsum : ∀ f : EgtStats → UInt64,
        sum ((allComplete a).map fun stats => (stats.map f).sum) (some (f s))
          = (allComplete (a ++ [.complete s])).map fun stats => (stats.map f).sum := by
      intro f
      rw [← sum_map, hsingle]
      simp
    rw [← hsingle, ← allComplete_append] at hwin hloss
    have hh : ∀ f : EgtStats → Histogram, histogramOf f [s] = f s := by
      intro f
      simp [histogramOf]
    rw [hsingle] at hwin hloss
    simp only [Option.map_some, hh] at hwin hloss
    unfold addRecord add merge ofStats total
    simp only [hsum, hwin, hloss, List.length_append, List.length_singleton, UInt64.ofNat_add,
      List.filterMap_append, List.map_append, List.sum_append]
    simp [StatsRecord.complete?, StatsRecord.indexRange]

theorem AllRanked.of_subset (hb : AllRanked b) (hab : a ⊆ b) : AllRanked a :=
  fun s hs => hb s (hab hs)

/-- Folding records from the aggregate of no table. -/
theorem foldl_addRecord (ha : AllRanked a) : a.foldl addRecord default = total a := by
  induction a using List.reverseRecOn with
  | nil => exact total_nil.symm
  | append_singleton a r ih =>
    rw [List.foldl_append, ih (ha.of_subset (List.subset_append_left _ _)), List.foldl_cons,
      List.foldl_nil]
    exact addRecord_total (ha.of_subset (List.subset_append_left _ _))
      (ha.of_subset (List.subset_append_right _ _))

/-- The order of the records does not matter. -/
theorem total_perm (hab : a.Perm b) : total a = total b := by
  have hcomplete : (allComplete a = none ∧ allComplete b = none) ∨
      ∃ c d, allComplete a = some c ∧ allComplete b = some d ∧ c.Perm d := by
    cases ha : allComplete a with
    | none =>
      obtain ⟨r, hr, hnone⟩ := allComplete_eq_none.mp ha
      exact Or.inl ⟨rfl, allComplete_eq_none.mpr ⟨r, hab.mem_iff.mp hr, hnone⟩⟩
    | some c =>
      cases hb : allComplete b with
      | none =>
        obtain ⟨r, hr, hnone⟩ := allComplete_eq_none.mp hb
        rw [allComplete_eq_none.mpr ⟨r, hab.mem_iff.mpr hr, hnone⟩] at ha
        cases ha
      | some d =>
        have hperm := hab.filterMap StatsRecord.complete?
        have hself : ∀ l : List EgtStats,
            (l.map StatsRecord.complete).filterMap StatsRecord.complete? = l := by
          intro l
          rw [List.filterMap_map]
          exact List.filterMap_some
        rw [allComplete_eq_some.mp ha, allComplete_eq_some.mp hb, hself, hself] at hperm
        exact Or.inr ⟨c, d, rfl, rfl, hperm⟩
  have hlength := hab.length_eq
  have hcount := (hab.filterMap StatsRecord.complete?).length_eq
  have hrange := (hab.map StatsRecord.indexRange).sum_eq
  rcases hcomplete with ⟨ha, hb⟩ | ⟨c, d, ha, hb, hcd⟩
  · unfold total
    simp only [ha, hb, hlength, hcount, hrange, Option.map_none]
  · have hsum : ∀ f : EgtStats → UInt64, (c.map f).sum = (d.map f).sum :=
      fun f => (hcd.map f).sum_eq
    unfold total
    simp only [ha, hb, hlength, hcount, hrange, Option.map_some, hsum, histogramOf_perm hcd,
      examplesOf_perm hcd]

/-- Ways to aggregate records: a fold over a list, or a merge of two parts. -/
inductive Merging where
  | fold (records : List StatsRecord)
  | merge (left right : Merging)

namespace Merging

def records : Merging → List StatsRecord
  | fold records => records
  | merge left right => left.records ++ right.records

def run : Merging → AggregateStats
  | fold records => records.foldl addRecord default
  | merge left right => left.run.merge right.run

/-- Every way to aggregate records reaches their total. -/
theorem run_eq (m : Merging) (hm : AllRanked m.records) : m.run = total m.records := by
  induction m with
  | fold records => exact foldl_addRecord hm
  | merge left right ihl ihr =>
    have hl := hm.of_subset (List.subset_append_left _ _)
    have hr := hm.of_subset (List.subset_append_right _ _)
    rw [run, ihl hl, ihr hr]
    exact merge_total hl hr

end Merging

end AggregateStats

end ChessEgt
