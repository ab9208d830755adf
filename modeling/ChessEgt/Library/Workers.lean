import Mathlib

/-!
# Parallel scans of a shared memory

Workers scan disjoint parts of a shared memory and update cells of it.  A worker first loads its
part, cell by cell, and keeps the cells that are selected.  It then takes the kept cells in turn;
each one emits updates, and an update loads its target and tries to exchange the value that it
has loaded until the exchange succeeds or there is nothing left to do.  After an exchange, a
worker may leave a note.  Every load, exchange and note is a step of its own, in any order among
the workers, and an exchange may fail without a reason.

* `SharedMemory`, `Notes` — what a shared memory and a monotone board of notes do;
* `ParallelScan`, `Worker`, `WorkerStep`, `PoolStep` — scans, and their steps with their events;
* `visit`, `Commutes.foldl_eq` — an update as one step on the memory, in any order;
* `Invariant`, `Invariant.finished` — the events of a scan explain its memory and its count;
* `noted_of_done`, `exists_done` — the notes of a scan are left, and a scan can be finished.
-/

/-- Cells at addresses, read and written one at a time. -/
class SharedMemory (M : Type) (A V : outParam Type) where
  get : M → A → Option V
  set : M → A → V → M
  get_set_self : ∀ {m a v} w, get m a = some v → get (set m a w) a = some w
  get_set_of_ne : ∀ m {a b} v, a ≠ b → get (set m a v) b = get m b
  set_eq_self : ∀ {m a v}, (∀ w ∈ get m a, w = v) → set m a v = m
  set_set : ∀ m a v w, set (set m a v) a w = set m a w
  set_comm : ∀ m {a b} v w, a ≠ b → set (set m a v) b w = set (set m b w) a v

/-- A board of notes, which stay once they are left. -/
class Notes (S : Type) (R : outParam Type) where
  missing : R → S → Bool
  leave : R → S → S
  missing_leave : ∀ r s, missing r (leave r s) = false
  missing_mono : ∀ {r s} r', missing r s = false → missing r (leave r' s) = false

/-- What an exchange writes, how much it counts, and the note that it asks for. -/
structure Exchange (V R F : Type) where
  value : V
  count : F
  note : Option R

/-- The cells that a scan selects, the updates that a selected cell emits, and what an update
    makes of a value of its target; `none` if there is nothing to exchange. -/
structure ParallelScan (A V U R F : Type) where
  select : V → Bool
  emit : A → V → Option (List U)
  target : U → A
  attempt : U → V → Option (Exchange V R F)

/-- Where a worker is with an update. -/
inductive Stage (V U R : Type) where
  | idle
  | exchanging (u : U) (raw : V)
  | checking (r : R)
  | leaving (r : R)

/-- A worker, which first loads its part and then runs the updates of the matches. -/
inductive Worker (A V U R F : Type) where
  | loading (rest : List A) (found : List (A × V))
  | running (found : List (A × V)) (pending : List U) (stage : Stage V U R) (count : F)

/-- What happens in a scan: a cell is selected, or an update is settled by the value of its
    target, be it by an exchange or because there is nothing to exchange. -/
inductive Event (A V U : Type) where
  | selected (a : A) (v : V)
  | settled (u : U) (v : V)

namespace Event

def selected? {A V U : Type} : Event A V U → Option (A × V)
  | selected a v => some (a, v)
  | settled _ _ => none

def settled? {A V U : Type} : Event A V U → Option (U × V)
  | selected _ _ => none
  | settled u v => some (u, v)

end Event

/-- A shared memory, a board, and the workers on them. -/
structure Pool (M S A V U R F : Type) where
  memory : M
  board : S
  workers : List (Worker A V U R F)

variable {M S A V U R F : Type} [SharedMemory M A V] [Notes S R] [AddCommMonoid F]

open SharedMemory Notes

namespace ParallelScan

variable (scan : ParallelScan A V U R F)

/-- The worker after loading `v` for the update `u`. -/
def considered (found : List (A × V)) (u : U) (pending : List U) (v : V) (count : F) :
    Worker A V U R F :=
  match scan.attempt u v with
  | none => .running found pending .idle count
  | some _ => .running found pending (.exchanging u v) count

/-- The stage after an exchange. -/
def noting : Option R → Stage V U R
  | none => .idle
  | some r => .checking r

/-- The matches after loading `v` from `a`. -/
def matched (found : List (A × V)) (a : A) (v : V) : List (A × V) :=
  if scan.select v then found ++ [(a, v)] else found

/-- The event of loading `v` from `a`. -/
def matching (a : A) (v : V) : List (Event A V U) :=
  if scan.select v then [.selected a v] else []

/-- The event of loading `v` for the update `u`. -/
def considering (u : U) (v : V) : List (Event A V U) :=
  match scan.attempt u v with
  | none => [.settled u v]
  | some _ => []

/-- The atomic steps of a worker, with their events. -/
inductive WorkerStep : M → S → Worker A V U R F → List (Event A V U) →
    M → S → Worker A V U R F → Prop where
  | load {m s a rest found v} (h : get m a = some v) :
      WorkerStep m s (.loading (a :: rest) found) (scan.matching a v) m s
        (.loading rest (scan.matched found a v))
  | collected {m s found} :
      WorkerStep m s (.loading [] found) [] m s (.running found [] .idle 0)
  | emit {m s a v found us count} (h : scan.emit a v = some us) :
      WorkerStep m s (.running ((a, v) :: found) [] .idle count) [] m s
        (.running found us .idle count)
  | read {m s found u pending v count} (h : get m (scan.target u) = some v) :
      WorkerStep m s (.running found (u :: pending) .idle count) (scan.considering u v) m s
        (scan.considered found u pending v count)
  | exchange {m s found u pending raw count e} (h : get m (scan.target u) = some raw)
      (he : scan.attempt u raw = some e) :
      WorkerStep m s (.running found pending (.exchanging u raw) count) [.settled u raw]
        (set m (scan.target u) e.value) s
        (.running found pending (noting e.note) (count + e.count))
  | retry {m s found u pending raw v count} (h : get m (scan.target u) = some v) :
      WorkerStep m s (.running found pending (.exchanging u raw) count) (scan.considering u v) m s
        (scan.considered found u pending v count)
  | covered {m s found pending r count} (h : missing r s = false) :
      WorkerStep m s (.running found pending (.checking r) count) [] m s
        (.running found pending .idle count)
  | behind {m s found pending r count} (h : missing r s = true) :
      WorkerStep m s (.running found pending (.checking r) count) [] m s
        (.running found pending (.leaving r) count)
  | leave {m s found pending r count} :
      WorkerStep m s (.running found pending (.leaving r) count) [] m (leave r s)
        (.running found pending .idle count)

/-- A step of one of the workers of a pool, with its events. -/
inductive EventStep : Pool M S A V U R F → List (Event A V U) → Pool M S A V U R F → Prop where
  | mk {m s w events m' s' w'} (before after : List (Worker A V U R F))
      (h : scan.WorkerStep m s w events m' s' w') :
      EventStep ⟨m, s, before ++ w :: after⟩ events ⟨m', s', before ++ w' :: after⟩

/-- A step of one of the workers of a pool. -/
def PoolStep (pool pool' : Pool M S A V U R F) : Prop :=
  ∃ events, scan.EventStep pool events pool'

/-- A run of a pool, with its events. -/
inductive Trace (pool : Pool M S A V U R F) :
    List (Event A V U) → Pool M S A V U R F → Prop where
  | refl : Trace pool [] pool
  | tail {events pool' events' pool''} (hrun : Trace pool events pool')
      (h : scan.EventStep pool' events' pool'') : Trace pool (events ++ events') pool''

end ParallelScan

namespace Worker

/-- The worker has nothing left to do. -/
def Done : Worker A V U R F → Prop
  | .running [] [] .idle _ => True
  | _ => False

def count : Worker A V U R F → F
  | .loading _ _ => 0
  | .running _ _ _ count => count

/-- The note that a worker is about to leave. -/
def note? : Worker A V U R F → Option R
  | .running _ _ (.checking r) _ => some r
  | .running _ _ (.leaving r) _ => some r
  | _ => none

end Worker

namespace Pool

/-- The pool at the start of a scan of the parts. -/
def start (m : M) (s : S) (parts : List (List A)) : Pool M S A V U R F :=
  ⟨m, s, parts.map fun part => .loading part []⟩

def Done (pool : Pool M S A V U R F) : Prop := ∀ w ∈ pool.workers, w.Done

def count (pool : Pool M S A V U R F) : F := (pool.workers.map Worker.count).sum

end Pool

namespace SharedMemory

theorem isSome_set (m : M) (a b : A) (v : V) :
    (get (set m a v) b).isSome = (get m b).isSome := by
  by_cases h : a = b
  · subst h
    cases hv : get m a with
    | some w => rw [get_set_self v hv]; rfl
    | none => rw [set_eq_self (by simp [hv]), hv]
  · rw [get_set_of_ne m v h]

end SharedMemory

namespace ParallelScan

variable (scan : ParallelScan A V U R F)

/-- What an update makes of a value, and how much it counts. -/
def apply (u : U) (v : V) : V × F :=
  match scan.attempt u v with
  | none => (v, 0)
  | some e => (e.value, e.count)

/-- An update as a single step on the memory. -/
def visit (x : M × F) (u : U) : M × F :=
  match get x.1 (scan.target u) with
  | none => x
  | some v => (set x.1 (scan.target u) (scan.apply u v).1, x.2 + (scan.apply u v).2)

/-- The selected cells of a part. -/
def sources (m : M) (part : List A) : List (A × V) :=
  part.filterMap fun a => (get m a).bind fun v => if scan.select v then some (a, v) else none

/-- The updates that a match emits, or a single `none` if it cannot be run. -/
def emitted (x : A × V) : List (Option U) :=
  match scan.emit x.1 x.2 with
  | none => [none]
  | some us => us.map some

/-- The updates that a worker still has to run. -/
def outstanding (m : M) : Worker A V U R F → List (Option U)
  | .loading rest found => (found ++ scan.sources m rest).flatMap scan.emitted
  | .running found pending (.exchanging u _) _ =>
    some u :: (pending.map some ++ found.flatMap scan.emitted)
  | .running found pending _ _ => pending.map some ++ found.flatMap scan.emitted

/-- The matches that a worker has not loaded yet. -/
def unscanned (m : M) : Worker A V U R F → List (A × V)
  | .loading rest _ => scan.sources m rest
  | .running _ _ _ _ => []

/-- The selected cells of a run. -/
def selectionsOf (events : List (Event A V U)) : List (A × V) := events.filterMap Event.selected?

/-- The settled updates of a run, with the values that they met. -/
def settledOf (events : List (Event A V U)) : List (U × V) := events.filterMap Event.settled?

/-- Updates that meet the values that the ones before them have left. -/
def Explains (x : M × F) : List (U × V) → Prop
  | [] => True
  | (u, v) :: rest => get x.1 (scan.target u) = some v ∧ Explains (scan.visit x u) rest

/-- The updates leave alone which cells are selected, and their values. -/
structure Stable : Prop where
  selected : ∀ u v, scan.select v = true → scan.attempt u v = none
  written : ∀ u v e, scan.attempt u v = some e → scan.select e.value = false

/-- Two updates of one cell can run in any order. -/
def Commutes : Prop := ∀ u u' v, scan.target u = scan.target u' →
  (scan.apply u' (scan.apply u v).1).1 = (scan.apply u (scan.apply u' v).1).1 ∧
    (scan.apply u v).2 + (scan.apply u' (scan.apply u v).1).2
      = (scan.apply u' v).2 + (scan.apply u (scan.apply u' v).1).2

variable {scan} {m₀ m m' : M} {s s' : S} {w w' : Worker A V U R F} {parts : List (List A)}
  {events : List (Event A V U)}

/-! ### Updates on the memory -/

theorem visit_eq {m : M} {u : U} {v : V} (h : get m (scan.target u) = some v) (n : F) :
    scan.visit (m, n) u
      = (set m (scan.target u) (scan.apply u v).1, n + (scan.apply u v).2) := by
  rw [visit, h]

theorem apply_of_attempt_none {u : U} {v : V} (h : scan.attempt u v = none) :
    scan.apply u v = (v, 0) := by
  rw [apply, h]

theorem apply_of_attempt_some {u : U} {v : V} {e : Exchange V R F}
    (h : scan.attempt u v = some e) : scan.apply u v = (e.value, e.count) := by
  rw [apply, h]

theorem get_visit_self {m : M} {u : U} {v : V} (h : get m (scan.target u) = some v) (n : F) :
    get (scan.visit (m, n) u).1 (scan.target u) = some (scan.apply u v).1 := by
  rw [visit_eq h]
  exact get_set_self _ h

theorem get_visit_of_ne (x : M × F) {u : U} {a : A} (h : scan.target u ≠ a) :
    get (scan.visit x u).1 a = get x.1 a := by
  unfold visit
  split
  · rfl
  · exact get_set_of_ne _ _ h

theorem isSome_visit (x : M × F) (u : U) (a : A) :
    (get (scan.visit x u).1 a).isSome = (get x.1 a).isSome := by
  unfold visit
  split
  · rfl
  · exact isSome_set _ _ _ _

theorem isSome_foldl_visit (x : M × F) (us : List U) (a : A) :
    (get (us.foldl scan.visit x).1 a).isSome = (get x.1 a).isSome := by
  induction us generalizing x with
  | nil => rfl
  | cons u us ih => rw [List.foldl_cons, ih, isSome_visit]

/-- The count of a run of updates only adds to the count before it. -/
theorem visit_add (m : M) (n k : F) (u : U) :
    scan.visit (m, n + k) u = ((scan.visit (m, n) u).1, (scan.visit (m, n) u).2 + k) := by
  cases h : get m (scan.target u) with
  | none => simp [visit, h]
  | some v => rw [visit_eq h, visit_eq h, add_right_comm]

/-- Two updates of one cell in a row. -/
theorem visit_visit {m : M} {u u' : U} {v : V} {n : F} (ht : scan.target u = scan.target u')
    (h : get m (scan.target u) = some v) : scan.visit (scan.visit (m, n) u) u'
      = (set m (scan.target u) (scan.apply u' (scan.apply u v).1).1,
        n + ((scan.apply u v).2 + (scan.apply u' (scan.apply u v).1).2)) := by
  have hu := get_set_self (scan.apply u v).1 h
  rw [ht] at hu
  rw [visit_eq h, visit_eq (m := set m (scan.target u) _) (v := (scan.apply u v).1)
    (by rw [ht]; exact hu), ← ht, set_set, add_assoc]

theorem Commutes.visit (hc : scan.Commutes) (x : M × F) (u u' : U) :
    scan.visit (scan.visit x u) u' = scan.visit (scan.visit x u') u := by
  obtain ⟨m, n⟩ := x
  by_cases ht : scan.target u = scan.target u'
  · cases h : get m (scan.target u) with
    | none =>
      have h' : get m (scan.target u') = none := by rw [← ht, h]
      simp [ParallelScan.visit, h, h']
    | some v =>
      have h' : get m (scan.target u') = some v := by rw [← ht, h]
      obtain ⟨hval, hcount⟩ := hc u u' v ht
      rw [visit_visit ht h, visit_visit ht.symm h', ← ht, hval, hcount]
  · -- Updates of different cells do not see each other.
    have hne := get_visit_of_ne (m, n) ht
    have hne' := get_visit_of_ne (m, n) (Ne.symm ht)
    cases h : get m (scan.target u) with
    | none =>
      have hskip : ∀ k, scan.visit (m, k) u = (m, k) := fun k => by simp [ParallelScan.visit, h]
      rw [hskip]
      have hskip' : scan.visit (scan.visit (m, n) u') u = scan.visit (m, n) u' := by
        unfold ParallelScan.visit at hne' ⊢
        rw [hne', h]
      rw [hskip']
    | some v =>
      cases h' : get m (scan.target u') with
      | none =>
        have hskip : scan.visit (m, n) u' = (m, n) := by simp [ParallelScan.visit, h']
        rw [hskip]
        have hskip' : scan.visit (scan.visit (m, n) u) u' = scan.visit (m, n) u := by
          unfold ParallelScan.visit at hne ⊢
          rw [hne, h']
        rw [hskip']
      | some v' =>
        rw [visit_eq h, visit_eq h'] at *
        rw [visit_eq (hne.trans h'), visit_eq (hne'.trans h), set_comm _ _ _ ht, add_right_comm]

/-- Updates that can run in any order leave the same memory in every order. -/
theorem Commutes.foldl_eq (hc : scan.Commutes) {us us' : List U} (h : us.Perm us') (x : M × F) :
    us.foldl scan.visit x = us'.foldl scan.visit x :=
  h.foldl_eq' (fun u _ u' _ x => hc.visit x u u') x

namespace Stable

variable (hs : scan.Stable)

include hs

theorem get_visit_iff (x : M × F) (u : U) {a : A} {v : V} (hv : scan.select v = true) :
    get (scan.visit x u).1 a = some v ↔ get x.1 a = some v := by
  obtain ⟨m, n⟩ := x
  by_cases ht : scan.target u = a
  · subst ht
    cases h : get m (scan.target u) with
    | none => simp [visit, h]
    | some v' =>
      rw [get_visit_self h, Option.some.injEq, Option.some.injEq]
      cases he : scan.attempt u v' with
      | none => rw [apply_of_attempt_none he]
      | some e =>
        rw [apply_of_attempt_some he]
        constructor
        · rintro rfl
          rw [hs.written u v' e he] at hv
          cases hv
        · rintro rfl
          rw [hs.selected u v' hv] at he
          cases he
  · rw [get_visit_of_ne _ ht]

/-- A run of updates neither changes nor creates a cell that a scan selects. -/
theorem get_foldl_iff (x : M × F) (us : List U) {a : A} {v : V} (hv : scan.select v = true) :
    get (us.foldl scan.visit x).1 a = some v ↔ get x.1 a = some v := by
  induction us generalizing x with
  | nil => rfl
  | cons u us ih => rw [List.foldl_cons, ih, hs.get_visit_iff x u hv]

end Stable

/-! ### The invariant of a scan -/

/-- The memory is what the settled updates make of the memory at the start, each in its turn;
    these and the updates still outstanding are the ones of the whole scan. -/
structure Invariant (scan : ParallelScan A V U R F) (m₀ : M) (parts : List (List A))
    (events : List (Event A V U)) (pool : Pool M S A V U R F) : Prop where
  memory : (pool.memory, pool.count)
    = ((settledOf events).map Prod.fst).foldl scan.visit (m₀, 0)
  settled : scan.Explains (m₀, 0) (settledOf events)
  updates : (((settledOf events).map Prod.fst).map some
    ++ pool.workers.flatMap (scan.outstanding m₀)).Perm
      ((parts.flatMap (scan.sources m₀)).flatMap scan.emitted)
  selected : (selectionsOf events ++ pool.workers.flatMap (scan.unscanned m₀)).Perm
    (parts.flatMap (scan.sources m₀))
  cells : ∀ rest found, .loading rest found ∈ pool.workers → ∀ a ∈ rest, a ∈ parts.flatten

theorem emitted_eq {x : A × V} {us : List U} (h : scan.emit x.1 x.2 = some us) :
    scan.emitted x = us.map some := by
  rw [emitted, h]

theorem explains_append (x : M × F) (settled : List (U × V)) (u : U) (v : V) :
    scan.Explains x (settled ++ [(u, v)]) ↔ scan.Explains x settled ∧
      get ((settled.map Prod.fst).foldl scan.visit x).1 (scan.target u) = some v := by
  induction settled generalizing x with
  | nil => simp [Explains]
  | cons p settled ih => simp only [List.cons_append, Explains, ih, List.map_cons, List.foldl_cons,
      and_assoc]

theorem Explains.isSome {x : M × F} {settled : List (U × V)} (h : scan.Explains x settled) :
    ∀ u ∈ settled.map Prod.fst, (get x.1 (scan.target u)).isSome := by
  induction settled generalizing x with
  | nil => simp
  | cons p settled ih =>
    obtain ⟨hv, hrest⟩ := h
    intro u hu
    rcases List.mem_cons.mp hu with rfl | hu
    · rw [hv]
      rfl
    · rw [← isSome_visit x p.1]
      exact ih hrest u hu

theorem settledOf_append (events events' : List (Event A V U)) :
    settledOf (events ++ events') = settledOf events ++ settledOf events' :=
  List.filterMap_append

theorem selectionsOf_append (events events' : List (Event A V U)) :
    selectionsOf (events ++ events') = selectionsOf events ++ selectionsOf events' :=
  List.filterMap_append

theorem settledOf_matching (a : A) (v : V) : settledOf (scan.matching a v) = [] := by
  unfold matching
  split <;> rfl

theorem selectionsOf_considering (u : U) (v : V) : selectionsOf (scan.considering u v) = [] := by
  unfold considering
  split <;> rfl

/-- The match of a cell, if there is one, is the one of the memory at the start. -/
theorem sources_cons {a : A} {rest : List A} {v : V}
    (hs : ∀ v, scan.select v = true → (get m a = some v ↔ get m₀ a = some v))
    (hv : get m a = some v) : scan.sources m₀ (a :: rest)
      = (if scan.select v then [(a, v)] else []) ++ scan.sources m₀ rest := by
  simp only [sources, List.filterMap_cons]
  by_cases hsel : scan.select v = true
  · rw [(hs v hsel).mp hv, if_pos hsel]
    simp [hsel]
  · -- A cell that is not selected now was not selected at the start either.
    have hnone : ((get m₀ a).bind fun v => if scan.select v then some (a, v) else none) = none := by
      cases h₀ : get m₀ a with
      | none => rfl
      | some v₀ =>
        rw [Option.bind_some, if_neg]
        intro hsel₀
        have := (hs v₀ hsel₀).mpr h₀
        rw [hv, Option.some.injEq] at this
        exact hsel (this ▸ hsel₀)
    rw [hnone, if_neg hsel]
    rfl

/-- Loading a cell does not change the updates that a worker has to run. -/
theorem outstanding_load {a : A} {rest : List A} {found : List (A × V)} {v : V}
    (hs : ∀ v, scan.select v = true → (get m a = some v ↔ get m₀ a = some v))
    (hv : get m a = some v) : scan.outstanding m₀ (.loading rest (scan.matched found a v))
      = scan.outstanding m₀ (.loading (a :: rest) found) := by
  simp only [outstanding, sources_cons hs hv, matched]
  by_cases hsel : scan.select v = true
  · rw [if_pos hsel, if_pos hsel, List.append_assoc]
  · rw [if_neg hsel, if_neg hsel, List.nil_append]

/-- What a step of a worker has to do with the updates: it settles the first one that the worker
    has left, or it leaves them and the memory alone. -/
theorem WorkerStep.outstanding_cases (hs : scan.Stable) {us : List U}
    (hm : m = (us.foldl scan.visit (m₀, 0)).1) (h : scan.WorkerStep m s w events m' s' w') :
    (settledOf events = [] ∧ m' = m ∧ w'.count = w.count ∧
      scan.outstanding m₀ w' = scan.outstanding m₀ w) ∨
    ∃ u v, settledOf events = [(u, v)] ∧ get m (scan.target u) = some v ∧
      scan.outstanding m₀ w = some u :: scan.outstanding m₀ w' ∧
      ∀ n, scan.visit (m, n + w.count) u = (m', n + w'.count) := by
  -- An update that finds nothing to exchange is settled as soon as its target is loaded.
  have hconsidered : ∀ {found u pending v} {count : F}, get m (scan.target u) = some v →
      scan.attempt u v = none → ∃ u' v', settledOf (scan.considering u v) = [(u', v')] ∧
        get m (scan.target u') = some v' ∧
        some u :: (pending.map some ++ found.flatMap scan.emitted)
          = some u' :: scan.outstanding m₀ (.running found pending .idle count) ∧
        ∀ n, scan.visit (m, n + count) u'
          = (m, n + (Worker.running found pending .idle count : Worker A V U R F).count) := by
    intro found u pending v count hv he
    refine ⟨u, v, by rw [considering, he]; rfl, hv, rfl, fun n => ?_⟩
    rw [visit_eq hv, apply_of_attempt_none he, add_zero,
      set_eq_self (fun w hw => by rw [hv] at hw; exact (Option.some.inj hw).symm)]
    rfl
  have hunsettled : ∀ {u v} {e : Exchange V R F}, scan.attempt u v = some e →
      settledOf (scan.considering u v) = [] := by
    intro u v e he
    rw [considering, he]
    rfl
  have hstable : ∀ {a v}, scan.select v = true → (get m a = some v ↔ get m₀ a = some v) := by
    intro a v hv
    rw [hm]
    exact hs.get_foldl_iff (m₀, 0) us hv
  cases h with
  | @load a rest found v hv =>
    exact Or.inl ⟨settledOf_matching a v, rfl, rfl, outstanding_load (fun v hsel => hstable hsel) hv⟩
  | collected =>
    refine Or.inl ⟨rfl, rfl, rfl, ?_⟩
    simp [outstanding, sources]
  | @emit a v found us count h =>
    refine Or.inl ⟨rfl, rfl, rfl, ?_⟩
    simp [outstanding, emitted_eq (x := (a, v)) h]
  | @read found u pending v count hv =>
    unfold considered
    cases he : scan.attempt u v with
    | none => exact Or.inr (hconsidered hv he)
    | some e => exact Or.inl ⟨hunsettled he, rfl, rfl, rfl⟩
  | @exchange found u pending raw count e hv he =>
    refine Or.inr ⟨u, raw, rfl, hv, ?_, fun n => ?_⟩
    · cases e.note <;> rfl
    · rw [visit_eq hv, apply_of_attempt_some he, add_assoc]
      rfl
  | @retry found u pending raw v count hv =>
    unfold considered
    cases he : scan.attempt u v with
    | none => exact Or.inr (hconsidered hv he)
    | some e => exact Or.inl ⟨hunsettled he, rfl, rfl, rfl⟩
  | covered _ => exact Or.inl ⟨rfl, rfl, rfl, rfl⟩
  | behind _ => exact Or.inl ⟨rfl, rfl, rfl, rfl⟩
  | leave => exact Or.inl ⟨rfl, rfl, rfl, rfl⟩

/-- A worker selects the matches of its part, one after the other. -/
theorem WorkerStep.unscanned_eq (hs : ∀ a v, scan.select v = true →
    (get m a = some v ↔ get m₀ a = some v)) (h : scan.WorkerStep m s w events m' s' w') :
    scan.unscanned m₀ w = selectionsOf events ++ scan.unscanned m₀ w' := by
  cases h with
  | @load a rest found v hv =>
    simp only [unscanned, sources_cons (hs a) hv, matching]
    by_cases hsel : scan.select v = true
    · rw [if_pos hsel, if_pos hsel]
      rfl
    · rw [if_neg hsel, if_neg hsel]
      rfl
  | collected => rfl
  | emit _ => rfl
  | @read found u pending v count hv =>
    rw [selectionsOf_considering]
    unfold considered
    split <;> rfl
  | exchange _ _ => rfl
  | @retry found u pending raw v count hv =>
    rw [selectionsOf_considering]
    unfold considered
    split <;> rfl
  | covered _ => rfl
  | behind _ => rfl
  | leave => rfl

/-- A loading worker goes on with what it had to load. -/
theorem WorkerStep.loading_cases (h : scan.WorkerStep m s w events m' s' w') {rest : List A}
    {found : List (A × V)} (hw : w' = .loading rest found) :
    ∃ a found', w = .loading (a :: rest) found' := by
  cases h with
  | @load a rest' found' v _ =>
    obtain ⟨rfl, -⟩ := Worker.loading.inj hw
    exact ⟨a, found', rfl⟩
  | read _ =>
    unfold considered at hw
    split at hw <;> cases hw
  | retry _ =>
    unfold considered at hw
    split at hw <;> cases hw
  | _ => cases hw

theorem invariant_start (m₀ : M) (s : S) (parts : List (List A)) :
    scan.Invariant m₀ parts [] (Pool.start m₀ s parts) where
  memory := by
    have : ((parts.map fun part => (Worker.loading part [] : Worker A V U R F)).map
        Worker.count).sum = 0 := by
      rw [List.sum_eq_zero]
      intro n hn
      simp only [List.map_map, List.mem_map] at hn
      obtain ⟨part, -, rfl⟩ := hn
      rfl
    simp only [Pool.start, Pool.count, this, settledOf, List.filterMap_nil, List.map_nil,
      List.foldl_nil]
  settled := trivial
  updates := by
    simp only [Pool.start, settledOf, List.filterMap_nil, List.map_nil, List.nil_append,
      List.flatMap_map, List.flatMap_assoc, outstanding]
    exact List.Perm.refl _
  selected := by
    simp only [Pool.start, selectionsOf, List.filterMap_nil, List.nil_append, List.flatMap_map,
      unscanned]
    exact List.Perm.refl _
  cells := by
    intro rest found h a ha
    obtain ⟨part, hpart, heq⟩ := List.mem_map.mp h
    obtain ⟨rfl, -⟩ := Worker.loading.inj heq
    exact List.mem_flatten.mpr ⟨part, hpart, ha⟩

/-- Every step keeps the invariant, and settles at most one update. -/
theorem Invariant.step (hs : scan.Stable) {events' : List (Event A V U)}
    {pool pool' : Pool M S A V U R F} (hi : scan.Invariant m₀ parts events pool)
    (h : scan.EventStep pool events' pool') :
    scan.Invariant m₀ parts (events ++ events') pool' := by
  obtain ⟨before, after, h⟩ := h
  rename_i m s w m' s' w'
  have hm : m = (((settledOf events).map Prod.fst).foldl scan.visit (m₀, 0)).1 :=
    congrArg Prod.fst hi.memory
  have hcount : ∀ w : Worker A V U R F, Pool.count (⟨m, s, before ++ w :: after⟩ : Pool M S A V U R F)
      = (before.map Worker.count).sum + (after.map Worker.count).sum + w.count := by
    intro w
    simp only [Pool.count, List.map_append, List.map_cons, List.sum_append, List.sum_cons]
    rw [add_comm w.count, add_assoc]
  have hselected : (selectionsOf (events ++ events')
      ++ (before ++ w' :: after).flatMap (scan.unscanned m₀)).Perm
        (parts.flatMap (scan.sources m₀)) := by
    refine List.Perm.trans ?_ hi.selected
    have hsame : ∀ a v, scan.select v = true → (get m a = some v ↔ get m₀ a = some v) := by
      intro a v hv
      rw [hm]
      exact hs.get_foldl_iff (m₀, 0) _ hv
    have hw := h.unscanned_eq hsame
    rw [selectionsOf_append]
    simp only [List.flatMap_append, List.flatMap_cons, hw, List.append_assoc]
    refine List.Perm.append_left _ ?_
    rw [← List.append_assoc, ← List.append_assoc (before.flatMap _)]
    exact List.Perm.append_right _ List.perm_append_comm
  have hcells : ∀ rest found, .loading rest found ∈ before ++ w' :: after →
      ∀ a ∈ rest, a ∈ parts.flatten := by
    intro rest found hmem a ha
    rw [List.mem_append, List.mem_cons] at hmem
    rcases hmem with hmem | heq | hmem
    · exact hi.cells rest found (List.mem_append_left _ hmem) a ha
    · obtain ⟨b, found', hw⟩ := h.loading_cases heq.symm
      exact hi.cells (b :: rest) found' (by rw [hw]; simp) a (List.mem_cons_of_mem _ ha)
    · exact hi.cells rest found (List.mem_append_right _ (List.mem_cons_of_mem _ hmem)) a ha
  rcases h.outstanding_cases hs hm with ⟨hnone, rfl, hc, ho⟩ | ⟨u, v, hone, hv, ho, hvisit⟩
  · have hsettled : settledOf (events ++ events') = settledOf events := by
      rw [settledOf_append, hnone, List.append_nil]
    refine ⟨?_, by rw [hsettled]; exact hi.settled, ?_, hselected, hcells⟩
    · rw [hsettled, ← hi.memory]
      refine congrArg (Prod.mk m') ?_
      exact (hcount w').trans (by rw [hc]; exact (hcount w).symm)
    · rw [hsettled]
      simpa only [List.flatMap_append, List.flatMap_cons, ho] using hi.updates
  · have hsettled : settledOf (events ++ events') = settledOf events ++ [(u, v)] := by
      rw [settledOf_append, hone]
    refine ⟨?_, ?_, ?_, hselected, hcells⟩
    · rw [hsettled, List.map_append, List.foldl_append, ← hi.memory]
      refine Eq.trans ?_ (congrArg (fun n => scan.visit (m, n) u) (hcount w)).symm
      rw [hvisit]
      exact congrArg (Prod.mk m') (hcount w')
    · rw [hsettled, explains_append, ← hm]
      exact ⟨hi.settled, hv⟩
    · refine List.Perm.trans ?_ hi.updates
      simp only [hsettled, List.flatMap_append, List.flatMap_cons, ho, List.map_append,
        List.map_cons, List.map_nil, List.append_assoc, List.cons_append, List.nil_append]
      refine List.Perm.append_left _ ?_
      exact List.perm_middle.symm

/-- The invariant holds along every run. -/
theorem Trace.invariant (hs : scan.Stable) {pool : Pool M S A V U R F}
    (h : scan.Trace (Pool.start m₀ s parts) events pool) :
    scan.Invariant m₀ parts events pool := by
  induction h with
  | refl => exact invariant_start m₀ s parts
  | tail _ h ih => exact ih.step hs h

theorem Trace.append {pool pool' pool'' : Pool M S A V U R F} {events' : List (Event A V U)}
    (h : scan.Trace pool events pool') (h' : scan.Trace pool' events' pool'') :
    scan.Trace pool (events ++ events') pool'' := by
  induction h' with
  | refl =>
    rw [List.append_nil]
    exact h
  | tail _ hstep ih =>
    rw [← List.append_assoc]
    exact ih.tail hstep

theorem Trace.run {pool pool' : Pool M S A V U R F} (h : scan.Trace pool events pool') :
    Relation.ReflTransGen scan.PoolStep pool pool' := by
  induction h with
  | refl => exact .refl
  | tail _ hstep ih => exact ih.tail ⟨_, hstep⟩

/-- Every run has a trace. -/
theorem exists_trace {pool pool' : Pool M S A V U R F}
    (h : Relation.ReflTransGen scan.PoolStep pool pool') : ∃ events, scan.Trace pool events pool' := by
  induction h with
  | refl => exact ⟨[], .refl⟩
  | tail _ h ih =>
    obtain ⟨events, hrun⟩ := ih
    obtain ⟨events', h⟩ := h
    exact ⟨events ++ events', hrun.tail h⟩

theorem outstanding_of_done {w : Worker A V U R F} (h : w.Done) :
    scan.outstanding m₀ w = [] := by
  match w, h with
  | .running [] [] .idle _, _ => rfl

theorem unscanned_of_done {w : Worker A V U R F} (h : w.Done) :
    scan.unscanned m₀ w = [] := by
  match w, h with
  | .running [] [] .idle _, _ => rfl

theorem exists_map_some {l : List (Option U)} (h : ∀ x ∈ l, x.isSome) :
    ∃ us : List U, l = us.map some := by
  induction l with
  | nil => exact ⟨[], rfl⟩
  | cons x l ih =>
    obtain ⟨u, rfl⟩ := Option.isSome_iff_exists.mp (h x List.mem_cons_self)
    obtain ⟨us, rfl⟩ := ih fun y hy => h y (List.mem_cons_of_mem _ hy)
    exact ⟨u :: us, rfl⟩

/-- A finished scan has settled every update of its sources once, in some order. -/
theorem Invariant.finished {pool : Pool M S A V U R F}
    (hi : scan.Invariant m₀ parts events pool) (hd : pool.Done) :
    ∃ us, (parts.flatMap (scan.sources m₀)).flatMap scan.emitted = us.map some ∧
      ((settledOf events).map Prod.fst).Perm us := by
  have hnil : pool.workers.flatMap (scan.outstanding m₀) = [] :=
    List.flatMap_eq_nil_iff.mpr fun w hw => outstanding_of_done (hd w hw)
  have hp := hi.updates
  rw [hnil, List.append_nil] at hp
  -- No source failed to emit, since a failed one would never have been run.
  obtain ⟨us, hus⟩ := exists_map_some (l := (parts.flatMap (scan.sources m₀)).flatMap scan.emitted)
    fun x hx => by
      obtain ⟨u, -, rfl⟩ := List.mem_map.mp (hp.mem_iff.mpr hx)
      rfl
  refine ⟨us, hus, ?_⟩
  rw [hus] at hp
  exact (List.map_perm_map_iff (Option.some_injective U)).mp hp

/-! ### Notes -/

/-- An exchange asks for the note that its value needs. -/
def Announces (scan : ParallelScan A V U R F) (need : A → V → Option R) : Prop :=
  ∀ u v e r, scan.attempt u v = some e → need (scan.target u) e.value = some r → e.note = some r

/-- Every cell that has changed has its note left, or about to be left by a worker. -/
def Noted (need : A → V → Option R) (m₀ : M) (pool : Pool M S A V U R F) : Prop :=
  ∀ a v r, get pool.memory a = some v → need a v = some r →
    get m₀ a = some v ∨ missing r pool.board = false ∨ ∃ w ∈ pool.workers, w.note? = some r

theorem WorkerStep.board_cases (h : scan.WorkerStep m s w events m' s' w') :
    s' = s ∨ ∃ r, s' = Notes.leave r s := by
  cases h with
  | @leave found pending r count => exact Or.inr ⟨r, rfl⟩
  | _ => exact Or.inl rfl

/-- A note that is being left is still being left after a step, or there. -/
theorem WorkerStep.note_cases (h : scan.WorkerStep m s w events m' s' w') {r : R}
    (hr : w.note? = some r) : w'.note? = some r ∨ missing r s' = false := by
  cases h with
  | load _ => cases hr
  | collected => cases hr
  | emit _ => cases hr
  | read _ => cases hr
  | exchange _ _ => cases hr
  | retry _ => cases hr
  | covered h =>
    cases hr
    exact Or.inr h
  | behind _ => exact Or.inl hr
  | leave =>
    cases hr
    exact Or.inr (missing_leave r s)

/-- A step changes the memory by an exchange, whose note the worker then leaves. -/
theorem WorkerStep.memory_cases {need : A → V → Option R} (ha : scan.Announces need)
    (h : scan.WorkerStep m s w events m' s' w') {a : A} {v : V} {r : R} (hv : get m' a = some v)
    (hr : need a v = some r) : get m a = some v ∨ w'.note? = some r := by
  cases h with
  | @exchange found u pending raw count e hraw he =>
    by_cases ht : scan.target u = a
    · subst ht
      rw [get_set_self _ hraw, Option.some.injEq] at hv
      subst hv
      rw [ha u raw e r he hr]
      exact Or.inr rfl
    · rw [get_set_of_ne _ _ ht] at hv
      exact Or.inl hv
  | _ => exact Or.inl hv

theorem Noted.step {need : A → V → Option R} (ha : scan.Announces need)
    {pool pool' : Pool M S A V U R F} (hn : Noted need m₀ pool) (h : scan.PoolStep pool pool') :
    Noted need m₀ pool' := by
  obtain ⟨events, before, after, h⟩ := h
  rename_i m s w m' s' w'
  intro a v r hv hr
  have hboard : missing r s = false → missing r s' = false := by
    intro hm
    rcases h.board_cases with rfl | ⟨r', rfl⟩
    · exact hm
    · exact missing_mono r' hm
  have hself : w'.note? = some r → ∃ x ∈ before ++ w' :: after, x.note? = some r :=
    fun hw => ⟨w', by simp, hw⟩
  rcases h.memory_cases ha hv hr with hv | hw
  · rcases hn a v r hv hr with h₀ | hm | ⟨x, hx, hxr⟩
    · exact Or.inl h₀
    · exact Or.inr (Or.inl (hboard hm))
    · rw [List.mem_append, List.mem_cons] at hx
      rcases hx with hx | rfl | hx
      · exact Or.inr (Or.inr ⟨x, by simp [hx], hxr⟩)
      · rcases h.note_cases hxr with hw | hm
        · exact Or.inr (Or.inr (hself hw))
        · exact Or.inr (Or.inl hm)
      · exact Or.inr (Or.inr ⟨x, by simp [hx], hxr⟩)
  · exact Or.inr (Or.inr (hself hw))

theorem note?_of_done {w : Worker A V U R F} (h : w.Done) : w.note? = none := by
  match w, h with
  | .running [] [] .idle _, _ => rfl

/-- After a scan, every cell that it changed has its note left. -/
theorem noted_of_done {need : A → V → Option R} (ha : scan.Announces need)
    {pool : Pool M S A V U R F}
    (h : Relation.ReflTransGen scan.PoolStep (Pool.start m₀ s parts) pool) (hd : pool.Done)
    {a : A} {v : V} {r : R} (hv : get pool.memory a = some v) (hr : need a v = some r) :
    get m₀ a = some v ∨ missing r pool.board = false := by
  have hn : Noted need m₀ pool := by
    clear hd hv
    induction h with
    | refl => exact fun a v r hv _ => Or.inl hv
    | tail _ h ih => exact ih.step ha h
  rcases hn a v r hv hr with h₀ | hm | ⟨w, hw, hwr⟩
  · exact Or.inl h₀
  · exact Or.inr hm
  · rw [note?_of_done (hd w hw)] at hwr
    cases hwr

/-- What leaving a note keeps, a scan keeps. -/
theorem board_of_run {P : S → Prop} (hP : ∀ r s, P s → P (leave r s))
    {pool pool' : Pool M S A V U R F} (h : Relation.ReflTransGen scan.PoolStep pool pool')
    (hp : P pool.board) : P pool'.board := by
  induction h with
  | refl => exact hp
  | tail _ h ih =>
    obtain ⟨events, before, after, h⟩ := h
    rcases h.board_cases with hs | ⟨r, hs⟩
    · rw [hs]; exact ih
    · rw [hs]; exact hP r _ ih

/-! ### Every scan can be finished -/

/-- The steps of one worker on its own. -/
def LocalStep (scan : ParallelScan A V U R F) (x y : M × S × Worker A V U R F) : Prop :=
  ∃ events, scan.WorkerStep x.1 x.2.1 x.2.2 events y.1 y.2.1 y.2.2

/-- Two memories have cells at the same addresses. -/
def SameCells (m₀ m : M) : Prop := ∀ a, (get m a).isSome = (get m₀ a).isSome

/-- An update that can be run. -/
def Runs (scan : ParallelScan A V U R F) (m₀ : M) (x : Option U) : Prop :=
  ∃ u, x = some u ∧ (get m₀ (scan.target u)).isSome

section Progress

open Relation

theorem SameCells.visit (h : SameCells m₀ m) (a : A) (v : V) : SameCells m₀ (set m a v) :=
  fun b => (isSome_set m a b v).trans (h b)

theorem exists_leave (m : M) (s : S) (found : List (A × V)) (pending : List U) (r : R)
    (count : F) : ∃ s', ReflTransGen scan.LocalStep
      (m, s, .running found pending (.checking r) count)
      (m, s', .running found pending .idle count) := by
  by_cases h : missing r s = true
  · refine ⟨Notes.leave r s, ?_⟩
    have hbehind : scan.LocalStep (m, s, .running found pending (.checking r) count)
        (m, s, .running found pending (.leaving r) count) := ⟨_, WorkerStep.behind h⟩
    exact ReflTransGen.head hbehind (ReflTransGen.single ⟨_, WorkerStep.leave⟩)
  · exact ⟨s, ReflTransGen.single ⟨_, WorkerStep.covered (Bool.not_eq_true _ ▸ h)⟩⟩

/-- An update that has just loaded its target can be finished. -/
theorem exists_considered (hm : SameCells m₀ m) (s : S) (found : List (A × V)) {u : U}
    (pending : List U) {v : V} (hv : get m (scan.target u) = some v) (count : F) :
    ∃ m' s' count', SameCells m₀ m' ∧ ReflTransGen scan.LocalStep
      (m, s, scan.considered found u pending v count)
      (m', s', .running found pending .idle count') := by
  unfold considered
  cases he : scan.attempt u v with
  | none => exact ⟨m, s, count, hm, ReflTransGen.refl⟩
  | some e =>
    have hx : scan.LocalStep (m, s, .running found pending (.exchanging u v) count)
        (set m (scan.target u) e.value, s,
          .running found pending (noting e.note) (count + e.count)) :=
      ⟨_, WorkerStep.exchange hv he⟩
    cases hr : e.note with
    | none =>
      rw [hr] at hx
      exact ⟨_, s, _, hm.visit _ _, ReflTransGen.single hx⟩
    | some r =>
      rw [hr] at hx
      obtain ⟨s', hs'⟩ := exists_leave (set m (scan.target u) e.value) s found
        pending r (count + e.count)
      exact ⟨_, s', _, hm.visit _ _, ReflTransGen.head hx hs'⟩

/-- The pending updates can be finished. -/
theorem exists_pending (found : List (A × V)) {pending : List U}
    (hp : ∀ u ∈ pending, (get m₀ (scan.target u)).isSome) (hm : SameCells m₀ m) (s : S)
    (count : F) : ∃ m' s' count', SameCells m₀ m' ∧ ReflTransGen scan.LocalStep
      (m, s, .running found pending .idle count) (m', s', .running found [] .idle count') := by
  induction pending generalizing m s count with
  | nil => exact ⟨m, s, count, hm, ReflTransGen.refl⟩
  | cons u pending ih =>
    obtain ⟨v, hv⟩ : ∃ v, get m (scan.target u) = some v := by
      rw [← Option.isSome_iff_exists, hm]
      exact hp u List.mem_cons_self
    obtain ⟨m₁, s₁, n₁, hm₁, h₁⟩ := exists_considered hm s found pending hv count
    obtain ⟨m₂, s₂, n₂, hm₂, h₂⟩ :=
      ih (fun u hu => hp u (List.mem_cons_of_mem _ hu)) hm₁ s₁ n₁
    have hread : scan.LocalStep (m, s, .running found (u :: pending) .idle count)
        (m, s, scan.considered found u pending v count) := ⟨_, WorkerStep.read hv⟩
    exact ⟨m₂, s₂, n₂, hm₂, ReflTransGen.head hread (h₁.trans h₂)⟩

/-- A worker that has loaded its part can be finished. -/
theorem exists_found {found : List (A × V)} {pending : List U}
    (hp : ∀ u ∈ pending, (get m₀ (scan.target u)).isSome)
    (hf : ∀ x ∈ found.flatMap scan.emitted, scan.Runs m₀ x) (hm : SameCells m₀ m) (s : S)
    (count : F) : ∃ m' s' count', SameCells m₀ m' ∧ ReflTransGen scan.LocalStep
      (m, s, .running found pending .idle count) (m', s', .running [] [] .idle count') := by
  obtain ⟨m₁, s₁, n₁, hm₁, h₁⟩ := exists_pending found hp hm s count
  induction found generalizing m s count pending m₁ s₁ n₁ with
  | nil => exact ⟨m₁, s₁, n₁, hm₁, h₁⟩
  | cons x found ih =>
    obtain ⟨a, v⟩ := x
    have hx : ∀ y ∈ scan.emitted (a, v), scan.Runs m₀ y := fun y hy =>
      hf y (List.mem_flatMap.mpr ⟨_, List.mem_cons_self, hy⟩)
    cases he : scan.emit a v with
    | none =>
      rw [emitted, he] at hx
      obtain ⟨u, hu, -⟩ := hx none List.mem_cons_self
      cases hu
    | some us =>
      rw [emitted_eq (x := (a, v)) he] at hx
      have hus : ∀ u ∈ us, (get m₀ (scan.target u)).isSome := by
        intro u hu
        obtain ⟨u', hu', h⟩ := hx (some u) (List.mem_map_of_mem hu)
        rw [Option.some.inj hu']
        exact h
      have hemit : scan.LocalStep (m₁, s₁, .running ((a, v) :: found) [] .idle n₁)
          (m₁, s₁, .running found us .idle n₁) := ⟨_, WorkerStep.emit he⟩
      have hf' : ∀ y ∈ found.flatMap scan.emitted, scan.Runs m₀ y := fun y hy =>
        hf y (by rw [List.flatMap_cons]; exact List.mem_append_right _ hy)
      obtain ⟨m₂, s₂, n₂, hm₂, h₂⟩ := exists_pending found hus hm₁ s₁ n₁
      obtain ⟨m₃, s₃, n₃, hm₃, h₃⟩ := ih hus hf' hm₁ s₁ n₁ m₂ s₂ n₂ hm₂ h₂
      exact ⟨m₃, s₃, n₃, hm₃, h₁.trans (ReflTransGen.head hemit h₃)⟩

/-- What a worker needs to be finished: its part has cells, and its updates can be run. -/
structure Ready (scan : ParallelScan A V U R F) (m₀ : M) (w : Worker A V U R F) : Prop where
  cells : ∀ rest found, w = .loading rest found → ∀ a ∈ rest, (get m₀ a).isSome
  updates : ∀ x ∈ scan.outstanding m₀ w, scan.Runs m₀ x

/-- A memory during a scan: the cells, and the selected ones, are those at the start. -/
structure During (scan : ParallelScan A V U R F) (m₀ m : M) : Prop where
  cells : SameCells m₀ m
  selected : ∀ a v, scan.select v = true → (get m a = some v ↔ get m₀ a = some v)

theorem During.step (hs : scan.Stable) (hm : scan.During m₀ m)
    (h : scan.WorkerStep m s w events m' s' w') : scan.During m₀ m' := by
  cases h with
  | @exchange found u pending raw count e hraw he =>
    refine ⟨hm.cells.visit _ _, fun a v hv => ?_⟩
    have hvisit := visit_eq hraw (0 : F)
    rw [apply_of_attempt_some he] at hvisit
    rw [← hm.selected a v hv, ← hs.get_visit_iff (m, 0) u hv, hvisit]
  | _ => exact hm

theorem During.steps (hs : scan.Stable) {x y : M × S × Worker A V U R F}
    (hm : scan.During m₀ x.1) (h : ReflTransGen scan.LocalStep x y) : scan.During m₀ y.1 := by
  induction h with
  | refl => exact hm
  | tail _ h ih =>
    obtain ⟨events, h⟩ := h
    exact ih.step hs h

/-- A worker can be finished on its own. -/
theorem Ready.exists_done (hm : scan.During m₀ m) (hw : scan.Ready m₀ w) (s : S) :
    ∃ m' s' w', w'.Done ∧ ReflTransGen scan.LocalStep (m, s, w) (m', s', w') := by
  have hrunning : ∀ {found : List (A × V)} {pending : List U} {count : F} {m : M} {s : S},
      SameCells m₀ m → (∀ x ∈ pending.map some ++ found.flatMap scan.emitted, scan.Runs m₀ x) →
      ∃ m' s' w', Worker.Done w' ∧ ReflTransGen scan.LocalStep
        (m, s, .running found pending .idle count) (m', s', w') := by
    intro found pending count m s hm hx
    obtain ⟨m', s', count', -, h⟩ := exists_found
      (fun u hu => by
        obtain ⟨u', hu', h⟩ := hx (some u) (List.mem_append_left _ (List.mem_map_of_mem hu))
        rw [Option.some.inj hu']
        exact h) (fun x h => hx x (List.mem_append_right _ h)) hm s count
    exact ⟨m', s', .running [] [] .idle count', trivial, h⟩
  cases w with
  | loading rest found =>
    induction rest generalizing found with
    | nil =>
      have hcollected : scan.LocalStep (m, s, .loading [] found) (m, s, .running found [] .idle 0) :=
        ⟨_, WorkerStep.collected⟩
      have hupdates : ∀ x ∈ ([] : List U).map some ++ found.flatMap scan.emitted,
          scan.Runs m₀ x := by
        simpa [outstanding, sources] using hw.updates
      obtain ⟨m', s', w', hd, h⟩ := hrunning (s := s) hm.cells hupdates
      exact ⟨m', s', w', hd, ReflTransGen.head hcollected h⟩
    | cons a rest ih =>
      obtain ⟨v, hv⟩ : ∃ v, get m a = some v := by
        rw [← Option.isSome_iff_exists, hm.cells]
        exact hw.cells _ _ rfl a List.mem_cons_self
      have hload : scan.LocalStep (m, s, .loading (a :: rest) found)
          (m, s, .loading rest (scan.matched found a v)) := ⟨_, WorkerStep.load hv⟩
      have hready : scan.Ready m₀ (.loading rest (scan.matched found a v)) := by
        refine ⟨?_, ?_⟩
        · rintro rest' found' h b hb
          obtain ⟨rfl, rfl⟩ := Worker.loading.inj h
          exact hw.cells _ _ rfl b (List.mem_cons_of_mem _ hb)
        · rw [outstanding_load (fun v hsel => hm.selected a v hsel) hv]
          exact hw.updates
      obtain ⟨m', s', w', hd, h⟩ := ih _ hready
      exact ⟨m', s', w', hd, ReflTransGen.head hload h⟩
  | running found pending stage count =>
    cases stage with
    | idle => exact hrunning hm.cells hw.updates
    | exchanging u raw =>
      have hx := hw.updates
      simp only [outstanding, List.mem_cons, forall_eq_or_imp] at hx
      obtain ⟨⟨u', hu', hcell⟩, hx⟩ := hx
      rw [← Option.some.inj hu', ← hm.cells] at hcell
      obtain ⟨v, hv⟩ := Option.isSome_iff_exists.mp hcell
      have hretry : scan.LocalStep (m, s, .running found pending (.exchanging u raw) count)
          (m, s, scan.considered found u pending v count) := ⟨_, WorkerStep.retry hv⟩
      obtain ⟨m₁, s₁, n₁, hm₁, h₁⟩ := exists_considered hm.cells s found pending hv count
      obtain ⟨m', s', w', hd, h⟩ := hrunning (s := s₁) hm₁ hx
      exact ⟨m', s', w', hd, ReflTransGen.head hretry (h₁.trans h)⟩
    | checking r =>
      obtain ⟨s₁, h₁⟩ := exists_leave m s found pending r count
      obtain ⟨m', s', w', hd, h⟩ := hrunning (s := s₁) hm.cells hw.updates
      exact ⟨m', s', w', hd, h₁.trans h⟩
    | leaving r =>
      have hleave : scan.LocalStep (m, s, .running found pending (.leaving r) count)
          (m, Notes.leave r s, .running found pending .idle count) := ⟨_, WorkerStep.leave⟩
      obtain ⟨m', s', w', hd, h⟩ :=
        hrunning (s := Notes.leave r s) hm.cells hw.updates
      exact ⟨m', s', w', hd, ReflTransGen.head hleave h⟩

theorem LocalStep.pool {x y : M × S × Worker A V U R F}
    (h : ReflTransGen scan.LocalStep x y) (before after : List (Worker A V U R F)) :
    ReflTransGen scan.PoolStep ⟨x.1, x.2.1, before ++ x.2.2 :: after⟩
      ⟨y.1, y.2.1, before ++ y.2.2 :: after⟩ := by
  induction h with
  | refl => exact ReflTransGen.refl
  | tail _ h ih =>
    obtain ⟨events, h⟩ := h
    exact ReflTransGen.tail ih ⟨events, EventStep.mk before after h⟩

/-- A pool whose workers can all be finished can be finished. -/
theorem exists_done (hs : scan.Stable) (before after : List (Worker A V U R F))
    (hm : scan.During m₀ m) (hb : ∀ w ∈ before, w.Done) (ha : ∀ w ∈ after, scan.Ready m₀ w)
    (s : S) : ∃ pool : Pool M S A V U R F, pool.Done ∧
      ReflTransGen scan.PoolStep ⟨m, s, before ++ after⟩ pool := by
  induction after generalizing before m s with
  | nil => exact ⟨⟨m, s, before ++ []⟩, by rw [List.append_nil]; exact hb, ReflTransGen.refl⟩
  | cons w after ih =>
    obtain ⟨m₁, s₁, w₁, hd, h₁⟩ := (ha w List.mem_cons_self).exists_done hm s
    have hb₁ : ∀ x ∈ before ++ [w₁], x.Done := by
      intro x hx
      rcases List.mem_append.mp hx with hx | hx
      · exact hb x hx
      · rw [List.mem_singleton.mp hx]
        exact hd
    obtain ⟨pool, hpool, h⟩ := ih (before ++ [w₁]) (hm.steps hs h₁) hb₁
      (fun x hx => ha x (List.mem_cons_of_mem _ hx)) s₁
    rw [List.append_assoc] at h
    exact ⟨pool, hpool, (LocalStep.pool h₁ before after).trans h⟩

/-- Every run can be finished, if the scan loads cells of the memory and its updates can be run. -/
theorem Invariant.exists_done (hs : scan.Stable) {pool : Pool M S A V U R F}
    (hi : scan.Invariant m₀ parts events pool)
    (hcells : ∀ a ∈ parts.flatten, (get m₀ a).isSome)
    (hruns : ∀ x ∈ (parts.flatMap (scan.sources m₀)).flatMap scan.emitted, scan.Runs m₀ x) :
    ∃ pool', pool'.Done ∧ ReflTransGen scan.PoolStep pool pool' := by
  have hduring : scan.During m₀ pool.memory := by
    have hm : pool.memory = _ := congrArg Prod.fst hi.memory
    rw [hm]
    exact ⟨fun a => isSome_foldl_visit (m₀, 0) _ a, fun a v hv => hs.get_foldl_iff (m₀, 0) _ hv⟩
  refine ParallelScan.exists_done hs [] pool.workers hduring (by simp) (fun w hw => ⟨?_, ?_⟩)
    pool.board
  · rintro rest found rfl a ha
    exact hcells a (hi.cells rest found hw a ha)
  · intro x hx
    exact hruns x (hi.updates.subset
      (List.mem_append_right _ (List.mem_flatMap.mpr ⟨w, hw, hx⟩)))

end Progress

end ParallelScan
