import Mathlib

/-!
# Compaction of distinct numbers

Distinct numbers below `n` are compacted by subtracting, from each of them, the number of
smaller numbers before it: the `i`-th one then lies below `n - i`.

* `Compaction.compact`, `Compaction.uncompact` — the two directions;
* `compact_uncompact`, `uncompact_compact` — they are inverse;
* `compact_append`, `uncompact_append` — compaction of a prefix is a prefix of the compaction;
* `compact_blocks`, `uncompact_blocks` — strictly descending blocks stay so, and the numbers of
  a block stay below what the blocks before it leave.
-/

namespace Compaction

/-- Removes the hole at `x` from the numbers other than `x`. -/
def close (x y : ℕ) : ℕ := if x < y then y - 1 else y

/-- Makes a hole at `x`. -/
def reopen (x y : ℕ) : ℕ := if x ≤ y then y + 1 else y

/-- Compaction of a list whose entries are first adjusted by `f`. -/
def compactWith (f : ℕ → ℕ) : List ℕ → List ℕ
  | [] => []
  | y :: ys => f y :: compactWith (fun z => close (f y) (f z)) ys

/-- Every number makes the greater ones after it drop by one. -/
def compact (l : List ℕ) : List ℕ := compactWith id l

/-- Undoes `compact`, from the last number to the first. -/
def uncompact : List ℕ → List ℕ
  | [] => []
  | x :: xs => x :: (uncompact xs).map (reopen x)

/-! ### One hole -/

theorem close_reopen (x y : ℕ) : close x (reopen x y) = y := by
  unfold close reopen; split <;> split <;> omega

theorem reopen_close {x y : ℕ} (h : y ≠ x) : reopen x (close x y) = y := by
  unfold close reopen; split <;> split <;> omega

theorem reopen_ne (x y : ℕ) : reopen x y ≠ x := by
  unfold reopen; split <;> omega

theorem reopen_lt_reopen {x y z : ℕ} (h : y < z) : reopen x y < reopen x z := by
  unfold reopen; split <;> split <;> omega

theorem reopen_injective (x : ℕ) : Function.Injective (reopen x) := fun y z h => by
  rw [← close_reopen x y, h, close_reopen]

theorem close_lt_close {x y z : ℕ} (hy : y ≠ x) (hz : z ≠ x) (h : y < z) :
    close x y < close x z := by
  unfold close; split <;> split <;> omega

theorem close_lt {x y n : ℕ} (hx : x < n) (hy : y < n) (h : y ≠ x) : close x y < n - 1 := by
  unfold close; split <;> omega

theorem reopen_lt {x y n : ℕ} (hy : y < n - 1) : reopen x y < n := by
  unfold reopen; split <;> omega

/-! ### Compaction is a bijection -/

theorem compactWith_eq (f : ℕ → ℕ) (l : List ℕ) : compactWith f l = compact (l.map f) := by
  suffices h : ∀ g, compactWith (g ∘ f) l = compactWith g (l.map f) from h id
  induction l generalizing f with
  | nil => exact fun _ => rfl
  | cons y l ih =>
    intro g
    rw [List.map_cons, compactWith, compactWith]
    exact congrArg _ (ih f (fun z => close (g (f y)) (g z)))

@[simp] theorem compact_nil : compact [] = [] := rfl

theorem compact_cons (x : ℕ) (l : List ℕ) :
    compact (x :: l) = x :: compact (l.map (close x)) := by
  rw [compact, compactWith, compactWith_eq]; rfl

@[simp] theorem length_compact (l : List ℕ) : (compact l).length = l.length := by
  induction h : l.length generalizing l with
  | zero => rw [List.length_eq_zero_iff.mp h]; rfl
  | succ n ih =>
    obtain ⟨x, l, rfl⟩ := List.exists_cons_of_length_eq_add_one h
    rw [compact_cons, List.length_cons, ih]
    simpa using h

@[simp] theorem uncompact_nil : uncompact [] = [] := rfl

theorem uncompact_cons (x : ℕ) (l : List ℕ) :
    uncompact (x :: l) = x :: (uncompact l).map (reopen x) := rfl

@[simp] theorem length_uncompact (l : List ℕ) : (uncompact l).length = l.length := by
  induction l with
  | nil => rfl
  | cons x l ih => rw [uncompact_cons, List.length_cons, List.length_map, ih, List.length_cons]

theorem compact_uncompact (l : List ℕ) : compact (uncompact l) = l := by
  induction l with
  | nil => rfl
  | cons x l ih =>
    rw [uncompact_cons, compact_cons, List.map_map]
    have : close x ∘ reopen x = id := funext (close_reopen x)
    rw [this, List.map_id, ih]

theorem nodup_uncompact (l : List ℕ) : (uncompact l).Nodup := by
  induction l with
  | nil => exact List.nodup_nil
  | cons x l ih =>
    rw [uncompact_cons, List.nodup_cons]
    refine ⟨?_, ih.map (reopen_injective x)⟩
    rw [List.mem_map]
    rintro ⟨y, -, hy⟩
    exact reopen_ne x y hy

theorem nodup_map_close {x : ℕ} {l : List ℕ} (hx : x ∉ l) (h : l.Nodup) :
    (l.map (close x)).Nodup := by
  refine h.map_on (fun y hy z hz heq => ?_)
  have hyx : y ≠ x := fun he => hx (he ▸ hy)
  have hzx : z ≠ x := fun he => hx (he ▸ hz)
  rw [← reopen_close hyx, heq, reopen_close hzx]

theorem uncompact_compact {l : List ℕ} (h : l.Nodup) : uncompact (compact l) = l := by
  induction hn : l.length generalizing l with
  | zero => rw [List.length_eq_zero_iff.mp hn]; rfl
  | succ n ih =>
    obtain ⟨x, l, rfl⟩ := List.exists_cons_of_length_eq_add_one hn
    rw [List.nodup_cons] at h
    rw [compact_cons, uncompact_cons, ih (nodup_map_close h.1 h.2) (by simpa using hn),
      List.map_map]
    congr 1
    conv_rhs => rw [← List.map_id l]
    exact List.map_congr_left (fun y hy => reopen_close (fun he => h.1 (he ▸ hy)))

theorem compact_injOn {l l' : List ℕ} (h : l.Nodup) (h' : l'.Nodup)
    (he : compact l = compact l') : l = l' := by
  rw [← uncompact_compact h, he, uncompact_compact h']

/-! ### Bounds -/

/-- The `i`-th number lies below `n - i`. -/
def Below : ℕ → List ℕ → Prop
  | _, [] => True
  | n, x :: xs => x < n ∧ Below (n - 1) xs

theorem below_iff {n : ℕ} {l : List ℕ} : Below n l ↔ ∀ i (h : i < l.length), l[i] + i < n := by
  induction l generalizing n with
  | nil => simp [Below]
  | cons x l ih =>
    rw [Below, ih]
    constructor
    · rintro ⟨hx, hl⟩ i hi
      cases i with
      | zero => simpa using hx
      | succ i =>
        have := hl i (by simpa using hi)
        simp only [List.getElem_cons_succ]
        omega
    · intro h
      have h₀ := h 0 (Nat.succ_pos _)
      rw [List.getElem_cons_zero, Nat.add_zero] at h₀
      refine ⟨h₀, fun i hi => ?_⟩
      have := h (i + 1) (by simpa using hi)
      simp only [List.getElem_cons_succ] at this
      omega

theorem lt_of_mem_uncompact {n : ℕ} {l : List ℕ} (h : Below n l) :
    ∀ y ∈ uncompact l, y < n := by
  induction l generalizing n with
  | nil => intro y hy; exact absurd hy List.not_mem_nil
  | cons x l ih =>
    obtain ⟨hx, hl⟩ := h
    rw [uncompact_cons]
    intro y hy
    rcases List.mem_cons.mp hy with rfl | hy
    · exact hx
    · obtain ⟨z, hz, rfl⟩ := List.mem_map.mp hy
      exact reopen_lt (ih hl z hz)

theorem below_compact {n : ℕ} {l : List ℕ} (hnd : l.Nodup) (h : ∀ y ∈ l, y < n) :
    Below n (compact l) := by
  induction hlen : l.length generalizing l n with
  | zero => rw [List.length_eq_zero_iff.mp hlen]; trivial
  | succ m ih =>
    obtain ⟨x, l, rfl⟩ := List.exists_cons_of_length_eq_add_one hlen
    rw [List.nodup_cons] at hnd
    rw [compact_cons]
    refine ⟨h x List.mem_cons_self, ih (nodup_map_close hnd.1 hnd.2) ?_ (by simpa using hlen)⟩
    intro y hy
    obtain ⟨z, hz, rfl⟩ := List.mem_map.mp hy
    exact close_lt (h x List.mem_cons_self) (h z (List.mem_cons_of_mem _ hz))
      (fun he => hnd.1 (he ▸ hz))

/-! ### Prefixes -/

/-- Removes the holes of `a`, one after the other. -/
def closeAll (a : List ℕ) (y : ℕ) : ℕ := a.foldl (fun z x => close x z) y

/-- Makes the holes of `a`, from the last one to the first. -/
def reopenAll (a : List ℕ) (y : ℕ) : ℕ := a.foldr reopen y

theorem compact_append (a l : List ℕ) :
    compact (a ++ l) = compact a ++ compact (l.map (closeAll (compact a))) := by
  suffices h : ∀ f, compactWith f (a ++ l)
      = compactWith f a ++ compact (l.map (fun z => closeAll (compactWith f a) (f z))) from h id
  induction a with
  | nil => intro f; rw [List.nil_append, compactWith_eq]; rfl
  | cons x a ih =>
    intro f
    rw [List.cons_append, compactWith, ih, compactWith]
    rfl

theorem uncompact_append (a l : List ℕ) :
    uncompact (a ++ l) = uncompact a ++ (uncompact l).map (reopenAll a) := by
  induction a with
  | nil =>
    have : reopenAll [] = id := rfl
    rw [List.nil_append, uncompact_nil, List.nil_append, this, List.map_id]
  | cons x a ih =>
    rw [List.cons_append, uncompact_cons, ih, uncompact_cons, List.map_append, List.map_map,
      List.cons_append]
    rfl

theorem below_append {n : ℕ} {a l : List ℕ} :
    Below n (a ++ l) ↔ Below n a ∧ Below (n - a.length) l := by
  induction a generalizing n with
  | nil => simp [Below]
  | cons x a ih =>
    rw [List.cons_append, Below, Below, ih, List.length_cons, and_assoc]
    rw [show n - 1 - a.length = n - (a.length + 1) by omega]

theorem closeAll_lt_closeAll {a : List ℕ} (ha : a.Nodup) {y z : ℕ} (hy : y ∉ a) (hz : z ∉ a)
    (h : y < z) : closeAll (compact a) y < closeAll (compact a) z := by
  induction hn : a.length generalizing a y z with
  | zero => rw [List.length_eq_zero_iff.mp hn]; exact h
  | succ n ih =>
    obtain ⟨x, a, rfl⟩ := List.exists_cons_of_length_eq_add_one hn
    rw [List.nodup_cons] at ha
    rw [List.mem_cons, not_or] at hy hz
    rw [compact_cons]
    refine ih (nodup_map_close ha.1 ha.2) ?_ ?_ (close_lt_close hy.1 hz.1 h) (by simpa using hn)
    all_goals
      rw [List.mem_map]
      rintro ⟨w, hw, he⟩
      have hwx : w ≠ x := fun h => ha.1 (h ▸ hw)
    · rw [← reopen_close hwx, he, reopen_close hy.1] at hw
      exact hy.2 hw
    · rw [← reopen_close hwx, he, reopen_close hz.1] at hw
      exact hz.2 hw

theorem reopenAll_lt_reopenAll {a : List ℕ} {y z : ℕ} (h : y < z) :
    reopenAll a y < reopenAll a z := by
  induction a with
  | nil => exact h
  | cons x a ih => exact reopen_lt_reopen ih

/-! ### Descending blocks -/

/-- A strictly descending list. -/
def Descending (l : List ℕ) : Prop := l.Pairwise (· > ·)

theorem Descending.compact_eq {l : List ℕ} (h : Descending l) : compact l = l := by
  induction l with
  | nil => rfl
  | cons x l ih =>
    obtain ⟨hx, hl⟩ := List.pairwise_cons.mp h
    have : l.map (close x) = l := by
      conv_rhs => rw [← List.map_id l]
      refine List.map_congr_left (fun y hy => ?_)
      have := hx y hy
      exact if_neg (by omega)
    rw [compact_cons, this, ih hl]

theorem Descending.uncompact_eq {l : List ℕ} (h : Descending l) : uncompact l = l := by
  rw [← h.compact_eq, uncompact_compact (h.imp (fun h => ne_of_gt h))]
  exact h.compact_eq.symm

theorem Descending.below {l : List ℕ} (h : Descending l) {n : ℕ} (hn : ∀ x ∈ l, x < n) :
    Below n l := by
  induction l generalizing n with
  | nil => trivial
  | cons x l ih =>
    obtain ⟨hx, hl⟩ := List.pairwise_cons.mp h
    refine ⟨hn x List.mem_cons_self, ih hl (fun y hy => ?_)⟩
    have := hx y hy
    have := hn x List.mem_cons_self
    omega

/-- The numbers of each block lie below what the blocks before it leave of `n`. -/
def BlocksBelow : ℕ → List (List ℕ) → Prop
  | _, [] => True
  | n, c :: cs => (∀ x ∈ c, x < n) ∧ BlocksBelow (n - c.length) cs

theorem BlocksBelow.below {n : ℕ} {cs : List (List ℕ)} (hd : ∀ c ∈ cs, Descending c)
    (h : BlocksBelow n cs) : Below n cs.flatten := by
  induction cs generalizing n with
  | nil => trivial
  | cons c cs ih =>
    rw [List.flatten_cons, below_append]
    exact ⟨(hd c List.mem_cons_self).below h.1,
      ih (fun c hc => hd c (List.mem_cons_of_mem _ hc)) h.2⟩

/-- Uncompacting keeps the blocks descending. -/
theorem uncompact_blocks {cs : List (List ℕ)} (hd : ∀ c ∈ cs, Descending c) :
    ∃ cs' : List (List ℕ), uncompact cs.flatten = cs'.flatten ∧ cs'.map List.length = cs.map List.length ∧
      ∀ c ∈ cs', Descending c := by
  induction cs with
  | nil => exact ⟨[], rfl, rfl, by simp⟩
  | cons c cs ih =>
    obtain ⟨cs', he, hl, hd'⟩ := ih (fun c hc => hd c (List.mem_cons_of_mem _ hc))
    have hc := hd c List.mem_cons_self
    refine ⟨c :: cs'.map (List.map (reopenAll c)), ?_, ?_, ?_⟩
    · rw [List.flatten_cons, uncompact_append, hc.uncompact_eq, he, List.flatten_cons,
        List.map_flatten]
    · rw [List.map_cons, List.map_cons, ← hl, List.map_map]
      congr 1
      exact List.map_congr_left (fun c _ => List.length_map _)
    · intro d hdm
      rcases List.mem_cons.mp hdm with rfl | hdm
      · exact hc
      · obtain ⟨d', hd₁, rfl⟩ := List.mem_map.mp hdm
        exact (hd' d' hd₁).map _ (fun _ _ h => reopenAll_lt_reopenAll h)

/-- Closing the holes of a prefix keeps the blocks after it descending and distinct. -/
theorem closeAll_blocks {n : ℕ} {a : List ℕ} {cs : List (List ℕ)}
    (hd : ∀ c ∈ cs, Descending c) (hnd : (a ++ cs.flatten).Nodup)
    (hlt : ∀ x ∈ a ++ cs.flatten, x < n) :
    (∀ c ∈ cs.map (List.map (closeAll (compact a))), Descending c) ∧
      (cs.map (List.map (closeAll (compact a)))).flatten.Nodup ∧
      ∀ x ∈ (cs.map (List.map (closeAll (compact a)))).flatten, x < n - a.length := by
  obtain ⟨hand, hcsnd, hdisj⟩ := List.nodup_append.mp hnd
  have hnot : ∀ x ∈ cs.flatten, x ∉ a := fun x hx hxa => hdisj x hxa x hx rfl
  have hmono : ∀ x ∈ cs.flatten, ∀ y ∈ cs.flatten, x < y →
      closeAll (compact a) x < closeAll (compact a) y :=
    fun x hx y hy => closeAll_lt_closeAll hand (hnot x hx) (hnot y hy)
  rw [← List.map_flatten]
  refine ⟨?_, ?_, ?_⟩
  · intro d hdm
    obtain ⟨c, hc, rfl⟩ := List.mem_map.mp hdm
    have hsub : ∀ x ∈ c, x ∈ cs.flatten := fun x hx => List.mem_flatten.mpr ⟨c, hc, hx⟩
    rw [Descending, List.pairwise_map]
    exact (hd c hc).imp_of_mem (fun hx hy h => hmono _ (hsub _ hy) _ (hsub _ hx) h)
  · refine hcsnd.map_on (fun x hx y hy he => ?_)
    rcases lt_trichotomy x y with h | h | h
    · exact absurd he (hmono x hx y hy h).ne
    · exact h
    · exact absurd he (hmono y hy x hx h).ne'
  · intro x hx
    obtain ⟨y, hy, rfl⟩ := List.mem_map.mp hx
    -- The number is compacted like a single one behind the prefix.
    have hb := below_compact (n := n) (l := a ++ [y])
      (List.nodup_append.mpr ⟨hand, List.nodup_singleton y,
        fun w hw z hz => by rw [List.mem_singleton.mp hz]; exact fun h => hnot y hy (h ▸ hw)⟩)
      (fun z hz => hlt z (by
        rcases List.mem_append.mp hz with hz | hz
        · exact List.mem_append_left _ hz
        · rw [List.mem_singleton.mp hz]; exact List.mem_append_right _ hy))
    rw [compact_append, below_append, length_compact] at hb
    exact hb.2.1

/-- Compacting keeps the blocks descending, and bounds each by what is left before it. -/
theorem compact_blocks {n : ℕ} {cs : List (List ℕ)} (hd : ∀ c ∈ cs, Descending c)
    (hnd : cs.flatten.Nodup) (hlt : ∀ x ∈ cs.flatten, x < n) :
    ∃ cs' : List (List ℕ), compact cs.flatten = cs'.flatten ∧
      cs'.map List.length = cs.map List.length ∧ (∀ c ∈ cs', Descending c) ∧
      BlocksBelow n cs' := by
  induction hm : cs.length generalizing cs n with
  | zero =>
    rw [List.length_eq_zero_iff.mp hm]
    exact ⟨[], rfl, rfl, by simp, trivial⟩
  | succ m ih =>
    obtain ⟨c, cs, rfl⟩ := List.exists_cons_of_length_eq_add_one hm
    have hc := hd c List.mem_cons_self
    rw [List.flatten_cons] at hnd hlt
    obtain ⟨hd₁, hnd₁, hlt₁⟩ :=
      closeAll_blocks (fun c hc => hd c (List.mem_cons_of_mem _ hc)) hnd hlt
    rw [hc.compact_eq] at hd₁ hnd₁ hlt₁
    obtain ⟨cs', he, hl, hd', hb⟩ := ih hd₁ hnd₁ hlt₁ (by simpa using hm)
    refine ⟨c :: cs', ?_, ?_, ?_, ?_, hb⟩
    · rw [List.flatten_cons, compact_append, hc.compact_eq, List.map_flatten, he,
        List.flatten_cons]
    · rw [List.map_cons, hl, List.map_cons, List.map_map]
      congr 1
      exact List.map_congr_left (fun c _ => List.length_map _)
    · intro d hdm
      rcases List.mem_cons.mp hdm with rfl | hdm
      · exact hc
      · exact hd' d hdm
    · exact fun x hx => hlt x (List.mem_append_left _ hx)

/-! ### Blocks behind a prefix -/

/-- Compaction behind a prefix of distinct numbers. -/
theorem compact_prefix_blocks {n : ℕ} {a : List ℕ} {cs : List (List ℕ)}
    (hd : ∀ c ∈ cs, Descending c) (hnd : (a ++ cs.flatten).Nodup)
    (hlt : ∀ x ∈ a ++ cs.flatten, x < n) :
    ∃ cs' : List (List ℕ), compact (a ++ cs.flatten) = compact a ++ cs'.flatten ∧
      cs'.map List.length = cs.map List.length ∧ (∀ c ∈ cs', Descending c) ∧
      BlocksBelow (n - a.length) cs' := by
  obtain ⟨hd₁, hnd₁, hlt₁⟩ := closeAll_blocks hd hnd hlt
  obtain ⟨cs', he, hl, hd', hb⟩ := compact_blocks hd₁ hnd₁ hlt₁
  refine ⟨cs', ?_, ?_, hd', hb⟩
  · rw [compact_append, List.map_flatten, he]
  · rw [hl, List.map_map]
    exact List.map_congr_left (fun c _ => List.length_map _)

/-- Uncompaction behind the compaction of a prefix of distinct numbers. -/
theorem uncompact_prefix_blocks {n : ℕ} {a : List ℕ} {cs' : List (List ℕ)} (ha : a.Nodup)
    (han : ∀ x ∈ a, x < n) (hd : ∀ c ∈ cs', Descending c)
    (hb : BlocksBelow (n - a.length) cs') :
    ∃ cs : List (List ℕ), uncompact (compact a ++ cs'.flatten) = a ++ cs.flatten ∧
      cs.map List.length = cs'.map List.length ∧ (∀ c ∈ cs, Descending c) ∧
      (a ++ cs.flatten).Nodup ∧ ∀ x ∈ a ++ cs.flatten, x < n := by
  obtain ⟨cs, he, hl, hd'⟩ := uncompact_blocks hd
  have heq : uncompact (compact a ++ cs'.flatten)
      = a ++ (cs.map (List.map (reopenAll (compact a)))).flatten := by
    rw [uncompact_append, uncompact_compact ha, he, List.map_flatten]
  refine ⟨cs.map (List.map (reopenAll (compact a))), heq, ?_, ?_, ?_, ?_⟩
  · rw [← hl, List.map_map]
    exact List.map_congr_left (fun c _ => List.length_map _)
  · intro d hdm
    obtain ⟨c, hc, rfl⟩ := List.mem_map.mp hdm
    exact (hd' c hc).map _ (fun _ _ h => reopenAll_lt_reopenAll h)
  · rw [← heq]; exact nodup_uncompact _
  · rw [← heq]
    refine lt_of_mem_uncompact ?_
    rw [below_append, length_compact]
    exact ⟨below_compact ha han, hb.below hd⟩

end Compaction
