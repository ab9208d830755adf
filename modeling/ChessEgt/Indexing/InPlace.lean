import ChessEgt.Indexer

/-!
# Compaction in place

The loops that compact and uncompact a buffer of square numbers, entry by entry.

* `compactInPlace`, `uncompactInPlace` — the loops;
* `compactPidx_eq`, `uncompactCpidx_eq` — they are the compaction of the indexer;
* `square_compaction_bijective` — compaction is a bijection that keeps prefixes and blocks.
-/

namespace ChessEgt

open Compaction

/-- A pass compares an entry with the ones behind it, and adjusts them. -/
def adjustBehind (adjust : ℕ → ℕ → Run ℕ) (i : ℕ) (v : List ℕ) : Run (List ℕ) :=
  (List.range' (i + 1) (v.length - (i + 1))).foldlM (fun v j => do
    let x ← Run.index v i
    let y ← Run.index v j
    let y ← adjust x y
    Run.store v j y) v

/-- Every entry makes the greater ones behind it drop by one. -/
def compactInPlace (v : List ℕ) : Run (List ℕ) := do
  let last ← Run.sub v.length 1
  (List.range last).foldlM (fun v i =>
    adjustBehind (fun x y => if x < y then Run.sub y 1 else pure y) i v) v

/-- From the last entry to the first, those behind that are not smaller rise by one. -/
def uncompactInPlace (v : List ℕ) : Run (List ℕ) := do
  let last ← Run.sub v.length 1
  (List.range last).reverse.foldlM (fun v i =>
    adjustBehind (fun x y => pure (if x ≤ y then y + 1 else y)) i v) v

/-! ### The loops -/

/-- A pass maps the entries behind the one that it compares with. -/
theorem adjustBehind_eq {adjust : ℕ → ℕ → Run ℕ} {f : ℕ → ℕ → ℕ}
    (h : ∀ x y, adjust x y = .ok (f x y)) (p : List ℕ) (x : ℕ) (l : List ℕ) :
    adjustBehind adjust p.length (p ++ x :: l) = .ok (p ++ x :: l.map (f x)) := by
  -- The entries before the cursor are adjusted already.
  have hrun : ∀ (l q : List ℕ), q[p.length]? = some x →
      (List.range' q.length l.length).foldlM (fun v j => (do
        let x ← Run.index v p.length
        let y ← Run.index v j
        let y ← adjust x y
        Run.store v j y : Run (List ℕ))) (q ++ l) = .ok (q ++ l.map (f x)) := by
    intro l
    induction l with
    | nil => intro q _; rfl
    | cons y l ih =>
      intro q hq
      have hlt : p.length < q.length := (List.getElem?_eq_some_iff.mp hq).1
      have hx : Run.index (q ++ y :: l) p.length = .ok x :=
        Run.index_eq (by rw [List.getElem?_append_left hlt, hq])
      have hy : Run.index (q ++ y :: l) q.length = .ok y := Run.index_eq (by simp)
      have hnext := ih (q ++ [f x y]) (by rw [List.getElem?_append_left hlt, hq])
      rw [List.length_cons, List.range'_succ, List.foldlM_cons, hx, Run.ok_bind, hy, Run.ok_bind,
        h, Run.ok_bind, Run.store_eq (by simp), Run.ok_bind]
      rw [List.length_append, List.length_singleton] at hnext
      rw [List.set_append_right _ _ le_rfl, Nat.sub_self, List.set_cons_zero]
      simpa using hnext
  have hlen : (p ++ x :: l).length - (p.length + 1) = l.length := by
    simp only [List.length_append, List.length_cons]
    omega
  have := hrun l (p ++ [x]) (by simp)
  unfold adjustBehind
  rw [hlen]
  simpa using this

theorem compactInPlace_eq {v : List ℕ} (hv : v ≠ []) : compactInPlace v = .ok (compact v) := by
  have hadjust : ∀ x y : ℕ, (if x < y then Run.sub y 1 else pure y) = .ok (close x y) := by
    intro x y
    unfold close
    by_cases h : x < y
    · rw [if_pos h, if_pos h, Run.sub_eq (by omega)]
    · rw [if_neg h, if_neg h]
      rfl
  have hrun : ∀ (n : ℕ) (l p : List ℕ), l.length = n + 1 →
      (List.range' p.length n).foldlM (fun v i =>
        adjustBehind (fun x y => if x < y then Run.sub y 1 else pure y) i v) (p ++ l)
        = .ok (p ++ compact l) := by
    intro n
    induction n with
    | zero =>
      intro l p hl
      obtain ⟨x, rfl⟩ := List.length_eq_one_iff.mp hl
      rfl
    | succ n ih =>
      intro l p hl
      obtain ⟨x, l, rfl⟩ := List.exists_cons_of_length_eq_add_one hl
      have hnext := ih (l.map (close x)) (p ++ [x]) (by simpa using hl)
      rw [List.length_append, List.length_singleton] at hnext
      rw [List.range'_succ, List.foldlM_cons, adjustBehind_eq hadjust, Run.ok_bind, compact_cons]
      simpa using hnext
  have hpos : 0 < v.length := List.length_pos_iff.mpr hv
  have := hrun (v.length - 1) v [] (by omega)
  unfold compactInPlace
  rw [Run.sub_eq hpos, Run.ok_bind, List.range_eq_range']
  simpa using this

theorem uncompactInPlace_eq {v : List ℕ} (hv : v ≠ []) :
    uncompactInPlace v = .ok (uncompact v) := by
  have hadjust : ∀ x y : ℕ, (pure (if x ≤ y then y + 1 else y) : Run ℕ) = .ok (reopen x y) :=
    fun x y => rfl
  have hrun : ∀ (n : ℕ) (l p : List ℕ), l.length = n + 1 →
      (List.range' p.length n).reverse.foldlM (fun v i =>
        adjustBehind (fun x y => pure (if x ≤ y then y + 1 else y)) i v) (p ++ l)
        = .ok (p ++ uncompact l) := by
    intro n
    induction n with
    | zero =>
      intro l p hl
      obtain ⟨x, rfl⟩ := List.length_eq_one_iff.mp hl
      rfl
    | succ n ih =>
      intro l p hl
      obtain ⟨x, l, rfl⟩ := List.exists_cons_of_length_eq_add_one hl
      -- The entries behind the first one are uncompacted before it is compared with them.
      have hnext := ih l (p ++ [x]) (by simpa using hl)
      rw [List.length_append, List.length_singleton, List.append_assoc, List.append_assoc] at hnext
      rw [List.range'_succ, List.reverse_cons, List.foldlM_append]
      simp only [List.singleton_append] at hnext
      rw [hnext, Run.ok_bind, List.foldlM_cons, adjustBehind_eq hadjust, Run.ok_bind,
        uncompact_cons]
      rfl
  have hpos : 0 < v.length := List.length_pos_iff.mpr hv
  have := hrun (v.length - 1) v [] (by omega)
  unfold uncompactInPlace
  rw [Run.sub_eq hpos, Run.ok_bind, List.range_eq_range']
  simpa using this

theorem compactPidx_eq (v : List ℕ) : Indexer.compactPidx v = compactInPlace v := by
  rcases eq_or_ne v [] with rfl | hv
  · rfl
  · rw [compactInPlace_eq hv, Indexer.compactPidx, Run.ensure_eq (List.length_pos_iff.mpr hv)]
    rfl

theorem uncompactCpidx_eq (v : List ℕ) : Indexer.uncompactCpidx v = uncompactInPlace v := by
  rcases eq_or_ne v [] with rfl | hv
  · rfl
  · rw [uncompactInPlace_eq hv, Indexer.uncompactCpidx, Run.ensure_eq (List.length_pos_iff.mpr hv)]
    rfl

/-! ### Blocks and prefixes -/

/-- A descending block of distinct numbers stays descending. -/
theorem compact_block {v : List ℕ} (hv : v.Nodup) (start length : ℕ)
    (hb : Descending ((v.drop start).take length)) :
    Descending (((compact v).drop start).take length) := by
  by_cases hstart : start ≤ v.length
  · have hsplit : v = v.take start ++ ((v.drop start).take length ++ (v.drop start).drop length) := by
      rw [List.take_append_drop, List.take_append_drop]
    have hlen : (compact (v.take start)).length = start := by
      rw [length_compact, List.length_take]
      omega
    rw [hsplit] at hv
    obtain ⟨hp, hrest, hdisj⟩ := List.nodup_append.mp hv
    -- Closing the holes of the prefix keeps the order of the block.
    have hblock : Descending
        (((v.drop start).take length).map (closeAll (compact (v.take start)))) := by
      rw [Descending, List.pairwise_map]
      refine hb.imp_of_mem fun {x y} hx hy hxy => ?_
      have hnot : ∀ z ∈ (v.drop start).take length, z ∉ v.take start :=
        fun z hz hzp => hdisj z hzp z (List.mem_append_left _ hz) rfl
      exact closeAll_lt_closeAll hp (hnot y hy) (hnot x hx) hxy
    have hcompact : compact v = compact (v.take start) ++
        (((v.drop start).take length).map (closeAll (compact (v.take start))) ++
          compact ((((v.drop start).drop length).map (closeAll (compact (v.take start)))).map
            (closeAll (compact (((v.drop start).take length).map
              (closeAll (compact (v.take start)))))))) := by
      conv_lhs => rw [hsplit]
      rw [compact_append, List.map_append, compact_append, hblock.compact_eq]
    rw [hcompact, List.drop_left' hlen]
    -- The block is as long as the part of the list that is left allows.
    by_cases hlength : length ≤ (v.drop start).length
    · rw [List.take_left' (by rw [List.length_map, List.length_take]; omega)]
      exact hblock
    · have hnil : (v.drop start).drop length = [] := List.drop_eq_nil_of_le (by omega)
      rw [hnil, List.map_nil, List.map_nil, compact_nil, List.append_nil]
      exact hblock.sublist (List.take_sublist _ _)
  · rw [List.drop_eq_nil_of_le (by rw [length_compact]; omega), List.take_nil]
    exact List.Pairwise.nil

theorem compact_take (v : List ℕ) (m : ℕ) : compact (v.take m) = (compact v).take m := by
  conv_rhs => rw [← List.take_append_drop m v]
  rw [compact_append]
  by_cases hm : m ≤ v.length
  · rw [List.take_left' (by rw [length_compact, List.length_take]; omega)]
  · have hnil : v.drop m = [] := List.drop_eq_nil_of_le (by omega)
    have hall : v.take m = v := List.take_of_length_le (by omega)
    rw [hnil, List.map_nil, compact_nil, List.append_nil, hall,
      List.take_of_length_le (by rw [length_compact]; omega)]

/-- Compaction is a bijection from the lists of distinct squares to the lists whose entries fit
    the squares left; it keeps prefixes and descending blocks, and neither loop panics. -/
theorem square_compaction_bijective (n : ℕ) (hn : 1 ≤ n) (hn' : n ≤ 64) :
    (∀ v : List ℕ, v.length = n → v.Nodup → (∀ x ∈ v, x < 64) →
      ∃ w, compactInPlace v = .ok w ∧ w.length = n ∧ (∀ k (h : k < w.length), w[k] < 64 - k) ∧
        uncompactInPlace w = .ok v ∧
        (∀ start length, ((v.drop start).take length).Pairwise (· > ·) →
          ((w.drop start).take length).Pairwise (· > ·)) ∧
        ∀ m, 1 ≤ m → compactInPlace (v.take m) = .ok (w.take m)) ∧
    ∀ w : List ℕ, w.length = n → (∀ k (h : k < w.length), w[k] < 64 - k) →
      ∃ v, uncompactInPlace w = .ok v ∧ v.length = n ∧ v.Nodup ∧ (∀ x ∈ v, x < 64) ∧
        compactInPlace v = .ok w := by
  have hne : ∀ l : List ℕ, l.length = n → l ≠ [] := by
    intro l hl h
    rw [h, List.length_nil] at hl
    omega
  refine ⟨fun v hv hnd hlt => ?_, fun w hw hbelow => ?_⟩
  · have hlen : (compact v).length = n := by rw [length_compact, hv]
    refine ⟨compact v, compactInPlace_eq (hne v hv), hlen, fun k hk => ?_, ?_,
      fun start length hb => compact_block hnd start length hb, fun m hm => ?_⟩
    · have := below_iff.mp (below_compact hnd hlt) k hk
      omega
    · rw [uncompactInPlace_eq (hne _ hlen), uncompact_compact hnd]
    · rw [compactInPlace_eq, compact_take]
      intro h
      rcases List.take_eq_nil_iff.mp h with h | h
      · omega
      · exact hne v hv h
  · have hlen : (uncompact w).length = n := by rw [length_uncompact, hw]
    have hb : Below 64 w := below_iff.mpr fun i hi => by
      have := hbelow i hi
      omega
    refine ⟨uncompact w, uncompactInPlace_eq (hne w hw), hlen, nodup_uncompact w,
      lt_of_mem_uncompact hb, ?_⟩
    rw [compactInPlace_eq (hne _ hlen), compact_uncompact]

/-- Three squares, compacted and back. -/
theorem square_compaction_bijective_three :
    (∃ w, compactInPlace [5, 63, 9] = .ok w ∧ uncompactInPlace w = .ok [5, 63, 9]) ∧
      compactInPlace [5, 63, 9] = .ok [5, 62, 8] := by
  obtain ⟨w, hw, -, -, hu, -, -⟩ := (square_compaction_bijective 3 (by decide) (by decide)).1
    [5, 63, 9] rfl (by decide) (by decide)
  exact ⟨⟨w, hw, hu⟩, by decide⟩

end ChessEgt
