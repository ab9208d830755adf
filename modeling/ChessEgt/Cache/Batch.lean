import ChessEgt.Cache.Scalar

/-!
# Probing several positions

* `Contains`, `groupPositions_cases` — each position is requested in the group of its table;
* `probeGroup_triple` — a group gets the outcomes of its positions, unless one of them has none;
* `probeDirectOutcomes_triple` — so does the batch.
-/

namespace ChessEgt

namespace SharedFileCache

open Op

/-! ### Groups -/

/-- A request is in the group of a table. -/
def Contains (groups : List (List Char × List Request)) (name : List Char) (request : Request) :
    Prop := ∃ group ∈ groups, group.1 = name ∧ request ∈ group.2

theorem contains_cons {group : List Char × List Request}
    {groups : List (List Char × List Request)} {name : List Char} {request : Request} :
    Contains (group :: groups) name request ↔
      (group.1 = name ∧ request ∈ group.2) ∨ Contains groups name request := by
  unfold Contains
  simp only [List.mem_cons, exists_eq_or_imp]

theorem nonempty_pushRequest {n : List Char} {r : Request}
    {groups : List (List Char × List Request)} (h : ∀ group ∈ groups, group.2 ≠ []) :
    ∀ group ∈ pushRequest n r groups, group.2 ≠ [] := by
  induction groups with
  | nil =>
    intro group hgroup
    rw [pushRequest, List.mem_singleton] at hgroup
    rw [hgroup]
    exact List.cons_ne_nil _ _
  | cons first groups ih =>
    have hfirst := h first List.mem_cons_self
    have hrest := fun group hgroup => h group (List.mem_cons_of_mem _ hgroup)
    intro group hgroup
    rw [pushRequest] at hgroup
    split at hgroup
    · rcases List.mem_cons.mp hgroup with rfl | hgroup
      · exact List.cons_ne_nil _ _
      · exact h group hgroup
    · rcases List.mem_cons.mp hgroup with rfl | hgroup
      · exact List.append_ne_nil_of_right_ne_nil _ (List.cons_ne_nil _ _)
      · exact hrest group hgroup
    · rcases List.mem_cons.mp hgroup with rfl | hgroup
      · exact hfirst
      · exact ih hrest group hgroup

/-- Pushing a request adds it to the group of its table. -/
theorem contains_pushRequest {n : List Char} {r : Request}
    {groups : List (List Char × List Request)} {name : List Char} {request : Request} :
    Contains (pushRequest n r groups) name request ↔
      (name = n ∧ request = r) ∨ Contains groups name request := by
  induction groups with
  | nil =>
    rw [pushRequest, contains_cons, List.mem_singleton, eq_comm]
  | cons group groups ih =>
    obtain ⟨n', rs⟩ := group
    rw [pushRequest]
    rcases hcmp : compare n n' with _ | _ | _
    · rw [contains_cons, List.mem_singleton, eq_comm (a := n)]
    · -- The group exists already.
      obtain rfl : n = n' := Std.LawfulEqCmp.eq_of_compare hcmp
      rw [contains_cons, contains_cons, List.mem_append, List.mem_singleton, eq_comm (a := n)]
      tauto
    · rw [contains_cons, contains_cons, ih]
      tauto

section

variable [Codec] [Shakmaty] {store : Store} {v : List Char → Run EgtFileReader}

omit [Codec] in
/-- The groups of the positions so far are extended. -/
theorem foldlM_pushRequest {items : List (Chess × ℕ)} {groups : List (List Char × List Request)}
    (hgroups : ∀ group ∈ groups, group.2 ≠ []) :
    (∃ groups', items.foldlM (fun groups (position, slot) => do
        let (name, reflected) ← positionTableName position
        (pure (pushRequest name (slot, reflected) groups) : Run _)) groups = .ok groups' ∧
      (∀ group ∈ groups', group.2 ≠ []) ∧
      (∀ item ∈ items, ∃ x, positionTableName item.1 = .ok x) ∧
      ∀ name request, Contains groups' name request ↔ Contains groups name request ∨
        ∃ position, (position, request.1) ∈ items ∧
          positionTableName position = .ok (name, request.2)) ∨
    (∃ e, items.foldlM (fun groups (position, slot) => do
        let (name, reflected) ← positionTableName position
        (pure (pushRequest name (slot, reflected) groups) : Run _)) groups = .error e) ∧
      ∃ item ∈ items, ∃ e, positionTableName item.1 = .error e := by
  induction items generalizing groups with
  | nil =>
    exact Or.inl ⟨groups, rfl, hgroups, fun _ h => absurd h List.not_mem_nil,
      fun name request => by simp⟩
  | cons item items ih =>
    obtain ⟨position, slot⟩ := item
    rw [List.foldlM_cons]
    dsimp only
    rcases hname : positionTableName position with e | ⟨name, reflected⟩
    · exact Or.inr ⟨⟨e, rfl⟩, _, List.mem_cons_self, e, hname⟩
    simp only [Run.ok_bind, Run.pure_eq_ok]
    rcases ih (nonempty_pushRequest hgroups) with
      ⟨groups', hok, hne, hnames, hall⟩ | ⟨herror, item, hitem, e, he⟩
    · refine Or.inl ⟨groups', hok, hne, List.forall_mem_cons.mpr ⟨⟨_, hname⟩, hnames⟩,
        fun name' request => ?_⟩
      rw [hall, contains_pushRequest, or_comm (a := name' = name ∧ _), or_assoc]
      apply or_congr_right
      constructor
      · rintro (⟨rfl, rfl⟩ | ⟨p, hp, hname'⟩)
        · exact ⟨position, List.mem_cons_self, hname⟩
        · exact ⟨p, List.mem_cons_of_mem _ hp, hname'⟩
      · rintro ⟨p, hp, hname'⟩
        rcases List.mem_cons.mp hp with hp | hp
        · obtain ⟨rfl, hslot⟩ := Prod.mk.inj hp
          obtain ⟨hn, hr⟩ := Prod.mk.inj (Except.ok.inj (hname'.symm.trans hname))
          exact Or.inl ⟨hn, Prod.ext hslot hr⟩
        · exact Or.inr ⟨p, hp, hname'⟩
    · exact Or.inr ⟨herror, item, List.mem_cons_of_mem _ hitem, e, he⟩

omit [Codec] in
/-- **Grouping** requests each position in the group of its table, unless one has no table. -/
theorem groupPositions_cases (positions : List Chess) :
    (∃ groups, groupPositions positions = .ok groups ∧ (∀ group ∈ groups, group.2 ≠ []) ∧
      (∀ position ∈ positions, ∃ x, positionTableName position = .ok x) ∧ ∀ name request, Contains groups name request ↔
        ∃ position, positions[request.1]? = some position ∧
          positionTableName position = .ok (name, request.2)) ∨
    (∃ e, groupPositions positions = .error e) ∧
      ∃ position ∈ positions, ∃ e, positionTableName position = .error e := by
  rcases @foldlM_pushRequest _ positions.zipIdx [] (fun _ h => absurd h List.not_mem_nil) with
    ⟨groups, hok, hne, hnames, hall⟩ | ⟨herror, item, hitem, e, he⟩
  · refine Or.inl ⟨groups, hok, hne, fun position hp => ?_, fun name request => ?_⟩
    · obtain ⟨k, hk⟩ := List.mem_iff_getElem?.mp hp
      exact hnames (position, k) (List.mem_zipIdx_iff_getElem?.mpr hk)
    rw [hall]
    simp only [List.mem_zipIdx_iff_getElem?]
    constructor
    · rintro (⟨group, hgroup, -⟩ | h)
      · cases hgroup
      · exact h
    · exact Or.inr
  · refine Or.inr ⟨herror, item.1, ?_, e, he⟩
    exact List.mem_of_getElem? (List.mem_zipIdx_iff_getElem?.mp hitem)

omit [Shakmaty] in
theorem mapM_locateFrame {r : EgtFileReader} (h : OnDisk store r) {indices : List ℕ}
    (hi : ∀ i ∈ indices, i < r.indexRange) : (indices.mapM fun index => do
      let (frame, _) ← locateFrame r.frameLayout index
      (pure frame : Run ℕ)) = .ok (indices.map (· / r.frameSize)) :=
  Run.mapM_eq_ok fun i hm => by
    obtain ⟨-, hlocate, -⟩ := h.locate (hi i hm)
    rw [hlocate]
    rfl

omit [Shakmaty] in
/-- The frames of indices in range. -/
theorem framesOf_eq {r : EgtFileReader} (h : OnDisk store r) {indices : List ℕ}
    (hi : ∀ i ∈ indices, i < r.indexRange) : ∃ frames, framesOf r indices = .ok frames ∧
      ∀ k, k ∈ frames ↔ ∃ i ∈ indices, i / r.frameSize = k := by
  refine ⟨((indices.map (· / r.frameSize)).mergeSort (· ≤ ·)).destutter (· ≠ ·), ?_, fun k => ?_⟩
  · unfold framesOf
    rw [mapM_locateFrame h hi, Run.ok_bind]
    rfl
  · rw [Chunks.mem_destutter, List.mem_mergeSort, List.mem_map]

/-! ### Reading a group -/

variable {addr : ℕ} {r : EgtFileReader}

omit [Shakmaty] in
theorem recordFrame_triple {k : ℕ} (hk : r.IsWarm k) :
    Triple (fun s => At store v s ∧ s.readers addr = some r) (recordFrame addr r k)
      fun x s => x = .ok ⟨⟩ ∧ At store v s ∧ s.readers addr = some r := by
  rintro s ⟨hs, hr⟩
  obtain ⟨vs, hvs⟩ := EgtFileReader.isWarm_iff.mp hk
  obtain ⟨bytes, hbytes⟩ := exists_frameBytes (hs.1.disk addr r hr)
    (List.getElem?_eq_some_iff.mp hvs).1
  unfold recordFrame
  rw [hbytes, exec_bind_ok (exec_lift _ s)]
  obtain ⟨x, s', hexec, ⟨b, rfl⟩, hs', hr'⟩ :=
    (recordAccess_triple hk bytes).exists_exec (And.intro hs hr)
  rw [exec_bind_ok hexec, exec_pure]
  exact ⟨rfl, hs', hr'⟩

omit [Shakmaty] in
theorem recordWarmFrame_triple {k : ℕ} (hk : k < r.frames.length) :
    Triple (fun s => At store v s ∧ s.readers addr = some r) (recordWarmFrame addr r k)
      fun x s => x = .ok ⟨⟩ ∧ At store v s ∧ s.readers addr = some r := by
  rintro s ⟨hs, hr⟩
  obtain ⟨o, ho⟩ : ∃ o, r.frames[k]? = some o := ⟨_, List.getElem?_eq_getElem hk⟩
  unfold recordWarmFrame
  rw [EgtFileReader.resident_eq ho, exec_bind_ok (exec_lift _ s)]
  cases o with
  | none => exact ⟨rfl, hs, hr⟩
  | some vs =>
    simp only [Option.isSome_some, if_true]
    exact recordFrame_triple (EgtFileReader.isWarm_iff.mpr ⟨vs, ho⟩) s ⟨hs, hr⟩

/-- The outcomes of some indices, unless the frame of one of them cannot be decoded. -/
def GroupRead (store : Store) (r : EgtFileReader) (indices : List ℕ)
    (result : Run (List MaybeDtcOutcome)) : Prop :=
  (∃ values, result = .ok values ∧ List.Forall₂ (fun i o => r.stored store i = .ok o) indices values) ∨
    (∃ e, result = .error e) ∧ ∃ i ∈ indices, ∃ e, r.stored store i = .error e

omit [Shakmaty] in
/-- Indices whose frames are all warm have their outcomes. -/
theorem groupRead_of_warm (h : OnDisk store r) {indices : List ℕ}
    (hi : ∀ i ∈ indices, i < r.indexRange) (hwarm : ∀ i ∈ indices, r.IsWarm (i / r.frameSize)) :
    ∃ values, r.readIndicesCached indices = .ok (some values) ∧
      List.Forall₂ (fun i o => r.stored store i = .ok o) indices values := by
  rw [h.readIndicesCached hi, if_pos hwarm]
  rcases Run.mapM_forall₂ (r.stored store) indices with ⟨values, hvalues, hall⟩ | ⟨-, i, hm, e, he⟩
  · rw [hvalues]
    exact ⟨values, rfl, hall⟩
  · -- A warm frame has been decoded.
    obtain ⟨vs, hvs⟩ := EgtFileReader.isWarm_iff.mp (hwarm i hm)
    obtain ⟨o, ho, -⟩ := h.exists_stored (hi i hm) (h.warm _ vs hvs)
    rw [he] at ho
    cases ho

omit [Shakmaty] in
/-- **Reading a group** of indices returns their outcomes, whichever frames are warm. -/
theorem readGroup_triple {indices frames : List ℕ} (hi : ∀ i ∈ indices, i < r.indexRange)
    (hframes : ∀ k, k ∈ frames ↔ ∃ i ∈ indices, i / r.frameSize = k) :
    Triple (fun s => At store v s ∧ s.readers addr = some r) (readGroup store addr indices frames)
      fun x s => (∃ result, x = .ok result ∧ GroupRead store r indices result) ∧ At store v s := by
  rintro s ⟨hs, hr⟩
  have hdisk := hs.1.disk addr r hr
  have hlt : ∀ k ∈ frames, k < r.frames.length := by
    intro k hk
    obtain ⟨i, hm, rfl⟩ := (hframes k).mp hk
    exact (hdisk.locate (hi i hm)).2.2
  unfold readGroup
  rw [exec_bind_ok (exec_readFile hr)]
  by_cases hwarm : ∀ i ∈ indices, r.IsWarm (i / r.frameSize)
  · -- All frames are warm.
    obtain ⟨values, hread, hall⟩ := groupRead_of_warm hdisk hi hwarm
    have hrecord : Triple (fun s => At store v s ∧ s.readers addr = some r)
        (frames.forM (recordFrame addr r)) fun x s => x = .ok ⟨⟩ ∧ At store v s := by
      refine Triple.forM (fun k hk => recordFrame_triple ?_) fun s hs => ⟨rfl, hs.1⟩
      obtain ⟨i, hm, rfl⟩ := (hframes k).mp hk
      exact hwarm i hm
    obtain ⟨x, s', hexec, rfl, hs'⟩ := hrecord.exists_exec (And.intro hs hr)
    rw [hread, exec_bind_ok (exec_lift _ s)]
    dsimp only
    rw [exec_bind_ok hexec, exec_pure]
    exact ⟨⟨_, rfl, Or.inl ⟨values, rfl, hall⟩⟩, hs'⟩
  · -- Some frame is cold: all cold frames are loaded, and those that are warm then are recorded.
    obtain ⟨hdisk', hcold, hmono, hres⟩ := hdisk.ensureUncompressedFrames hlt
    rw [hdisk.readIndicesCached hi, if_neg hwarm, exec_bind_ok (exec_lift _ s)]
    dsimp only
    generalize hload : r.ensureUncompressedFrames store frames = loaded at hdisk' hcold hmono hres
    obtain ⟨r', result⟩ := loaded
    dsimp only at hdisk' hcold hmono hres ⊢
    have hs' := hs.setReader hr hdisk' hcold hmono
    have hrecord : Triple (fun s => At store v s ∧ s.readers addr = some r')
        (frames.forM (recordWarmFrame addr r')) fun x s => x = .ok ⟨⟩ ∧ At store v s := by
      refine Triple.forM (fun k hk => recordWarmFrame_triple ?_) fun s hs => ⟨rfl, hs.1⟩
      rw [EgtFileReader.numFrames_eq_of_cold hcold]
      exact hlt k hk
    obtain ⟨x, s'', hexec, rfl, hs''⟩ :=
      hrecord.exists_exec (And.intro hs' (Function.update_self _ _ _))
    rw [exec_bind_ok (exec_setReader _ _ s), exec_bind_ok hexec, exec_pure]
    refine ⟨⟨_, rfl, ?_⟩, hs''⟩
    have hstored := EgtFileReader.stored_congr store hcold
    have hsize : r'.frameSize = r.frameSize := EgtFileReader.frameSize_eq_of_cold hcold
    have hrange : r'.indexRange = r.indexRange := EgtFileReader.indexRange_eq_of_cold hcold
    rcases hres with ⟨rfl, hall⟩ | ⟨⟨e, rfl⟩, k, hk, e', he'⟩
    · have hwarm' : ∀ i ∈ indices, r'.IsWarm (i / r'.frameSize) := by
        intro i hm
        rw [hsize]
        exact hall _ ((hframes _).mpr ⟨i, hm, rfl⟩)
      obtain ⟨values, hread, hvalues⟩ :=
        groupRead_of_warm hdisk' (fun i hm => by rw [hrange]; exact hi i hm) hwarm'
      rw [hstored] at hvalues
      refine Or.inl ⟨values, ?_, hvalues⟩
      rw [hread]
      rfl
    · obtain ⟨i, hm, rfl⟩ := (hframes k).mp hk
      refine Or.inr ⟨⟨e, rfl⟩, i, hm, e', ?_⟩
      rw [hdisk.stored_eq (hi i hm), he']
      rfl

/-! ### One group -/

variable {positions : List Chess} {outcomes : List DtcOutcome}

/-- The slots with `D` have the outcomes of their positions. -/
def Answers (store : Store) (v : List Char → Run EgtFileReader) (positions : List Chess)
    (outcomes : List DtcOutcome) (D : ℕ → Prop) : Prop :=
  outcomes.length = positions.length ∧ ∀ k position, D k → positions[k]? = some position →
    ∃ o, directSpec store v position = .ok o ∧ outcomes[k]? = some o

/-- One slot more. -/
theorem Answers.set {D : ℕ → Prop} (h : Answers store v positions outcomes D) {k : ℕ}
    {position : Chess} (hk : positions[k]? = some position) {o : DtcOutcome}
    (ho : directSpec store v position = .ok o) :
    Answers store v positions (outcomes.set k o) fun j => D j ∨ k = j := by
  obtain ⟨hlen, hall⟩ := h
  refine ⟨by rw [List.length_set, hlen], fun j p hj hp => ?_⟩
  by_cases hkj : k = j
  · subst hkj
    rw [hk] at hp
    rw [← Option.some.inj hp, List.getElem?_set_self
      (by rw [hlen]; exact (List.getElem?_eq_some_iff.mp hk).1)]
    exact ⟨o, ho, rfl⟩
  · rw [List.getElem?_set_ne hkj]
    exact hall j p (hj.resolve_right hkj) hp

/-- **Storing** the outcomes of a group fills its slots, unless an outcome is corrupted. -/
theorem storeItems_cases {items : List ((Request × ℕ) × MaybeDtcOutcome)}
    (hitems : ∀ x ∈ items, ∃ position, positions[x.1.1.1]? = some position ∧
      directSpec store v position = x.2.toOutcomeAt x.1.2) (outcomes : List DtcOutcome) :
    (∃ outcomes', items.foldlM (fun outcomes ((request, index), value) => do
        let outcome ← value.toOutcomeAt index
        (pure (outcomes.set request.1 outcome) : Run _)) outcomes = .ok outcomes' ∧
      ∀ D, Answers store v positions outcomes D →
        Answers store v positions outcomes' fun k => D k ∨ ∃ x ∈ items, x.1.1.1 = k) ∨
    (∃ e, items.foldlM (fun outcomes ((request, index), value) => do
        let outcome ← value.toOutcomeAt index
        (pure (outcomes.set request.1 outcome) : Run _)) outcomes = .error e) ∧
      ∃ position ∈ positions, ∃ e, directSpec store v position = .error e := by
  induction items generalizing outcomes with
  | nil =>
    refine Or.inl ⟨outcomes, rfl, fun D h => ⟨h.1, fun k p hk hp => h.2 k p ?_ hp⟩⟩
    rcases hk with hk | ⟨x, hx, -⟩
    · exact hk
    · exact absurd hx List.not_mem_nil
  | cons x items ih =>
    obtain ⟨⟨request, index⟩, value⟩ := x
    obtain ⟨position, hposition, hspec⟩ := hitems _ List.mem_cons_self
    dsimp only at hposition hspec
    rw [List.foldlM_cons]
    dsimp only
    rcases ho : value.toOutcomeAt index with e | o
    · exact Or.inr ⟨⟨e, rfl⟩, position, List.mem_of_getElem? hposition, e, hspec.trans ho⟩
    rw [Run.ok_bind, Run.pure_eq_ok, Run.ok_bind]
    rcases ih (fun x hx => hitems x (List.mem_cons_of_mem _ hx)) (outcomes.set request.1 o) with
      ⟨outcomes', hok, hall⟩ | herror
    · refine Or.inl ⟨outcomes', hok, fun D h => ?_⟩
      obtain ⟨hlen, hanswers⟩ := hall _ (h.set hposition (hspec.trans ho))
      refine ⟨hlen, fun k p hk hp => hanswers k p ?_ hp⟩
      rcases hk with hk | ⟨x, hx, rfl⟩
      · exact Or.inl (Or.inl hk)
      rcases List.mem_cons.mp hx with rfl | hx
      · exact Or.inl (Or.inr rfl)
      · exact Or.inr ⟨x, hx, rfl⟩
    · exact Or.inr herror

/-- The outcome of a request is that of its table. -/
theorem directSpec_of_request (store : Store) (v : List Char → Run EgtFileReader)
    {name : List Char} {request : Request}
    (h : ∃ position, positions[request.1]? = some position ∧
      positionTableName position = .ok (name, request.2)) :
    ∃ position, positions[request.1]? = some position ∧ directSpec store v position = (do
      let (index, outcome) ← routedSpec store v position name request.2
      outcome.toOutcomeAt index) := by
  obtain ⟨position, hposition, hname⟩ := h
  refine ⟨position, hposition, ?_⟩
  unfold directSpec
  rw [hname]
  rfl

/-- **One group** of a batch gets the outcomes of its positions, unless one of them has none. -/
theorem probeGroup_triple {group : List Char × List Request} (hne : group.2 ≠ [])
    (hgroup : ∀ request ∈ group.2, ∃ position, positions[request.1]? = some position ∧
      positionTableName position = .ok (group.1, request.2)) (outcomes : List DtcOutcome) :
    Triple (At store v) (probeGroup store positions outcomes group)
      (Post (fun outcomes' s => At store v s ∧ ∀ D, Answers store v positions outcomes D →
        Answers store v positions outcomes' fun k => D k ∨ ∃ request ∈ group.2, request.1 = k)
      fun _ s => At store v s ∧ ∃ position ∈ positions, ∃ e, directSpec store v position = .error e) := by
  -- The outcome of a request.
  have hspec := fun request hrequest =>
    directSpec_of_request store v (hgroup request hrequest)
  refine Triple.bind (file_triple store v group.1) (fun addr => ?_) fun e s he => ?_
  · rintro s ⟨r₀, hv, hs, r, hr, rfl⟩
    have hdisk := hs.1.disk addr r hr
    rw [exec_bind_ok (exec_readFile hr)]
    have hrouted : ∀ position reflected, routedSpec store v position group.1 reflected = (do
        let index ← r.mapRoutedPositionToIndex position reflected
        let outcome ← r.stored store index
        pure (index, outcome)) := by
      intro position reflected
      unfold routedSpec
      rw [hv, Run.ok_bind, EgtFileReader.cold_mapRoutedPositionToIndex, EgtFileReader.cold_stored]
    rcases Run.mapM_forall₂ (requestIndex r positions) group.2 with
      ⟨indices, hindices, hall⟩ | ⟨⟨e, he⟩, request, hrequest, e', he'⟩
    · rw [hindices, exec_bind_ok (exec_lift _ s)]
      -- An index, and the outcome stored there, belong to the position of their request.
      have hindex : ∀ request i, (request, i) ∈ group.2.zip indices →
          i < r.indexRange ∧ ∃ position, positions[request.1]? = some position ∧
            directSpec store v position = (do
              let outcome ← r.stored store i
              outcome.toOutcomeAt i) := by
        intro request i hzip
        have hi := List.forall₂_zip hall hzip
        obtain ⟨position, hposition, hdirect⟩ := hspec request (List.of_mem_zip hzip).1
        unfold requestIndex at hi
        rw [Run.index_eq hposition, Run.ok_bind] at hi
        refine ⟨mapRoutedPositionToIndex_lt hi, position, hposition, ?_⟩
        rw [hdirect, hrouted, hi, Run.ok_bind]
        cases r.stored store i <;> rfl
      have hlen := hall.length_eq
      have hrequest : ∀ i ∈ indices, ∃ request, (request, i) ∈ group.2.zip indices := by
        intro i hi
        have hsnd : (group.2.zip indices).map Prod.snd = indices := List.map_snd_zip hlen.ge
        rw [← hsnd] at hi
        obtain ⟨x, hx, rfl⟩ := List.mem_map.mp hi
        exact ⟨x.1, hx⟩
      have hlt : ∀ i ∈ indices, i < r.indexRange := fun i hi => by
        obtain ⟨request, hzip⟩ := hrequest i hi
        exact (hindex request i hzip).1
      obtain ⟨frames, hframes, hmem⟩ := framesOf_eq hdisk hlt
      obtain ⟨x, s', hexec, ⟨result, rfl, hresult⟩, hs'⟩ :=
        Triple.exists_exec (readGroup_triple hlt hmem)
          (show At store v s ∧ s.readers addr = some r from ⟨hs, hr⟩)
      obtain ⟨x, s'', hexec', rfl, hs'', -⟩ := enforceLimit_triple.exists_exec hs'
      rw [hframes, exec_bind_ok (exec_lift _ s), exec_bind_ok hexec, exec_bind_ok hexec']
      rcases hresult with ⟨values, rfl, hvalues⟩ | ⟨⟨e, rfl⟩, i, hi, e', he'⟩
      · rw [exec_bind_ok (exec_lift _ s''), exec_lift]
        have hitems : ∀ x ∈ (group.2.zip indices).zip values,
            ∃ position, positions[x.1.1.1]? = some position ∧
              directSpec store v position = x.2.toOutcomeAt x.1.2 := by
          intro x hx
          obtain ⟨⟨request, i⟩, value⟩ := x
          obtain ⟨-, position, hposition, hdirect⟩ := hindex request i (List.of_mem_zip hx).1
          have hvalue : r.stored store i = .ok value := by
            obtain ⟨j, hj⟩ := List.mem_iff_getElem?.mp hx
            rw [List.getElem?_zip_eq_some, List.getElem?_zip_eq_some] at hj
            exact Chunks.forall₂_getElem? hvalues hj.1.2 hj.2
          refine ⟨position, hposition, ?_⟩
          rw [hdirect, hvalue]
          rfl
        rcases storeItems_cases hitems outcomes with ⟨outcomes', hok, hanswers⟩ | ⟨⟨e, he⟩, hfail⟩
        · unfold storeOutcomes
          rw [hok]
          refine ⟨hs'', fun D h => ?_⟩
          obtain ⟨hlen', hall'⟩ := hanswers D h
          refine ⟨hlen', fun k p hk hp => hall' k p (hk.imp_right ?_) hp⟩
          rintro ⟨request, hrequest, rfl⟩
          obtain ⟨j, hj⟩ := List.mem_iff_getElem?.mp hrequest
          have hjlt := (List.getElem?_eq_some_iff.mp hj).1
          have hvlen := hvalues.length_eq
          refine ⟨((request, indices[j]), values[j]), ?_, rfl⟩
          apply List.mem_of_getElem? (i := j)
          rw [List.getElem?_zip_eq_some, List.getElem?_zip_eq_some]
          exact ⟨⟨hj, List.getElem?_eq_getElem _⟩, List.getElem?_eq_getElem _⟩
        · unfold storeOutcomes
          rw [he]
          exact ⟨hs'', hfail⟩
      · -- A frame cannot be decoded.
        obtain ⟨request, hzip⟩ := hrequest i hi
        obtain ⟨-, position, hposition, hdirect⟩ := hindex request i hzip
        rw [exec_bind_error (exec_lift _ s'')]
        refine ⟨hs'', position, List.mem_of_getElem? hposition, e', ?_⟩
        rw [hdirect, he']
        rfl
    · -- A position has no index.
      rw [he, exec_bind_error (exec_lift _ s)]
      obtain ⟨position, hposition, hdirect⟩ := hspec request hrequest
      refine ⟨hs, position, List.mem_of_getElem? hposition, e', ?_⟩
      unfold requestIndex at he'
      rw [Run.index_eq hposition, Run.ok_bind] at he'
      rw [hdirect, hrouted, he']
      rfl
  · -- The table cannot be opened.
    obtain ⟨hs, hv⟩ := he
    obtain ⟨request, hrequest⟩ := List.exists_mem_of_ne_nil _ hne
    obtain ⟨position, hposition, hdirect⟩ := hspec request hrequest
    refine ⟨hs, position, List.mem_of_getElem? hposition, e, ?_⟩
    rw [hdirect]
    unfold routedSpec
    rw [hv]
    rfl

/-! ### All groups -/

/-- The groups of a batch one after the other. -/
theorem probeGroups_triple {groups : List (List Char × List Request)}
    (hne : ∀ group ∈ groups, group.2 ≠ [])
    (hgroups : ∀ group ∈ groups, ∀ request ∈ group.2, ∃ position,
      positions[request.1]? = some position ∧
        positionTableName position = .ok (group.1, request.2)) (outcomes : List DtcOutcome) :
    Triple (At store v) (groups.foldlM (probeGroup store positions) outcomes)
      (Post (fun outcomes' s => At store v s ∧ ∀ D, Answers store v positions outcomes D →
        Answers store v positions outcomes' fun k => D k ∨
          ∃ group ∈ groups, ∃ request ∈ group.2, request.1 = k)
      fun _ s => At store v s ∧ ∃ position ∈ positions, ∃ e, directSpec store v position = .error e) := by
  induction groups generalizing outcomes with
  | nil =>
    refine Triple.pure fun s hs => ⟨hs, fun D h => ⟨h.1, fun k p hk hp => h.2 k p ?_ hp⟩⟩
    rcases hk with hk | ⟨group, hgroup, -⟩
    · exact hk
    · exact absurd hgroup List.not_mem_nil
  | cons group groups ih =>
    rw [List.foldlM_cons]
    refine Triple.bind (probeGroup_triple (hne group List.mem_cons_self)
      (hgroups group List.mem_cons_self) outcomes) (fun outcomes₁ => ?_) fun e s he => he
    have ih := ih (fun g hg => hne g (List.mem_cons_of_mem _ hg))
      (fun g hg => hgroups g (List.mem_cons_of_mem _ hg)) outcomes₁
    intro s hs
    obtain ⟨x, s', hexec, hx⟩ := ih.exists_exec hs.1
    rw [hexec]
    rcases x with e | outcomes₂
    · exact hx
    · refine ⟨hx.1, fun D h => ?_⟩
      obtain ⟨hlen, hall⟩ := hx.2 _ (hs.2 D h)
      refine ⟨hlen, fun k p hk hp => hall k p ?_ hp⟩
      rcases hk with hk | ⟨g, hg, hrequest⟩
      · exact Or.inl (Or.inl hk)
      rcases List.mem_cons.mp hg with rfl | hg
      · exact Or.inl (Or.inr hrequest)
      · exact Or.inr ⟨g, hg, hrequest⟩

/-- **A batch** returns the outcomes of its positions in the view, unless one of them has none. -/
theorem probeDirectOutcomes_triple (positions : List Chess) :
    Triple (At store v) (probeDirectOutcomes store positions)
      (Post (fun outcomes s => At store v s ∧
        List.Forall₂ (fun p o => directSpec store v p = .ok o) positions outcomes)
      fun _ s => At store v s ∧ ∃ position ∈ positions, ∃ e, directSpec store v position = .error e) := by
  intro s hs
  unfold probeDirectOutcomes
  rcases groupPositions_cases positions with
    ⟨groups, hgroups, hne, hnames, hall⟩ | ⟨⟨e, he⟩, position, hposition, e', he'⟩
  · rw [hgroups, exec_bind_ok (exec_lift _ s)]
    have hvalid : ∀ group ∈ groups, ∀ request ∈ group.2, ∃ position,
        positions[request.1]? = some position ∧
          positionTableName position = .ok (group.1, request.2) :=
      fun group hgroup request hrequest =>
        (hall group.1 request).mp ⟨group, hgroup, rfl, hrequest⟩
    obtain ⟨x, s', hexec, hx⟩ := Triple.exists_exec (probeGroups_triple hne hvalid
      (List.replicate positions.length .draw)) hs
    rw [hexec]
    rcases x with e | outcomes
    · exact hx
    refine ⟨hx.1, ?_⟩
    obtain ⟨hlen, hanswers⟩ := hx.2 (fun _ => False)
      ⟨List.length_replicate, fun _ _ hk => hk.elim⟩
    rw [List.forall₂_iff_get]
    refine ⟨hlen.symm, fun i h₁ h₂ => ?_⟩
    have hget : positions[i]? = some positions[i] := List.getElem?_eq_getElem h₁
    -- Every position has a table, and its group has filled its slot.
    obtain ⟨⟨name, reflected⟩, hname⟩ := hnames _ (List.getElem_mem h₁)
    obtain ⟨group, hgroup, -, hrequest⟩ :=
      (hall name (i, reflected)).mpr ⟨positions[i], hget, hname⟩
    obtain ⟨o, ho, hout⟩ := hanswers i _ (Or.inr ⟨group, hgroup, _, hrequest, rfl⟩) hget
    obtain ⟨h₃, rfl⟩ := List.getElem?_eq_some_iff.mp hout
    exact ho
  · rw [he, exec_bind_error (exec_lift _ s)]
    refine ⟨hs, position, hposition, e', ?_⟩
    unfold directSpec
    rw [he']
    rfl

end

end SharedFileCache

end ChessEgt
