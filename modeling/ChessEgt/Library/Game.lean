import ChessEgt.Library.Consistency

/-!
# Conversion games and their distance-to-conversion outcomes

A finitely branching game of two players in which some moves are *conversions* of a kind, and
a player without moves has lost (in check) or drawn.

* `ConversionGame.Won`, `ConversionGame.Lost` — the player to move can force, or cannot avoid,
  a checkmate: the least predicates closed under the rules of the game;
* `ConversionGame.ForcedWin n`, `ForcedLoss n` — the conversion (or checkmate) that decides the
  game can be forced within `n` plies;
* `ConversionGame.IsDtc` — the assignments of outcomes that satisfy the recursion over the
  moves and give decided outcomes only where they are forced;
* `ConversionGame.existsUnique_isDtc` — there is exactly one;
* `ConversionGame.dtc_eq_of_bisimulation` — it is invariant under bisimulation.
-/

open Outcome

/-- A game whose moves are quiet or conversions of a kind. -/
structure ConversionGame (P M κ : Type*) where
  moves : P → Finset M
  play : P → M → P
  kind : M → Option κ
  check : P → Prop
  mate : κ

namespace ConversionGame

variable {P M κ : Type*} (G : ConversionGame P M κ)

/-! ### Forced results -/

/-- `Decided true p`: the player to move wins; `Decided false p`: the player to move loses. -/
inductive Decided : Bool → P → Prop
  | checkmate {p : P} : G.moves p = ∅ → G.check p → Decided false p
  | some_move {p : P} {m : M} : m ∈ G.moves p → Decided false (G.play p m) → Decided true p
  | every_move {p : P} : (G.moves p).Nonempty →
      (∀ m ∈ G.moves p, Decided true (G.play p m)) → Decided false p

/-- The player to move can force a win. -/
def Won (p : P) : Prop := G.Decided true p

/-- The player to move cannot avoid a loss. -/
def Lost (p : P) : Prop := G.Decided false p

mutual

/-- Within `n` plies the player to move can force a conversion into a lost position, or a
    checkmate. -/
def ForcedWin : ℕ → P → Prop
  | 0, _ => False
  | n + 1, p => ∃ m ∈ G.moves p,
      ((G.kind m).isSome ∧ G.Lost (G.play p m)) ∨ (G.kind m = none ∧ ForcedLoss n (G.play p m))

/-- Within `n` plies the player to move is checkmated, or has to convert into a position won
    for the opponent, or is converted against. -/
def ForcedLoss : ℕ → P → Prop
  | 0, p => G.moves p = ∅ ∧ G.check p
  | n + 1, p => (G.moves p = ∅ ∧ G.check p) ∨ ((G.moves p).Nonempty ∧ ∀ m ∈ G.moves p,
      ((G.kind m).isSome ∧ G.Won (G.play p m)) ∨ (G.kind m = none ∧ ForcedWin n (G.play p m)))

end

variable {G}

theorem forced_decided (n : ℕ) :
    ∀ p, (G.ForcedWin n p → G.Won p) ∧ (G.ForcedLoss n p → G.Lost p) := by
  induction n with
  | zero => exact fun p => ⟨fun h => absurd h (by simp [ForcedWin]),
      fun h => by rw [ForcedLoss] at h; exact Decided.checkmate h.1 h.2⟩
  | succ n ih =>
    intro p
    constructor
    · intro h
      rw [ForcedWin] at h
      obtain ⟨m, hm, ⟨-, hl⟩ | ⟨-, hl⟩⟩ := h
      · exact Decided.some_move hm hl
      · exact Decided.some_move hm ((ih _).2 hl)
    · intro h
      rw [ForcedLoss] at h
      rcases h with ⟨he, hc⟩ | ⟨hne, hall⟩
      · exact Decided.checkmate he hc
      · refine Decided.every_move hne (fun m hm => ?_)
        rcases hall m hm with ⟨-, hw⟩ | ⟨-, hw⟩
        · exact hw
        · exact (ih _).1 hw

/-- No position is both won and lost. -/
theorem not_won_of_lost {b : Bool} {p : P} (h : G.Decided b p) : ¬ G.Decided (!b) p := by
  induction h with
  | checkmate he hc =>
    rintro (_ | ⟨hm, -⟩)
    rw [he] at hm; simp at hm
  | some_move hm hl ih =>
    intro h
    cases h with
    | checkmate he _ => rw [he] at hm; simp at hm
    | every_move _ hall => exact ih (hall _ hm)
  | every_move hne hall ih =>
    rintro (_ | ⟨hm, hl⟩)
    exact ih _ hm hl

/-! ### The local system of a game -/

open Classical in
/-- The result of a position, as an outcome without a meaningful distance. -/
noncomputable def verdict (G : ConversionGame P M κ) (p : P) : Outcome κ :=
  if G.Won p then win G.mate 0 else if G.Lost p then loss G.mate 0 else draw

/-- A move of the game as a move of a local system. -/
noncomputable def edge (G : ConversionGame P M κ) (p : P) (m : M) : Edge P κ :=
  match G.kind m with
  | none => Edge.quiet (G.play p m)
  | some k => Edge.conversion k (G.verdict (G.play p m))

/-- The moves of a position as a local system. -/
noncomputable def edges (G : ConversionGame P M κ) (p : P) : Set (Edge P κ) :=
  G.edge p '' (G.moves p : Set M)

open Classical in
/-- The outcome of a position without moves. -/
noncomputable def terminal (G : ConversionGame P M κ) (p : P) : Outcome κ :=
  if G.moves p = ∅ ∧ G.check p then loss G.mate 0 else draw

theorem terminal_not_isWin (p : P) : ¬ (G.terminal p).IsWin := by
  unfold terminal; split <;> simp

theorem edges_nonempty {p : P} : (G.edges p).Nonempty ↔ (G.moves p).Nonempty := by
  simp [edges]

theorem edges_eq_empty {p : P} : G.edges p = ∅ ↔ G.moves p = ∅ := by
  simp [edges]

/-- Wherever the outcomes of the successors are decided correctly, the local system gives a
    move the value of the game. -/
theorem value_edge {o : P → Outcome κ} {p : P} {m : M}
    (hw : (o (G.play p m)).IsWin ↔ G.Won (G.play p m))
    (hl : (o (G.play p m)).IsLoss ↔ G.Lost (G.play p m)) :
    (G.edge p m).value o = moveValue (G.kind m) (o (G.play p m)) := by
  unfold edge
  cases G.kind m with
  | none => rfl
  | some k =>
    simp only [Edge.value_conversion, verdict]
    cases ho : o (G.play p m) with
    | win k' n => rw [if_pos (hw.mp (by simp [ho]))]; rfl
    | draw =>
      rw [if_neg (fun h => by have := hw.mpr h; simp [ho] at this),
        if_neg (fun h => by have := hl.mpr h; simp [ho] at this)]
    | loss k' n =>
      rw [if_neg (fun h => by have := hw.mpr h; simp [ho] at this),
        if_pos (hl.mp (by simp [ho]))]; rfl

/-! ### The outcomes of a game -/

variable [LinearOrder κ]

variable (G) in
/-- The distance-to-conversion outcomes of the game: the terminal outcomes, the best move
    value elsewhere, and decided outcomes only within their number of plies. -/
structure IsDtc (o : P → Outcome κ) : Prop where
  checkmate : ∀ p, G.moves p = ∅ → G.check p → o p = loss G.mate 0
  stalemate : ∀ p, G.moves p = ∅ → ¬ G.check p → o p = draw
  best : ∀ p, (G.moves p).Nonempty →
    IsGreatest ((fun m => moveValue (G.kind m) (o (G.play p m))) '' (G.moves p : Set M)) (o p)
  win_forced : ∀ p k n, o p = win k n → G.ForcedWin n p
  loss_forced : ∀ p k n, o p = loss k n → G.ForcedLoss n p

namespace IsDtc

variable {o : P → Outcome κ}

/-- A decided position carries an outcome of its result. -/
theorem of_decided (h : G.IsDtc o) {b : Bool} {p : P} (hd : G.Decided b p) :
    if b then (o p).IsWin else (o p).IsLoss := by
  induction hd with
  | checkmate he hc => simp [h.checkmate _ he hc]
  | @some_move p m hm _ ih =>
    simp only [Bool.false_eq_true, if_false] at ih
    have hle := (h.best p ⟨m, hm⟩).2 ⟨m, hm, rfl⟩
    obtain ⟨k, n, hv⟩ := Outcome.isWin_iff.mp (moveValue_isWin (k := G.kind m).mpr ih)
    change moveValue (G.kind m) (o (G.play p m)) ≤ o p at hle
    rw [hv, win_le_iff] at hle
    obtain ⟨k', n', ho, -⟩ := hle
    simp [ho]
  | @every_move p hne hall ih =>
    simp only [if_true] at ih
    obtain ⟨m, hm, hv⟩ := (h.best p hne).1
    simp only [Bool.false_eq_true, if_false]
    rw [← hv]
    exact moveValue_isLoss.mpr (ih m hm)

theorem isWin_iff (h : G.IsDtc o) {p : P} : (o p).IsWin ↔ G.Won p := by
  constructor
  · intro hw
    obtain ⟨k, n, ho⟩ := Outcome.isWin_iff.mp hw
    exact (forced_decided n p).1 (h.win_forced p k n ho)
  · intro hw; simpa using h.of_decided hw

theorem isLoss_iff (h : G.IsDtc o) {p : P} : (o p).IsLoss ↔ G.Lost p := by
  constructor
  · intro hl
    obtain ⟨k, n, ho⟩ := Outcome.isLoss_iff.mp hl
    exact (forced_decided n p).2 (h.loss_forced p k n ho)
  · intro hl; simpa using h.of_decided hl

end IsDtc

theorem IsDtc.consistent {o : P → Outcome κ} (h : G.IsDtc o) (p : P) :
    Consistent G.edges G.terminal o p := by
  constructor
  · intro he
    rw [edges_eq_empty] at he
    unfold terminal
    by_cases hc : G.check p
    · rw [if_pos ⟨he, hc⟩, h.checkmate p he hc]
    · rw [if_neg (fun h => hc h.2), h.stalemate p he hc]
  · intro hne
    have hb := h.best p (edges_nonempty.mp hne)
    have himg : Edge.value o '' G.edges p
        = (fun m => moveValue (G.kind m) (o (G.play p m))) '' (G.moves p : Set M) := by
      rw [edges, Set.image_image]
      exact Set.image_congr (fun m _ => value_edge h.isWin_iff h.isLoss_iff)
    rwa [himg]

/-- **Uniqueness** of the distance-to-conversion outcomes. -/
theorem IsDtc.unique {o o' : P → Outcome κ} (h : G.IsDtc o) (h' : G.IsDtc o') : o' = o :=
  funext fun p => Consistent.eq_of_closed (V := Set.univ) terminal_not_isWin
    (fun j _ => h.consistent j) (fun j _ => h'.consistent j) (fun _ _ _ _ => trivial) p trivial

/-! ### Existence: the outcomes resolved within `n` plies -/

open Classical in
/-- The outcomes resolved within `n` plies, all others taken as draws. -/
noncomputable def stage (G : ConversionGame P M κ) : ℕ → P → Outcome κ
  | 0, p => G.terminal p
  | n + 1, p =>
    if h : (G.moves p).Nonempty then
      ((G.moves p).image (fun m => (G.edge p m).value (stage G n))).max' (h.image _)
    else G.terminal p

theorem stage_of_moves_empty {p : P} (he : G.moves p = ∅) (n : ℕ) :
    G.stage n p = G.terminal p := by
  cases n with
  | zero => rfl
  | succ n => rw [stage, dif_neg (by simp [he])]

theorem stage_isGreatest {p : P} (hne : (G.moves p).Nonempty) (n : ℕ) :
    IsGreatest (Edge.value (G.stage n) '' G.edges p) (G.stage (n + 1) p) := by
  classical
  rw [stage, dif_pos hne, edges, Set.image_image]
  have hmax := Finset.isGreatest_max' ((G.moves p).image
    (fun m => (G.edge p m).value (G.stage n))) (hne.image _)
  rwa [Finset.coe_image] at hmax

/-- What `n` plies resolve has a distance of at most `n`. -/
theorem stage_plies_le (n : ℕ) : ∀ p m, (G.stage n p).plies? = some m → m ≤ n := by
  induction n with
  | zero =>
    intro p m h
    simp only [stage, terminal] at h
    split at h <;> simp at h
    omega
  | succ n ih =>
    intro p m h
    by_cases hne : (G.moves p).Nonempty
    · obtain ⟨e, -, hval⟩ := (stage_isGreatest hne n).1
      rw [← hval] at h
      cases e with
      | quiet t =>
        cases ht : G.stage n t with
        | draw => simp [ht] at h
        | win k j => simp [ht] at h; have := ih t j (by simp [ht]); omega
        | loss k j => simp [ht] at h; have := ih t j (by simp [ht]); omega
      | conversion k r => cases r <;> simp at h <;> omega
    · rw [Finset.not_nonempty_iff_eq_empty] at hne
      rw [stage_of_moves_empty hne, terminal] at h
      split at h <;> simp at h
      omega

/-- One more ply keeps every decided outcome, and decides others at exactly that ply. -/
theorem stage_succ (n : ℕ) : ∀ p, G.stage (n + 1) p = G.stage n p ∨
    (G.stage n p = draw ∧ (G.stage (n + 1) p).plies? = some (n + 1)) := by
  induction n with
  | zero =>
    intro p
    by_cases hne : (G.moves p).Nonempty
    · have h0 : G.stage 0 p = draw := by
        simp [stage, terminal, hne.ne_empty]
      cases h1 : G.stage 1 p with
      | draw => exact Or.inl h0.symm
      | win k n =>
        obtain ⟨e, -, hval⟩ := (stage_isGreatest hne 0).1
        have := stage_plies_le (G := G) 1 p n (by simp [h1])
        refine Or.inr ⟨h0, ?_⟩
        rw [h1] at hval
        cases e with
        | quiet t => rw [Edge.value_quiet, moveValue_none_eq_win] at hval; simp; omega
        | conversion k' r => cases r <;> simp_all
      | loss k n =>
        obtain ⟨e, -, hval⟩ := (stage_isGreatest hne 0).1
        have := stage_plies_le (G := G) 1 p n (by simp [h1])
        refine Or.inr ⟨h0, ?_⟩
        rw [h1] at hval
        cases e with
        | quiet t => rw [Edge.value_quiet, moveValue_none_eq_loss] at hval; simp; omega
        | conversion k' r => cases r <;> simp_all
    · rw [Finset.not_nonempty_iff_eq_empty] at hne
      exact Or.inl (by rw [stage_of_moves_empty hne, stage_of_moves_empty hne])
  | succ n ih =>
    intro p
    by_cases hne : (G.moves p).Nonempty
    swap
    · rw [Finset.not_nonempty_iff_eq_empty] at hne
      exact Or.inl (by rw [stage_of_moves_empty hne, stage_of_moves_empty hne])
    have hg := stage_isGreatest hne n
    have hg' := stage_isGreatest hne (n + 1)
    -- A move keeps its value, or goes from a draw to a value at ply `n + 2`.
    have hmove : ∀ e ∈ G.edges p, e.value (G.stage (n + 1)) = e.value (G.stage n) ∨
        (e.value (G.stage n) = draw ∧ (e.value (G.stage (n + 1))).plies? = some (n + 2)) := by
      intro e _
      cases e with
      | conversion k r => exact Or.inl rfl
      | quiet t =>
        rcases ih t with h | ⟨h, h'⟩
        · exact Or.inl (by simp [h])
        · refine Or.inr ⟨by simp [h], ?_⟩
          cases ht : G.stage (n + 1) t <;> simp_all
    have hle : ∀ e ∈ G.edges p, e.value (G.stage (n + 1)) ≤ G.stage (n + 2) p :=
      fun e he => hg'.2 ⟨e, he, rfl⟩
    obtain ⟨e, he, hval⟩ := hg.1
    obtain ⟨e', he', hval'⟩ := hg'.1
    have hup : e'.value (G.stage n) ≤ G.stage (n + 1) p := hg.2 ⟨e', he', rfl⟩
    cases hs : G.stage (n + 1) p with
    | win k m =>
      -- A win within `n + 1` plies is better than anything decided at ply `n + 2`.
      refine Or.inl ?_
      have hm : m ≤ n + 1 := stage_plies_le (G := G) (n + 1) p m (by simp [hs])
      have hkeep : e.value (G.stage (n + 1)) = win k m := by
        rcases hmove e he with h | ⟨h, -⟩
        · rw [h, hval, hs]
        · rw [hval, hs] at h; cases h
      have hge := hle e he
      rw [hkeep] at hge
      rcases hmove e' he' with h | ⟨-, h⟩
      · rw [hval'] at h
        rw [hs, ← h] at hup
        exact le_antisymm hup hge
      · obtain ⟨k', m', hw, hc⟩ := win_le_iff.mp hge
        rw [hval', hw, plies?_win, Option.some.injEq] at h
        omega
    | loss k m =>
      -- No value was a draw, so nothing changed.
      refine Or.inl ?_
      have hsame : ∀ e ∈ G.edges p, e.value (G.stage (n + 1)) = e.value (G.stage n) := by
        intro e he
        rcases hmove e he with h | ⟨h, -⟩
        · exact h
        · have := hg.2 ⟨e, he, rfl⟩
          rw [h, hs] at this
          exact absurd this not_draw_le_loss
      have himg : Edge.value (G.stage (n + 1)) '' G.edges p = Edge.value (G.stage n) '' G.edges p :=
        Set.image_congr hsame
      rw [himg] at hg'
      rw [hg'.unique hg, hs]
    | draw =>
      rw [hs] at hval hup
      rcases hmove e' he' with h | ⟨h, h'⟩
      · -- The new best value is old: it is at most a draw, and some value is at least one.
        rw [hval'] at h
        rcases hmove e he with h₁ | ⟨-, h₁⟩
        · have := hle e he
          rw [h₁, hval] at this
          exact Or.inl (le_antisymm (h ▸ hup) this)
        · cases hlast : G.stage (n + 2) p with
          | draw => exact Or.inl rfl
          | win k m =>
            rw [hlast] at h; rw [← h] at hup
            exact absurd hup not_win_le_draw
          | loss k m =>
            -- Then the value decided at ply `n + 2` is a loss no worse than an old one.
            exfalso
            have h₂ := hle e he
            rw [hlast, le_loss_iff] at h₂
            obtain ⟨k', m', hv, hc⟩ := h₂
            rw [hv, plies?_loss, Option.some.injEq] at h₁
            have hm : m ≤ n + 1 := by
              cases e' with
              | conversion k₁ r => cases r <;> simp_all
              | quiet t =>
                rw [hlast] at h
                obtain ⟨j, rfl, hj⟩ := moveValue_none_eq_loss.mp h.symm
                have := stage_plies_le (G := G) n t j (by simp [hj])
                omega
            omega
      · exact Or.inr ⟨rfl, by rw [← hval']; exact h'⟩

theorem stage_stable {n n' : ℕ} (hn : n ≤ n') {p : P} (h : G.stage n p ≠ draw) :
    G.stage n' p = G.stage n p := by
  induction n', hn using Nat.le_induction with
  | base => rfl
  | succ n' _ ih =>
    rcases stage_succ (G := G) n' p with h' | ⟨h', -⟩
    · rw [h', ih]
    · rw [ih] at h'; exact absurd h' h

/-- Won and lost positions are resolved after finitely many plies. -/
theorem stage_of_decided {b : Bool} {p : P} (hd : G.Decided b p) :
    ∃ n, if b then (G.stage n p).IsWin else (G.stage n p).IsLoss := by
  induction hd with
  | checkmate he hc => exact ⟨0, by simp [stage, terminal, he, hc]⟩
  | @some_move p m hm hl ih =>
    obtain ⟨n, hn⟩ := ih
    simp only [Bool.false_eq_true, if_false] at hn
    refine ⟨n + 1, ?_⟩
    have hle : (G.edge p m).value (G.stage n) ≤ G.stage (n + 1) p :=
      (stage_isGreatest ⟨m, hm⟩ n).2 ⟨_, ⟨m, hm, rfl⟩, rfl⟩
    have hwin : ((G.edge p m).value (G.stage n)).IsWin := by
      unfold edge
      cases G.kind m with
      | none => exact moveValue_isWin.mpr hn
      | some k =>
        have hnw : ¬ G.Won (G.play p m) := not_won_of_lost hl
        refine moveValue_isWin.mpr ?_
        rw [verdict, if_neg hnw, if_pos (show G.Lost _ from hl)]; exact isLoss_loss _ _
    obtain ⟨k, j, hv⟩ := Outcome.isWin_iff.mp hwin
    rw [hv, win_le_iff] at hle
    obtain ⟨k', j', ho, -⟩ := hle
    simp [ho]
  | @every_move p hne hall ih =>
    simp only [if_true] at ih
    -- Finitely many successors are resolved by a common ply.
    choose! f hf using ih
    obtain ⟨N, hN⟩ : ∃ N, ∀ m ∈ G.moves p, f m ≤ N :=
      ⟨(G.moves p).sup f, fun m hm => Finset.le_sup hm⟩
    refine ⟨N + 1, ?_⟩
    simp only [Bool.false_eq_true, if_false]
    obtain ⟨e, ⟨m, hm, rfl⟩, hval⟩ := (stage_isGreatest hne N).1
    rw [← hval]
    unfold edge
    cases G.kind m with
    | none =>
      have hw := hf m hm
      have hst : G.stage N (G.play p m) = G.stage (f m) (G.play p m) :=
        stage_stable (hN m hm) (fun h => by rw [h] at hw; exact hw)
      exact moveValue_isLoss.mpr (by rw [hst]; exact hw)
    | some k =>
      refine moveValue_isLoss.mpr ?_
      rw [verdict, if_pos (show G.Won _ from hall m hm)]; exact isWin_win _ _

/-- A decided stage is forced within its distance. -/
theorem stage_forced (n : ℕ) : ∀ p,
    (∀ k j, G.stage n p = win k j → G.ForcedWin j p) ∧
    (∀ k j, G.stage n p = loss k j → G.ForcedLoss j p) := by
  have hterm : ∀ p, (∀ k j, G.terminal p = win k j → G.ForcedWin j p) ∧
      (∀ k j, G.terminal p = loss k j → G.ForcedLoss j p) := by
    intro p
    refine ⟨fun k j h => absurd (terminal_not_isWin p) (by rw [h]; simp), fun k j h => ?_⟩
    unfold terminal at h
    split at h
    next hc =>
      rw [loss.injEq] at h
      rw [← h.2, ForcedLoss]; exact hc
    next => cases h
  induction n with
  | zero => exact hterm
  | succ n ih =>
    intro p
    by_cases hne : (G.moves p).Nonempty
    swap
    · rw [Finset.not_nonempty_iff_eq_empty] at hne
      rw [stage_of_moves_empty hne]; exact hterm p
    have hg := stage_isGreatest hne n
    refine ⟨fun k j h => ?_, fun k j h => ?_⟩
    · obtain ⟨e, ⟨m, hm, rfl⟩, hval⟩ := hg.1
      rw [h] at hval
      unfold edge at hval
      cases hk : G.kind m with
      | none =>
        simp only [hk, Edge.value_quiet, moveValue_none_eq_win] at hval
        obtain ⟨i, rfl, hi⟩ := hval
        rw [ForcedWin]
        exact ⟨m, hm, Or.inr ⟨hk, (ih _).2 k i hi⟩⟩
      | some c =>
        simp only [hk, Edge.value_conversion, verdict] at hval
        by_cases hw : G.Won (G.play p m)
        · simp [hw] at hval
        · by_cases hl : G.Lost (G.play p m)
          · simp only [hw, hl, if_true, if_false, moveValue_some_loss, win.injEq] at hval
            rw [← hval.2, ForcedWin]
            exact ⟨m, hm, Or.inl ⟨by simp [hk], hl⟩⟩
          · simp [hw, hl] at hval
    · -- Every move loses within `j` plies, and one of them takes exactly `j`.
      have hj : ∃ i, j = i + 1 := by
        obtain ⟨e, -, hval⟩ := hg.1
        rw [h] at hval
        cases e with
        | quiet t => obtain ⟨i, hi, -⟩ := moveValue_none_eq_loss.mp hval; exact ⟨i, hi⟩
        | conversion c r => exact ⟨0, by cases r <;> simp_all⟩
      obtain ⟨i, rfl⟩ := hj
      rw [ForcedLoss]
      refine Or.inr ⟨hne, fun m hm => ?_⟩
      have hle : (G.edge p m).value (G.stage n) ≤ loss k (i + 1) := by
        rw [← h]; exact hg.2 ⟨_, ⟨m, hm, rfl⟩, rfl⟩
      obtain ⟨k', i', hv, hc⟩ := le_loss_iff.mp hle
      unfold edge at hv
      cases hk : G.kind m with
      | none =>
        simp only [hk, Edge.value_quiet, moveValue_none_eq_loss] at hv
        obtain ⟨i₁, rfl, hi₁⟩ := hv
        refine Or.inr ⟨rfl, ?_⟩
        exact forcedWin_mono (by omega) ((ih _).1 k' i₁ hi₁)
      | some c =>
        simp only [hk, Edge.value_conversion, verdict] at hv
        by_cases hw : G.Won (G.play p m)
        · exact Or.inl ⟨rfl, hw⟩
        · by_cases hl : G.Lost (G.play p m) <;> simp [hw, hl] at hv
where
  forcedWin_mono {n n' : ℕ} (h : n ≤ n') {p : P} : G.ForcedWin n p → G.ForcedWin n' p := by
    have key : ∀ n p, (G.ForcedWin n p → G.ForcedWin (n + 1) p) ∧
        (G.ForcedLoss n p → G.ForcedLoss (n + 1) p) := by
      intro n
      induction n with
      | zero =>
        intro p
        refine ⟨fun h => absurd h (by simp [ForcedWin]), fun h => ?_⟩
        rw [ForcedLoss] at h; rw [ForcedLoss]; exact Or.inl h
      | succ n ih =>
        intro p
        constructor
        · intro h
          rw [ForcedWin] at h; rw [ForcedWin]
          obtain ⟨m, hm, hc | ⟨hk, hl⟩⟩ := h
          · exact ⟨m, hm, Or.inl hc⟩
          · exact ⟨m, hm, Or.inr ⟨hk, (ih _).2 hl⟩⟩
        · intro h
          rw [ForcedLoss] at h; rw [ForcedLoss]
          refine h.imp_right (fun ⟨hne, hall⟩ => ⟨hne, fun m hm => ?_⟩)
          exact (hall m hm).imp_right (fun ⟨hk, hw⟩ => ⟨hk, (ih _).1 hw⟩)
    intro hw
    induction n', h using Nat.le_induction with
    | base => exact hw
    | succ n' _ ih => exact (key n' p).1 ih

open Classical in
/-- The outcome of a position: what some number of plies resolves, or a draw. -/
noncomputable def resolve (G : ConversionGame P M κ) (p : P) : Outcome κ :=
  if h : ∃ n, G.stage n p ≠ draw then G.stage (Nat.find h) p else draw

theorem resolve_eq_of_ne_draw {n : ℕ} {p : P} (h : G.stage n p ≠ draw) :
    G.resolve p = G.stage n p := by
  classical
  have hex : ∃ n, G.stage n p ≠ draw := ⟨n, h⟩
  rw [resolve, dif_pos hex]
  exact (stage_stable (Nat.find_min' hex h) (Nat.find_spec hex)).symm

/-- Every position reaches its outcome at some ply and keeps it. -/
theorem exists_stage_eq_resolve (p : P) : ∃ n, ∀ n' ≥ n, G.stage n' p = G.resolve p := by
  by_cases hex : ∃ n, G.stage n p ≠ draw
  · obtain ⟨n, hn⟩ := hex
    exact ⟨n, fun n' hn' => by rw [stage_stable hn' hn, resolve_eq_of_ne_draw hn]⟩
  · refine ⟨0, fun n' _ => ?_⟩
    rw [resolve, dif_neg hex]
    by_contra hne
    exact hex ⟨n', hne⟩

theorem resolve_isWin_iff {p : P} : (G.resolve p).IsWin ↔ G.Won p := by
  obtain ⟨N, hN⟩ := exists_stage_eq_resolve (G := G) p
  constructor
  · intro hw
    obtain ⟨k, j, ho⟩ := Outcome.isWin_iff.mp hw
    exact (forced_decided j p).1 ((stage_forced N p).1 k j (by rw [hN N le_rfl, ho]))
  · intro hw
    obtain ⟨n, hn⟩ := stage_of_decided hw
    simp only [if_true] at hn
    rwa [resolve_eq_of_ne_draw (n := n) (fun h => by rw [h] at hn; exact hn)]

theorem resolve_isLoss_iff {p : P} : (G.resolve p).IsLoss ↔ G.Lost p := by
  obtain ⟨N, hN⟩ := exists_stage_eq_resolve (G := G) p
  constructor
  · intro hl
    obtain ⟨k, j, ho⟩ := Outcome.isLoss_iff.mp hl
    exact (forced_decided j p).2 ((stage_forced N p).2 k j (by rw [hN N le_rfl, ho]))
  · intro hl
    obtain ⟨n, hn⟩ := stage_of_decided hl
    simp only [Bool.false_eq_true, if_false] at hn
    rwa [resolve_eq_of_ne_draw (n := n) (fun h => by rw [h] at hn; exact hn)]

theorem resolve_isDtc : G.IsDtc G.resolve where
  checkmate p he hc := by
    have h0 : G.stage 0 p = loss G.mate 0 := by simp [stage, terminal, he, hc]
    rw [resolve_eq_of_ne_draw (n := 0) (by simp [h0]), h0]
  stalemate p he hc := by
    obtain ⟨N, hN⟩ := exists_stage_eq_resolve (G := G) p
    rw [← hN N le_rfl, stage_of_moves_empty he, terminal, if_neg (fun h => hc h.2)]
  best p hne := by
    -- A ply at which the position and all its successors have reached their outcomes.
    choose f hf using fun q => exists_stage_eq_resolve (G := G) q
    let N := max (f p) ((G.moves p).sup (fun m => f (G.play p m)))
    have hN : ∀ m ∈ G.moves p, G.stage N (G.play p m) = G.resolve (G.play p m) :=
      fun m hm => hf _ N (le_max_of_le_right (Finset.le_sup (f := fun m => f (G.play p m)) hm))
    have hg := stage_isGreatest hne N
    rw [hf p (N + 1) (le_trans (le_max_left _ _) (Nat.le_succ _)), edges, Set.image_image] at hg
    have himg : (fun m => (G.edge p m).value (G.stage N)) '' (G.moves p : Set M)
        = (fun m => moveValue (G.kind m) (G.resolve (G.play p m))) '' (G.moves p : Set M) := by
      refine Set.image_congr (fun m hm => ?_)
      rw [← hN m hm]
      exact value_edge (by rw [hN m hm]; exact resolve_isWin_iff)
        (by rw [hN m hm]; exact resolve_isLoss_iff)
    rwa [himg] at hg
  win_forced p k n h := by
    obtain ⟨N, hN⟩ := exists_stage_eq_resolve (G := G) p
    exact (stage_forced N p).1 k n (by rw [hN N le_rfl, h])
  loss_forced p k n h := by
    obtain ⟨N, hN⟩ := exists_stage_eq_resolve (G := G) p
    exact (stage_forced N p).2 k n (by rw [hN N le_rfl, h])

/-- Every conversion game has exactly one assignment of distance-to-conversion outcomes. -/
theorem existsUnique_isDtc (G : ConversionGame P M κ) : ∃! o : P → Outcome κ, G.IsDtc o :=
  ⟨G.resolve, resolve_isDtc, fun _ h' => IsDtc.unique resolve_isDtc h'⟩

/-- The distance-to-conversion outcomes of a game. -/
noncomputable def dtc (G : ConversionGame P M κ) : P → Outcome κ :=
  G.existsUnique_isDtc.choose

theorem dtc_isDtc (G : ConversionGame P M κ) : G.IsDtc G.dtc :=
  G.existsUnique_isDtc.choose_spec.1

/-! ### Bisimulation -/

/-- A relation between positions whose moves match, kind by kind, into related successors. -/
structure Bisimulation (G : ConversionGame P M κ) (R : P → P → Prop) : Prop where
  symm : ∀ {p q}, R p q → R q p
  check : ∀ {p q}, R p q → G.check p → G.check q
  move : ∀ {p q}, R p q → ∀ m ∈ G.moves p, ∃ m' ∈ G.moves q,
    G.kind m' = G.kind m ∧ R (G.play p m) (G.play q m')

namespace Bisimulation

variable {R : P → P → Prop}

omit [LinearOrder κ] in
theorem moves_empty (hR : G.Bisimulation R) {p q : P} (h : R p q) (he : G.moves p = ∅) :
    G.moves q = ∅ := by
  rw [Finset.eq_empty_iff_forall_notMem]
  intro m' hm'
  obtain ⟨m, hm, -⟩ := hR.move (hR.symm h) m' hm'
  rw [he] at hm; simp at hm

omit [LinearOrder κ] in
theorem decided (hR : G.Bisimulation R) {b : Bool} {p q : P} (hd : G.Decided b p) (h : R p q) :
    G.Decided b q := by
  induction hd generalizing q with
  | checkmate he hc => exact Decided.checkmate (hR.moves_empty h he) (hR.check h hc)
  | some_move hm _ ih =>
    obtain ⟨m', hm', -, hr⟩ := hR.move h _ hm
    exact Decided.some_move hm' (ih hr)
  | every_move hne _ ih =>
    refine Decided.every_move ?_ (fun m' hm' => ?_)
    · obtain ⟨m, hm⟩ := hne
      obtain ⟨m', hm', -⟩ := hR.move h m hm
      exact ⟨m', hm'⟩
    · obtain ⟨m, hm, -, hr⟩ := hR.move (hR.symm h) m' hm'
      exact ih m hm (hR.symm hr)

open Classical in
theorem stage_eq (hR : G.Bisimulation R) (n : ℕ) : ∀ {p q : P}, R p q →
    G.stage n p = G.stage n q := by
  have hterm : ∀ {p q : P}, R p q → G.terminal p = G.terminal q := by
    intro p q h
    have hc : (G.moves p = ∅ ∧ G.check p) ↔ (G.moves q = ∅ ∧ G.check q) :=
      ⟨fun ⟨he, hc⟩ => ⟨hR.moves_empty h he, hR.check h hc⟩,
        fun ⟨he, hc⟩ => ⟨hR.moves_empty (hR.symm h) he, hR.check (hR.symm h) hc⟩⟩
    unfold terminal
    rw [if_congr hc rfl rfl]
  have hverdict : ∀ {p q : P}, R p q → G.verdict p = G.verdict q := by
    intro p q h
    have hw : G.Won p ↔ G.Won q :=
      ⟨fun hd => hR.decided hd h, fun hd => hR.decided hd (hR.symm h)⟩
    have hl : G.Lost p ↔ G.Lost q :=
      ⟨fun hd => hR.decided hd h, fun hd => hR.decided hd (hR.symm h)⟩
    unfold verdict
    rw [if_congr hw rfl (if_congr hl rfl rfl)]
  induction n with
  | zero => exact hterm
  | succ n ih =>
    -- Related positions offer the same values.
    have hsub : ∀ {p q : P}, R p q →
        Edge.value (G.stage n) '' G.edges p ⊆ Edge.value (G.stage n) '' G.edges q := by
      rintro p q h _ ⟨_, ⟨m, hm, rfl⟩, rfl⟩
      obtain ⟨m', hm', hk, hr⟩ := hR.move h m hm
      refine ⟨_, ⟨m', hm', rfl⟩, ?_⟩
      unfold edge
      rw [hk]
      cases G.kind m with
      | none => simp [ih hr]
      | some k => simp [hverdict hr]
    intro p q h
    by_cases hne : (G.moves p).Nonempty
    · obtain ⟨m, hm⟩ := hne
      obtain ⟨m', hm', -⟩ := hR.move h m hm
      have hp := stage_isGreatest ⟨m, hm⟩ n
      have hq := stage_isGreatest ⟨m', hm'⟩ n
      rw [Set.Subset.antisymm (hsub h) (hsub (hR.symm h))] at hp
      exact hp.unique hq
    · rw [Finset.not_nonempty_iff_eq_empty] at hne
      rw [stage_of_moves_empty hne, stage_of_moves_empty (hR.moves_empty h hne), hterm h]

end Bisimulation

/-- Bisimilar positions have the same outcome. -/
theorem dtc_eq_of_bisimulation {R : P → P → Prop} (hR : G.Bisimulation R) {p q : P}
    (h : R p q) : G.dtc p = G.dtc q := by
  rw [IsDtc.unique resolve_isDtc G.dtc_isDtc]
  obtain ⟨n, hn⟩ := exists_stage_eq_resolve (G := G) p
  obtain ⟨n', hn'⟩ := exists_stage_eq_resolve (G := G) q
  rw [← hn (max n n') (le_max_left _ _), ← hn' (max n n') (le_max_right _ _)]
  exact hR.stage_eq _ h

end ConversionGame
