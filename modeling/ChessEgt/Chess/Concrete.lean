import ChessEgt.Chess.Moves

/-!
# The rules as a chess library

The rules themselves as an instance of the interface: the chess library is not assumed to do
anything that cannot be done.

* `rulesShakmaty` — the chess library that applies the rules;
* `lawful_rulesShakmaty` — it follows them.
-/

namespace ChessEgt

open Rules

/-- The moves between two squares that the movement rules could possibly allow. -/
def movesBetween (p : Chess) (s t : Square) : List Move :=
  match p.board s with
  | none => []
  | some pc => .enPassant s t ::
    [none, some .knight, some .bishop, some .rook, some .queen].map fun pr =>
      .normal pc.role s ((p.board t).map (·.role)) t pr

/-- The moves that the movement rules could possibly allow. -/
def candidateMoves (p : Chess) : List Move :=
  Square.all.flatMap fun s => Square.all.flatMap fun t => movesBetween p s t

/-- The chess library that applies the rules. -/
@[reducible] def rulesShakmaty : Shakmaty where
  attacks s pc occ t := decide (Attacks occ pc s t)
  pawnAttacks c s t := decide (Attacks (fun _ => false) ⟨c, .pawn⟩ s t)
  attacksTo b t c occ s := match b s with
    | some pc => decide (pc.color = c ∧ Attacks occ pc s t)
    | none => false
  fromSetupUnchecked s := s
  legalEpSquare := legalEp
  legalMoves p := (candidateMoves p).filter fun m => decide (Legal p m)
  isCheck p := decide (InCheck p)
  playUnchecked := play

theorem mem_candidateMoves {p : Chess} {m : Move} (h : PseudoLegal p m) :
    m ∈ candidateMoves p := by
  simp only [candidateMoves, movesBetween, List.mem_flatMap, Square.mem_all, true_and]
  cases m with
  | normal r s c t pr =>
    refine ⟨s, t, ?_⟩
    rw [h.1]
    obtain ⟨-, rfl, -, h⟩ := h
    have hpr : pr ∈ [none, some .knight, some .bishop, some .rook, some .queen] := by
      split at h
      · have h := h.1
        unfold PromotionRule at h
        split at h
        · rcases h with rfl | rfl | rfl | rfl <;> decide
        · rw [h]; decide
      · rw [h.1]; decide
    exact List.mem_cons_of_mem _ (List.mem_map.mpr ⟨pr, hpr, rfl⟩)
  | enPassant s t =>
    refine ⟨s, t, ?_⟩
    rw [h.1]
    exact List.mem_cons_self

theorem ends_of_mem_movesBetween {p : Chess} {s t : Square} {m : Move}
    (hm : m ∈ movesBetween p s t) : m.source = s ∧ m.target = t := by
  unfold movesBetween at hm
  cases hs : p.board s with
  | none => rw [hs] at hm; exact absurd hm List.not_mem_nil
  | some pc =>
    rw [hs] at hm
    rcases List.mem_cons.mp hm with rfl | hm
    · exact ⟨rfl, rfl⟩
    · obtain ⟨pr, -, rfl⟩ := List.mem_map.mp hm
      exact ⟨rfl, rfl⟩

theorem nodup_candidateMoves (p : Chess) : (candidateMoves p).Nodup := by
  unfold candidateMoves
  rw [List.nodup_flatMap]
  refine ⟨fun s _ => ?_, Square.nodup_all.imp_of_mem (fun {s s'} _ _ hne m hm hm' => ?_)⟩
  · rw [List.nodup_flatMap]
    refine ⟨fun t _ => ?_, Square.nodup_all.imp_of_mem (fun {t t'} _ _ hne m hm hm' => ?_)⟩
    · unfold movesBetween
      cases p.board s with
      | none => exact List.nodup_nil
      | some pc =>
        refine List.nodup_cons.mpr ⟨by simp, ?_⟩
        refine List.Nodup.map (fun a b hab => ?_) (by decide)
        injection hab
    · exact hne ((ends_of_mem_movesBetween hm).2.symm.trans (ends_of_mem_movesBetween hm').2)
  · obtain ⟨t, -, hm⟩ := List.mem_flatMap.mp hm
    obtain ⟨t', -, hm'⟩ := List.mem_flatMap.mp hm'
    exact hne ((ends_of_mem_movesBetween hm).1.symm.trans (ends_of_mem_movesBetween hm').1)

/-- The rules follow the rules. -/
theorem lawful_rulesShakmaty : @LawfulShakmaty rulesShakmaty :=
  letI := rulesShakmaty
  { attacks_iff := fun _ _ _ _ => decide_eq_true_iff
    pawnAttacks_iff := fun _ _ _ => decide_eq_true_iff
    attacksTo_iff := fun b t c occ s => by
      show (match b s with
        | some pc => decide (pc.color = c ∧ Attacks occ pc s t)
        | none => false) = true ↔ _
      cases b s <;> simp
    fromSetupUnchecked_eq := fun _ _ _ => rfl
    legalEpSquare_eq := fun _ _ => rfl
    legalMoves_nodup := fun p _ => (nodup_candidateMoves p).filter _
    mem_legalMoves := fun p _ m => by
      show m ∈ (candidateMoves p).filter (fun m => decide (Legal p m)) ↔ _
      rw [List.mem_filter, decide_eq_true_eq]
      exact and_iff_right_of_imp (fun h => mem_candidateMoves h.1)
    isCheck_iff := fun _ _ => decide_eq_true_iff
    playUnchecked_eq := fun _ _ _ _ => rfl }

end ChessEgt
