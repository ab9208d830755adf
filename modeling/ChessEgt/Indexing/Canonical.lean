import ChessEgt.Indexing.Encode

/-!
# Positions and their canonical setups

* `encodePosition_pawnful`, `encodePosition_pawnless` — the encoding of a position is the index
  of a canonical board;
* `canonicalSetup_of_valid` — oriented valid positions are canonical if their kings are;
* `Canonizes`, `positionToIndexImpl_eq` — the index of a position stands for its image under a
  transform that fits it.
-/

namespace ChessEgt

open Rules Indexer

variable {M : Material} {p q : Chess} {reflected : Bool}

/-! ### Kings and en passant squares of valid positions -/

theorem Rules.Valid.not_kingsTouch (hv : Valid p) {kw kb : Square}
    (hw : p.board kw = some ⟨.white, .king⟩) (hb : p.board kb = some ⟨.black, .king⟩) :
    ¬ KingsTouch kw kb := by
  intro ht
  have hne : kw ≠ kb := by
    rintro rfl
    rw [hw] at hb
    simp at hb
  have hatt : ∀ c k k', p.board k = some ⟨c, .king⟩ → p.board k' = some ⟨c.other, .king⟩ →
      k ≠ k' → KingsTouch k k' → KingAttacked p.board c.other := by
    intro c k k' hk hk' hne ht
    refine ⟨k', hk', k, ?_⟩
    rw [attackedFrom_iff, Color.other_other]
    exact ⟨_, hk, rfl, hne, ht⟩
  have hsymm : KingsTouch kb kw := by
    unfold KingsTouch at *
    rw [rankDist_comm, fileDist_comm]; exact ht
  cases hturn : p.turn with
  | white =>
    have := hatt .white kw kb hw hb hne ht
    exact hv.opposite (by rw [hturn]; exact this)
  | black =>
    have := hatt .black kb kw hb hw hne.symm hsymm
    exact hv.opposite (by rw [hturn]; exact this)

/-- A capturable en passant square of White marks a victim. -/
theorem Rules.Valid.victim (hv : Valid q) (ht : q.turn = .white) {s : Square} (hs : legalEp q = some s) :
    s.rank = 5 ∧ Victim q.board s.file := by
  obtain ⟨hep, c, hc⟩ := legalEp_eq_some.mp hs
  obtain ⟨h₁, h₂, h₃, h₄⟩ := hv.epStructure s hep
  rw [ht] at h₁ h₂ h₄
  have h₁ : s.rank = 5 := h₁
  have hsq : s = ⟨5, s.file⟩ := Square.ext h₁ rfl
  refine ⟨h₁, h₂, fun d hd => ?_, fun d hd => ?_, ⟨c.file, ?_, ?_⟩⟩
  · rw [hsq] at h₃
    rw [h₃] at hd; cases hd
  · have h₄ : q.board ⟨6, s.file⟩ = none := h₄
    rw [h₄] at hd; cases hd
  · have := hc.1.2.2.1
    rw [fileDist_comm] at this
    exact this
  · have hr := hc.1.2.2.2
    have hpawn := hc.1.1
    rw [ht] at hr hpawn
    have hr : s.rank.val = c.rank.val + 1 := hr
    rw [h₁] at hr
    have hcr : c.rank = 4 := Fin.ext (Nat.succ_injective hr).symm
    rw [← hcr]
    exact hpawn

theorem legalEp_of_pawnless (hv : Valid p) (h : Transform.Pawnless p.board) : legalEp p = none := by
  by_contra hne
  obtain ⟨s, hs⟩ := Option.ne_none_iff_exists'.mp hne
  obtain ⟨-, c, hc⟩ := legalEp_eq_some.mp hs
  exact h c _ hc.1.1 rfl

/-- Oriented valid positions are canonical if their kings are. -/
theorem canonicalSetup_of_valid (hv : Valid q) (ht : q.turn = .white) (h : HasMaterial M q)
    {ep : Option File} (hep : ∀ f, ep = some f → legalEp q = some ⟨5, f⟩)
    (hk : ∀ kw kb, q.board kw = some ⟨.white, .king⟩ → q.board kb = some ⟨.black, .king⟩ →
      (M.nPawns = 0 → CanonicalKings kw kb) ∧
        (M.Symmetric → M.indexer.squareIndex kb < M.indexer.squareIndex kw)) :
    CanonicalSetup M q.board ep where
  white := ⟨h.congr rfl ht, hv.pawns⟩
  kings kw kb hw hb :=
    ⟨fun hp => ⟨(hk kw kb hw hb).1 hp, hv.not_kingsTouch hw hb⟩, (hk kw kb hw hb).2⟩
  victim f hf := (hv.victim ht (hep f hf)).2

/-! ### The encoding -/

section

variable [Shakmaty] [LawfulShakmaty]

theorem encodePosition_pawnful (hv : Valid p) (h : HasMaterial M (oriented M reflected p))
    (hp : 0 < M.nPawns) : M.indexer.encodePosition reflected p
      = boardIndex M (oriented M reflected p).board ((legalEp p).map fun s =>
        ((orient reflected (decide (0 < M.nPawns)) p.turn).symmetry • s).file) := by
  obtain ⟨cs, hcoord, hu⟩ := positionToCoord_eq hv h
  have hwhite := WhiteBoard.of_oriented hv h
  have hne : ¬ M.indexer.nPawns = 0 := by
    show ¬ M.nPawns = 0
    omega
  have hlen := Material.length_pawnSquares hwhite.arranged.pawns
  have htake : ((M.pawnGroups.map (pawnChunk (oriented M reflected p).board)).flatten
      ++ cs.flatten).take M.indexer.nPawns
      = (boardCoords M (oriented M reflected p).board).take M.nPawns := by
    rw [boardCoords, List.take_left' hlen]
    exact List.take_left' hlen
  have hfile : ∀ s : Square, (if reflected then s.flipHorizontal else s).file
      = ((orient reflected (decide (0 < M.nPawns)) p.turn).symmetry • s).file := by
    intro s
    rw [decide_eq_true hp, (orient.keepsPawns reflected p.turn).file_smul]
    unfold Transform.file
    rw [orient.flipFiles]
    cases reflected <;> rfl
  unfold encodePosition
  rw [hcoord, Run.ok_bind, pawnMap_pawnful hp]
  simp only [LawfulShakmaty.legalEpSquare_eq p hv, if_neg hne, hfile, htake, Run.pure_eq_ok,
    Run.ok_bind, sortCoord_eq hwhite hu]
  unfold boardIndex sliceIndex pawnIndexOf
  rw [pawnMap_pawnful hp]
  simp only [if_neg hne, Run.pure_eq_ok, bind_assoc, Run.ok_bind]
  rfl

omit [LawfulShakmaty] in
theorem encodePosition_pawnless (hv : Valid p) (h : HasMaterial M (oriented M reflected p))
    (hp : M.nPawns = 0) {kw kb : Square}
    (hw : (oriented M reflected p).board kw = some ⟨.white, .king⟩)
    (hb : (oriented M reflected p).board kb = some ⟨.black, .king⟩) :
    M.indexer.encodePosition reflected p
      = boardIndex M ((⟨reducer kw kb, false⟩ : Transform).board (oriented M reflected p).board)
        none := by
  obtain ⟨cs, hcoord, hu⟩ := positionToCoord_eq hv h
  have hz : M.indexer.nPawns = 0 := hp
  have hgroups := Material.pawnGroups_of_pawnless hp
  -- The kings come first.
  have hhead : ∃ l, cs.flatten = kw :: kb :: l := by
    have hu' := hu
    rw [Material.nonpawns_of_pawnless hp, List.forall₂_cons_left_iff] at hu'
    obtain ⟨c, cs', hc, -, rfl⟩ := hu'
    obtain ⟨kw', kb', rfl, hw', hb'⟩ := hc
    obtain ⟨x, hx⟩ := (WhiteBoard.of_oriented hv h).exists_king .white
    obtain ⟨y, hy⟩ := (WhiteBoard.of_oriented hv h).exists_king .black
    rw [(hx kw).mp hw, (hy kb).mp hb, (hx kw').mp hw', (hy kb').mp hb']
    exact ⟨cs'.flatten, rfl⟩
  obtain ⟨l, hl⟩ := hhead
  have hwhite : WhiteBoard M
      ((⟨reducer kw kb, false⟩ : Transform).board (oriented M reflected p).board) := by
    have hmat := h.setup_pawnless ⟨reducer kw kb, false⟩ hp
    refine ⟨hmat.congr rfl (orient.color_self _ _ _), fun s pc hs hr => ?_⟩
    exact absurd hr (hmat.pawnless_iff.mpr hp s pc hs)
  have hu' : List.Forall₂ (Unsorted ((⟨reducer kw kb, false⟩ : Transform).board
      (oriented M reflected p).board)) M.nonpawns (cs.map (List.map (reducer kw kb • ·))) := by
    rw [List.forall₂_map_right_iff]
    exact hu.imp (fun _ _ hc => hc.transform (reducer kw kb))
  have hsort := sortCoord_eq hwhite hu'
  rw [hgroups, List.map_nil, List.flatten_nil, List.nil_append, ← List.map_flatten] at hsort
  unfold encodePosition
  rw [hcoord, Run.ok_bind, pawnMap_pawnless hp, hgroups, List.map_nil, List.flatten_nil,
    List.nil_append]
  simp only [Run.pure_eq_ok, Run.ok_bind, if_pos hz]
  rw [hl, reduceSymmetries_eq, Run.ok_bind, ← hl, hsort]
  unfold boardIndex sliceIndex pawnIndexOf
  rw [pawnMap_pawnless hp]
  simp only [if_pos hz, Run.pure_eq_ok, bind_assoc, Run.ok_bind]

end

/-! ### The index of a position -/

/-- A transform takes a position, up to normalization, to the setup of an index. -/
structure Canonizes (M : Material) (g : Transform) (p : Chess) (i : ℕ) (b : Board)
    (ep : Option File) : Prop where
  indexes : Indexes M i b ep
  setup : g.setup (normalize p) = whiteSetup b ep
  fits : g.Fits p.board

theorem Canonizes.color (h : Canonizes M g p i b ep) : g.color p.turn = .white :=
  congrArg Setup.turn h.setup

/-- A symmetric material is its mirror image. -/
theorem Material.Symmetric.mirrored_eq (h : M.Symmetric) : M.mirrored = M :=
  Material.ext (funext h.2) rfl

theorem orient_not (pawnful : Bool) (turn : Color) : orient (!reflected) pawnful turn
    = (⟨Symmetry.mirror, false⟩ : Transform) * orient reflected pawnful turn := by
  cases reflected <;> cases pawnful <;> cases turn <;> decide

/-- Symmetric materials do not change under reflections. -/
theorem HasMaterial.of_symmetric (h : HasMaterial M (oriented M reflected p)) (hs : M.Symmetric)
    (r : Bool) : HasMaterial M (oriented M r p) := by
  by_cases hr : r = reflected
  · rw [hr]; exact h
  · have hr : r = !reflected := by cases r <;> cases reflected <;> simp_all
    have := h.setup_mirrored (g := ⟨Symmetry.mirror, false⟩) (by decide) rfl
    rw [hs.mirrored_eq, ← Transform.mul_setup, ← orient_not, ← hr] at this
    exact this

/-- The canonical setup of an oriented position. -/
theorem canonizes_of_oriented (hM : M.nPieces ≤ maxPieces) (hv : Valid p) {g : Transform}
    (hg : g.Fits p.board) (hcolor : g.color p.turn = .white) (h : HasMaterial M (g.setup p))
    (hk : ∀ kw kb, (g.setup p).board kw = some ⟨.white, .king⟩ →
      (g.setup p).board kb = some ⟨.black, .king⟩ →
      (M.nPawns = 0 → CanonicalKings kw kb) ∧
        (M.Symmetric → M.indexer.squareIndex kb < M.indexer.squareIndex kw)) :
    ∃ i, Canonizes M g p i (g.setup p).board ((legalEp p).map fun s => (g.symmetry • s).file) := by
  have hvg := Transform.valid_setup hg hv
  have hep : legalEp (g.setup p) = (legalEp p).map (g.symmetry • ·) := by
    have := congrArg Setup.epSquare (Transform.normalize_eq (p := p) hg)
    exact this
  have hrank : ∀ s, legalEp p = some s → (g.symmetry • s).rank = 5 := by
    intro s hs
    rw [hs] at hep
    exact (hvg.victim hcolor hep).1
  have hcan : CanonicalSetup M (g.setup p).board
      ((legalEp p).map fun s => (g.symmetry • s).file) := by
    refine canonicalSetup_of_valid hvg hcolor h (fun f hf => ?_) hk
    obtain ⟨s, hs, rfl⟩ := Option.map_eq_some_iff.mp hf
    rw [hep, hs, Option.map_some]
    exact congrArg some (Square.ext (hrank s hs) rfl)
  obtain ⟨i, hi⟩ := hcan.exists_index hM
  refine ⟨i, hi, ?_, hg⟩
  ext1
  · rfl
  · exact hcolor
  · show (p.castlingRights).map _ = []
    rw [hv.castling]; rfl
  · show (legalEp p).map _ = ((legalEp p).map _).map _
    rw [Option.map_map]
    refine Option.map_congr (fun s hs => ?_)
    exact Square.ext (hrank s hs) rfl

/-- The transform under which a position is encoded: to White's point of view, reflected on
    request or as the kings of a symmetric table demand, and reduced in tables without pawns. -/
def EncodedBy (M : Material) (reflected : Bool) (p : Chess) (g : Transform) : Prop :=
  if 0 < M.nPawns then
    if M.Symmetric then ∃ r, g = orient r true p.turn else g = orient reflected true p.turn
  else ∃ kw kb, (oriented M reflected p).board kw = some ⟨.white, .king⟩ ∧
    (oriented M reflected p).board kb = some ⟨.black, .king⟩ ∧
    g = (⟨reducer kw kb, false⟩ : Transform) * orient reflected false p.turn

/-- **The encoding** of a valid position of the table is the index of its canonical setup. -/
theorem positionToIndexImpl_eq [Shakmaty] [LawfulShakmaty] (hM : M.nPieces ≤ maxPieces)
    (hv : Valid p) (h : HasMaterial M (oriented M reflected p)) :
    ∃ g i b ep, M.indexer.positionToIndexImpl reflected p = .ok i ∧ Canonizes M g p i b ep ∧
      EncodedBy M reflected p g := by
  have hsymm : M.indexer.symmetricPawns = decide M.Symmetric := rfl
  rcases Nat.eq_zero_or_pos M.nPawns with hp | hp
  · -- Without pawns, the kings decide on the symmetry.
    have hns : ¬ M.Symmetric := fun hs => by have := hs.1; omega
    obtain ⟨kw, hw⟩ := (WhiteBoard.of_oriented hv h).exists_king .white
    obtain ⟨kb, hb⟩ := (WhiteBoard.of_oriented hv h).exists_king .black
    have henc := encodePosition_pawnless hv h hp ((hw kw).mpr rfl) ((hb kb).mpr rfl)
    have hpawnless := (h.pawnless_iff).mpr hp
    have hfits := orient_fits h
    have hpl : Transform.Pawnless p.board := by
      have := (orient reflected (decide (0 < M.nPawns)) p.turn).inv.pawnless_board hpawnless
      rwa [Transform.setup_board, Transform.inv_board] at this
    have hO : orient reflected (decide (0 < M.nPawns)) p.turn = orient reflected false p.turn := by
      rw [decide_eq_false (by omega)]
    have hboard : ((⟨reducer kw kb, false⟩ : Transform) * orient reflected false p.turn).setup p
        = (⟨reducer kw kb, false⟩ : Transform).setup (oriented M reflected p) := by
      rw [Transform.mul_setup, ← hO]
    obtain ⟨i, hc⟩ := canonizes_of_oriented (g := (⟨reducer kw kb, false⟩ : Transform)
        * orient reflected false p.turn) hM hv (Or.inr hpl)
      (by rw [Transform.mul_color, orient.color_self]; rfl)
      (by rw [hboard]; exact h.setup_pawnless _ hp) (by
        intro kw' kb' hw' hb'
        refine ⟨fun _ => ?_, fun hs => absurd hs hns⟩
        rw [hboard] at hw' hb'
        obtain ⟨x, rfl⟩ := MulAction.surjective (reducer kw kb) kw'
        obtain ⟨y, rfl⟩ := MulAction.surjective (reducer kw kb) kb'
        have hx := (Transform.board_eq_some ⟨reducer kw kb, false⟩ (x := ⟨.white, .king⟩)).mp hw'
        have hy := (Transform.board_eq_some ⟨reducer kw kb, false⟩ (x := ⟨.black, .king⟩)).mp hb'
        rw [(hw x).mp hx, (hb y).mp hy]
        exact canonicalKings_reducer kw kb)
    refine ⟨_, i, _, _, ?_, hc, ?_⟩
    · unfold positionToIndexImpl
      rw [hsymm, decide_eq_false hns]
      simp only [Bool.false_eq_true, if_false, Run.pure_eq_ok, Run.ok_bind]
      have hindex := hc.indexes.index
      rw [hboard] at hindex
      have hnone : (legalEp p).map (fun s => (((⟨reducer kw kb, false⟩ : Transform)
          * orient reflected false p.turn).symmetry • s).file) = none := by
        rw [legalEp_of_pawnless hv hpl]; rfl
      rw [hnone] at hindex
      rw [henc]
      exact hindex
    · unfold EncodedBy
      rw [if_neg (by omega)]
      exact ⟨kw, kb, (hw kw).mpr rfl, (hb kb).mpr rfl, rfl⟩
  · have hO : ∀ r, orient r (decide (0 < M.nPawns)) p.turn = orient r true p.turn := by
      intro r; rw [decide_eq_true hp]
    -- The encoding of an orientation whose kings are in order.
    have hmain : ∀ r, HasMaterial M (oriented M r p) →
        (∀ kw kb, (oriented M r p).board kw = some ⟨.white, .king⟩ →
          (oriented M r p).board kb = some ⟨.black, .king⟩ → M.Symmetric →
          M.indexer.squareIndex kb < M.indexer.squareIndex kw) →
        ∃ i b ep, M.indexer.encodePosition r p = .ok i ∧
          Canonizes M (orient r true p.turn) p i b ep := by
      intro r hr hk
      have hset : (orient r true p.turn).setup p = oriented M r p := by
        rw [oriented, hO]
      obtain ⟨i, hc⟩ := canonizes_of_oriented (g := orient r true p.turn) hM hv
        (Or.inl (orient.keepsPawns r p.turn)) (orient.color_self _ _ _) (by rw [hset]; exact hr)
        (by
          rw [hset]
          exact fun kw kb hw hb => ⟨fun h0 => absurd h0 (by omega), hk kw kb hw hb⟩)
      refine ⟨i, _, _, ?_, hc⟩
      rw [encodePosition_pawnful hv hr hp]
      have hindex := hc.indexes.index
      rw [hset] at hindex
      rw [← hindex, hO]
    by_cases hs : M.Symmetric
    · -- In symmetric tables the kings decide on the reflection.
      obtain ⟨k, hk⟩ := hv.kings p.turn
      obtain ⟨k', hk'⟩ := hv.kings p.turn.other
      have e : p.board.kingOf p.turn = some k :=
        Board.kingOf_eq_some ((hk k).mpr rfl) (fun s hs => (hk s).mp hs)
      have e' : p.board.kingOf p.turn.other = some k' :=
        Board.kingOf_eq_some ((hk' k').mpr rfl) (fun s hs => (hk' s).mp hs)
      have hcoord : ∀ s : Square, (⟨p.turn.relativeRank s.rank, s.file⟩ : Square)
          = (orient false true p.turn).symmetry • s := by
        intro s
        have h₁ := (orient.keepsPawns false p.turn).relativeRank p.turn s
        rw [orient.color_self] at h₁
        have h₂ := (orient.keepsPawns false p.turn).file_smul s
        rw [Transform.file, orient.flipFiles, if_neg (by decide)] at h₂
        exact Square.ext h₁.symm h₂.symm
      have hne : k ≠ k' := by
        rintro rfl
        have := ((hk k).mpr rfl).symm.trans ((hk' k).mpr rfl)
        simp at this
      have himpl : M.indexer.positionToIndexImpl reflected p = M.indexer.encodePosition
          (decide (M.indexer.squareIndex ((orient false true p.turn).symmetry • k)
            < M.indexer.squareIndex ((orient false true p.turn).symmetry • k'))) p := by
        unfold positionToIndexImpl
        rw [hsymm, decide_eq_true hs]
        simp only [if_true, e, e', Run.expect_some, Run.ok_bind, hcoord, Run.pure_eq_ok]
      rw [himpl]
      generalize hr : decide (M.indexer.squareIndex ((orient false true p.turn).symmetry • k)
            < M.indexer.squareIndex ((orient false true p.turn).symmetry • k')) = r
      obtain ⟨i, b, ep, hi, hc⟩ := hmain r (h.of_symmetric hs r) (by
        intro kw kb hw hb _
        have hsq : ∀ s : Square, (orient r (decide (0 < M.nPawns)) p.turn).symmetry • s
            = if r then Symmetry.mirror • ((orient false true p.turn).symmetry • s)
              else (orient false true p.turn).symmetry • s := by
          intro s
          rw [hO]
          cases r with
          | false => rfl
          | true =>
            have hnot : orient true true p.turn = _ := @orient_not false true p.turn
            have := congrArg (fun g : Transform => g.symmetry • s) hnot
            rwa [Transform.mul_symmetry, mul_smul] at this
        have hkw : kw = (orient r (decide (0 < M.nPawns)) p.turn).symmetry • k := by
          obtain ⟨x, rfl⟩ :=
            MulAction.surjective (orient r (decide (0 < M.nPawns)) p.turn).symmetry kw
          have := Transform.board_eq_some (orient r (decide (0 < M.nPawns)) p.turn)
            (b := p.board) (s := x) (x := ⟨p.turn, .king⟩)
          rw [Transform.piece_mk, orient.color_self] at this
          rw [(hk x).mp (this.mp hw)]
        have hkb : kb = (orient r (decide (0 < M.nPawns)) p.turn).symmetry • k' := by
          obtain ⟨x, rfl⟩ :=
            MulAction.surjective (orient r (decide (0 < M.nPawns)) p.turn).symmetry kb
          have := Transform.board_eq_some (orient r (decide (0 < M.nPawns)) p.turn)
            (b := p.board) (s := x) (x := ⟨p.turn.other, .king⟩)
          rw [Transform.piece_mk, orient.color_other] at this
          rw [(hk' x).mp (this.mp hb)]
        have hdiff : M.indexer.squareIndex ((orient false true p.turn).symmetry • k)
            ≠ M.indexer.squareIndex ((orient false true p.turn).symmetry • k') :=
          fun he => hne ((MulAction.injective _) (M.indexer.squareIndex_injective he))
        have hlt₁ := M.indexer.squareIndex_lt ((orient false true p.turn).symmetry • k)
        have hlt₂ := M.indexer.squareIndex_lt ((orient false true p.turn).symmetry • k')
        rw [hkw, hkb, hsq, hsq]
        cases r with
        | true =>
          have := of_decide_eq_true hr
          rw [if_pos rfl, if_pos rfl, squareIndex_mirror (decide_eq_true hs),
            squareIndex_mirror (decide_eq_true hs)]
          omega
        | false =>
          have := of_decide_eq_false hr
          simp only [Bool.false_eq_true, if_false]
          omega)
      refine ⟨_, i, b, ep, hi, hc, ?_⟩
      unfold EncodedBy
      rw [if_pos hp, if_pos hs]
      exact ⟨r, rfl⟩
    · obtain ⟨i, b, ep, hi, hc⟩ := hmain reflected h (fun _ _ _ _ h' => absurd h' hs)
      refine ⟨_, i, b, ep, ?_, hc, ?_⟩
      · unfold positionToIndexImpl
        rw [hsymm, decide_eq_false hs]
        simp only [Bool.false_eq_true, if_false, Run.pure_eq_ok, Run.ok_bind]
        exact hi
      · unfold EncodedBy
        rw [if_pos hp, if_neg hs]

end ChessEgt
