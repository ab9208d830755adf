import ChessEgt.Retrograde.Plies
import ChessEgt.Retrograde.Starting

/-!
# Kings alone

The smallest pair of tables, that of the two kings alone, which is its own twin: what the results
about pairs assume holds of it.

* `Material.kings`, `Material.table_kings` — the material of the two kings, and its table;
* `distancesFit_kings`, `probesPair_kings` — all of its positions are drawn;
* `exists_decoded_kings` — it has a position.
-/

namespace ChessEgt

open Rules Indexer

/-- The material of the two kings alone. -/
def Material.kings : Material where
  words _ := []
  count _ r := if r = .king then 1 else 0
  words_le _ := Nat.zero_le _
  count_pawn _ := rfl
  count_king _ := rfl

theorem Material.table_kings : Material.kings.table = bareKings := by
  have hmaterial : Material.kings = (validateElements_eq_ok.mp (rfl : validateElements
      bareKings.elements = .ok ())).material := by
    refine Material.ext (funext fun f => ?_) (funext fun s => funext fun r => ?_)
    · rfl
    · cases s <;> cases r <;> rfl
  have hindexer : bareKings.indexer = Material.kings.indexer := by
    rw [hmaterial]
    rfl
  have hname : Material.kings.name = bareKings.tablename := by decide
  have helements : Material.kings.elements = bareKings.elements := by decide
  unfold Material.table
  rw [hname, helements, ← hindexer]

theorem Material.partnerTable_kings : Material.kings.partnerTable = Material.kings := by
  have htwin : Material.kings.twin = Material.kings := Material.ext rfl rfl
  unfold Material.partnerTable
  rw [htwin, Material.canonical_eq (Material.canonical_of_pawnless rfl)]

/-- Positions with the material of the two kings hold nothing else. -/
theorem HasMaterial.role_eq_king {p : Chess} (h : HasMaterial Material.kings p) (s : Square)
    (pc : Piece) (hs : p.board s = some pc) : pc.role = .king := by
  by_cases hpawn : pc.role = .pawn
  · exact absurd hpawn (h.pawnless_iff.mpr rfl s pc hs)
  · by_contra hking
    obtain ⟨side, hside⟩ : ∃ side : EgtSide, side.color p.turn = pc.color := by
      cases hc : pc.color <;> cases ht : p.turn
      all_goals first | exact ⟨.sideToMove, rfl⟩ | exact ⟨.sideNotToMove, rfl⟩
    have hcount := h.count side pc.role hpawn
    have hzero : Material.kings.count side pc.role = 0 := if_neg hking
    rw [hzero, hside] at hcount
    have hnil := List.length_eq_zero_iff.mp hcount
    have hmem : s ∈ (p.board.byPiece ⟨pc.color, pc.role⟩).toList := by
      rw [Bitboard.mem_toList]
      exact decide_eq_true hs
    rw [hnil] at hmem
    cases hmem

/-! ### Its assumptions -/

namespace Material

theorem nPieces_kings : Material.kings.nPieces ≤ maxPieces := by decide

theorem canonical_kings : Material.kings.Canonical := Material.canonical_of_pawnless rfl

theorem isTwinTable_kings : IsTwinTable Material.kings none := Or.inl ⟨rfl, partnerTable_kings⟩

end Material

/-- Every node of the pair has the material of the two kings. -/
theorem material_eq_kings {x : Node}
    (h : x.material = Material.kings ∨ x.material = Material.kings.partnerTable) :
    x.material = Material.kings := by
  rwa [Material.partnerTable_kings, or_self] at h

theorem Node.Stands.role_eq_king {x : Node} {p : Chess} (hp : x.Stands p)
    (h : x.material = Material.kings ∨ x.material = Material.kings.partnerTable) (s : Square)
    (pc : Piece) (hs : p.board s = some pc) : pc.role = .king := by
  have hmat := hp.hasMaterial
  rw [material_eq_kings h] at hmat
  exact hmat.role_eq_king s pc hs

theorem distancesFit_kings [Shakmaty] [LawfulShakmaty] : DistancesFit Material.kings := by
  intro x hx p hp n hn
  have hkings : ∀ x ∈ (pairGraph Material.kings).valid, ∀ p, x.Stands p →
      ∀ s pc, p.board s = some pc → pc.role = .king :=
    fun x hx p hp => hp.role_eq_king (mem_valid.mp hx).1
  rw [← hp.truth_eq, truth_eq_draw Material.nPieces_kings Material.canonical_kings hkings
    (mem_valid.mpr ⟨hx, p, hp⟩)] at hn
  cases hn

theorem probesPair_kings : ProbesPair (fun _ => .ok .draw) Material.kings := by
  intro x hx p hp m hm hq
  rw [isQuiet_of_kings hp.1.valid (hp.role_eq_king hx) hm] at hq
  cases hq

theorem exists_start_kings : ∃ entries s₀,
    entriesOf Material.kings.table none = .ok entries ∧
    @solveStart rulesShakmaty (fun _ => .ok .draw) entries = .ok s₀ := by
  obtain ⟨table, entries, s₀, htable, hentries, hs₀⟩ := exists_bareKings
  obtain rfl : bareKings = table := Except.ok.inj (fromElements_bareKings.symm.trans htable)
  rw [← Material.table_kings] at hentries
  exact ⟨entries, s₀, hentries, hs₀⟩

/-! ### A position -/

theorem hasMaterial_loneKings : HasMaterial Material.kings loneKings where
  words := by decide +kernel
  count := by
    intro s r hr
    cases s <;> cases r <;> first | exact absurd rfl hr | decide +kernel

/-- An index of the two kings has a position. -/
theorem exists_decoded_kings [Shakmaty] [LawfulShakmaty] :
    ∃ idx p, Node.Stands ⟨Material.kings, idx⟩ p := by
  have hacc : Accepted loneKings := ⟨valid_loneKings, rfl⟩
  obtain ⟨k, b, ep, σ, -, hk, hσ, hview⟩ :=
    exists_view Material.nPieces_kings hacc rfl hasMaterial_loneKings.oriented
  rw [hview, hk.accepted_view_iff hσ] at hacc
  exact ⟨k, _, hacc, b, ep, hk, rfl⟩

end ChessEgt
