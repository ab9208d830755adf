import ChessEgt.Chess.Rules

/-!
# Symmetries of the board and of the rules

* `Symmetry` — the eight symmetries of the board, written the way the indexer applies them:
  flips of the ranks and of the files, and then a reflection on the a1-h8 diagonal;
* `Transform` — a symmetry of the board, possibly with an exchange of the colors;
* `Transform.Fits` — the transform respects the direction of the pawns of a board, or there
  are none;
* `Transform.legal_iff`, `Transform.play_eq` — transforms that fit commute with the rules.
-/

namespace ChessEgt

/-- A symmetry of the board: flips of the ranks and of the files, then an exchange of the
    axes. -/
@[ext] structure Symmetry where
  flipRanks : Bool
  flipFiles : Bool
  swapAxes : Bool
  deriving DecidableEq, Repr

namespace Symmetry

instance : Fintype Symmetry :=
  Fintype.ofEquiv (Bool × Bool × Bool)
    { toFun := fun p => ⟨p.1, p.2.1, p.2.2⟩
      invFun := fun g => (g.flipRanks, g.flipFiles, g.swapAxes) }

/-- `g * h` applies `h` first. -/
instance : Mul Symmetry := ⟨fun g h =>
  if h.swapAxes then
    ⟨h.flipRanks ^^ g.flipFiles, h.flipFiles ^^ g.flipRanks, !g.swapAxes⟩
  else ⟨h.flipRanks ^^ g.flipRanks, h.flipFiles ^^ g.flipFiles, g.swapAxes⟩⟩

instance : One Symmetry := ⟨⟨false, false, false⟩⟩

instance : Inv Symmetry := ⟨fun g =>
  if g.swapAxes then ⟨g.flipFiles, g.flipRanks, true⟩ else g⟩

instance : Group Symmetry :=
  Group.ofLeftAxioms (by decide +kernel) (by decide) (by decide)

/-- The reflection of the files. -/
def mirror : Symmetry := ⟨false, true, false⟩

/-- The reflection of the ranks. -/
def flip : Symmetry := ⟨true, false, false⟩

/-- The reflection on the a1-h8 diagonal. -/
def diagonal : Symmetry := ⟨false, false, true⟩

@[simp] theorem mirror_mul_mirror : mirror * mirror = 1 := by decide
@[simp] theorem diagonal_mul_diagonal : diagonal * diagonal = 1 := by decide
@[simp] theorem flip_mul_flip : flip * flip = 1 := by decide
theorem flip_mul_mirror : flip * mirror = mirror * flip := by decide
@[simp] theorem mirror_inv : mirror⁻¹ = mirror := by decide
@[simp] theorem diagonal_inv : diagonal⁻¹ = diagonal := by decide
@[simp] theorem flip_inv : flip⁻¹ = flip := by decide

/-! ### Squares -/

/-- The image of a square. -/
def apply (g : Symmetry) (s : Square) : Square :=
  let r := if g.flipRanks then s.rank.rev else s.rank
  let f := if g.flipFiles then s.file.rev else s.file
  if g.swapAxes then ⟨f, r⟩ else ⟨r, f⟩

instance : MulAction Symmetry Square where
  smul := apply
  one_smul _ := rfl
  mul_smul g h s := by
    obtain ⟨gr, gf, gs⟩ := g
    obtain ⟨hr, hf, hs⟩ := h
    cases gr <;> cases gf <;> cases gs <;> cases hr <;> cases hf <;> cases hs <;>
      simp [HSMul.hSMul, HMul.hMul, Mul.mul, apply]

theorem smul_def (g : Symmetry) (s : Square) : g • s = g.apply s := rfl

@[simp] theorem mirror_smul (s : Square) : mirror • s = ⟨s.rank, s.file.rev⟩ := rfl
@[simp] theorem flip_smul (s : Square) : flip • s = ⟨s.rank.rev, s.file⟩ := rfl
@[simp] theorem diagonal_smul (s : Square) : diagonal • s = ⟨s.file, s.rank⟩ := rfl

theorem mirror_smul_eq (s : Square) : mirror • s = s.flipHorizontal := rfl

theorem rankDist_smul (g : Symmetry) (s t : Square) :
    rankDist (g • s) (g • t) = if g.swapAxes then fileDist s t else rankDist s t := by
  obtain ⟨a, b, c⟩ := g
  cases a <;> cases b <;> cases c <;>
    simp only [smul_def, apply, rankDist, fileDist, Fin.val_rev, if_true, if_false,
      Bool.false_eq_true] <;> omega

theorem fileDist_smul (g : Symmetry) (s t : Square) :
    fileDist (g • s) (g • t) = if g.swapAxes then rankDist s t else fileDist s t := by
  obtain ⟨a, b, c⟩ := g
  cases a <;> cases b <;> cases c <;>
    simp only [smul_def, apply, rankDist, fileDist, Fin.val_rev, if_true, if_false,
      Bool.false_eq_true] <;> omega

end Symmetry

namespace Rules

open Symmetry

@[simp] theorem between_smul (g : Symmetry) (s t u : Square) :
    Between (g • s) (g • t) (g • u) ↔ Between s t u := by
  simp only [Between, rankDist_smul, fileDist_smul, ne_eq, smul_left_cancel_iff]
  cases g.swapAxes <;> simp only [if_true, if_false, Bool.false_eq_true]
  constructor <;> rintro ⟨h₁, h₂, h₃, h₄, h₅⟩ <;>
    exact ⟨h₁, h₂, h₄, h₃, fun h => (h₅ h.symm).symm⟩

@[simp] theorem straight_smul (g : Symmetry) (s t : Square) :
    Straight (g • s) (g • t) ↔ Straight s t := by
  simp only [Straight, rankDist_smul, fileDist_smul]
  cases g.swapAxes <;> simp only [if_true, if_false, Bool.false_eq_true]
  exact or_comm

@[simp] theorem diagonal_smul (g : Symmetry) (s t : Square) :
    Diagonal (g • s) (g • t) ↔ Diagonal s t := by
  simp only [Diagonal, rankDist_smul, fileDist_smul]
  cases g.swapAxes <;> simp only [if_true, if_false, Bool.false_eq_true]
  constructor <;> rintro ⟨h₁, h₂⟩ <;> exact ⟨h₁.symm, by omega⟩

theorem clear_smul {g : Symmetry} {occ occ' : Bitboard} (hocc : ∀ u, occ' (g • u) = occ u)
    (s t : Square) : Clear occ' (g • s) (g • t) ↔ Clear occ s t := by
  unfold Clear
  rw [(MulAction.surjective g).forall]
  simp [hocc]

/-- Pieces other than pawns move alike under every symmetry. -/
theorem attacks_smul {g : Symmetry} {occ occ' : Bitboard} (hocc : ∀ u, occ' (g • u) = occ u)
    {c c' : Color} {r : Role} (hr : r ≠ .pawn) (s t : Square) :
    Attacks occ' ⟨c', r⟩ (g • s) (g • t) ↔ Attacks occ ⟨c, r⟩ s t := by
  cases r with
  | pawn => exact absurd rfl hr
  | knight =>
    simp only [Attacks, rankDist_smul, fileDist_smul]
    cases g.swapAxes <;> simp only [if_true, if_false, Bool.false_eq_true]
    omega
  | bishop => simp only [Attacks, diagonal_smul, clear_smul hocc]
  | rook => simp only [Attacks, straight_smul, clear_smul hocc]
  | queen => simp only [Attacks, straight_smul, diagonal_smul, clear_smul hocc]
  | king =>
    simp only [Attacks, rankDist_smul, fileDist_smul, ne_eq, smul_left_cancel_iff]
    cases g.swapAxes <;> simp only [if_true, if_false, Bool.false_eq_true]
    rw [and_comm (a := fileDist s t ≤ 1)]

end Rules

/-! ### Transforms -/

/-- A symmetry of the board, possibly with an exchange of the colors. -/
@[ext] structure Transform where
  symmetry : Symmetry
  recolor : Bool
  deriving DecidableEq, Repr

namespace Transform

open Rules

/-- The transform that undoes `g`. -/
def inv (g : Transform) : Transform := ⟨g.symmetry⁻¹, g.recolor⟩

def color (g : Transform) (c : Color) : Color := if g.recolor then c.other else c

def piece (g : Transform) (pc : Piece) : Piece := ⟨g.color pc.color, pc.role⟩

def board (g : Transform) (b : Board) : Board :=
  fun s => (b (g.symmetry⁻¹ • s)).map g.piece

def setup (g : Transform) (p : Setup) : Setup where
  board := g.board p.board
  turn := g.color p.turn
  castlingRights := p.castlingRights.map (g.symmetry • ·)
  epSquare := p.epSquare.map (g.symmetry • ·)

def move (g : Transform) : Move → Move
  | .normal r s c t pr => .normal r (g.symmetry • s) c (g.symmetry • t) pr
  | .enPassant s t => .enPassant (g.symmetry • s) (g.symmetry • t)

@[simp] theorem inv_inv (g : Transform) : g.inv.inv = g := by simp [inv]
@[simp] theorem inv_symmetry (g : Transform) : g.inv.symmetry = g.symmetry⁻¹ := rfl
@[simp] theorem color_other (g : Transform) (c : Color) : g.color c.other = (g.color c).other := by
  unfold color; split <;> rfl

@[simp] theorem color_inj (g : Transform) {c d : Color} : g.color c = g.color d ↔ c = d := by
  unfold color; split
  · exact Color.other_inj
  · exact Iff.rfl

@[simp] theorem inv_color (g : Transform) (c : Color) : g.inv.color (g.color c) = c := by
  unfold color inv; split <;> simp

@[simp] theorem piece_role (g : Transform) (pc : Piece) : (g.piece pc).role = pc.role := rfl
@[simp] theorem piece_color (g : Transform) (pc : Piece) :
    (g.piece pc).color = g.color pc.color := rfl
@[simp] theorem piece_mk (g : Transform) (c : Color) (r : Role) :
    g.piece ⟨c, r⟩ = ⟨g.color c, r⟩ := rfl

@[simp] theorem inv_piece (g : Transform) (pc : Piece) : g.inv.piece (g.piece pc) = pc := by
  simp [piece]

theorem piece_inj (g : Transform) {x y : Piece} : g.piece x = g.piece y ↔ x = y :=
  ⟨fun h => by rw [← inv_piece g x, h, inv_piece], fun h => by rw [h]⟩

@[simp] theorem board_smul (g : Transform) (b : Board) (s : Square) :
    g.board b (g.symmetry • s) = (b s).map g.piece := by
  simp [board]

@[simp] theorem inv_board (g : Transform) (b : Board) : g.inv.board (g.board b) = b := by
  funext s
  simp [board, inv_symmetry, Option.map_map, Function.comp_def]

@[simp] theorem inv_setup (g : Transform) (p : Setup) : g.inv.setup (g.setup p) = p := by
  ext1
  · simp [setup]
  · simp [setup]
  · simp [setup, Function.comp_def]
  · simp [setup, Function.comp_def]

@[simp] theorem setup_inv (g : Transform) (p : Setup) : g.setup (g.inv.setup p) = p := by
  have := inv_setup g.inv p
  rwa [inv_inv] at this

@[simp] theorem inv_move (g : Transform) (m : Move) : g.inv.move (g.move m) = m := by
  cases m <;> simp [move]

@[simp] theorem move_inv (g : Transform) (m : Move) : g.move (g.inv.move m) = m := by
  have := inv_move g.inv m
  rwa [inv_inv] at this

/-- `g * h` applies `h` first. -/
instance : Mul Transform := ⟨fun g h => ⟨g.symmetry * h.symmetry, g.recolor ^^ h.recolor⟩⟩

instance : One Transform := ⟨⟨1, false⟩⟩

@[simp] theorem mul_symmetry (g h : Transform) : (g * h).symmetry = g.symmetry * h.symmetry := rfl
@[simp] theorem one_symmetry : (1 : Transform).symmetry = 1 := rfl

@[simp] theorem mul_color (g h : Transform) (c : Color) : (g * h).color c = g.color (h.color c) := by
  obtain ⟨g, a⟩ := g
  obtain ⟨h, b⟩ := h
  cases a <;> cases b <;> simp [HMul.hMul, Mul.mul, color]

@[simp] theorem one_color (c : Color) : (1 : Transform).color c = c := rfl

theorem mul_board (g h : Transform) (b : Board) : (g * h).board b = g.board (h.board b) := by
  funext s
  have hp : (g * h).piece = g.piece ∘ h.piece := by
    funext x; simp [piece]
  simp [board, hp, mul_smul, Option.map_map]

theorem mul_setup (g h : Transform) (p : Setup) : (g * h).setup p = g.setup (h.setup p) := by
  ext1
  · exact mul_board g h p.board
  · exact mul_color g h p.turn
  · simp [setup, mul_smul, Function.comp_def]
  · simp [setup, mul_smul, Function.comp_def]

@[simp] theorem one_board (b : Board) : (1 : Transform).board b = b := by
  funext s
  have : (1 : Transform).piece = id := by funext x; simp [piece]
  simp [board, this]

@[simp] theorem one_setup (p : Setup) : (1 : Transform).setup p = p := by
  ext1
  · exact one_board p.board
  · rfl
  · simp [setup]
  · simp [setup]

@[simp] theorem inv_mul_self (g : Transform) : g.inv * g = 1 := by
  obtain ⟨g, a⟩ := g
  show (⟨g⁻¹ * g, a ^^ a⟩ : Transform) = ⟨1, false⟩
  rw [inv_mul_cancel, Bool.xor_self]

@[simp] theorem mul_inv_self (g : Transform) : g * g.inv = 1 := by
  have := inv_mul_self g.inv
  rwa [inv_inv] at this

instance : Monoid Transform where
  mul_assoc g h k := Transform.ext (mul_assoc g.symmetry h.symmetry k.symmetry)
    (Bool.xor_assoc g.recolor h.recolor k.recolor)
  one_mul g := Transform.ext (one_mul g.symmetry) (Bool.false_xor g.recolor)
  mul_one g := Transform.ext (mul_one g.symmetry) (Bool.xor_false g.recolor)

theorem setup_injective (g : Transform) : Function.Injective g.setup :=
  Function.LeftInverse.injective (inv_setup g)

theorem move_injective (g : Transform) : Function.Injective g.move :=
  Function.LeftInverse.injective (inv_move g)

@[simp] theorem setup_board (g : Transform) (p : Setup) : (g.setup p).board = g.board p.board := rfl
@[simp] theorem setup_turn (g : Transform) (p : Setup) : (g.setup p).turn = g.color p.turn := rfl
@[simp] theorem setup_epSquare (g : Transform) (p : Setup) :
    (g.setup p).epSquare = p.epSquare.map (g.symmetry • ·) := rfl

theorem board_eq_some (g : Transform) {b : Board} {s : Square} {x : Piece} :
    g.board b (g.symmetry • s) = some (g.piece x) ↔ b s = some x := by
  rw [board_smul, Option.map_eq_some_iff]
  exact ⟨fun ⟨_, h, hp⟩ => by rw [h, g.piece_inj.mp hp], fun h => ⟨x, h, rfl⟩⟩

theorem board_eq_none (g : Transform) {b : Board} {s : Square} :
    g.board b (g.symmetry • s) = none ↔ b s = none := by
  rw [board_smul, Option.map_eq_none_iff]

theorem board_occupied (g : Transform) (b : Board) (s : Square) :
    (g.board b).occupied (g.symmetry • s) = b.occupied s := by
  simp

theorem board_byColor (g : Transform) (b : Board) (c : Color) (s : Square) :
    (g.board b).byColor (g.color c) (g.symmetry • s) = b.byColor c s := by
  rw [Bool.eq_iff_iff, Board.byColor_apply, Board.byColor_apply, board_smul]
  simp [Option.map_eq_some_iff]

@[simp] theorem move_isCapture (g : Transform) (m : Move) : (g.move m).isCapture = m.isCapture := by
  cases m <;> rfl
@[simp] theorem move_isPromotion (g : Transform) (m : Move) :
    (g.move m).isPromotion = m.isPromotion := by
  cases m <;> rfl
@[simp] theorem move_isQuiet (g : Transform) (m : Move) : (g.move m).isQuiet = m.isQuiet := by
  simp [Move.isQuiet]

/-! ### Transforms that respect the pawns -/

/-- The transform keeps the direction of pawns of either color. -/
def KeepsPawns (g : Transform) : Prop :=
  g.symmetry.swapAxes = false ∧ g.symmetry.flipRanks = g.recolor

instance (g : Transform) : Decidable g.KeepsPawns := by unfold KeepsPawns; infer_instance

/-- A board without pawns. -/
def Pawnless (b : Board) : Prop := ∀ s pc, b s = some pc → pc.role ≠ .pawn

/-- The transform keeps the direction of the pawns of a board, or there are none. -/
def Fits (g : Transform) (b : Board) : Prop := g.KeepsPawns ∨ Pawnless b

theorem KeepsPawns.inv {g : Transform} (h : g.KeepsPawns) : g.inv.KeepsPawns := by
  obtain ⟨⟨a, b, c⟩, d⟩ := g
  revert h
  cases a <;> cases b <;> cases c <;> cases d <;> decide

theorem KeepsPawns.smul_file {g : Transform} (h : g.KeepsPawns) {s t : Square} :
    (g.symmetry • s).file = (g.symmetry • t).file ↔ s.file = t.file := by
  rw [← fileDist_eq_zero, Symmetry.fileDist_smul, h.1, ← fileDist_eq_zero]; rfl

/-- Relative ranks are invariant under the transforms that keep pawns. -/
theorem KeepsPawns.relativeRank {g : Transform} (h : g.KeepsPawns) (c : Color) (s : Square) :
    (g.color c).relativeRank (g.symmetry • s).rank = c.relativeRank s.rank := by
  obtain ⟨⟨a, b, d⟩, e⟩ := g
  obtain ⟨h₁, h₂⟩ := h
  simp only at h₁ h₂
  subst h₁ h₂
  cases a <;> cases b <;> cases c <;> simp [color, Symmetry.smul_def, Symmetry.apply]

theorem KeepsPawns.relativeSquare {g : Transform} (h : g.KeepsPawns) (c : Color) (r : Rank)
    (s : Square) : g.symmetry • Rules.relativeSquare c r s.file
      = Rules.relativeSquare (g.color c) r (g.symmetry • s).file := by
  ext1
  · have := h.relativeRank c (Rules.relativeSquare c r s.file)
    simp only [Rules.relativeSquare, Color.relativeRank_relativeRank] at this ⊢
    rw [← Color.relativeRank_inj (c := g.color c), this, Color.relativeRank_relativeRank]
  · exact h.smul_file.mpr rfl

theorem pawnless_board (g : Transform) {b : Board} (h : Pawnless b) : Pawnless (g.board b) := by
  intro s pc hs
  simp only [board, Option.map_eq_some_iff] at hs
  obtain ⟨x, hx, rfl⟩ := hs
  exact h _ x hx

theorem Fits.inv {g : Transform} {b : Board} (h : g.Fits b) : g.inv.Fits (g.board b) :=
  h.imp KeepsPawns.inv g.pawnless_board

theorem attacks_iff {g : Transform} {b : Board} (h : g.Fits b) {pc : Piece} {s₀ : Square}
    (hpc : b s₀ = some pc) (s t : Square) :
    Attacks (g.board b).occupied (g.piece pc) (g.symmetry • s) (g.symmetry • t)
      ↔ Attacks b.occupied pc s t := by
  by_cases hr : pc.role = .pawn
  · have hk : g.KeepsPawns := h.resolve_right (fun hn => hn s₀ pc hpc hr)
    simp only [Attacks, piece_role, hr, piece_color, Symmetry.fileDist_smul, hk.1,
      hk.relativeRank, Bool.false_eq_true, if_false]
  · exact attacks_smul (g.board_occupied b) hr s t

theorem attackedFrom_iff {g : Transform} {b : Board} (h : g.Fits b) (c : Color) (s t : Square) :
    AttackedFrom (g.board b) (g.color c) (g.symmetry • s) (g.symmetry • t)
      ↔ AttackedFrom b c s t := by
  rw [Rules.attackedFrom_iff, Rules.attackedFrom_iff]
  constructor
  · rintro ⟨_, hpc, hc, ha⟩
    rw [board_smul, Option.map_eq_some_iff] at hpc
    obtain ⟨pc, hpc, rfl⟩ := hpc
    exact ⟨pc, hpc, g.color_inj.mp hc, (attacks_iff h hpc s t).mp ha⟩
  · rintro ⟨pc, hpc, hc, ha⟩
    exact ⟨g.piece pc, g.board_eq_some.mpr hpc, by rw [piece_color, hc],
      (attacks_iff h hpc s t).mpr ha⟩

theorem kingAttacked_iff {g : Transform} {b : Board} (h : g.Fits b) (c : Color) :
    KingAttacked (g.board b) (g.color c) ↔ KingAttacked b c := by
  unfold KingAttacked
  rw [(MulAction.surjective g.symmetry).exists]
  refine exists_congr (fun k => and_congr ?_ ?_)
  · exact g.board_eq_some (x := ⟨c, .king⟩)
  · rw [(MulAction.surjective g.symmetry).exists]
    refine exists_congr (fun s => ?_)
    rw [← color_other]
    exact attackedFrom_iff h c.other s k

theorem pawnPush_iff {g : Transform} (h : g.KeepsPawns) (b : Board) (c : Color) (s t : Square) :
    PawnPush (g.board b) (g.color c) (g.symmetry • s) (g.symmetry • t) ↔ PawnPush b c s t := by
  unfold PawnPush
  rw [h.smul_file, board_eq_none, h.relativeRank, h.relativeRank, ← h.relativeSquare,
    board_eq_none]

theorem promotionRule_iff {g : Transform} (h : g.KeepsPawns) (c : Color) (t : Square)
    (pr : Option Role) : PromotionRule (g.color c) (g.symmetry • t) pr ↔ PromotionRule c t pr := by
  unfold PromotionRule
  rw [h.relativeRank]

theorem pseudoLegal_iff {g : Transform} {p : Setup} (h : g.Fits p.board) (m : Move) :
    PseudoLegal (g.setup p) (g.move m) ↔ PseudoLegal p m := by
  cases m with
  | normal r s c t pr =>
    simp only [PseudoLegal, move, setup_board, setup_turn]
    have hs : g.board p.board (g.symmetry • s) = some ⟨g.color p.turn, r⟩
        ↔ p.board s = some ⟨p.turn, r⟩ := g.board_eq_some (x := ⟨p.turn, r⟩)
    rw [hs]
    refine and_congr_right (fun hpc => ?_)
    have hcap : (g.board p.board (g.symmetry • t)).map (·.role) = (p.board t).map (·.role) := by
      rw [board_smul, Option.map_map]; rfl
    rw [hcap, board_byColor]
    refine and_congr_right (fun _ => and_congr_right (fun _ => ?_))
    have ha := attacks_iff h hpc s t
    rw [piece_mk] at ha
    split
    next hr =>
      subst hr
      have hk : g.KeepsPawns := h.resolve_right (fun hn => hn s _ hpc rfl)
      rw [promotionRule_iff hk, pawnPush_iff hk, board_occupied, ha]
    next => rw [ha]
  | enPassant s t =>
    simp only [PseudoLegal, move, setup_board, setup_turn, setup_epSquare]
    have hs : g.board p.board (g.symmetry • s) = some ⟨g.color p.turn, .pawn⟩
        ↔ p.board s = some ⟨p.turn, .pawn⟩ := g.board_eq_some (x := ⟨p.turn, .pawn⟩)
    rw [hs]
    refine and_congr_right (fun hpc => ?_)
    have ha := attacks_iff h hpc s t
    rw [piece_mk] at ha
    rw [ha, Option.map_eq_some_iff]
    simp

theorem playBoard_eq {g : Transform} {p : Setup} (h : g.Fits p.board) {m : Move}
    (hm : PseudoLegal p m) :
    playBoard (g.board p.board) (g.color p.turn) (g.move m)
      = g.board (playBoard p.board p.turn m) := by
  funext u
  obtain ⟨u, rfl⟩ := MulAction.surjective g.symmetry u
  rw [board_smul]
  cases m with
  | normal r s c t pr =>
    simp only [playBoard, move, smul_left_cancel_iff, board_smul]
    split
    · rfl
    · split <;> rfl
  | enPassant s t =>
    have hk : g.KeepsPawns := h.resolve_right (fun hn => hn s _ hm.1 rfl)
    have hcap : (⟨(g.symmetry • s).rank, (g.symmetry • t).file⟩ : Square)
        = g.symmetry • ⟨s.rank, t.file⟩ := by
      have hr := hk.relativeRank p.turn s
      have hr' := hk.relativeRank p.turn ⟨s.rank, t.file⟩
      rw [← hr] at hr'
      ext1
      · exact (Color.relativeRank_inj.mp hr').symm
      · exact (hk.smul_file (s := ⟨s.rank, t.file⟩) (t := t)).mpr rfl |>.symm
    simp only [playBoard, move, smul_left_cancel_iff, board_smul, hcap]
    split
    · rfl
    · split <;> rfl

theorem playEpSquare_eq {g : Transform} {p : Setup} (h : g.Fits p.board) {m : Move}
    (hm : PseudoLegal p m) :
    playEpSquare (g.color p.turn) (g.move m)
      = (playEpSquare p.turn m).map (g.symmetry • ·) := by
  cases m with
  | enPassant s t => rfl
  | normal r s c t pr =>
    simp only [playEpSquare, move]
    by_cases hr : r = .pawn
    · subst hr
      have hk : g.KeepsPawns := h.resolve_right (fun hn => hn s _ hm.1 rfl)
      simp only [IsDoublePush, hk.relativeRank]
      split
      · rw [Option.map_some, hk.relativeSquare]
      · rfl
    · rw [if_neg (fun hd => hr hd.1), if_neg (fun hd => hr hd.1)]; rfl

/-- Transforms that fit a position commute with its moves. -/
theorem play_eq {g : Transform} {p : Setup} (h : g.Fits p.board) {m : Move}
    (hm : PseudoLegal p m) : play (g.setup p) (g.move m) = g.setup (play p m) := by
  ext1
  · exact playBoard_eq h hm
  · exact (g.color_other p.turn).symm
  · rfl
  · exact playEpSquare_eq h hm

theorem Pawnless.playBoard {p : Setup} (h : Pawnless p.board) {m : Move} (hm : PseudoLegal p m) :
    Pawnless (Rules.playBoard p.board p.turn m) := by
  intro u pc hu
  cases m with
  | normal r s c t pr =>
    have hr : r ≠ .pawn := h s _ hm.1
    have hpr : pr = none := by
      have := hm.2.2.2
      rw [if_neg hr] at this
      exact this.1
    subst hpr
    simp only [Rules.playBoard] at hu
    split at hu
    · cases hu; exact hr
    · split at hu
      · cases hu
      · exact h u pc hu
  | enPassant s t => exact absurd rfl (h s _ hm.1)

theorem Fits.play {g : Transform} {p : Setup} (h : g.Fits p.board) {m : Move}
    (hm : PseudoLegal p m) : g.Fits (Rules.playBoard p.board p.turn m) :=
  h.imp_right (fun hn => hn.playBoard hm)

/-- Transforms that fit a position keep the legality of its moves. -/
theorem legal_iff {g : Transform} {p : Setup} (h : g.Fits p.board) (m : Move) :
    Legal (g.setup p) (g.move m) ↔ Legal p m := by
  unfold Legal
  rw [pseudoLegal_iff h]
  refine and_congr_right (fun hm => not_congr ?_)
  rw [setup_board, setup_turn, playBoard_eq h hm]
  exact kingAttacked_iff (h.play hm) p.turn

theorem inCheck_iff {g : Transform} {p : Setup} (h : g.Fits p.board) :
    InCheck (g.setup p) ↔ InCheck p := kingAttacked_iff h p.turn

theorem legalEp_eq {g : Transform} {p : Setup} (h : g.Fits p.board) :
    legalEp (g.setup p) = (legalEp p).map (g.symmetry • ·) := by
  unfold legalEp
  rw [setup_epSquare]
  cases hep : p.epSquare with
  | none => rfl
  | some ep =>
    have : (∃ s, Legal (g.setup p) (.enPassant s (g.symmetry • ep)))
        ↔ ∃ s, Legal p (.enPassant s ep) := by
      rw [(MulAction.surjective g.symmetry).exists]
      exact exists_congr (fun s => legal_iff h (.enPassant s ep))
    by_cases hl : ∃ s, Legal p (.enPassant s ep)
    · simp [Option.filter, this, hl]
    · simp [Option.filter, this, hl]

theorem normalize_eq {g : Transform} {p : Setup} (h : g.Fits p.board) :
    normalize (g.setup p) = g.setup (normalize p) := by
  ext1
  · rfl
  · rfl
  · rfl
  · exact legalEp_eq h

theorem oneKing_board {g : Transform} {b : Board} (h : OneKing b) : OneKing (g.board b) := by
  intro c
  obtain ⟨c, rfl⟩ : ∃ c', g.color c' = c := ⟨g.inv.color c, by
    have := g.inv.inv_color c; rwa [inv_inv] at this⟩
  obtain ⟨k, hk⟩ := h c
  refine ⟨g.symmetry • k, ?_⟩
  rw [(MulAction.surjective g.symmetry).forall]
  intro s
  rw [smul_left_cancel_iff, ← hk s]
  exact g.board_eq_some (x := ⟨c, .king⟩)

theorem pawnRanks_board {g : Transform} {b : Board} (hf : g.Fits b) (h : PawnRanks b) :
    PawnRanks (g.board b) := by
  unfold PawnRanks
  rw [(MulAction.surjective g.symmetry).forall]
  intro s pc hs hr
  rw [board_smul, Option.map_eq_some_iff] at hs
  obtain ⟨x, hx, rfl⟩ := hs
  have hk : g.KeepsPawns := hf.resolve_right (fun hn => hn s x hx hr)
  have hrr := hk.relativeRank .white s
  have := h s x hx hr
  rw [Color.relativeRank_white] at hrr
  cases hc : g.color .white with
  | white => rw [hc, Color.relativeRank_white] at hrr; rw [hrr]; exact this
  | black =>
    rw [hc, Color.relativeRank_black] at hrr
    rw [← hrr] at this
    revert this
    generalize (g.symmetry • s).rank = r
    revert r; decide

theorem epStructure_setup {g : Transform} {p : Setup} (hf : g.Fits p.board) (h : EpStructure p) :
    EpStructure (g.setup p) := by
  intro ep hep
  rw [setup_epSquare, Option.map_eq_some_iff] at hep
  obtain ⟨ep, hep, rfl⟩ := hep
  obtain ⟨h₁, h₂, h₃, h₄⟩ := h ep hep
  have hk : g.KeepsPawns := hf.resolve_right (fun hn => hn _ _ h₂ rfl)
  simp only [setup_turn, setup_board]
  refine ⟨by rw [hk.relativeRank, h₁], ?_, g.board_eq_none.mpr h₃, ?_⟩
  · rw [← hk.relativeSquare, ← color_other]
    exact g.board_eq_some (x := ⟨p.turn.other, .pawn⟩) |>.mpr h₂
  · rw [← hk.relativeSquare]
    exact g.board_eq_none.mpr h₄

/-- Transforms that fit a valid position keep it valid. -/
theorem valid_setup {g : Transform} {p : Setup} (hf : g.Fits p.board) (h : Valid p) :
    Valid (g.setup p) where
  castling := by simp [setup, h.castling]
  kings := oneKing_board h.kings
  pawns := pawnRanks_board hf h.pawns
  opposite := by
    rw [setup_board, setup_turn, ← color_other, kingAttacked_iff hf]
    exact h.opposite
  epStructure := epStructure_setup hf h.epStructure

end Transform

end ChessEgt
