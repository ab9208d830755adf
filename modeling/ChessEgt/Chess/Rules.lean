import ChessEgt.Chess.Board

/-!
# The rules of chess

The rules for positions without castling rights, and the interface through which the program
uses its chess library.

* `Rules.Attacks` — the squares that a piece attacks over an occupancy;
* `Rules.Legal`, `Rules.play` — the legal moves and their effect;
* `Rules.Valid` — the positions the tablebases are about: one king a side, no pawns on the
  back ranks, the side that just moved not in check, a structurally sound en passant square.
  Checks that no game can reach are accepted;
* `Rules.normalize` — keeps an en passant square only if it can be captured on;
* `Shakmaty`, `LawfulShakmaty` — the chess library, and that it follows the rules.
-/

namespace ChessEgt

namespace Rules

/-! ### Attacks -/

/-- The square `u` lies strictly between `s` and `t`, which share a line or a diagonal. -/
def Between (s t u : Square) : Prop :=
  u ≠ s ∧ u ≠ t ∧ rankDist s u + rankDist u t = rankDist s t ∧
    fileDist s u + fileDist u t = fileDist s t ∧
    (rankDist s t = fileDist s t → rankDist s u = fileDist s u)

instance (s t u : Square) : Decidable (Between s t u) := by
  unfold Between; infer_instance

/-- Distinct squares on one rank or file. -/
def Straight (s t : Square) : Prop :=
  (rankDist s t = 0 ∧ 0 < fileDist s t) ∨ (fileDist s t = 0 ∧ 0 < rankDist s t)

instance (s t : Square) : Decidable (Straight s t) := by
  unfold Straight; infer_instance

/-- Distinct squares on one diagonal. -/
def Diagonal (s t : Square) : Prop := rankDist s t = fileDist s t ∧ 0 < rankDist s t

instance (s t : Square) : Decidable (Diagonal s t) := by
  unfold Diagonal; infer_instance

/-- No square between `s` and `t` is occupied. -/
def Clear (occ : Bitboard) (s t : Square) : Prop := ∀ u, Between s t u → occ u = false

instance (occ : Bitboard) (s t : Square) : Decidable (Clear occ s t) := by
  unfold Clear; infer_instance

/-- A piece on `s` attacks `t` over the occupancy `occ`. -/
def Attacks (occ : Bitboard) (pc : Piece) (s t : Square) : Prop :=
  match pc.role with
  | .pawn => fileDist s t = 1 ∧
      (pc.color.relativeRank t.rank).val = (pc.color.relativeRank s.rank).val + 1
  | .knight => (rankDist s t = 1 ∧ fileDist s t = 2) ∨ (rankDist s t = 2 ∧ fileDist s t = 1)
  | .bishop => Diagonal s t ∧ Clear occ s t
  | .rook => Straight s t ∧ Clear occ s t
  | .queen => (Straight s t ∨ Diagonal s t) ∧ Clear occ s t
  | .king => s ≠ t ∧ rankDist s t ≤ 1 ∧ fileDist s t ≤ 1

instance (occ : Bitboard) (pc : Piece) (s t : Square) : Decidable (Attacks occ pc s t) := by
  unfold Attacks; cases pc.role <;> infer_instance

/-- A piece of color `c` on `s` attacks `t`. -/
def AttackedFrom (b : Board) (c : Color) (s t : Square) : Prop :=
  match b s with
  | some pc => pc.color = c ∧ Attacks b.occupied pc s t
  | none => False

instance (b : Board) (c : Color) (s t : Square) : Decidable (AttackedFrom b c s t) := by
  unfold AttackedFrom; cases b s <;> infer_instance

theorem attackedFrom_iff {b : Board} {c : Color} {s t : Square} :
    AttackedFrom b c s t ↔ ∃ pc, b s = some pc ∧ pc.color = c ∧ Attacks b.occupied pc s t := by
  unfold AttackedFrom
  cases b s <;> simp

/-- The king of color `c` is attacked. -/
def KingAttacked (b : Board) (c : Color) : Prop :=
  ∃ k, b k = some ⟨c, .king⟩ ∧ ∃ s, AttackedFrom b c.other s k

instance (b : Board) (c : Color) : Decidable (KingAttacked b c) := by
  unfold KingAttacked; infer_instance

/-! ### Moves -/

/-- The square on file `f` and on the rank `r` seen from the side of `c`. -/
def relativeSquare (c : Color) (r : Rank) (f : File) : Square := ⟨c.relativeRank r, f⟩

/-- A pawn of color `c` on `s` can push to `t`, two ranks from its second rank. -/
def PawnPush (b : Board) (c : Color) (s t : Square) : Prop :=
  s.file = t.file ∧ b t = none ∧
    ((c.relativeRank t.rank).val = (c.relativeRank s.rank).val + 1 ∨
      (c.relativeRank s.rank = 1 ∧ c.relativeRank t.rank = 3 ∧
        b (relativeSquare c 2 s.file) = none))

instance (b : Board) (c : Color) (s t : Square) : Decidable (PawnPush b c s t) := by
  unfold PawnPush; infer_instance

/-- The promotion of a move to `t`: pawns promote on the last rank and only there. -/
def PromotionRule (c : Color) (t : Square) (promotion : Option Role) : Prop :=
  if c.relativeRank t.rank = 7 then
    promotion = some .knight ∨ promotion = some .bishop ∨ promotion = some .rook ∨
      promotion = some .queen
  else promotion = none

instance (c : Color) (t : Square) (pr : Option Role) : Decidable (PromotionRule c t pr) := by
  unfold PromotionRule; infer_instance

/-- A move that obeys the movement rules, whether or not it leaves the king attacked. -/
def PseudoLegal (p : Setup) : Move → Prop
  | .normal role s capture t promotion =>
    p.board s = some ⟨p.turn, role⟩ ∧ capture = (p.board t).map (·.role) ∧
      p.board.byColor p.turn t = false ∧
      if role = .pawn then
        PromotionRule p.turn t promotion ∧
          ((p.board.occupied t = true ∧ Attacks p.board.occupied ⟨p.turn, .pawn⟩ s t) ∨
            PawnPush p.board p.turn s t)
      else promotion = none ∧ Attacks p.board.occupied ⟨p.turn, role⟩ s t
  | .enPassant s t =>
    p.board s = some ⟨p.turn, .pawn⟩ ∧ p.epSquare = some t ∧
      Attacks p.board.occupied ⟨p.turn, .pawn⟩ s t

instance (p : Setup) (m : Move) : Decidable (PseudoLegal p m) := by
  cases m <;> unfold PseudoLegal <;> infer_instance

/-- A pawn move from the second rank to the fourth. -/
def IsDoublePush (c : Color) (role : Role) (s t : Square) : Prop :=
  role = .pawn ∧ c.relativeRank s.rank = 1 ∧ c.relativeRank t.rank = 3

instance (c : Color) (r : Role) (s t : Square) : Decidable (IsDoublePush c r s t) := by
  unfold IsDoublePush; infer_instance

/-- The board after a move of color `c`. -/
def playBoard (b : Board) (c : Color) : Move → Board
  | .normal role s _ t promotion => fun u =>
    if u = t then some ⟨c, promotion.getD role⟩ else if u = s then none else b u
  | .enPassant s t => fun u =>
    if u = t then some ⟨c, .pawn⟩ else if u = s ∨ u = ⟨s.rank, t.file⟩ then none else b u

/-- The en passant square after a move of color `c`: every double push leaves one. -/
def playEpSquare (c : Color) : Move → Option Square
  | .normal role s _ t _ =>
    if IsDoublePush c role s t then some (relativeSquare c 2 s.file) else none
  | .enPassant _ _ => none

/-- The position after a move. -/
def play (p : Setup) (m : Move) : Setup where
  board := playBoard p.board p.turn m
  turn := p.turn.other
  castlingRights := p.castlingRights
  epSquare := playEpSquare p.turn m

/-- A legal move does not leave the own king attacked. -/
def Legal (p : Setup) (m : Move) : Prop :=
  PseudoLegal p m ∧ ¬ KingAttacked (playBoard p.board p.turn m) p.turn

instance (p : Setup) (m : Move) : Decidable (Legal p m) := by
  unfold Legal; infer_instance

/-- The side to move is in check. -/
def InCheck (p : Setup) : Prop := KingAttacked p.board p.turn

instance (p : Setup) : Decidable (InCheck p) := by unfold InCheck; infer_instance

/-! ### Valid positions -/

/-- The pawn that an en passant square stands for has just moved two ranks. -/
def EpStructure (p : Setup) : Prop :=
  ∀ ep, p.epSquare = some ep → p.turn.relativeRank ep.rank = 5 ∧
    p.board (relativeSquare p.turn 4 ep.file) = some ⟨p.turn.other, .pawn⟩ ∧
    p.board ep = none ∧ p.board (relativeSquare p.turn 6 ep.file) = none

instance (p : Setup) : Decidable (EpStructure p) := by unfold EpStructure; infer_instance

/-- Exactly one king of each color. -/
def OneKing (b : Board) : Prop := ∀ c, ∃ k, ∀ s, b s = some ⟨c, .king⟩ ↔ s = k

/-- No pawns on the first or the last rank. -/
def PawnRanks (b : Board) : Prop := ∀ s pc, b s = some pc → pc.role = .pawn →
  s.rank ≠ 0 ∧ s.rank ≠ 7

/-- The positions that tablebases are about. -/
structure Valid (p : Setup) : Prop where
  castling : p.castlingRights = []
  kings : OneKing p.board
  pawns : PawnRanks p.board
  opposite : ¬ KingAttacked p.board p.turn.other
  epStructure : EpStructure p

/-- The en passant square, if a capture on it is legal. -/
def legalEp (p : Setup) : Option Square :=
  p.epSquare.filter fun ep => decide (∃ s, Legal p (.enPassant s ep))

/-- The position with its en passant square kept only if a capture on it is legal. -/
def normalize (p : Setup) : Setup := { p with epSquare := legalEp p }

end Rules

/-! ### The chess library -/

/-- The functions of the chess library. -/
class Shakmaty where
  attacks : Square → Piece → Bitboard → Bitboard
  pawnAttacks : Color → Square → Bitboard
  attacksTo : Board → Square → Color → Bitboard → Bitboard
  fromSetupUnchecked : Setup → Chess
  legalEpSquare : Chess → Option Square
  legalMoves : Chess → List Move
  isCheck : Chess → Bool
  playUnchecked : Chess → Move → Chess

open Rules in
/-- The chess library follows the rules of chess. -/
class LawfulShakmaty [Shakmaty] : Prop where
  attacks_iff : ∀ s pc occ t, Shakmaty.attacks s pc occ t = true ↔ Attacks occ pc s t
  pawnAttacks_iff : ∀ c s t, Shakmaty.pawnAttacks c s t = true ↔
    Attacks (fun _ => false) ⟨c, .pawn⟩ s t
  attacksTo_iff : ∀ (b : Board) t c occ s, Shakmaty.attacksTo b t c occ s = true ↔
    ∃ pc, b s = some pc ∧ pc.color = c ∧ Attacks occ pc s t
  fromSetupUnchecked_eq : ∀ s : Setup, s.castlingRights = [] → EpStructure s →
    Shakmaty.fromSetupUnchecked s = s
  legalEpSquare_eq : ∀ p, Valid p → Shakmaty.legalEpSquare p = legalEp p
  legalMoves_nodup : ∀ p, Valid p → (Shakmaty.legalMoves p).Nodup
  mem_legalMoves : ∀ p, Valid p → ∀ m, m ∈ Shakmaty.legalMoves p ↔ Legal p m
  isCheck_iff : ∀ p, Valid p → (Shakmaty.isCheck p = true ↔ InCheck p)
  playUnchecked_eq : ∀ p, Valid p → ∀ m, Legal p m → Shakmaty.playUnchecked p m = play p m

end ChessEgt
