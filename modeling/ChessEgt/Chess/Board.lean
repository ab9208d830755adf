import Mathlib

/-!
# Boards, setups and moves

The value types of the chess library that the program uses: squares with a rank and a file,
pieces, bitboards, boards, setups (a position is stored like the setup it was built from), and
moves.

* `Square`, `Bitboard`, `Board`, `Setup`, `Move` — the data;
* `Square.all`, `Bitboard.toList` — the order in which squares are iterated;
* `rankDist`, `fileDist`, `relRank` — the distances that movement rules are stated in.
-/

namespace ChessEgt

/-- Ranks and files are numbered from zero. -/
instance neZero_eight : NeZero 8 := ⟨by decide⟩

/-- The color of a piece, or of the side to move. -/
inductive Color where
  | white
  | black
  deriving DecidableEq, Repr

namespace Color

instance : Fintype Color := ⟨{white, black}, fun c => by cases c <;> decide⟩

/-- The opponent's color. -/
def other : Color → Color
  | white => black
  | black => white

@[simp] theorem other_other (c : Color) : c.other.other = c := by cases c <;> rfl
@[simp] theorem other_white : white.other = black := rfl
@[simp] theorem other_black : black.other = white := rfl
@[simp] theorem other_ne (c : Color) : c.other ≠ c := by cases c <;> decide
@[simp] theorem ne_other (c : Color) : c ≠ c.other := by cases c <;> decide

theorem other_inj {c d : Color} : c.other = d.other ↔ c = d := by
  cases c <;> cases d <;> decide

theorem eq_other_iff {c d : Color} : c = d.other ↔ c ≠ d := by
  cases c <;> cases d <;> decide

theorem eq_or_eq_other (c d : Color) : c = d ∨ c = d.other := by
  cases c <;> cases d <;> decide

end Color

/-- The role of a piece, in increasing order. -/
inductive Role where
  | pawn
  | knight
  | bishop
  | rook
  | queen
  | king
  deriving DecidableEq, Repr

/-- All roles in increasing order. -/
def Role.all : List Role := [.pawn, .knight, .bishop, .rook, .queen, .king]

theorem Role.mem_all (r : Role) : r ∈ Role.all := by cases r <;> decide

instance : Fintype Role := ⟨⟨Role.all, by decide⟩, Role.mem_all⟩

/-- A role with a color. -/
structure Piece where
  color : Color
  role : Role
  deriving DecidableEq, Repr, Fintype

abbrev Rank := Fin 8
abbrev File := Fin 8

/-! ### Squares -/

/-- A square of the board. -/
@[ext] structure Square where
  rank : Rank
  file : File
  deriving DecidableEq, Repr

namespace Square

/-- Squares as pairs of a rank and a file. -/
def equivProd : Square ≃ Rank × File where
  toFun s := (s.rank, s.file)
  invFun p := ⟨p.1, p.2⟩

instance : Fintype Square := Fintype.ofEquiv _ equivProd.symm

/-- All squares, rank by rank. -/
def all : List Square :=
  (List.finRange 8).flatMap fun r => (List.finRange 8).map fun f => ⟨r, f⟩

theorem mem_all (s : Square) : s ∈ all := by
  simp [all]

theorem nodup_all : all.Nodup := by decide +kernel

/-- The mirror image on the other wing. -/
def flipHorizontal (s : Square) : Square := ⟨s.rank, s.file.rev⟩

@[simp] theorem flipHorizontal_rank (s : Square) : s.flipHorizontal.rank = s.rank := rfl
@[simp] theorem flipHorizontal_file (s : Square) : s.flipHorizontal.file = s.file.rev := rfl
@[simp] theorem flipHorizontal_flipHorizontal (s : Square) :
    s.flipHorizontal.flipHorizontal = s := by
  simp [flipHorizontal]

end Square

/-- The rank seen from the side of color `c`: pawns of `c` move to increasing ranks. -/
def Color.relativeRank (c : Color) (r : Rank) : Rank :=
  match c with
  | .white => r
  | .black => r.rev

@[simp] theorem Color.relativeRank_white (r : Rank) : Color.white.relativeRank r = r := rfl
@[simp] theorem Color.relativeRank_black (r : Rank) : Color.black.relativeRank r = r.rev := rfl

@[simp] theorem Color.relativeRank_relativeRank (c : Color) (r : Rank) :
    c.relativeRank (c.relativeRank r) = r := by
  cases c <;> simp

theorem Color.relativeRank_other (c : Color) (r : Rank) :
    c.other.relativeRank r = (c.relativeRank r).rev := by
  cases c <;> simp

theorem Color.relativeRank_rev (c : Color) (r : Rank) :
    c.relativeRank r.rev = (c.relativeRank r).rev := by
  cases c <;> simp

theorem Color.relativeRank_inj {c : Color} {r r' : Rank} :
    c.relativeRank r = c.relativeRank r' ↔ r = r' := by
  cases c <;> simp

/-- The number of ranks between two squares. -/
def rankDist (s t : Square) : ℕ := (s.rank.val - t.rank.val) + (t.rank.val - s.rank.val)

/-- The number of files between two squares. -/
def fileDist (s t : Square) : ℕ := (s.file.val - t.file.val) + (t.file.val - s.file.val)

theorem rankDist_comm (s t : Square) : rankDist s t = rankDist t s := by
  unfold rankDist; omega

theorem fileDist_comm (s t : Square) : fileDist s t = fileDist t s := by
  unfold fileDist; omega

theorem rankDist_eq_zero {s t : Square} : rankDist s t = 0 ↔ s.rank = t.rank := by
  unfold rankDist; rw [Fin.ext_iff]; omega

theorem fileDist_eq_zero {s t : Square} : fileDist s t = 0 ↔ s.file = t.file := by
  unfold fileDist; rw [Fin.ext_iff]; omega

/-! ### Bitboards and boards -/

/-- A set of squares. -/
abbrev Bitboard := Square → Bool

namespace Bitboard

/-- The squares of a set in ascending order. -/
def toList (b : Bitboard) : List Square := Square.all.filter b

/-- The number of squares of a set. -/
def count (b : Bitboard) : ℕ := b.toList.length

/-- Whether the set has no squares. -/
def isEmpty (b : Bitboard) : Bool := b.toList.isEmpty

/-- The intersection of two sets. -/
def inter (a b : Bitboard) : Bitboard := fun s => a s && b s

/-- The complement of a set. -/
def compl (a : Bitboard) : Bitboard := fun s => !a s

/-- The squares of a file. -/
def fromFile (f : File) : Bitboard := fun s => s.file = f

/-- The squares of a rank. -/
def fromRank (r : Rank) : Bitboard := fun s => s.rank = r

/-- The first and the last rank. -/
def backranks : Bitboard := fun s => s.rank = 0 || s.rank = 7

@[simp] theorem mem_toList {b : Bitboard} {s : Square} : s ∈ b.toList ↔ b s = true := by
  simp [toList, Square.mem_all]

theorem nodup_toList (b : Bitboard) : b.toList.Nodup := Square.nodup_all.filter _

theorem isEmpty_iff {b : Bitboard} : b.isEmpty = true ↔ ∀ s, b s = false := by
  simp [isEmpty, toList, List.filter_eq_nil_iff, Square.mem_all]

@[simp] theorem inter_apply (a b : Bitboard) (s : Square) : a.inter b s = (a s && b s) := rfl
@[simp] theorem compl_apply (a : Bitboard) (s : Square) : a.compl s = !a s := rfl
@[simp] theorem fromFile_apply (f : File) (s : Square) : fromFile f s = decide (s.file = f) := rfl
@[simp] theorem fromRank_apply (r : Rank) (s : Square) : fromRank r s = decide (s.rank = r) := rfl

end Bitboard

/-- The piece on each square. -/
abbrev Board := Square → Option Piece

namespace Board

def occupied (b : Board) : Bitboard := fun s => (b s).isSome

def byColor (b : Board) (c : Color) : Bitboard := fun s => (b s).any (·.color = c)

def byRole (b : Board) (r : Role) : Bitboard := fun s => (b s).any (·.role = r)

def byPiece (b : Board) (p : Piece) : Bitboard := fun s => b s = some p

def pawns (b : Board) : Bitboard := b.byRole .pawn

/-- The square of a king. -/
def kingOf (b : Board) (c : Color) : Option Square := (b.byPiece ⟨c, .king⟩).toList.head?

def setPieceAt (b : Board) (s : Square) (p : Piece) : Board := Function.update b s (some p)

def discardPieceAt (b : Board) (s : Square) : Board := Function.update b s none

@[simp] theorem occupied_apply (b : Board) (s : Square) : b.occupied s = (b s).isSome := rfl

theorem byColor_apply {b : Board} {c : Color} {s : Square} :
    b.byColor c s = true ↔ ∃ p, b s = some p ∧ p.color = c := by
  simp [byColor, Option.any_eq_true]

theorem byRole_apply {b : Board} {r : Role} {s : Square} :
    b.byRole r s = true ↔ ∃ p, b s = some p ∧ p.role = r := by
  simp [byRole, Option.any_eq_true]

@[simp] theorem byPiece_apply (b : Board) (p : Piece) (s : Square) :
    b.byPiece p s = decide (b s = some p) := rfl

theorem byRole_inter_byColor (b : Board) (r : Role) (c : Color) :
    (b.byRole r).inter (b.byColor c) = b.byPiece ⟨c, r⟩ := by
  funext s
  rw [Bool.eq_iff_iff, Bitboard.inter_apply, Bool.and_eq_true, byRole_apply, byColor_apply,
    byPiece_apply, decide_eq_true_eq]
  constructor
  · rintro ⟨⟨p, hp, rfl⟩, q, hq, rfl⟩
    rw [hp, Option.some.injEq] at hq
    rw [hp, hq]
  · intro h
    exact ⟨⟨_, h, rfl⟩, _, h, rfl⟩

/-- The square of a unique king. -/
theorem kingOf_eq_some {b : Board} {c : Color} {k : Square} (hk : b k = some ⟨c, .king⟩)
    (huniq : ∀ s, b s = some ⟨c, .king⟩ → s = k) : b.kingOf c = some k := by
  have hmem : k ∈ (b.byPiece ⟨c, .king⟩).toList := by simp [hk]
  unfold kingOf
  cases hl : (b.byPiece ⟨c, .king⟩).toList with
  | nil => rw [hl] at hmem; exact absurd hmem List.not_mem_nil
  | cons s l =>
    have hs : s ∈ (b.byPiece ⟨c, .king⟩).toList := by rw [hl]; exact List.mem_cons_self
    rw [List.head?_cons, huniq s (by simpa using hs)]

end Board

/-! ### Setups and positions -/

/-- The description of a position: pieces, side to move, rooks with castling rights, and the
    en passant target square. -/
@[ext] structure Setup where
  board : Board
  turn : Color
  castlingRights : List Square
  epSquare : Option Square

/-- An empty board with White to move. -/
def Setup.empty : Setup := ⟨fun _ => none, .white, [], none⟩

/-- A position keeps the data of the setup it was built from. -/
abbrev Chess := Setup

/-! ### Moves -/

/-- A move of a position without castling rights. -/
inductive Move where
  | normal (role : Role) (source : Square) (capture : Option Role) (target : Square)
      (promotion : Option Role)
  | enPassant (source target : Square)
  deriving DecidableEq, Repr

namespace Move

/-- The role of the moving piece. -/
def role : Move → Role
  | normal r _ _ _ _ => r
  | enPassant _ _ => .pawn

/-- The origin of the moving piece. -/
def source : Move → Square
  | normal _ s _ _ _ => s
  | enPassant s _ => s

/-- The destination of the moving piece. -/
def target : Move → Square
  | normal _ _ _ t _ => t
  | enPassant _ t => t

def isCapture : Move → Bool
  | normal _ _ c _ _ => c.isSome
  | enPassant _ _ => true

def isPromotion : Move → Bool
  | normal _ _ _ _ p => p.isSome
  | enPassant _ _ => false

/-- Neither a capture nor a promotion. -/
def isQuiet (m : Move) : Bool := !m.isCapture && !m.isPromotion

theorem isQuiet_iff {m : Move} :
    m.isQuiet = true ↔ ∃ r s t, m = normal r s none t none := by
  cases m with
  | normal r s c t p => cases c <;> cases p <;> simp [isQuiet, isCapture, isPromotion]
  | enPassant s t => simp [isQuiet, isCapture]

end Move

end ChessEgt
