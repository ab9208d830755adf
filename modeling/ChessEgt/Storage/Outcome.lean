import ChessEgt.Dtc
import ChessEgt.Error

/-!
# Stored outcomes

An outcome in sixteen bits: a tag in the low three bits, and a distance or a counter above.

* `MaybeDtcOutcome` — the words of a working array, and what they stand for;
* `toNat_newWin`, `toNat_newLoss`, `toNat_newUnknown` — the words as numbers.
-/

namespace ChessEgt

structure MaybeDtcOutcome where
  bits : UInt16
  deriving DecidableEq, Repr

namespace MaybeDtcOutcome

def invalid : MaybeDtcOutcome := ⟨0b000⟩

def draw : MaybeDtcOutcome := ⟨0b001⟩

variable (self : MaybeDtcOutcome)

def isAssigned : Bool := self.bits &&& 0b111 ≠ 0b000

def isInvalid : Bool := self.bits = 0b000

def isUnknown : Bool := self.bits &&& 0b111 = 0b000 ∧ self.bits >>> 3 ≠ 0

def getUnknownCounter : UInt16 := self.bits >>> 3

def isDraw : Bool := self.bits = 0b001

def isWin : Bool := [0b010, 0b100, 0b110].contains (self.bits &&& 0b111)

def isLoss : Bool := [0b011, 0b101, 0b111].contains (self.bits &&& 0b111)

/-- The tag of a win. -/
def winBits : ConversionType → UInt16
  | .checkmate => 0b010
  | .capture => 0b100
  | .promotion => 0b110

/-- The tag of a loss. -/
def lossBits : ConversionType → UInt16
  | .checkmate => 0b011
  | .capture => 0b101
  | .promotion => 0b111

def newWin (ct : ConversionType) (distance : UInt16) : MaybeDtcOutcome :=
  ⟨winBits ct ||| distance <<< 3⟩

def newLoss (ct : ConversionType) (distance : UInt16) : MaybeDtcOutcome :=
  ⟨lossBits ct ||| distance <<< 3⟩

def newUnknown (counter : UInt16) : MaybeDtcOutcome := ⟨counter <<< 3⟩

/-- The outcome of a word, which is corrupted if it is not assigned. -/
def toOutcomeAt (index : ℕ) : Run DtcOutcome :=
  let n := (self.bits >>> 3).toNat
  match (self.bits &&& 0b111).toNat with
  | 0b001 => .ok .draw
  | 0b010 => .ok (.win .checkmate n)
  | 0b100 => .ok (.win .capture n)
  | 0b110 => .ok (.win .promotion n)
  | 0b011 => .ok (.loss .checkmate n)
  | 0b101 => .ok (.loss .capture n)
  | 0b111 => .ok (.loss .promotion n)
  | _ => .error (.error (.corruptedOutcome self.bits.toNat index))

/-! ### Words as numbers -/

theorem toNat_and_seven (w : UInt16) : (w &&& 0b111).toNat = w.toNat % 8 := by
  rw [UInt16.toNat_and]
  exact Nat.and_two_pow_sub_one_eq_mod w.toNat 3

theorem toNat_shiftRight_three (w : UInt16) : (w >>> 3).toNat = w.toNat / 8 := by
  rw [UInt16.toNat_shiftRight]
  exact Nat.shiftRight_eq_div_pow _ _

theorem toNat_shiftLeft_three {w : UInt16} (h : w.toNat < 8192) :
    (w <<< 3).toNat = 8 * w.toNat := by
  rw [UInt16.toNat_shiftLeft]
  show w.toNat <<< 3 % 2 ^ 16 = _
  rw [Nat.shiftLeft_eq, Nat.mod_eq_of_lt (by omega)]
  omega

/-- A tag and a distance. -/
theorem toNat_or_shiftLeft {t w : UInt16} (ht : t.toNat < 8) (hw : w.toNat < 8192) :
    (t ||| w <<< 3).toNat = t.toNat + 8 * w.toNat := by
  rw [UInt16.toNat_or, toNat_shiftLeft_three hw, Nat.lor_comm,
    show 8 * w.toNat = w.toNat <<< 3 by rw [Nat.shiftLeft_eq]; omega,
    ← Nat.shiftLeft_add_eq_or_of_lt (b := t.toNat) (i := 3) (by omega)]
  omega

theorem winBits_lt (ct : ConversionType) : (winBits ct).toNat < 8 := by cases ct <;> decide

theorem lossBits_lt (ct : ConversionType) : (lossBits ct).toNat < 8 := by cases ct <;> decide

theorem toNat_newWin (ct : ConversionType) {d : UInt16} (hd : d.toNat < 8192) :
    (newWin ct d).bits.toNat = (winBits ct).toNat + 8 * d.toNat :=
  toNat_or_shiftLeft (winBits_lt ct) hd

theorem toNat_newLoss (ct : ConversionType) {d : UInt16} (hd : d.toNat < 8192) :
    (newLoss ct d).bits.toNat = (lossBits ct).toNat + 8 * d.toNat :=
  toNat_or_shiftLeft (lossBits_lt ct) hd

theorem toNat_newUnknown {c : UInt16} (hc : c.toNat < 8192) :
    (newUnknown c).bits.toNat = 8 * c.toNat := toNat_shiftLeft_three hc

/-- A word is unknown if it has a counter and no tag. -/
theorem isUnknown_iff {w : MaybeDtcOutcome} :
    w.isUnknown = true ↔ w.bits.toNat % 8 = 0 ∧ w.bits.toNat ≠ 0 := by
  unfold isUnknown
  rw [decide_eq_true_eq, ne_eq, ← UInt16.toNat_inj, ← UInt16.toNat_inj, toNat_and_seven,
    toNat_shiftRight_three]
  show w.bits.toNat % 8 = 0 ∧ ¬ w.bits.toNat / 8 = 0 ↔ _
  omega

end MaybeDtcOutcome

end ChessEgt
