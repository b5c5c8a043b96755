/-!
# Prototypal — Value — Double

Number constants as double-precision bit patterns (`Double`).  A finite double is exactly `±
significand · 2 ^ (exponent - 1075)`, and `Double.nat?` is that value where it is a natural number;
both zeros are 0.
-/

namespace Prototypal

/-- A double-precision number, by its bits: sign, 11 bits of exponent, 52 bits of fraction. -/
structure Double where
  bits : UInt64
deriving DecidableEq, Repr, Inhabited

namespace Double

def isNegative (d : Double) : Bool := Nat.pow 2 63 ≤ d.bits.toNat

/-- The exponent field; its largest value marks infinities and what is no number. -/
def exponentField (d : Double) : Nat := d.bits.toNat / Nat.pow 2 52 % Nat.pow 2 11

def fraction (d : Double) : Nat := d.bits.toNat % Nat.pow 2 52

def isFinite (d : Double) : Bool := d.exponentField != 2047

def isNaN (d : Double) : Bool := d.exponentField == 2047 && d.fraction != 0

/-- The integer that the value is a power-of-two multiple of. -/
def significand (d : Double) : Nat :=
  if d.exponentField = 0 then d.fraction else Nat.pow 2 52 + d.fraction

/-- The power of two that scales the significand, counted from `-1075`. -/
def exponent (d : Double) : Nat := max d.exponentField 1

/-- The exact value, if it is a natural number. -/
def nat? (d : Double) : Option Nat :=
  if !d.isFinite || (d.isNegative && d.significand != 0) then none
  else if 1075 ≤ d.exponent then some (d.significand * Nat.pow 2 (d.exponent - 1075))
  else if d.significand % Nat.pow 2 (1075 - d.exponent) = 0 then
    some (d.significand / Nat.pow 2 (1075 - d.exponent))
  else none

end Double

end Prototypal
