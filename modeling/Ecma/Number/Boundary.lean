import Ecma.Number.Rounding

/-!
# Rounding boundaries

A `BinaryFraction` is `significand · 2 ^ exponent` with a full 64-bit
significand.  The boundaries of a double are the midpoints to its two
neighbours, both written with the exponent of the normalised upper one.
-/

namespace Ecma

structure BinaryFraction where
  significand : UInt64
  exponent : Int
  deriving DecidableEq, Inhabited

namespace BinaryFraction

/-- The exponent of the subnormal numbers. -/
def minExponent : Int := -1074

/-- The exact value of a finite positive double. -/
def ofBinary64 (x : Binary64) : BinaryFraction :=
  ⟨UInt64.ofNat x.significand, minExponent + x.power⟩

/-- Shifts the significand left until its top bit is set. -/
def normalize (w : BinaryFraction) : BinaryFraction :=
  let shift := 63 - w.significand.toNat.log2
  ⟨w.significand <<< UInt64.ofNat shift, w.exponent - shift⟩

/-- Whether the next smaller double is half as far away as the next larger one,
as it is at the powers of two above the subnormal numbers. -/
def lowerIsCloser (w : BinaryFraction) : Bool :=
  decide (w.significand.toNat = Binary64.hiddenBit) && decide (w.exponent ≠ minExponent)

/-- The midpoint to the next larger double. -/
def upperMidpoint (w : BinaryFraction) : BinaryFraction :=
  normalize ⟨(w.significand <<< 1) + 1, w.exponent - 1⟩

/-- The midpoint to the next smaller double. -/
def lowerMidpoint (w : BinaryFraction) : BinaryFraction :=
  if w.lowerIsCloser then ⟨(w.significand <<< 2) - 1, w.exponent - 2⟩
  else ⟨(w.significand <<< 1) - 1, w.exponent - 1⟩

/-- The same value with a smaller exponent. -/
def withExponent (w : BinaryFraction) (e : Int) : BinaryFraction :=
  ⟨w.significand <<< UInt64.ofNat (w.exponent - e).toNat, e⟩

/-- The lower and the upper boundary of a finite positive double. -/
def boundaries (x : Binary64) : BinaryFraction × BinaryFraction :=
  let w := ofBinary64 x
  let high := w.upperMidpoint
  (w.lowerMidpoint.withExponent high.exponent, high)

end BinaryFraction

end Ecma
