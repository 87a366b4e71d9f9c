import Ecma.Number.Binary64

/-!
# Correct rounding and exact arithmetic

`roundRatio n d` is the word of the double nearest to `n / d` units, with ties
to the even significand and overflow to infinity.  Every operation below
computes its exact result and rounds it once.
-/

namespace Ecma

namespace Binary64

/-- The integer nearest to `n / d`; a tie goes to the even one. -/
def roundHalfEven (n d : Nat) : Nat :=
  let q := n / d
  let r := n % d
  if d < 2 * r ∨ (2 * r = d ∧ q % 2 = 1) then q + 1 else q

/-- The word of the double nearest to `n / d` units of `2 ^ -1074`.
A carry out of the significand runs into the exponent field, which is what
the next binade's first word is. -/
def roundRatio (n d : Nat) : Nat :=
  let p := (n / d).log2 - 52
  min (p * hiddenBit + roundHalfEven n (d * Nat.pow 2 p)) infinityWord

/-- The number with the given sign nearest to `n / d` units. -/
def ofUnits (negative : Bool) (n d : Nat) : Binary64 :=
  withSign negative (roundRatio n d)

/-- The double nearest to an integer; zero is positive. -/
def ofInt (i : Int) : Binary64 :=
  ofUnits (decide (i < 0)) (i.natAbs * unitsPerOne) 1

def ofNat (n : Nat) : Binary64 := ofUnits false (n * unitsPerOne) 1

/-! ## Integer part -/

/-- The integer part, towards zero, of a finite number. -/
def truncateNat (x : Binary64) : Nat := x.magnitude / unitsPerOne

def truncate (x : Binary64) : Int :=
  if x.isNegative then -(x.truncateNat : Int) else (x.truncateNat : Int)

/-- Whether a finite number has no fractional part. -/
def isIntegral (x : Binary64) : Bool := decide (x.magnitude % unitsPerOne = 0)

/-- The number without its fractional part; the sign of zero is kept. -/
def trunc (x : Binary64) : Binary64 :=
  if x.isFinite then ofUnits x.isNegative (x.truncateNat * unitsPerOne) 1 else x

/-! ## Arithmetic -/

/-- The signed value of a finite number in units. -/
def units (x : Binary64) : Int :=
  if x.isNegative then -(x.magnitude : Int) else (x.magnitude : Int)

/-- The sum; two zeros of one sign keep it, any other exact zero is positive. -/
def add (x y : Binary64) : Binary64 :=
  if x.isNaN || y.isNaN then nan
  else if x.isInfinite then
    if y.isInfinite && x.isNegative != y.isNegative then nan else x
  else if y.isInfinite then y
  else
    let total := x.units + y.units
    if total = 0 then withSign (x.isZero && x.isNegative && y.isNegative) 0
    else ofUnits (decide (total < 0)) total.natAbs 1

def sub (x y : Binary64) : Binary64 := x.add y.neg

def mul (x y : Binary64) : Binary64 :=
  let negative := x.isNegative != y.isNegative
  if x.isNaN || y.isNaN then nan
  else if x.isInfinite || y.isInfinite then
    if x.isZero || y.isZero then nan else withSign negative infinityWord
  else ofUnits negative (x.magnitude * y.magnitude) unitsPerOne

def div (x y : Binary64) : Binary64 :=
  let negative := x.isNegative != y.isNegative
  if x.isNaN || y.isNaN then nan
  else if x.isInfinite then
    if y.isInfinite then nan else withSign negative infinityWord
  else if y.isInfinite then withSign negative 0
  else if y.isZero then
    if x.isZero then nan else withSign negative infinityWord
  else ofUnits negative (x.magnitude * unitsPerOne) y.magnitude

/-- The remainder of the division that truncates; it has the sign of the dividend. -/
def rem (x y : Binary64) : Binary64 :=
  if x.isNaN || y.isNaN || x.isInfinite || y.isZero then nan
  else if y.isInfinite then x
  else ofUnits x.isNegative (x.magnitude % y.magnitude) 1

/-- The power; one to an infinite exponent has no value. -/
def pow (base exponent : Binary64) : Binary64 :=
  if exponent.isNaN then nan
  else if exponent.isZero then one
  else if base.abs = one && exponent.isInfinite then nan
  else ⟨(Float.ofBits base.bits ^ Float.ofBits exponent.bits).toBits⟩

end Binary64

end Ecma
