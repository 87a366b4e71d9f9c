import Ecma.Number.Integer
import Ecma.Number.Shortest

/-!
# The text of a number

Positional up to twenty-one digits before the point and six zeros after it,
with an exponent otherwise.  Integers that are represented exactly are written
directly.
-/

namespace Ecma

namespace Decimal

def digitText (digits : List Nat) : String := String.ofList (digits.map Nat.digitChar)

def zeros (n : Nat) : String := String.ofList (List.replicate n '0')

def exponentText (e : Int) : String :=
  (if e < 0 then "e-" else "e+") ++ toString e.natAbs

/-- The largest number of digits written before the point. -/
def maxPositional : Int := 21

/-- One more than the largest number of zeros written after the point. -/
def minPositional : Int := -6

def layout (d : Decimal) : String :=
  let count : Int := d.digits.length
  if count ≤ d.point ∧ d.point ≤ maxPositional then
    digitText d.digits ++ zeros (d.point - count).toNat
  else if 0 < d.point ∧ d.point ≤ maxPositional then
    digitText (d.digits.take d.point.toNat) ++ "." ++ digitText (d.digits.drop d.point.toNat)
  else if minPositional < d.point ∧ d.point ≤ 0 then
    "0." ++ zeros (-d.point).toNat ++ digitText d.digits
  else
    let rest := d.digits.drop 1
    digitText (d.digits.take 1) ++ (if rest.isEmpty then "" else "." ++ digitText rest) ++
      exponentText (d.point - 1)

end Decimal

namespace Binary64

/-- Whether the number is an integer of at most `2 ^ 53 - 1` in size. -/
def isSafeInteger (x : Binary64) : Bool :=
  x.isFinite && x.isIntegral && decide (x.absWord ≤ maxSafeInteger.absWord)

/-- The text of a number; both zeros are `0`. -/
def toText (x : Binary64) : String :=
  if x.isNaN then "NaN"
  else if x.isZero then "0"
  else if x.isInfinite then (if x.isNegative then "-Infinity" else "Infinity")
  else if x.isSafeInteger then toString x.truncate
  else (if x.isNegative then "-" else "") ++ (Decimal.shortest x.abs).layout

end Binary64

namespace Numeric

/-- The text of a tagged number, which for an integer is its decimal form. -/
def toText (n : Numeric) : String :=
  match n.int32? with
  | some i => toString i.toInt
  | none => n.value.toText

end Numeric

end Ecma
