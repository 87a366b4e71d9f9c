/-!
# Double-precision numbers as words

A number is the sixty-four bits of an IEEE 754 double.  Its finite values are
whole multiples of `2 ^ -1074`, so every value below is an exact natural
number of those units; no machine arithmetic takes part.

The order of finite and infinite values is the order of their words, read with
the sign: that is `rank`, and comparisons are comparisons of ranks.
-/

namespace Ecma

/-- A double, as its bits. -/
structure Binary64 where
  bits : UInt64
  deriving DecidableEq, Inhabited

namespace Binary64

/-! ## Fields -/

def word (x : Binary64) : Nat := x.bits.toNat

def ofWord (n : Nat) : Binary64 := ⟨UInt64.ofNat n⟩

/-- The bit above the trailing significand, `2 ^ 52`. -/
def hiddenBit : Nat := 4503599627370496

/-- The top bit, `2 ^ 63`. -/
def signBit : Nat := 9223372036854775808

/-- The word of positive infinity, one above the largest finite word. -/
def infinityWord : Nat := 2047 * hiddenBit

/-- How many units of the smallest positive double make one, `2 ^ 1074`. -/
def unitsPerOne : Nat := Nat.pow 2 1074

def isNegative (x : Binary64) : Bool := decide (signBit ≤ x.word)

def exponentField (x : Binary64) : Nat := x.word / hiddenBit % 2048

def trailing (x : Binary64) : Nat := x.word % hiddenBit

/-- The word with its sign cleared. -/
def absWord (x : Binary64) : Nat := x.word % signBit

def isNaN (x : Binary64) : Bool := decide (infinityWord < x.absWord)

def isInfinite (x : Binary64) : Bool := decide (x.absWord = infinityWord)

def isFinite (x : Binary64) : Bool := decide (x.absWord < infinityWord)

def isZero (x : Binary64) : Bool := decide (x.absWord = 0)

def isNegativeZero (x : Binary64) : Bool := decide (x.word = signBit)

/-- The integer significand, with the hidden bit of normal numbers. -/
def significand (x : Binary64) : Nat :=
  if x.exponentField = 0 then x.trailing else x.trailing + hiddenBit

/-- The power of two the significand is multiplied by, counted from `2 ^ -1074`. -/
def power (x : Binary64) : Nat := x.exponentField - 1

/-- The absolute value of a finite number in units of `2 ^ -1074`. -/
def magnitude (x : Binary64) : Nat := x.significand * Nat.pow 2 x.power

/-! ## Constants and signs -/

def zero : Binary64 := ⟨0⟩

def negativeZero : Binary64 := ⟨0x8000000000000000⟩

def one : Binary64 := ⟨0x3ff0000000000000⟩

def nan : Binary64 := ⟨0x7ff8000000000000⟩

def infinity : Binary64 := ⟨0x7ff0000000000000⟩

def negativeInfinity : Binary64 := ⟨0xfff0000000000000⟩

/-- The largest integer below which all integers are represented, `2 ^ 53 - 1`. -/
def maxSafeInteger : Binary64 := ⟨0x433fffffffffffff⟩

/-- The number with the sign `negative` and the absolute value of the word `n`. -/
def withSign (negative : Bool) (n : Nat) : Binary64 :=
  ofWord (if negative then signBit + n else n)

def abs (x : Binary64) : Binary64 := withSign false x.absWord

/-- The opposite number; the opposite of a NaN is the one canonical NaN. -/
def neg (x : Binary64) : Binary64 :=
  if x.isNaN then nan else withSign (!x.isNegative) x.absWord

/-! ## Comparison -/

/-- The place of a number in the order of the doubles; both zeros have rank `0`. -/
def rank (x : Binary64) : Int :=
  if x.isNegative then -(x.absWord : Int) else (x.absWord : Int)

/-- Numeric equality: a NaN equals nothing, the zeros are equal. -/
def equal (x y : Binary64) : Bool :=
  !x.isNaN && !y.isNaN && decide (x.rank = y.rank)

/-- Like `equal`, but NaN is the same as NaN and the zeros are told apart. -/
def sameValue (x y : Binary64) : Bool :=
  if x.isNaN && y.isNaN then true
  else if x.isZero && y.isZero then x.isNegative == y.isNegative
  else x.equal y

/-- Like `sameValue`, but the zeros are the same. -/
def sameValueZero (x y : Binary64) : Bool :=
  if x.isNaN && y.isNaN then true else x.equal y

/-- Numeric order; `none` when an operand is a NaN. -/
def lessThan? (x y : Binary64) : Option Bool :=
  if x.isNaN || y.isNaN then none else some (decide (x.rank < y.rank))

end Binary64

end Ecma
