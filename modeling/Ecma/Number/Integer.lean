import Ecma.Number.Rounding

/-!
# Fixed-width integers of a number

The integer part of a finite number, reduced modulo a power of two; a NaN or
an infinity counts as zero.  The reduction is done with doubles: the integer
part, its remainder and the sum that makes the remainder positive are doubles
again, so that nothing is rounded.  The bitwise operations work on these
residues.
-/

namespace Ecma

namespace Binary64

/-! ## Saturation -/

/-- The integer part, or the end of the range that it is beyond; a NaN becomes zero. -/
def clampTo (low high : Int) (x : Binary64) : Int :=
  if x.isNaN then 0 else max low (min high x.truncate)

def saturateInt32 (x : Binary64) : Int32 := Int32.ofInt (x.clampTo (-2147483648) 2147483647)

def saturateUInt32 (x : Binary64) : UInt32 := UInt32.ofInt (x.clampTo 0 4294967295)

/-! ## Residues -/

/-- `2 ^ 32` -/
def wordSize : Binary64 := ⟨0x41f0000000000000⟩

/-- The remainder that is not negative. -/
def remEuclid (x y : Binary64) : Binary64 :=
  let r := x.rem y
  if r.lessThan? zero = some true then r.add y.abs else r

/-- The integer part modulo `2 ^ 32`. -/
def toUInt32 (x : Binary64) : UInt32 :=
  if !x.isFinite || x.isZero then 0 else (x.trunc.remEuclid wordSize).saturateUInt32

def toInt32 (x : Binary64) : Int32 := x.toUInt32.toInt32

def toUInt16 (x : Binary64) : UInt16 := x.toUInt32.toUInt16

def ofInt32 (i : Int32) : Binary64 := ofInt i.toInt

def ofUInt32 (n : UInt32) : Binary64 := ofNat n.toNat

/-- Whether the number is the value of a 32-bit integer; negative zero is not. -/
def isInt32 (x : Binary64) : Bool := (ofInt32 x.saturateInt32).equal x && !x.isNegativeZero

/-! ## Bitwise operations -/

def bitNot (x : Binary64) : Binary64 := ofInt32 (~~~ x.toInt32)

def bitAnd (x y : Binary64) : Binary64 := ofInt32 (x.toInt32 &&& y.toInt32)

def bitXor (x y : Binary64) : Binary64 := ofInt32 (x.toInt32 ^^^ y.toInt32)

def bitOr (x y : Binary64) : Binary64 := ofInt32 (x.toInt32 ||| y.toInt32)

/-- A shift moves by the low five bits of its right operand. -/
def shiftAmount (y : Binary64) : UInt32 := y.toUInt32 &&& 31

def shiftLeft (x y : Binary64) : Binary64 :=
  ofInt32 (x.toInt32 <<< y.shiftAmount.toInt32)

/-- The right shift that copies the sign. -/
def shiftRight (x y : Binary64) : Binary64 :=
  ofInt32 (x.toInt32 >>> y.shiftAmount.toInt32)

/-- The right shift that fills with zeros. -/
def shiftRightZero (x y : Binary64) : Binary64 :=
  ofUInt32 (x.toUInt32 >>> y.shiftAmount)

end Binary64

/-! ## Tagged numbers -/

/-- A number that remembers whether it is the value of a 32-bit integer. -/
structure Numeric where
  value : Binary64
  isInteger : Bool
  deriving DecidableEq, Inhabited

namespace Numeric

def ofBinary64 (x : Binary64) : Numeric := ⟨x, x.isInt32⟩

def ofInt32 (i : Int32) : Numeric := ⟨Binary64.ofInt32 i, true⟩

/-- The integer a tagged number stands for. -/
def int32? (n : Numeric) : Option Int32 :=
  if n.isInteger then some n.value.saturateInt32 else none

def toInt32 (n : Numeric) : Int32 := n.int32?.getD n.value.toInt32

def toUInt32 (n : Numeric) : UInt32 :=
  match n.int32? with
  | some i => i.toUInt32
  | none => n.value.toUInt32

def toUInt16 (n : Numeric) : UInt16 :=
  match n.int32? with
  | some i => i.toUInt32.toUInt16
  | none => n.value.toUInt16

end Numeric

end Ecma
