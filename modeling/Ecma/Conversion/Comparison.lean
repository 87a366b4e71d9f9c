import Ecma.Conversion.Primitive

/-!
# Comparisons that convert
-/

namespace Ecma

namespace Value

/-- The same kind of value. -/
def sameType : Value → Value → Bool
  | .undefined, .undefined | .null, .null | .boolean _, .boolean _ | .number _, .number _
  | .string _, .string _ | .symbol _, .symbol _ | .object _, .object _ => true
  | _, _ => false

/-- A truth value as the number `1` or `0`. -/
def unboolean : Value → Value
  | .boolean b => .ofInt32 (if b then 1 else 0)
  | v => v

/-- Equality of a number and a text by the number of the text. -/
def equalAsNumbers : Value → Value → Bool
  | .number a, .number b => a.value.equal b.value
  | .number a, .string t => a.value.equal (.ofText t)
  | .string t, .number b => (Binary64.ofText t).equal b.value
  | _, _ => false

/-- Loose equality of primitive values. -/
def looseEqual (x y : Value) : Bool :=
  if x.sameType y then x.strictEqual y
  else if x.isNullish && y.isNullish then true
  else equalAsNumbers x.unboolean y.unboolean

end Value

namespace Conversion

/-- Loose equality: an object is compared with a primitive value through its own
primitive value, except that nothing but another object can equal it otherwise. -/
def looseEqual (eng : Engine) (x y : Value) : Action Bool := do
  match x, y with
  | .object a, .object b => return a == b
  | .object _, y =>
    if y.isNullish then return false
    else return (← toPrimitive eng x .default).looseEqual y.unboolean
  | x, .object _ =>
    if x.isNullish then return false
    else return x.unboolean.looseEqual (← toPrimitive eng y .default)
  | x, y => return x.looseEqual y

/-- The order of two primitive values: texts by their units, others as numbers. -/
def primitiveLess (x y : Value) : Action (Option Bool) := do
  match x, y with
  | .string s, .string t => return some (s.lessThan t)
  | x, y =>
    let a ← primitiveToNumeric x
    let b ← primitiveToNumeric y
    return a.value.lessThan? b.value

/-- Whether `x` is less than `y`, `none` when a NaN is involved.  The operands
are converted from left to right or the other way. -/
def less (eng : Engine) (x y : Value) (leftFirst : Bool) : Action (Option Bool) := do
  if leftFirst then
    let px ← toPrimitive eng x .number
    let py ← toPrimitive eng y .number
    primitiveLess px py
  else
    let py ← toPrimitive eng y .number
    let px ← toPrimitive eng x .number
    primitiveLess px py

end Conversion

end Ecma
