import Ecma.Conversion.Wrapper
import Ecma.Number.Literal

/-!
# Conversions to primitive values, numbers and texts
-/

namespace Ecma

namespace Conversion

/-- Calls the methods in turn until one gives a primitive value. -/
def tryMethods (eng : Engine) (o : ObjectRef) : List String → Action Value
  | [] => Action.throwNew .noPrimitive
  | name :: rest => do
    let method ← Object.get eng o (.ofString name) (.object o)
    if ← Action.isCallable method then
      let result ← eng.call method (.object o) []
      if result.isObject then tryMethods eng o rest else return result
    else tryMethods eng o rest

def ordinaryToPrimitive (eng : Engine) (o : ObjectRef) (hint : Hint) : Action Value :=
  tryMethods eng o hint.methods

/-- The primitive value of a value; an object's own conversion method comes first. -/
def toPrimitive (eng : Engine) (v : Value) (hint : Hint) : Action Value := do
  match v with
  | .object o =>
    match ← getMethod eng v (.wellKnown .toPrimitive) with
    | some method =>
      let result ← eng.call method v [.ofString hint.name]
      if result.isObject then Action.throwNew .noPrimitive else return result
    | none => ordinaryToPrimitive eng o hint
  | v => return v

/-! ## Numbers -/

/-- The number of a primitive value; an object has none here. -/
def primitiveToNumeric : Value → Action Numeric
  | .number n => return n
  | .undefined => return .ofBinary64 .nan
  | .null => return .ofInt32 0
  | .boolean b => return .ofInt32 (if b then 1 else 0)
  | .string t => return .ofBinary64 (.ofText t)
  | .symbol _ => Action.throwNew .symbolToNumber
  | .object _ => Action.throwNew .noPrimitive

def toNumeric (eng : Engine) (v : Value) : Action Numeric := do
  if v.isObject then primitiveToNumeric (← toPrimitive eng v .number) else primitiveToNumeric v

def toNumber (eng : Engine) (v : Value) : Action Binary64 := do
  return (← toNumeric eng v).value

/-- The integer part; NaN is zero, infinities and the sign of zero stay. -/
def toInteger (eng : Engine) (v : Value) : Action Binary64 := do
  let x ← toNumber eng v
  return if x.isNaN then .zero else x.trunc

/-- Like `toInteger`, without a negative zero. -/
def toIntegerOrInfinity (eng : Engine) (v : Value) : Action Binary64 := do
  let x ← toInteger eng v
  return if x.isZero then .zero else x

/-- A length: between `0` and `2 ^ 53 - 1`. -/
def toLength (eng : Engine) (v : Value) : Action Binary64 := do
  let x ← toIntegerOrInfinity eng v
  return if x.rank ≤ 0 then .zero
    else if Binary64.maxSafeInteger.rank ≤ x.rank then .maxSafeInteger
    else x

def toInt32 (eng : Engine) (v : Value) : Action Int32 := do return (← toNumeric eng v).toInt32

def toUInt32 (eng : Engine) (v : Value) : Action UInt32 := do return (← toNumeric eng v).toUInt32

def toUInt16 (eng : Engine) (v : Value) : Action UInt16 := do return (← toNumeric eng v).toUInt16

/-! ## Texts and keys -/

/-- The text of a primitive value; an object has none here. -/
def primitiveToText : Value → Action Text
  | .string t => return t
  | .number n => return Text.ofString n.toText
  | .undefined => return Text.ofString "undefined"
  | .null => return Text.ofString "null"
  | .boolean b => return Text.ofString (if b then "true" else "false")
  | .symbol _ => Action.throwNew .symbolToString
  | .object _ => Action.throwNew .noPrimitive

def toText (eng : Engine) (v : Value) : Action Text := do
  if v.isObject then primitiveToText (← toPrimitive eng v .string) else primitiveToText v

/-- The key a value names: a symbol itself, anything else by its text. -/
def toPropertyKey (eng : Engine) (v : Value) : Action PropertyKey := do
  match ← toPrimitive eng v .string with
  | .symbol s => return .symbol s
  | p => return .string (← primitiveToText p)

end Conversion

end Ecma
