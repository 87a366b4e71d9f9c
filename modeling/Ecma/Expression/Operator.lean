import Ecma.Conversion.Comparison

/-!
# Operators on evaluated operands
-/

namespace Ecma

namespace Operator

def unary (eng : Engine) (op : UnaryOperator) (v : Value) : Action Value := do
  match op with
  | .minus => return .ofBinary64 (← Conversion.toNumber eng v).neg
  | .plus => return .ofBinary64 (← Conversion.toNumber eng v)
  | .not => return .boolean !v.toBoolean
  | .bitNot => return .ofBinary64 (← Conversion.toNumber eng v).bitNot

/-- Joins texts if either operand is one, and adds numbers otherwise. -/
def add (eng : Engine) (x y : Value) : Action Value := do
  let px ← Conversion.toPrimitive eng x .default
  let py ← Conversion.toPrimitive eng y .default
  if px.isString || py.isString then
    let s ← Conversion.primitiveToText px
    let t ← Conversion.primitiveToText py
    return .string (s ++ t)
  else
    let a ← Conversion.primitiveToNumeric px
    let b ← Conversion.primitiveToNumeric py
    return .ofBinary64 (a.value.add b.value)

/-- Whether an object inherits from the prototype of a constructor. -/
def inheritsFrom (eng : Engine) (constructor value : Value) : Action Value := do
  match constructor, value with
  | .object c, .object o =>
    match ← Object.get eng c (.ofString "prototype") constructor with
    | .object prototype =>
      let h ← Action.heap
      return .boolean ((h.chain (h.object o).prototype).contains prototype)
    | _ => Action.throwNew .instancePrototype
  | _, _ => return .boolean false

/-- Asks the right operand, or looks at prototypes if it has no say. -/
def instanceOf (eng : Engine) (value target : Value) : Action Value := do
  if !target.isObject then Action.throwNew .instanceNotObject
  else
    match ← Conversion.getMethod eng target (.wellKnown .hasInstance) with
    | some handler => return .boolean (← eng.call handler target [value]).toBoolean
    | none =>
      if ← Action.isCallable target then inheritsFrom eng target value
      else Action.throwNew .instanceNotCallable

def hasKey (eng : Engine) (key target : Value) : Action Value := do
  match target with
  | .object o =>
    let k ← Conversion.toPropertyKey eng key
    return .boolean ((← Action.heap).hasProperty o k)
  | _ => Action.throwNew (.searchNotObject (← Action.display key) (← Action.display target))

/-- Applies an operation to the numbers of both operands, left before right. -/
def numeric (eng : Engine) (f : Binary64 → Binary64 → Binary64) (x y : Value) : Action Value := do
  let a ← Conversion.toNumber eng x
  let b ← Conversion.toNumber eng y
  return .ofBinary64 (f a b)

def binary (eng : Engine) (op : BinaryOperator) (x y : Value) : Action Value := do
  match op with
  | .add => add eng x y
  | .sub => numeric eng .sub x y
  | .mul => numeric eng .mul x y
  | .div => numeric eng .div x y
  | .rem => numeric eng .rem x y
  | .pow => numeric eng .pow x y
  | .equal => return .boolean (← Conversion.looseEqual eng x y)
  | .notEqual => return .boolean !(← Conversion.looseEqual eng x y)
  | .strictEqual => return .boolean (x.strictEqual y)
  | .strictNotEqual => return .boolean !(x.strictEqual y)
  | .less => return .boolean ((← Conversion.less eng x y true) == some true)
  | .greater => return .boolean ((← Conversion.less eng y x false) == some true)
  | .lessEqual => return .boolean ((← Conversion.less eng y x false) == some false)
  | .greaterEqual => return .boolean ((← Conversion.less eng x y true) == some false)
  | .shiftLeft => numeric eng .shiftLeft x y
  | .shiftRight => numeric eng .shiftRight x y
  | .shiftRightZero => numeric eng .shiftRightZero x y
  | .bitAnd => numeric eng .bitAnd x y
  | .bitOr => numeric eng .bitOr x y
  | .bitXor => numeric eng .bitXor x y
  | .hasKey => hasKey eng x y
  | .instanceOf => instanceOf eng x y

/-- Whether the left operand alone decides. -/
def shortCircuits (op : LogicalOperator) (v : Value) : Bool :=
  match op with
  | .and => !v.toBoolean
  | .or => v.toBoolean
  | .coalesce => !v.isNullish

def update (op : UpdateOperator) (x : Binary64) : Binary64 :=
  match op with
  | .increment => x.add .one
  | .decrement => x.sub .one

end Operator

end Ecma
