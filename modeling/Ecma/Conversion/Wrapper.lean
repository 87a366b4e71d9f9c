import Ecma.Object.Access

/-!
# Objects of primitive values

A primitive value becomes an object of its class that holds it.  The object of
a text has a read-only property for each unit and its length.
-/

namespace Ecma

namespace Conversion

/-- The text of one unit. -/
def unitText (u : UInt16) : Value := .string ⟨[u]⟩

/-- Adds the unit properties from index `i` on; each unit is made on first read. -/
def storeUnits (i : Nat) : List UInt16 → Object → Action Object
  | [], data => pure data
  | u :: rest, data => do
    let cell ← Action.newCell (.constant (unitText u))
    storeUnits (i + 1) rest (data.store (.index i) (.lazy cell false true false))

def storeText (t : Text) (data : Object) : Action Object := do
  let data ← storeUnits 0 t.units data
  return data.store (.ofString "length") (.data (.ofNat t.length) false false false)

def wrap (c : ObjectClass) (prototype : ObjectRef) (v : Value) : Action ObjectRef := do
  let cutover := (← get).options.cutover
  let data : Object := { Object.new c (some prototype) cutover with primitive := some v }
  let data ← match v with
    | .string t => storeText t data
    | _ => pure data
  Action.onHeap (·.addObject data)

def toObject (v : Value) : Action ObjectRef := do
  let realm ← Action.realm
  match v with
  | .object o => return o
  | .undefined | .null => Action.throwNew (.notObject (← Action.display v))
  | .boolean _ => wrap .boolean realm.booleanPrototype v
  | .number _ => wrap .number realm.numberPrototype v
  | .string _ => wrap .string realm.stringPrototype v
  | .symbol _ => wrap .symbol realm.symbolPrototype v

/-- Refuses what has no object. -/
def requireObjectCoercible (v : Value) : Action Unit := do
  if v.isNullish then Action.throwNew (.notObject (← Action.display v))

/-! ## Properties of any value -/

/-- Reads a property of a value, through its object if it is primitive. -/
def getOf (eng : Engine) (v : Value) (k : PropertyKey) : Action Value := do
  Object.get eng (← toObject v) k v

/-- The method under a key, if there is one. -/
def getMethod (eng : Engine) (v : Value) (k : PropertyKey) : Action (Option Value) := do
  let f ← getOf eng v k
  if f.isNullish then return none
  else if ← Action.isCallable f then return some f
  else Action.throwNew (.notFunction k.display)

end Conversion

end Ecma
