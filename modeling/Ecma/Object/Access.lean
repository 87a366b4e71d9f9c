import Ecma.Object.Own

/-!
# Reading and writing along the prototype chain
-/

namespace Ecma

namespace Object

/-- Finds the nearest property under a key, at most `n` objects up the chain. -/
def findFrom (eng : Engine) (k : PropertyKey) : Nat → ObjectRef → Action (Option Descriptor)
  | 0, _ => Action.fault .outOfFuel
  | n + 1, o => do
    match ← getOwn eng o k with
    | some d => return some d
    | none =>
      match (← Action.object o).prototype with
      | some p => findFrom eng k n p
      | none => return none

/-- The nearest property under a key on the object or its prototypes. -/
def find (eng : Engine) (o : ObjectRef) (k : PropertyKey) : Action (Option Descriptor) :=
  findFrom eng k eng.fuel o

/-- Reads a property; an accessor is called with the receiver. -/
def get (eng : Engine) (o : ObjectRef) (k : PropertyKey) (receiver : Value) : Action Value := do
  match ← find eng o k with
  | none => return .undefined
  | some d =>
    if d.isAccessor then
      let getter := d.getter?.getD .undefined
      if getter.isUndefined then return .undefined else eng.call getter receiver []
    else return d.value?.getD .undefined

/-- Writes a plain value to the receiver itself. -/
def setOnReceiver (eng : Engine) (k : PropertyKey) (v : Value) : Value → Action Bool
  | .object receiver => do
    match ← getOwn eng receiver k with
    | some existing =>
      if existing.isAccessor || !existing.isWritable then return false
      else define eng receiver k (Descriptor.generic.withValue v)
    | none => createData eng receiver k v
  | _ => return false

/-- Writes a property.  The nearest property decides: a setter is called, a
read-only one refuses, and otherwise the receiver takes the value. -/
def set (eng : Engine) (o : ObjectRef) (k : PropertyKey) (v receiver : Value) : Action Bool := do
  let d := (← find eng o k).getD (.plain .undefined)
  if d.isData then
    if d.isWritable then setOnReceiver eng k v receiver else return false
  else
    let setter := d.setter?.getD .undefined
    if ← Action.isCallable setter then
      discard (eng.call setter receiver [v])
      return true
    else return false

end Object

end Ecma
