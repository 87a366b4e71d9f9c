import Ecma.Scope.Access
import Ecma.Tree.Declarations

/-!
# Function objects

A function object has a length and a name; a function of a script that is no
arrow also has a prototype object for what `new` creates with it.
-/

namespace Ecma

namespace Function

/-- The properties every function object starts with. -/
def baseData (prototype : ObjectRef) (cutover : Nat) (f : Callable) (name : String)
    (length : Nat) : Object :=
  let data := Object.new .function (some prototype) cutover
  let data := data.store (.ofString "length") (.data (.ofNat length) false false true)
  let data := data.store (.ofString "name") (.data (.ofString name) false false true)
  { data with callable := some f }

/-- Gives a function the object that instances inherit from. -/
def makeConstructor (o : ObjectRef) : Action Unit := do
  let prototype ← Action.newPlainObject
  Action.store prototype (.ofString "constructor") (.hidden (.object o))
  Action.store o (.ofString "prototype") (.data (.object prototype) true false false)

def create (f : Callable) (name : String) (length : Nat) : Action ObjectRef := do
  let state ← get
  let o ← Action.onHeap
    (·.addObject (baseData state.realm.functionPrototype state.options.cutover f name length))
  if f.isConstructor then makeConstructor o
  return o

/-- A function object of the host. -/
def createNative (name : String) (arity : Nat) (run : Value → List Value → HostProgram Value) :
    Action Value := do
  return .object (← create (.native name arity run) name arity)

/-- The closure of a function over a scope; `name` replaces the function's own. -/
def instantiate (f : FunctionNode) (s : ScopeRef) (name : Option String) : Action Value := do
  let strict := (← Action.scope s).isStrict || Tree.isStrict f.body
  let shown := (name.or f.name?).getD ""
  return .object (← create (.closure f s strict) shown f.params.length)

/-- Creates an object with a constructor; the constructor may give another. -/
def construct (eng : Engine) (f : Value) (args : List Value) : Action Value := do
  match f with
  | .object o =>
    if (← Action.object o).isConstructor then
      let prototype ← match ← Object.get eng o (.ofString "prototype") f with
        | .object p => pure p
        | _ => pure (← Action.realm).objectPrototype
      let this := Value.object (← Action.newObject .object (some prototype))
      let result ← eng.call f this args
      return if result.isObject then result else this
    else Action.throwNew (.notConstructor (← Action.display f))
  | _ => Action.throwNew (.notConstructor (← Action.display f))

end Function

end Ecma
