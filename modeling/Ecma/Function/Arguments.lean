import Ecma.Function.Create

/-!
# The arguments object

It holds the arguments of a call by index.  In sloppy functions an index that
belongs to a parameter is bound to that parameter's variable: of parameters
with one name, the last counts.
-/

namespace Ecma

namespace Arguments

def storeValues (i : Nat) : List Value → Object → Object
  | [], data => data
  | v :: rest, data => storeValues (i + 1) rest (data.store (.index i) (.plain v))

/-- The arguments by index, and their number. -/
def baseData (prototype : ObjectRef) (cutover : Nat) (args : List Value) : Object :=
  (storeValues 0 args (.new .arguments (some prototype) cutover)).store (.ofString "length")
    (.hidden (.ofNat args.length))

def createBase (args : List Value) : Action ObjectRef := do
  let state ← get
  Action.onHeap (·.addObject (baseData state.realm.objectPrototype state.options.cutover args))

/-- Refuses any access to the callee. -/
def thrower (_ : Value) (_ : List Value) : HostProgram Value :=
  .raise ScriptError.strictCallee.kind ScriptError.strictCallee.message

/-- The arguments object of a strict function. -/
def createUnmapped (args : List Value) : Action ObjectRef := do
  let o ← createBase args
  let f ← Function.createNative "" 0 thrower
  Action.store o (.ofString "callee") (.accessor (some f) (some f) false false)
  return o

/-- The parameters that are bound, from the last to the first: of each name the
last, if there is an argument for it. -/
def mappedFrom (count : Nat) (seen : List String) : List (String × Nat) → List (String × Nat)
  | [] => []
  | (name, i) :: rest =>
    if seen.contains name then mappedFrom count seen rest
    else if count ≤ i then mappedFrom count (name :: seen) rest
    else (name, i) :: mappedFrom count (name :: seen) rest

def mapped (params : List String) (count : Nat) : List (String × Nat) :=
  mappedFrom count [] params.zipIdx.reverse

def storeMapped (s : ScopeRef) (entries : List (String × Nat)) (data : Object) : Object :=
  entries.foldl (fun data e ↦ data.store (.index e.2) (.bound s e.1 true true)) data

/-- The arguments object of a sloppy function. -/
def createMapped (callee : ObjectRef) (params : List String) (args : List Value) (s : ScopeRef) :
    Action ObjectRef := do
  let o ← createBase args
  Action.modifyObject o (storeMapped s (mapped params args.length))
  Action.store o (.ofString "callee") (.hidden (.object callee))
  return o

end Arguments

end Ecma
