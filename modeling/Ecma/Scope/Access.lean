import Ecma.Object.Access

/-!
# Variables of a scope

Creating, reading, assigning and deleting variables, wherever the scope keeps
them.  In a global scope the variables of its own come before those of the
global object.
-/

namespace Ecma

namespace Scope

def keyOf (name : String) : PropertyKey := .ofString name

def throwBinding {α : Type} : BindingError → Action α
  | .script e => Action.throwNew e
  | .neverCreated => Action.fault (.invariant .bindingNeverCreated)

/-- Changes the variables that a scope holds itself; a refusal changes nothing. -/
def update (s : ScopeRef) (b : Bindings) (f : Bindings → Except BindingError Bindings) :
    Action Unit :=
  match f b with
  | .ok b => Action.modifyHeap (·.modifyScope s fun scope ↦
      { scope with record := scope.record.withBindings b })
  | .error e => throwBinding e

/-! ## Variables of an object -/

/-- Whether a `with` object hides one of its properties from scripts. -/
def isUnscopable (eng : Engine) (o : ObjectRef) (name : String) : Action Bool := do
  match ← Object.get eng o (.wellKnown .unscopables) (.object o) with
  | .object hidden => return (← Object.get eng hidden (keyOf name) (.object hidden)).toBoolean
  | _ => return false

def objectHas (eng : Engine) (o : ObjectRef) (isWith : Bool) (name : String) : Action Bool := do
  if (← Action.heap).hasProperty o (keyOf name) then
    if isWith then return !(← isUnscopable eng o name) else return true
  else return false

def objectCreate (eng : Engine) (o : ObjectRef) (name : String) (canDelete : Bool) : Action Unit :=
  Object.defineOrThrow eng o (keyOf name) (.data .undefined true true canDelete)

def objectSet (eng : Engine) (o : ObjectRef) (name : String) (v : Value) (strict : Bool) :
    Action Unit := do
  if !(← Action.heap).hasProperty o (keyOf name) && strict then
    Action.throwNew (.notDefined name)
  else if !(← Object.set eng o (keyOf name) v (.object o)) && strict then
    Action.throwNew (.readOnlyBinding name)

def objectGet (eng : Engine) (o : ObjectRef) (name : String) (strict : Bool) : Action Value := do
  if (← Action.heap).hasProperty o (keyOf name) then Object.get eng o (keyOf name) (.object o)
  else if strict then Action.throwNew (.notDefined name)
  else return .undefined

/-! ## Variables of any scope -/

def has (eng : Engine) (s : ScopeRef) (name : String) : Action Bool := do
  match (← Action.scope s).record with
  | .declarative b _ => return b.contains name
  | .object o isWith => objectHas eng o isWith name
  | .global o b _ => if b.contains name then return true else objectHas eng o false name

/-- Declares a variable. -/
def createMutable (eng : Engine) (s : ScopeRef) (name : String) (canDelete : Bool) :
    Action Unit := do
  match (← Action.scope s).record with
  | .declarative b _ | .global _ b _ => update s b (·.createMutable name canDelete)
  | .object o _ => objectCreate eng o name canDelete

/-- Declares a constant. -/
def createImmutable (s : ScopeRef) (name : String) (strict : Bool) : Action Unit := do
  match (← Action.scope s).record with
  | .declarative b _ | .global _ b _ => update s b (·.createImmutable name strict)
  | .object _ _ => Action.fault (.invariant .immutableObjectBinding)

/-- Gives a declared variable its first value. -/
def initialise (eng : Engine) (s : ScopeRef) (name : String) (v : Value) : Action Unit := do
  match (← Action.scope s).record with
  | .declarative b _ => update s b (·.initialise name v)
  | .object o _ => objectSet eng o name v false
  | .global o b _ =>
    if b.contains name then update s b (·.initialise name v) else objectSet eng o name v false

/-- Assigns to a variable. -/
def set (eng : Engine) (s : ScopeRef) (name : String) (v : Value) (strict : Bool) :
    Action Unit := do
  match (← Action.scope s).record with
  | .declarative b _ => update s b (·.set name v strict)
  | .object o _ => objectSet eng o name v strict
  | .global o b _ =>
    if b.contains name then update s b (·.set name v strict) else objectSet eng o name v strict

def readBindings (b : Bindings) (name : String) : Action Value :=
  match b.get name with
  | .ok v => return v
  | .error e => throwBinding e

def get (eng : Engine) (s : ScopeRef) (name : String) (strict : Bool) : Action Value := do
  match (← Action.scope s).record with
  | .declarative b _ => readBindings b name
  | .object o _ => objectGet eng o name strict
  | .global o b _ =>
    if b.contains name then readBindings b name else objectGet eng o name strict

/-- Removes a variable from those a scope holds itself, if that is allowed. -/
def deleteBinding (s : ScopeRef) (b : Bindings) (name : String) : Action Bool := do
  let (deleted, b) := b.delete name
  Action.modifyHeap (·.modifyScope s fun scope ↦
    { scope with record := scope.record.withBindings b })
  return deleted

/-- Changes the names that scripts have declared by `var` or `function`. -/
def modifyVarNames (s : ScopeRef) (f : List String → List String) : Action Unit :=
  Action.modifyHeap (·.modifyScope s fun scope ↦
    match scope.record with
    | .global o b names => { scope with record := .global o b (f names) }
    | _ => scope)

def delete (s : ScopeRef) (name : String) : Action Bool := do
  match (← Action.scope s).record with
  | .declarative b _ => deleteBinding s b name
  | .object o _ => Object.delete o (keyOf name)
  | .global o b _ =>
    if b.contains name then deleteBinding s b name
    else if ((← Action.heap).object o).hasOwn (keyOf name) then
      let deleted ← Object.delete o (keyOf name)
      if deleted then modifyVarNames s (·.filter (· ≠ name))
      return deleted
    else return true

/-! ## The two layers of a global scope -/

/-- Whether the global object has a property under the name that cannot be
redefined. -/
def isRestricted (eng : Engine) (o : ObjectRef) (name : String) : Action Bool := do
  return (← Object.getOwn eng o (keyOf name)).any (!·.isConfigurable)

def canDeclareVar (o : ObjectRef) (name : String) : Action Bool := do
  let data ← Action.object o
  return data.hasOwn (keyOf name) || data.isExtensible

def canDeclareFunction (eng : Engine) (o : ObjectRef) (name : String) : Action Bool := do
  match ← Object.getOwn eng o (keyOf name) with
  | none => return (← Action.object o).isExtensible
  | some d => return d.isConfigurable || (d.isData && d.isWritable && d.isEnumerable)

def addVarName (name : String) (names : List String) : List String :=
  if names.contains name then names else name :: names

/-- Declares a global `var`: a property of the global object unless it has one. -/
def createGlobalVar (eng : Engine) (s : ScopeRef) (o : ObjectRef) (name : String)
    (canDelete : Bool) : Action Unit := do
  let data ← Action.object o
  if !data.hasOwn (keyOf name) && data.isExtensible then
    objectCreate eng o name canDelete
    objectSet eng o name .undefined false
  modifyVarNames s (addVarName name)

/-- Declares a global function, over any property that allows it. -/
def createGlobalFunction (eng : Engine) (s : ScopeRef) (o : ObjectRef) (name : String) (v : Value)
    (canDelete : Bool) : Action Unit := do
  let patch := match ← Object.getOwn eng o (keyOf name) with
    | some d =>
      if d.isConfigurable then Descriptor.data v true true canDelete
      else Descriptor.generic.withValue v
    | none => Descriptor.data v true true canDelete
  Object.defineOrThrow eng o (keyOf name) patch
  discard (Object.set eng o (keyOf name) v (.object o))
  modifyVarNames s (addVarName name)

end Scope

end Ecma
