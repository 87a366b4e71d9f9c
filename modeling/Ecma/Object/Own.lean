import Ecma.Engine.Basic

/-!
# Own properties

Reading, defining and deleting the properties of one object.  Reading a lazy
property resolves its cell and turns the property into plain data; reading a
bound one gives the variable's current value.
-/

namespace Ecma

namespace Lazy

/-- Reads a property through a new interpreter over the same heap and logs what
came of it. -/
def readApart (eng : Engine) (o : ObjectRef) (k : PropertyKey) : Action Unit := do
  let outer ← get
  let (result, inner) := Action.run (eng.get o k (.object o)) outer.beside
  set (outer.resume inner)
  match result with
  | .ok v => Action.log ("reenter ok " ++ inner.heap.display v)
  | .error (.fault .outOfFuel) => Action.fault .outOfFuel
  | .error e => Action.log ("reenter error " ++ inner.heap.describeFailure e)

def runStep (eng : Engine) : ResolverStep → Action Unit
  | .log line => Action.log line
  | .read o k => readApart eng o k

def runSteps (eng : Engine) : List ResolverStep → Action Unit
  | [] => pure ()
  | step :: rest => do
    runStep eng step
    runSteps eng rest

/-- The value of a cell.  The resolver runs on the first read; a read while it
runs is a fault. -/
def resolve (eng : Engine) (c : CellRef) (key : String) : Action Value := do
  match (← Action.heap).cell c with
  | .resolved v => return v
  | .resolving => Action.fault (.lazyReentrancy key)
  | .unresolved r =>
    Action.modifyHeap (·.setCell c .resolving)
    runSteps eng r.steps
    Action.modifyHeap (·.setCell c (.resolved r.value))
    return r.value

end Lazy

namespace Object

/-- Puts the value of a resolved cell where the property still refers to it. -/
def memoize (k : PropertyKey) (c : CellRef) (v : Value) (data : Object) : Object :=
  data.modify k (·.resolveCell c v)

/-- The own property under a key, as plain data or an accessor. -/
def getOwn (eng : Engine) (o : ObjectRef) (k : PropertyKey) : Action (Option Descriptor) := do
  match (← Action.heap).own? o k with
  | none => return none
  | some ⟨attributes, .lazy c⟩ =>
    let v ← Lazy.resolve eng c k.display
    Action.modifyObject o (memoize k c v)
    return some ⟨attributes, .data (some v)⟩
  | some ⟨attributes, .bound scope name⟩ =>
    return some ⟨attributes, .data (some ((← Action.heap).boundValue scope name))⟩
  | some d => return some d

/-- What a bound property becomes under a patch: a value goes to the variable,
and a property without the bit of a writable one, or one that is no longer data, loses it. -/
def rebind (scope : ScopeRef) (name : String) (patch new : Descriptor) : Action PropertyForm := do
  match new.form with
  | .data (some v) =>
    if patch.value?.isSome then Action.modifyHeap (·.storeBound scope name v)
    return if new.attributes.writableBits.value then .bound scope name else new.form
  | form => return form

/-- Applies a patch; `false` when the property or the object forbids it. -/
def define (eng : Engine) (o : ObjectRef) (k : PropertyKey) (patch : Descriptor) :
    Action Bool := do
  match ← getOwn eng o k with
  | none =>
    if (← Action.object o).isExtensible then
      Action.store o k patch.complete
      return true
    else return false
  | some current =>
    if current.permits patch then
      let new := current.patched patch
      let form ← match (← Action.heap).own? o k with
        | some ⟨_, .bound scope name⟩ => rebind scope name patch new
        | _ => pure new.form
      Action.store o k ⟨new.attributes, form⟩
      return true
    else return false

/-- Adds or replaces a plain property. -/
def createData (eng : Engine) (o : ObjectRef) (k : PropertyKey) (v : Value) : Action Bool :=
  define eng o k (.plain v)

def defineOrThrow (eng : Engine) (o : ObjectRef) (k : PropertyKey) (patch : Descriptor) :
    Action Unit := do
  if !(← define eng o k patch) then Action.throwNew (.redefined k.display)

def createDataOrThrow (eng : Engine) (o : ObjectRef) (k : PropertyKey) (v : Value) : Action Unit :=
  defineOrThrow eng o k (.plain v)

/-- Removes a property; `false` when it is not configurable. -/
def delete (o : ObjectRef) (k : PropertyKey) : Action Bool := do
  match (← Action.heap).own? o k with
  | none => return true
  | some d =>
    if d.isConfigurable then
      Action.modifyObject o (·.remove k)
      return true
    else return false

/-! ## Prototype and extensibility -/

/-- Changes the prototype; `false` for an object that is not extensible and for
a prototype whose chain contains the object. -/
def setPrototype (o : ObjectRef) (prototype : Option ObjectRef) : Action Bool := do
  let h ← Action.heap
  let data := h.object o
  if data.prototype = prototype then return true
  else if !data.isExtensible then return false
  else if (h.chain prototype).contains o then return false
  else
    Action.modifyObject o fun data ↦ { data with prototype }
    return true

def preventExtensions (o : ObjectRef) : Action Bool := do
  Action.modifyObject o fun data ↦ { data with isExtensible := false }
  return true

/-! ## Enumerable keys -/

def enumerableAmong (eng : Engine) (o : ObjectRef) : List Text → Action (List Text)
  | [] => pure []
  | t :: rest => do
    let d ← getOwn eng o (.string t)
    let others ← enumerableAmong eng o rest
    return if d.any Descriptor.isEnumerable then t :: others else others

/-- The own texts that are enumerable, in order. -/
def enumerableKeys (eng : Engine) (o : ObjectRef) : Action (List Text) := do
  enumerableAmong eng o (← Action.object o).ownTexts

end Object

end Ecma
