import Ecma.State.Basic

/-!
# Actions on the state

An action may fail; the state it leaves stands either way.  `Action` fails with
a thrown value or a fault, `Execution` with a fault only: there a thrown value
is an ordinary outcome of a statement.
-/

namespace Ecma

abbrev Action := ExceptT Failure (StateM State)

abbrev Execution := ExceptT Fault (StateM State)

namespace Action

def run {α : Type} (m : Action α) (s : State) : Except Failure α × State := (ExceptT.run m).run s

/-- Does the action and gives its failure back as a result. -/
@[inline] def attempt {α : Type} (m : Action α) : Action (Except Failure α) :=
  fun s ↦
    let (r, s) := m.run s
    (.ok r, s)

@[inline] def ofExcept {α : Type} (r : Except Failure α) : Action α := fun s ↦ (r, s)

def fault {α : Type} (f : Fault) : Action α := throw (.fault f)

theorem run_bind {α β : Type} (m : Action α) (f : α → Action β) (s : State) :
    run (m >>= f) s =
      match run m s with
      | (.ok a, s) => run (f a) s
      | (.error e, s) => (.error e, s) := by
  simp only [run, bind, ExceptT.bind, ExceptT.mk, ExceptT.run, StateT.bind, StateT.run,
    ExceptT.bindCont]
  rcases m s with ⟨_ | _, _⟩ <;> rfl

@[simp] theorem run_attempt {α : Type} (m : Action α) (s : State) :
    run (attempt m) s = (.ok (run m s).1, (run m s).2) := rfl

@[simp] theorem run_ofExcept {α : Type} (r : Except Failure α) (s : State) :
    run (ofExcept r) s = (r, s) := rfl

@[simp] theorem run_fault {α : Type} (f : Fault) (s : State) :
    run (fault f : Action α) s = (.error (.fault f), s) := rfl

/-! ## The heap -/

@[inline] def heap : Action Heap := do return (← get).heap

@[inline] def modifyHeap (f : Heap → Heap) : Action Unit :=
  modify fun s ↦ { s with heap := f s.heap }

@[simp] theorem run_modifyHeap (f : Heap → Heap) (s : State) :
    run (modifyHeap f) s = (.ok (), { s with heap := f s.heap }) := rfl

/-- Changes the heap and gives back what the change yields. -/
@[inline] def onHeap {α : Type} (f : Heap → α × Heap) : Action α :=
  modifyGet fun s ↦
    let (a, h) := f s.heap
    (a, { s with heap := h })

def object (o : ObjectRef) : Action Object := do return (← heap).object o

def modifyObject (o : ObjectRef) (f : Object → Object) : Action Unit :=
  modifyHeap (·.modifyObject o f)

def store (o : ObjectRef) (k : PropertyKey) (d : Descriptor) : Action Unit :=
  modifyObject o (·.store k d)

def scope (s : ScopeRef) : Action Scope := do return (← heap).scope s

def display (v : Value) : Action String := do return (← heap).display v

def isCallable (v : Value) : Action Bool := do return (← heap).isCallable v

def realm : Action Realm := do return (← get).realm

/-! ## New things -/

/-- A new object of a class, with the store size of the interpreter. -/
def newObject (c : ObjectClass) (prototype : Option ObjectRef) : Action ObjectRef := do
  let cutover := (← get).options.cutover
  onHeap (·.addObject (.new c prototype cutover))

/-- A new ordinary object with the usual prototype. -/
def newPlainObject : Action ObjectRef := do
  newObject .object (some (← realm).objectPrototype)

def newCell (r : Resolver) : Action CellRef := onHeap (·.addCell (.unresolved r))

def newSymbol (description : Option String) : Action Symbol :=
  modifyGet fun s ↦
    (⟨s.nextSymbol, description.map Text.ofString⟩, { s with nextSymbol := s.nextSymbol + 1 })

/-- A scope for a block, as strict as the scope around it. -/
def newBlockScope (outer : ScopeRef) : Action ScopeRef := do
  let strict := (← scope outer).isStrict
  onHeap (·.addScope ⟨.declarative .empty none, some outer, strict⟩)

/-- A scope for a call; arrow functions have no `this` of their own. -/
def newFunctionScope (outer : ScopeRef) (this : Option Value) (strict : Bool) : Action ScopeRef :=
  onHeap (·.addScope ⟨.declarative .empty this, some outer, strict⟩)

def newObjectScope (o : ObjectRef) (isWith : Bool) (outer : ScopeRef) : Action ScopeRef := do
  let strict := (← scope outer).isStrict
  onHeap (·.addScope ⟨.object o isWith, some outer, strict⟩)

def newGlobalScope (o : ObjectRef) : Action ScopeRef :=
  onHeap (·.addScope ⟨.global o .empty [], none, false⟩)

/-! ## The log, the throw location, errors -/

def log (line : String) : Action Unit := modify fun s ↦ { s with log := line :: s.log }

def setThrowLocation (l : Option Location) : Action Unit :=
  modify fun s ↦ { s with throwLocation := l }

def interrupt : Action Unit := modify fun s ↦ { s with interrupted := true }

/-- A new error object with an own message. -/
def newError (kind : ErrorKind) (message : String) : Action Value := do
  let o ← newObject (.error kind) (some ((← realm).errorPrototype kind))
  store o (.ofString "message") (.hidden (.ofString message))
  return .object o

/-- Throws a new error object and forgets any earlier throw location. -/
def raise {α : Type} (kind : ErrorKind) (message : String) : Action α := do
  setThrowLocation none
  throw (.thrown (← newError kind message))

def throwNew {α : Type} (e : ScriptError) : Action α := raise e.kind e.message

end Action

namespace Execution

def run {α : Type} (m : Execution α) (s : State) : Except Fault α × State := (ExceptT.run m).run s

theorem run_bind {α β : Type} (m : Execution α) (f : α → Execution β) (s : State) :
    run (m >>= f) s =
      match run m s with
      | (.ok a, s) => run (f a) s
      | (.error e, s) => (.error e, s) := by
  simp only [run, bind, ExceptT.bind, ExceptT.mk, ExceptT.run, StateT.bind, StateT.run,
    ExceptT.bindCont]
  rcases m s with ⟨_ | _, _⟩ <;> rfl

/-- An action whose failure is a result. -/
@[inline] def ofAction {α : Type} (m : Action α) : Execution (Except Failure α) :=
  fun s ↦
    let (r, s) := Action.run m s
    (.ok r, s)

end Execution

/-- A statement's outcome as part of an action. -/
@[inline] def Action.ofExecution {α : Type} (m : Execution α) : Action α :=
  fun s ↦
    match Execution.run m s with
    | (.ok a, s) => (.ok a, s)
    | (.error f, s) => (.error (.fault f), s)

end Ecma
