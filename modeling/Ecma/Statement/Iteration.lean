import Ecma.Object.ForIn
import Ecma.Statement.Loop

/-!
# Loops over keys and over iterators
-/

namespace Ecma

namespace Statement

/-- Evaluates what a loop runs over.  A lexical loop variable is declared, and
not yet initialised, meanwhile. -/
def evalSubject (eng : Engine) (target : LoopTarget) (subject : Expression) (s : ScopeRef) :
    Action Value := do
  match target with
  | .declare .lexical name | .declare .constant name =>
    let inner ← Action.newBlockScope s
    Scope.createMutable eng inner name false
    eng.eval subject inner
  | .declare .var _ | .assign _ => eng.eval subject s

/-- Gives the loop variable its value and yields the scope of the turn. -/
def bindTarget (eng : Engine) (target : LoopTarget) (v : Value) (s : ScopeRef) :
    Action ScopeRef := do
  match target with
  | .assign e =>
    let reference ← Expression.evalReference eng e s
    reference.write eng v
    return s
  | .declare .var name =>
    let reference ← Reference.resolve eng name s
    reference.write eng v
    return s
  | .declare kind name =>
    let inner ← Action.newBlockScope s
    createAs eng kind inner name
    Scope.initialise eng inner name v
    return inner

/-- One turn: binds the loop variable and executes the body. -/
def execTurn (eng : Engine) (target : LoopTarget) (v : Value) (body : Statement) (s : ScopeRef)
    (location : Location) : Execution Completion :=
  attempt (bindTarget eng target v s) location fun inner ↦ eng.exec body inner []

/-! ## Keys -/

def forInTurns (eng : Engine) (target : LoopTarget) (body : Statement) (s : ScopeRef)
    (labels : List String) (location : Location) : Nat → ForIn → Value → Execution Completion
  | 0, _, _ => throw .outOfFuel
  | n + 1, keys, last =>
    attempt (keys.next eng) location fun
      | (none, _) => return .normal (some last)
      | (some key, keys) => do
        let c ← execTurn eng target (.string key) body s location
        if c.continuesLoop labels then
          forInTurns eng target body s labels location n keys (c.value?.getD last)
        else return c.updateEmpty (some last)

/-- Runs over the enumerable keys; over nothing at all it ends at once. -/
def execForIn (eng : Engine) (target : LoopTarget) (subject : Expression) (body : Statement)
    (s : ScopeRef) (labels : List String) (location : Location) : Execution Completion :=
  attempt (evalSubject eng target subject s) location fun v ↦
    if v.isNullish then return .break none none location
    else
      attempt (Conversion.toObject v) location fun o ↦
        forInTurns eng target body s labels location eng.fuel (.start o) .undefined

/-! ## Iterators -/

/-- An iterator and its method for the next result. -/
structure Iterator where
  object : Value
  nextMethod : Value

def openIterator (eng : Engine) (v : Value) : Action Iterator := do
  match ← Conversion.getMethod eng v (.wellKnown .iterator) with
  | none => Action.throwNew (.notIterable (← Action.display v))
  | some method =>
    let object ← eng.call method v []
    if object.isObject then return ⟨object, ← Conversion.getOf eng object (.ofString "next")⟩
    else Action.throwNew .iteratorNotObject

/-- The next value, or `none` when the iterator is done. -/
def stepIterator (eng : Engine) (it : Iterator) : Action (Option Value) := do
  let result ← eng.call it.nextMethod it.object []
  match result with
  | .object o =>
    if (← Object.get eng o (.ofString "done") result).toBoolean then return none
    else return some (← Object.get eng o (.ofString "value") result)
  | _ => Action.throwNew (.stepNotObject (← Action.display result))

/-- Looks up and calls the `return` method; `none` if there is none. -/
def callReturn (eng : Engine) (it : Iterator) : Action (Option Value) := do
  match ← Conversion.getMethod eng it.object (.ofString "return") with
  | none => return none
  | some method => return some (← eng.call method it.object [])

/-- The outcome of a loop that left its iterator with completion `c`: a throw
stands whatever closing does, short of a fault. -/
def closeIterator (eng : Engine) (it : Iterator) (c : Completion) (location : Location) :
    Execution Completion := do
  match ← Execution.ofAction (callReturn eng it), c with
  | .ok none, c => return c
  | .error (.fault f), _ => throw f
  | _, .throw v l =>
    modify fun s ↦ { s with throwLocation := none }
    return .throw v l
  | .error e, _ => throwCompletion e location
  | .ok (some v), c => if v.isObject then return c else throwNew .closeNotObject location

def forOfTurns (eng : Engine) (it : Iterator) (target : LoopTarget) (body : Statement)
    (s : ScopeRef) (labels : List String) (location : Location) :
    Nat → Value → Execution Completion
  | 0, _ => throw .outOfFuel
  | n + 1, last =>
    attempt (stepIterator eng it) location fun
      | none => return .normal (some last)
      | some v => do
        let c ← execTurn eng target v body s location
        if c.continuesLoop labels then
          forOfTurns eng it target body s labels location n (c.value?.getD last)
        else closeIterator eng it (c.updateEmpty (some last)) location

def execForOf (eng : Engine) (target : LoopTarget) (subject : Expression) (body : Statement)
    (s : ScopeRef) (labels : List String) (location : Location) : Execution Completion :=
  attempt (evalSubject eng target subject s) location fun v ↦
    attempt (openIterator eng v) location fun it ↦
      forOfTurns eng it target body s labels location eng.fuel .undefined

end Statement

end Ecma
