import Ecma.Function.Instantiation
import Ecma.Host.Perform
import Ecma.Statement.Sequence

/-!
# Calls
-/

namespace Ecma

namespace Function

/-- The `this` of a call: none for arrows, the given value in strict code, and
an object, the global one for want of another, in sloppy code. -/
def bindThis (f : FunctionNode) (strict : Bool) (this : Value) : Action (Option Value) := do
  if f.isArrow then return none
  else if strict then return some this
  else if this.isNullish then return some (.object (← Action.realm).globalObject)
  else return some (.object (← Conversion.toObject this))

/-- The value of a call whose body completed so. -/
def finish : Completion → Action Value
  | .return v _ => return v
  | .normal _ => return .undefined
  | .throw v location => do
    Action.setThrowLocation (some location)
    throw (.thrown v)
  | .break _ _ _ | .continue _ _ _ => Action.fault (.invariant .escapedFunction)

/-- What a call does before its body runs: it makes a scope and declares the names. -/
def prepare (eng : Engine) (callee : ObjectRef) (f : FunctionNode) (closure : ScopeRef)
    (this : Option Value) (strict : Bool) (args : List Value) : Action ScopeRef := do
  let s ← Action.newFunctionScope closure this strict
  declare eng callee f s args
  return s

/-- Runs the body of a callable. -/
def enter (eng : Engine) (callee : ObjectRef) (f : Callable) (this : Value) (args : List Value) :
    Action Value := do
  match f with
  | .native _ _ run => Host.run eng (run this args)
  | .closure f closure strict =>
    let s ← prepare eng callee f closure (← bindThis f strict this) strict args
    finish (← Action.ofExecution (Statement.execAll eng f.body s))

def enterDepth : Action Unit := modify fun s ↦ { s with callDepth := s.callDepth + 1 }

def leaveDepth : Action Unit := modify fun s ↦ { s with callDepth := s.callDepth - 1 }

/-- Calls a value.  The depth of calls is limited, and is the same after the
call as before, however it ends. -/
def call (eng : Engine) (f this : Value) (args : List Value) : Action Value := do
  let callable? : Option (ObjectRef × Callable) ← match f with
    | .object o => pure ((← Action.object o).callable.map (o, ·))
    | _ => pure none
  match callable? with
  | none => Action.throwNew (.notFunction (← Action.display f))
  | some (o, callable) =>
    let state ← get
    if state.options.maxCallDepth ≤ state.callDepth then Action.throwNew .callDepth
    else
      enterDepth
      let result ← Action.attempt (enter eng o callable this args)
      leaveDepth
      Action.ofExcept result

end Function

end Ecma
