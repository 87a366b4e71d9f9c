import Ecma.Function.Instantiation

/-!
# Sequences of statements and blocks
-/

namespace Ecma

namespace Statement

/-- Turns a failure at a statement into its outcome.  A thrown value has been
thrown where the innermost call says, or else at the statement. -/
def throwCompletion (e : Failure) (location : Location) : Execution Completion :=
  match e with
  | .thrown v => do
    let taken ← modifyGet fun s ↦ (s.throwLocation, { s with throwLocation := none })
    return .throw v (taken.getD location)
  | .uncaught v location => return .throw v location
  | .fault f => throw f

/-- Does an action and goes on with its result; a failure ends the statement. -/
@[inline] def attempt {α : Type} (m : Action α) (location : Location)
    (next : α → Execution Completion) : Execution Completion := do
  match ← Execution.ofAction m with
  | .ok a => next a
  | .error e => throwCompletion e location

/-- Ends a statement with a new error object. -/
def throwNew (e : ScriptError) (location : Location) : Execution Completion :=
  attempt (Action.newError e.kind e.message) location fun v ↦ return .throw v location

/-- Executes statements in turn, up to the first that ends abruptly.  The value
is that of the last statement that has one. -/
def execFrom (eng : Engine) (s : ScopeRef) (last : Option Value) :
    List Statement → Execution Completion
  | [] => return .normal last
  | stmt :: rest => do
    match ← eng.exec stmt s [] with
    | .normal v => execFrom eng s (v.or last) rest
    | c => return c.updateEmpty last

def execAll (eng : Engine) (body : List Statement) (s : ScopeRef) : Execution Completion :=
  execFrom eng s none body

/-! ## Blocks -/

/-- Declares the functions of a block. -/
def declareFunctions (eng : Engine) (s : ScopeRef) : List FunctionNode → Action Unit
  | [] => pure ()
  | f :: rest =>
    match f.name? with
    | none => declareFunctions eng s rest
    | some name => do
      let closure ← Function.instantiate f s none
      Scope.createMutable eng s name false
      Scope.initialise eng s name closure
      declareFunctions eng s rest

/-- Declares the lexical names and the functions of a block in its scope. -/
def declareBlock (eng : Engine) (body : List Statement) (s : ScopeRef) : Action Unit := do
  Function.createLexical eng s (Tree.lexicalNames body)
  declareFunctions eng s (Tree.functions body)

/-- Executes a block, in a scope of its own if it declares lexical names. -/
def execBlock (eng : Engine) (body : List Statement) (s : ScopeRef) : Execution Completion :=
  if Tree.hasLexical body then
    attempt (Action.newBlockScope s) (firstLocation body) fun inner ↦
      attempt (declareBlock eng body inner) (firstLocation body) fun _ ↦
        execAll eng body inner
  else execAll eng body s

end Statement

end Ecma
