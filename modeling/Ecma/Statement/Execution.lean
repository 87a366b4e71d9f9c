import Ecma.Statement.Iteration

/-!
# Executing statements
-/

namespace Ecma

namespace Statement

/-! ## `try` -/

def execCatch (eng : Engine) (handler : CatchClause) (thrown : Value) (s : ScopeRef) :
    Execution Completion :=
  match handler with
  | .mk none body => execBlock eng body s
  | .mk (some param) body =>
    attempt (do
      let inner ← Action.newBlockScope s
      Scope.createMutable eng inner param false
      Scope.initialise eng inner param thrown
      return inner) (firstLocation body) fun inner ↦ execBlock eng body inner

/-- An abrupt end of the finalizer replaces the outcome before it. -/
def execFinally (eng : Engine) (finalizer : Option (List Statement)) (c : Completion)
    (s : ScopeRef) : Execution Completion := do
  match finalizer with
  | none => return c
  | some body =>
    let last ← execBlock eng body s
    return if last.isAbrupt then last else c

def execTry (eng : Engine) (block : List Statement) (handler : Option CatchClause)
    (finalizer : Option (List Statement)) (s : ScopeRef) : Execution Completion := do
  let c ← match ← execBlock eng block s, handler with
    | .throw v _, some handler => execCatch eng handler v s
    | c, _ => pure c
  return (← execFinally eng finalizer c s).updateEmpty (some .undefined)

/-! ## `switch` -/

/-- The clauses from the first whose test gives the value on, if any does.
Later tests are not evaluated. -/
def matchClause (eng : Engine) (v : Value) (s : ScopeRef) :
    List SwitchClause → Action (Option (List SwitchClause))
  | [] => return none
  | clause :: rest =>
    match clause.test? with
    | none => matchClause eng v s rest
    | some test => do
      if v.strictEqual (← eng.eval test s) then return some (clause :: rest)
      else matchClause eng v s rest

/-- The clauses from the default one on. -/
def defaultClauses (clauses : List SwitchClause) : List SwitchClause :=
  clauses.dropWhile (·.test?.isSome)

/-- Executes clauses in turn, up to the first that ends abruptly. -/
def execClauses (eng : Engine) (s : ScopeRef) (last : Value) :
    List SwitchClause → Execution Completion
  | [] => return .normal (some last)
  | clause :: rest => do
    let c ← execBlock eng clause.body s
    let last := c.value?.getD last
    if c.isAbrupt then return c.updateEmpty (some last) else execClauses eng s last rest

/-- The clauses that a value selects. -/
def selectClauses (eng : Engine) (subject : Expression) (clauses : List SwitchClause)
    (s : ScopeRef) : Action (List SwitchClause) := do
  let v ← eng.eval subject s
  return (← matchClause eng v s clauses).getD (defaultClauses clauses)

def execSwitch (eng : Engine) (subject : Expression) (clauses : List SwitchClause) (s : ScopeRef)
    (location : Location) : Execution Completion :=
  attempt (selectClauses eng subject clauses s) location fun selected ↦
    execClauses eng s .undefined selected

/-! ## `with`, labels -/

def execWith (eng : Engine) (object : Expression) (body : Statement) (s : ScopeRef)
    (location : Location) : Execution Completion :=
  attempt (Action.scope s) location fun scope ↦
    if scope.isStrict then throwNew .strictWith location
    else
      attempt (do
        let o ← Conversion.toObject (← eng.eval object s)
        Action.newObjectScope o true s) location fun inner ↦ do
          return (← eng.exec body inner []).updateEmpty (some .undefined)

/-- A break to the label ends the labelled statement normally. -/
def exitLabel (label : String) : Completion → Completion
  | .break (some target) v l => if target = label then .normal v else .break (some target) v l
  | c => c

def execConditional (eng : Engine) (test : Expression) (yes : Statement) (no : Option Statement)
    (s : ScopeRef) (location : Location) : Execution Completion :=
  attempt (eng.eval test s) location fun v ↦ do
    let c ← if v.toBoolean then eng.exec yes s [] else
      match no with
      | some no => eng.exec no s []
      | none => pure .empty
    return c.updateEmpty (some .undefined)

/-! ## Execution -/

/-- Executes what a statement says. -/
def execForm (eng : Engine) (form : StatementForm) (s : ScopeRef) (labels : List String)
    (location : Location) : Execution Completion := do
  match form with
  | .empty | .debugger | .function _ => return .empty
  | .expression e => attempt (eng.eval e s) location fun v ↦ return .normal (some v)
  | .block body => execBlock eng body s
  | .variable kind ds => attempt (declareEach eng kind s ds) location fun _ ↦ return .empty
  | .conditional test yes no => execConditional eng test yes no s location
  | .whileLoop test body =>
    return (← whileTurns eng test body s labels location eng.fuel .undefined).exitBreakable
  | .doWhile body test =>
    return (← doTurns eng test body s labels location eng.fuel .undefined).exitBreakable
  | .forLoop init test update body =>
    return (← execFor eng init test update body s labels location).exitBreakable
  | .forIn target subject body =>
    return (← execForIn eng target subject body s labels location).exitBreakable
  | .forOf target subject body =>
    return (← execForOf eng target subject body s labels location).exitBreakable
  | .return none => return .return .undefined location
  | .return (some e) => attempt (eng.eval e s) location fun v ↦ return .return v location
  | .break label => return .break label none location
  | .continue label => return .continue label none location
  | .throw e => attempt (eng.eval e s) location fun v ↦ return .throw v location
  | .try block handler finalizer => execTry eng block handler finalizer s
  | .switch subject clauses =>
    return (← execSwitch eng subject clauses s location).exitBreakable
  | .labelled label body => return exitLabel label (← eng.exec body s (labels ++ [label]))
  | .with object body => execWith eng object body s location
  | .class _ => throw (.unsupported .classDeclaration)

/-- Executes a statement, unless the host has asked to stop. -/
def exec (eng : Engine) (stmt : Statement) (s : ScopeRef) (labels : List String) :
    Execution Completion := do
  if ← modifyGet State.takeInterrupt then throw .interrupted
  else execForm eng stmt.form s labels stmt.location

end Statement

end Ecma
