import Ecma.Statement.Execution

/-!
# Scripts

Before a script runs, its declarations are checked against those of earlier
scripts and the global object; nothing is declared unless all of them pass.
-/

namespace Ecma

namespace Script

/-- The global object of a scope, which must be a global one. -/
def globalObject (s : ScopeRef) : Action ObjectRef := do
  match (← Action.scope s).record with
  | .global o _ _ => return o
  | _ => Action.fault (.invariant .scopeNotGlobal)

/-- Whether an earlier script has declared the name by `var` or `function`. -/
def declaresVar (s : ScopeRef) (name : String) : Action Bool := do
  match (← Action.scope s).record with
  | .global _ _ names => return names.contains name
  | _ => return false

/-- Whether an earlier script has declared the name lexically. -/
def declaresLexical (s : ScopeRef) (name : String) : Action Bool := do
  match (← Action.scope s).record with
  | .global _ b _ => return b.contains name
  | _ => return false

/-! ## Checks -/

/-- Whether a lexical name clashes with another declaration of any kind. -/
def clashes (eng : Engine) (d : Declarations) (s : ScopeRef) (o : ObjectRef) (name : String) :
    Action Bool := do
  if d.varNames.contains name || d.functionNames.contains name then return true
  else if ← declaresVar s name then return true
  else if ← declaresLexical s name then return true
  else Scope.isRestricted eng o name

def checkLexical (eng : Engine) (d : Declarations) (s : ScopeRef) (o : ObjectRef) :
    List LexicalName → Action Unit
  | [] => pure ()
  | l :: rest => do
    if ← clashes eng d s o l.name then Action.throwNew (.redeclared l.name)
    checkLexical eng d s o rest

def checkNames (s : ScopeRef) : List String → Action Unit
  | [] => pure ()
  | name :: rest => do
    if ← declaresLexical s name then Action.throwNew (.redeclared name)
    checkNames s rest

def checkFunctions (eng : Engine) (o : ObjectRef) : List String → Action Unit
  | [] => pure ()
  | name :: rest => do
    if !(← Scope.canDeclareFunction eng o name) then Action.throwNew (.globalFunction name)
    checkFunctions eng o rest

def checkVars (o : ObjectRef) : List String → Action Unit
  | [] => pure ()
  | name :: rest => do
    if !(← Scope.canDeclareVar o name) then Action.throwNew (.globalVariable name)
    checkVars o rest

/-- The `var` names that no function of the script has. -/
def pureVars (d : Declarations) : List String :=
  d.varNames.filter fun name ↦ !d.functionNames.contains name

def check (eng : Engine) (d : Declarations) (s : ScopeRef) (o : ObjectRef) : Action Unit := do
  checkLexical eng d s o d.lexical
  checkNames s (d.varNames ++ d.functionNames)
  checkFunctions eng o d.functionNames
  checkVars o (pureVars d)

/-! ## Declarations -/

def createFunctions (eng : Engine) (s : ScopeRef) (o : ObjectRef) :
    List FunctionNode → Action Unit
  | [] => pure ()
  | f :: rest =>
    match f.name? with
    | none => createFunctions eng s o rest
    | some name => do
      let closure ← Function.instantiate f s none
      Scope.createGlobalFunction eng s o name closure false
      createFunctions eng s o rest

def createVars (eng : Engine) (s : ScopeRef) (o : ObjectRef) : List String → Action Unit
  | [] => pure ()
  | name :: rest => do
    Scope.createGlobalVar eng s o name false
    createVars eng s o rest

/-- Declares the names of a script in a global scope, all of them or none. -/
def declare (eng : Engine) (d : Declarations) (s : ScopeRef) : Action Unit := do
  let o ← globalObject s
  check eng d s o
  Function.createLexical eng s d.lexical
  createFunctions eng s o d.functions
  createVars eng s o (pureVars d)

/-! ## Running -/

def exec (eng : Engine) (body : List Statement) (s : ScopeRef) : Execution Completion :=
  Statement.attempt (declare eng (.analyze body) s) (Statement.firstLocation body) fun _ ↦
    Statement.execAll eng body s

/-- The value of a script that completed so; a throw is reported as uncaught. -/
def finish : Completion → Action Value
  | .normal v => return v.getD .undefined
  | .return v _ => return v
  | .throw v location => throw (.uncaught v location)
  | .break _ _ _ | .continue _ _ _ => Action.fault (.invariant .escapedScript)

/-- Runs a script in the global scope. -/
def run (eng : Engine) (body : List Statement) : Action Value := do
  let state ← get
  let s := state.realm.globalScope
  let strict := state.options.strict || Tree.isStrict body
  Action.modifyHeap (·.modifyScope s fun scope ↦ { scope with isStrict := strict })
  modify fun state ↦ { state with callDepth := 0 }
  finish (← Action.ofExecution (exec eng body s))

end Script

end Ecma
