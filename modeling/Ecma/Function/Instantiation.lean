import Ecma.Function.Arguments

/-!
# Declaring the names of a call

Before the body of a function runs, its scope gets the parameters, the
arguments object, the `var` names, the lexical names and the functions, in this
order.
-/

namespace Ecma

namespace Function

/-- The list without the elements that came before, and those of `seen`. -/
def fresh (seen : List String) : List String → List String
  | [] => []
  | name :: rest =>
    if seen.contains name then fresh seen rest else name :: fresh (name :: seen) rest

/-- Declares each name, without a value. -/
def createAll (eng : Engine) (s : ScopeRef) : List String → Action Unit
  | [] => pure ()
  | name :: rest => do
    Scope.createMutable eng s name false
    createAll eng s rest

/-- Gives the parameters their arguments; a later one of the same name wins. -/
def bindParams (eng : Engine) (s : ScopeRef) (strict : Bool) (bound : List String) :
    List String → List Value → Action Unit
  | [], _ => pure ()
  | name :: rest, args => do
    let v := args.headD .undefined
    if bound.contains name then Scope.set eng s name v strict
    else Scope.initialise eng s name v
    bindParams eng s strict (name :: bound) rest args.tail

/-- Declares names that start as `undefined`. -/
def createVars (eng : Engine) (s : ScopeRef) : List String → Action Unit
  | [] => pure ()
  | name :: rest => do
    Scope.createMutable eng s name false
    Scope.initialise eng s name .undefined
    createVars eng s rest

/-- Declares lexical names, without values. -/
def createLexical (eng : Engine) (s : ScopeRef) : List LexicalName → Action Unit
  | [] => pure ()
  | l :: rest => do
    if l.isConstant then Scope.createImmutable s l.name true
    else Scope.createMutable eng s l.name false
    createLexical eng s rest

/-- Declares the functions of a body; those whose name is there are assigned. -/
def createFunctions (eng : Engine) (s : ScopeRef) (seen : List String) :
    List FunctionNode → Action Unit
  | [] => pure ()
  | f :: rest =>
    match f.name? with
    | none => createFunctions eng s seen rest
    | some name => do
      let closure ← instantiate f s none
      if seen.contains name then Scope.set eng s name closure false
      else
        Scope.createMutable eng s name false
        Scope.initialise eng s name closure
      createFunctions eng s (name :: seen) rest

/-- The name of the arguments object. -/
def argumentsName : String := "arguments"

/-- Whether a call makes an arguments object: not for arrows, and not where a
parameter, a function or a lexical name takes its name. -/
def needsArguments (f : FunctionNode) (d : Declarations) : Bool :=
  !f.isArrow && !f.params.contains argumentsName && !d.functionNames.contains argumentsName &&
    !d.lexical.any (·.name == argumentsName)

def createArguments (eng : Engine) (callee : ObjectRef) (f : FunctionNode) (s : ScopeRef)
    (strict : Bool) (args : List Value) : Action Unit := do
  let o ← if strict then Arguments.createUnmapped args
    else Arguments.createMapped callee f.params args s
  if strict then Scope.createImmutable s argumentsName false
  else Scope.createMutable eng s argumentsName false
  Scope.initialise eng s argumentsName (.object o)

/-- Declares all names of a function in the scope of a call. -/
def declare (eng : Engine) (callee : ObjectRef) (f : FunctionNode) (s : ScopeRef)
    (args : List Value) : Action Unit := do
  let strict := (← Action.scope s).isStrict
  let d := Declarations.analyze f.body
  createAll eng s (fresh [] f.params)
  let withArguments := needsArguments f d
  if withArguments then createArguments eng callee f s strict args
  bindParams eng s strict [] f.params args
  let seen := if withArguments then argumentsName :: f.params else f.params
  createVars eng s (fresh seen d.varNames)
  createLexical eng s d.lexical
  createFunctions eng s (d.varNames ++ seen) d.functions

end Function

end Ecma
