import Ecma.Expression.Evaluation

/-!
# Declarations and loops

A loop takes as many turns as the engine has fuel for.  The value of a loop is
that of the last turn whose body had one.
-/

namespace Ecma

namespace Statement

/-! ## Declarations -/

/-- Evaluates a declarator.  A `var` without an initial value is left alone. -/
def declareOne (eng : Engine) (kind : DeclarationKind) (s : ScopeRef) (d : Declarator) :
    Action Unit := do
  match kind, d.init? with
  | .var, none => pure ()
  | .var, some init =>
    let reference ← Reference.resolve eng d.name s
    let v ← Expression.evalNamed eng init s d.name
    reference.write eng v
  | _, some init =>
    let v ← Expression.evalNamed eng init s d.name
    Scope.initialise eng s d.name v
  | _, none => Scope.initialise eng s d.name .undefined

def declareEach (eng : Engine) (kind : DeclarationKind) (s : ScopeRef) :
    List Declarator → Action Unit
  | [] => pure ()
  | d :: rest => do
    declareOne eng kind s d
    declareEach eng kind s rest

/-- Declares a name as the kind says, without a value. -/
def createAs (eng : Engine) (kind : DeclarationKind) (s : ScopeRef) (name : String) : Action Unit :=
  match kind with
  | .constant => Scope.createImmutable s name true
  | _ => Scope.createMutable eng s name false

def createEach (eng : Engine) (kind : DeclarationKind) (s : ScopeRef) :
    List Declarator → Action Unit
  | [] => pure ()
  | d :: rest => do
    createAs eng kind s d.name
    createEach eng kind s rest

/-! ## `while` and `do` -/

def whileTurns (eng : Engine) (test : Expression) (body : Statement) (s : ScopeRef)
    (labels : List String) (location : Location) : Nat → Value → Execution Completion
  | 0, _ => throw .outOfFuel
  | n + 1, last =>
    attempt (eng.eval test s) location fun go ↦
      if go.toBoolean then do
        let c ← eng.exec body s []
        if c.continuesLoop labels then
          whileTurns eng test body s labels location n (c.value?.getD last)
        else return c.updateEmpty (some last)
      else return .normal (some last)

def doTurns (eng : Engine) (test : Expression) (body : Statement) (s : ScopeRef)
    (labels : List String) (location : Location) : Nat → Value → Execution Completion
  | 0, _ => throw .outOfFuel
  | n + 1, last => do
    let c ← eng.exec body s []
    if c.continuesLoop labels then
      let last := c.value?.getD last
      attempt (eng.eval test s) location fun go ↦
        if go.toBoolean then doTurns eng test body s labels location n last
        else return .normal (some last)
    else return c.updateEmpty (some last)

/-! ## `for` -/

def copyEach (eng : Engine) (source target : ScopeRef) : List String → Action Unit
  | [] => pure ()
  | name :: rest => do
    Scope.createMutable eng target name false
    let v ← Scope.get eng source name true
    Scope.initialise eng target name v
    copyEach eng source target rest

/-- The scope of the next turn: a new one with copies of the loop's variables,
so that a closure keeps those of its turn.  Without variables it is the same. -/
def nextTurnScope (eng : Engine) (last : ScopeRef) (names : List String) : Action ScopeRef := do
  if names.isEmpty then return last
  else
    match (← Action.scope last).outer with
    | none => Action.fault (.invariant .iterationWithoutOuter)
    | some outer =>
      let next ← Action.newBlockScope outer
      copyEach eng last next names
      return next

/-- Whether a loop goes on; one without a test does. -/
def testOf (eng : Engine) (test : Option Expression) (s : ScopeRef) : Action Bool := do
  match test with
  | some e => return (← eng.eval e s).toBoolean
  | none => return true

def updateOf (eng : Engine) (update : Option Expression) (s : ScopeRef) : Action Unit :=
  match update with
  | some e => discard (eng.eval e s)
  | none => pure ()

def forTurns (eng : Engine) (test update : Option Expression) (body : Statement)
    (names : List String) (labels : List String) (location : Location) :
    Nat → ScopeRef → Value → Execution Completion
  | 0, _, _ => throw .outOfFuel
  | n + 1, s, last =>
    attempt (testOf eng test s) location fun go ↦
      if go then do
        let c ← eng.exec body s []
        if c.continuesLoop labels then
          attempt (nextTurnScope eng s names) location fun next ↦
            attempt (updateOf eng update next) location fun _ ↦
              forTurns eng test update body names labels location n next (c.value?.getD last)
        else return c.updateEmpty (some last)
      else return .normal (some last)

def forBody (eng : Engine) (test update : Option Expression) (body : Statement) (s : ScopeRef)
    (names : List String) (labels : List String) (location : Location) : Execution Completion :=
  attempt (nextTurnScope eng s names) location fun first ↦
    forTurns eng test update body names labels location eng.fuel first .undefined

/-- The scope of a loop whose head declares lexical names, with their values. -/
def openLoopScope (eng : Engine) (kind : DeclarationKind) (ds : List Declarator) (s : ScopeRef) :
    Action ScopeRef := do
  let inner ← Action.newBlockScope s
  createEach eng kind inner ds
  declareEach eng kind inner ds
  return inner

/-- The names that each turn has copies of: those declared by `let`. -/
def turnNames (kind : DeclarationKind) (ds : List Declarator) : List String :=
  match kind with
  | .lexical => ds.map Declarator.name
  | _ => []

def execFor (eng : Engine) (init : ForInit) (test update : Option Expression) (body : Statement)
    (s : ScopeRef) (labels : List String) (location : Location) : Execution Completion :=
  match init with
  | .none => forBody eng test update body s [] labels location
  | .expression e =>
    attempt (eng.eval e s) location fun _ ↦ forBody eng test update body s [] labels location
  | .declare .var ds =>
    attempt (declareEach eng .var s ds) location fun _ ↦
      forBody eng test update body s [] labels location
  | .declare kind ds =>
    attempt (openLoopScope eng kind ds s) location fun inner ↦
      forBody eng test update body inner (turnNames kind ds) labels location

end Statement

end Ecma
