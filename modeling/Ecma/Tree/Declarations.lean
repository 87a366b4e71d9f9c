import Ecma.Tree.Basic

/-!
# Names that a list of statements declares

`var` names are collected at any depth below the list, without entering
functions; `let`, `const` and class names and functions only where they stand
in the list itself, labels aside.
-/

namespace Ecma

/-- A name declared by `let`, `const` or `class`. -/
structure LexicalName where
  name : String
  isConstant : Bool
  deriving DecidableEq, Inhabited

namespace Tree

/-! ## `var` names -/

/-- The names with `name` at the end, unless it is there already. -/
def addName (names : List String) (name : String) : List String :=
  if names.contains name then names else names ++ [name]

def addVarNames (kind : DeclarationKind) (names new : List String) : List String :=
  match kind with
  | .var => new.foldl addName names
  | _ => names

def initVarNames (names : List String) : ForInit → List String
  | .declare kind ds => addVarNames kind names (ds.map Declarator.name)
  | _ => names

def targetVarNames (names : List String) : LoopTarget → List String
  | .declare kind name => addVarNames kind names [name]
  | .assign _ => names

mutual

/-- Adds the `var` names of a statement, in the order of first occurrence. -/
def collectVarNames (names : List String) : Statement → List String
  | .mk _ form => collectFormVarNames names form

def collectFormVarNames (names : List String) : StatementForm → List String
  | .variable kind ds => addVarNames kind names (ds.map Declarator.name)
  | .block body => collectListVarNames names body
  | .conditional _ yes no => collectOptionVarNames (collectVarNames names yes) no
  | .whileLoop _ body => collectVarNames names body
  | .doWhile body _ => collectVarNames names body
  | .forLoop init _ _ body => collectVarNames (initVarNames names init) body
  | .forIn target _ body => collectVarNames (targetVarNames names target) body
  | .forOf target _ body => collectVarNames (targetVarNames names target) body
  | .try block handler finalizer =>
    collectFinalizerVarNames
      (collectHandlerVarNames (collectListVarNames names block) handler) finalizer
  | .switch _ clauses => collectClauseVarNames names clauses
  | .labelled _ body => collectVarNames names body
  | .with _ body => collectVarNames names body
  | .empty | .debugger | .expression _ | .return _ | .break _ | .continue _ | .throw _
  | .function _ | .class _ => names

def collectListVarNames (names : List String) : List Statement → List String
  | [] => names
  | s :: rest => collectListVarNames (collectVarNames names s) rest

def collectOptionVarNames (names : List String) : Option Statement → List String
  | none => names
  | some s => collectVarNames names s

def collectHandlerVarNames (names : List String) : Option CatchClause → List String
  | none => names
  | some (.mk _ body) => collectListVarNames names body

def collectFinalizerVarNames (names : List String) : Option (List Statement) → List String
  | none => names
  | some body => collectListVarNames names body

def collectClauseVarNames (names : List String) : List SwitchClause → List String
  | [] => names
  | .mk _ body :: rest => collectClauseVarNames (collectListVarNames names body) rest

end

def varNames (body : List Statement) : List String := collectListVarNames [] body

/-! ## Lexical names and functions -/

/-- The statement below any labels. -/
def unlabelled : Statement → StatementForm
  | .mk _ (.labelled _ body) => unlabelled body
  | .mk _ form => form

def formLexicalNames : StatementForm → List LexicalName
  | .variable .lexical ds => ds.map fun d ↦ ⟨d.name, false⟩
  | .variable .constant ds => ds.map fun d ↦ ⟨d.name, true⟩
  | .class name => [⟨name, false⟩]
  | _ => []

def lexicalNames (body : List Statement) : List LexicalName :=
  body.flatMap fun s ↦ formLexicalNames (unlabelled s)

def formFunction? : StatementForm → Option FunctionNode
  | .function f => some f
  | _ => none

/-- The name under which repeated functions are recognised. -/
def functionKey (f : FunctionNode) : String := f.name?.getD ""

/-- Keeps of each name its last function. -/
def keepLast : List FunctionNode → List FunctionNode
  | [] => []
  | f :: rest => if rest.any (functionKey · == functionKey f) then keepLast rest
      else f :: keepLast rest

/-- The functions of the list; of two with one name the later stands. -/
def functions (body : List Statement) : List FunctionNode :=
  keepLast (body.filterMap fun s ↦ formFunction? (unlabelled s))

def functionNames (body : List Statement) : List String :=
  (functions body).filterMap FunctionNode.name?

/-- Whether the list needs a scope of its own. -/
def hasLexical (body : List Statement) : Bool :=
  !(lexicalNames body).isEmpty || !(functions body).isEmpty

/-! ## Directives -/

def directive? : Statement → Option String
  | .mk _ (.expression (.string s)) => some s
  | _ => none

/-- Whether the strings at the head of the list include `use strict`. -/
def isStrict : List Statement → Bool
  | [] => false
  | s :: rest =>
    match directive? s with
    | some d => if d = "use strict" then true else isStrict rest
    | none => false

end Tree

/-- All that a list of statements declares. -/
structure Declarations where
  varNames : List String
  lexical : List LexicalName
  functions : List FunctionNode
  isStrict : Bool

namespace Declarations

def analyze (body : List Statement) : Declarations :=
  ⟨Tree.varNames body, Tree.lexicalNames body, Tree.functions body, Tree.isStrict body⟩

def functionNames (d : Declarations) : List String := d.functions.filterMap FunctionNode.name?

def hasLexical (d : Declarations) : Bool := !d.lexical.isEmpty || !d.functions.isEmpty

end Declarations

end Ecma
