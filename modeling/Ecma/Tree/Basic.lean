import Ecma.Number.Binary64

/-!
# Scripts as trees

Expressions, statements and functions as they are executed.  Every statement
carries its place in the script.  Trees that no grammar would produce, such as
an assignment to a call, are trees too: executing them reports the error.
-/

namespace Ecma

/-- A place in a script. -/
structure Location where
  line : Nat
  column : Nat
  deriving DecidableEq, Inhabited

namespace Location

/-- The place of what is written nowhere. -/
def origin : Location := ⟨0, 0⟩

def toText (l : Location) : String := toString l.line ++ ":" ++ toString l.column

end Location

/-! ## Operators -/

inductive UnaryOperator where
  | minus
  | plus
  | not
  | bitNot
  deriving DecidableEq, Inhabited

inductive BinaryOperator where
  | add
  | sub
  | mul
  | div
  | rem
  | pow
  | equal
  | notEqual
  | strictEqual
  | strictNotEqual
  | less
  | greater
  | lessEqual
  | greaterEqual
  | shiftLeft
  | shiftRight
  | shiftRightZero
  | bitAnd
  | bitOr
  | bitXor
  | hasKey
  | instanceOf
  deriving DecidableEq, Inhabited

inductive LogicalOperator where
  | and
  | or
  | coalesce
  deriving DecidableEq, Inhabited

inductive UpdateOperator where
  | increment
  | decrement
  deriving DecidableEq, Inhabited

/-- An assignment stores its right side, or combines it with the old value. -/
inductive AssignOperator where
  | plain
  | compound (op : BinaryOperator)
  | logical (op : LogicalOperator)
  deriving DecidableEq, Inhabited

/-- How a name is declared: `var`, `let` or `const`. -/
inductive DeclarationKind where
  | var
  | lexical
  | constant
  deriving DecidableEq, Inhabited

/-- What an entry of an object literal defines. -/
inductive MemberKind where
  | value
  | getter
  | setter
  deriving DecidableEq, Inhabited

/-! ## Spellings -/

def UnaryOperator.ofSpelling? : String → Option UnaryOperator
  | "-" => some .minus
  | "+" => some .plus
  | "!" => some .not
  | "~" => some .bitNot
  | _ => none

def BinaryOperator.ofSpelling? : String → Option BinaryOperator
  | "+" => some .add
  | "-" => some .sub
  | "*" => some .mul
  | "/" => some .div
  | "%" => some .rem
  | "**" => some .pow
  | "==" => some .equal
  | "!=" => some .notEqual
  | "===" => some .strictEqual
  | "!==" => some .strictNotEqual
  | "<" => some .less
  | ">" => some .greater
  | "<=" => some .lessEqual
  | ">=" => some .greaterEqual
  | "<<" => some .shiftLeft
  | ">>" => some .shiftRight
  | ">>>" => some .shiftRightZero
  | "&" => some .bitAnd
  | "|" => some .bitOr
  | "^" => some .bitXor
  | "in" => some .hasKey
  | "instanceof" => some .instanceOf
  | _ => none

def LogicalOperator.ofSpelling? : String → Option LogicalOperator
  | "&&" => some .and
  | "||" => some .or
  | "??" => some .coalesce
  | _ => none

def UpdateOperator.ofSpelling? : String → Option UpdateOperator
  | "++" => some .increment
  | "--" => some .decrement
  | _ => none

/-- An assignment operator is `=`, alone or after the operator it applies. -/
def AssignOperator.ofSpelling? (s : String) : Option AssignOperator :=
  let applied := String.ofList s.toList.dropLast
  if s = "=" then some .plain
  else match LogicalOperator.ofSpelling? applied with
    | some op => some (.logical op)
    | none => (BinaryOperator.ofSpelling? applied).map .compound

def DeclarationKind.ofSpelling? : String → Option DeclarationKind
  | "var" => some .var
  | "let" => some .lexical
  | "const" => some .constant
  | _ => none

/-! ## Trees -/

mutual

inductive FunctionNode where
  | mk (name : Option String) (params : List String) (body : List Statement) (isArrow : Bool)

inductive Expression where
  | null
  | boolean (b : Bool)
  | number (x : Binary64)
  | string (s : String)
  | identifier (name : String)
  | this
  | super
  | object (members : List Member)
  | function (f : FunctionNode)
  | unary (op : UnaryOperator) (operand : Expression)
  | typeof (operand : Expression)
  | void (operand : Expression)
  | delete (operand : Expression)
  | binary (op : BinaryOperator) (left right : Expression)
  | logical (op : LogicalOperator) (left right : Expression)
  | update (op : UpdateOperator) (returnsNew : Bool) (target : Expression)
  | assign (op : AssignOperator) (target value : Expression)
  | conditional (test yes no : Expression)
  | call (callee : Expression) (args : List Expression)
  | construct (callee : Expression) (args : List Expression)
  | dot (object : Expression) (name : String)
  | index (object key : Expression)
  | sequence (items : List Expression)

/-- The key of an entry of an object literal. -/
inductive MemberKey where
  | identifier (name : String)
  | string (s : String)
  | number (x : Binary64)
  | computed (e : Expression)

inductive Member where
  | mk (kind : MemberKind) (key : MemberKey) (value : Expression)

/-- A declared name with its initial value. -/
inductive Declarator where
  | mk (name : String) (init : Option Expression)

/-- What runs before a `for` loop. -/
inductive ForInit where
  | none
  | declare (kind : DeclarationKind) (declarators : List Declarator)
  | expression (e : Expression)

/-- What a `for`-`in` or `for`-`of` loop assigns on each turn. -/
inductive LoopTarget where
  | declare (kind : DeclarationKind) (name : String)
  | assign (target : Expression)

/-- A clause of a `switch`; the default clause has no test. -/
inductive SwitchClause where
  | mk (test : Option Expression) (body : List Statement)

inductive CatchClause where
  | mk (param : Option String) (body : List Statement)

inductive Statement where
  | mk (location : Location) (form : StatementForm)

inductive StatementForm where
  | empty
  | debugger
  | expression (e : Expression)
  | block (body : List Statement)
  | variable (kind : DeclarationKind) (declarators : List Declarator)
  | conditional (test : Expression) (yes : Statement) (no : Option Statement)
  | whileLoop (test : Expression) (body : Statement)
  | doWhile (body : Statement) (test : Expression)
  | forLoop (init : ForInit) (test update : Option Expression) (body : Statement)
  | forIn (target : LoopTarget) (subject : Expression) (body : Statement)
  | forOf (target : LoopTarget) (subject : Expression) (body : Statement)
  | return (value : Option Expression)
  | break (label : Option String)
  | continue (label : Option String)
  | throw (value : Expression)
  | try (block : List Statement) (handler : Option CatchClause)
      (finalizer : Option (List Statement))
  | switch (subject : Expression) (clauses : List SwitchClause)
  | labelled (label : String) (body : Statement)
  | with (object : Expression) (body : Statement)
  | function (f : FunctionNode)
  | class (name : String)

end

instance : Inhabited Expression := ⟨.null⟩

instance : Inhabited FunctionNode := ⟨.mk none [] [] false⟩

instance : Inhabited Statement := ⟨.mk .origin .empty⟩

namespace FunctionNode

def name? : FunctionNode → Option String
  | .mk name _ _ _ => name

def params : FunctionNode → List String
  | .mk _ params _ _ => params

def body : FunctionNode → List Statement
  | .mk _ _ body _ => body

def isArrow : FunctionNode → Bool
  | .mk _ _ _ isArrow => isArrow

/-- The name a function gives itself; an empty name is none. -/
def ownName? (f : FunctionNode) : Option String := f.name?.filter (· ≠ "")

end FunctionNode

namespace Declarator

def name : Declarator → String
  | .mk name _ => name

def init? : Declarator → Option Expression
  | .mk _ init => init

end Declarator

namespace SwitchClause

def test? : SwitchClause → Option Expression
  | .mk test _ => test

def body : SwitchClause → List Statement
  | .mk _ body => body

end SwitchClause

namespace Statement

def location : Statement → Location
  | .mk location _ => location

def form : Statement → StatementForm
  | .mk _ form => form

/-- The place where a list of statements begins. -/
def firstLocation (body : List Statement) : Location :=
  (body.head?.map location).getD .origin

end Statement

end Ecma
