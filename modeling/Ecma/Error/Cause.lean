/-!
# Causes of errors

The errors that scripts see, each with its kind and its wording, and the faults
of the engine, which no script can catch.
-/

namespace Ecma

/-! ## Script errors -/

/-- The kind of an error object. -/
inductive ErrorKind where
  | typeError
  | rangeError
  | referenceError
  | syntaxError
  | redeclaration
  deriving DecidableEq, Inhabited

/-- The name that error objects of a kind inherit. -/
def ErrorKind.name : ErrorKind → String
  | .typeError | .redeclaration => "TypeError"
  | .rangeError => "RangeError"
  | .referenceError => "ReferenceError"
  | .syntaxError => "SyntaxError"

/-- The kind in one word. -/
def ErrorKind.label : ErrorKind → String
  | .typeError => "Type"
  | .rangeError => "Range"
  | .referenceError => "Reference"
  | .syntaxError => "Syntax"
  | .redeclaration => "Redeclaration"

def ErrorKind.all : List ErrorKind :=
  [.typeError, .rangeError, .referenceError, .syntaxError, .redeclaration]

/-- Why an operation throws.  Keys and values are given as they are shown. -/
inductive ScriptError where
  | noPrimitive
  | symbolToNumber
  | symbolToString
  | notObject (value : String)
  | redefined (key : String)
  | notFunction (what : String)
  | notConstructor (what : String)
  | callDepth
  | strictCallee
  | redeclared (name : String)
  | notDefined (name : String)
  | notInitialized (name : String)
  | constantAssigned
  | readOnlyBinding (name : String)
  | globalFunction (name : String)
  | globalVariable (name : String)
  | notIterable (value : String)
  | iteratorNotObject
  | stepNotObject (value : String)
  | closeNotObject
  | strictWith
  | readNullish (base key : String)
  | writeNullish (base key : String)
  | readOnlyProperty (key : String)
  | invalidTarget
  | notDeleted (key base : String)
  | strictDelete
  | searchNotObject (key value : String)
  | instanceNotObject
  | instanceNotCallable
  | instancePrototype
  | strictTarget (name : String)
  deriving DecidableEq, Inhabited

namespace ScriptError

def kind : ScriptError → ErrorKind
  | .callDepth => .rangeError
  | .redeclared _ => .redeclaration
  | .notDefined _ | .notInitialized _ => .referenceError
  | .strictWith | .invalidTarget | .strictDelete | .strictTarget _ => .syntaxError
  | _ => .typeError

def message : ScriptError → String
  | .noPrimitive => "Cannot convert object to primitive value"
  | .symbolToNumber => "Cannot convert a Symbol value to a number"
  | .symbolToString => "Cannot convert a Symbol value to a string"
  | .notObject value => "Cannot convert " ++ value ++ " to object"
  | .redefined key => "Cannot redefine property: " ++ key
  | .notFunction what => what ++ " is not a function"
  | .notConstructor what => what ++ " is not a constructor"
  | .callDepth => "Maximum call stack size exceeded"
  | .strictCallee => "'callee' may not be accessed on strict mode arguments objects"
  | .redeclared name => "Identifier '" ++ name ++ "' has already been declared"
  | .notDefined name => name ++ " is not defined"
  | .notInitialized name => "Cannot access '" ++ name ++ "' before initialization"
  | .constantAssigned => "Assignment to constant variable."
  | .readOnlyBinding name => "Cannot assign to read only property '" ++ name ++ "'"
  | .globalFunction name => "Cannot declare global function '" ++ name ++ "'"
  | .globalVariable name => "Cannot declare global variable '" ++ name ++ "'"
  | .notIterable value => value ++ " is not iterable"
  | .iteratorNotObject => "Result of the Symbol.iterator method is not an object"
  | .stepNotObject value => "Iterator result " ++ value ++ " is not an object"
  | .closeNotObject => "Iterator result is not an object"
  | .strictWith => "Strict mode code may not include a with statement"
  | .readNullish base key => "Cannot read properties of " ++ base ++ " (reading '" ++ key ++ "')"
  | .writeNullish base key => "Cannot set properties of " ++ base ++ " (setting '" ++ key ++ "')"
  | .readOnlyProperty key => "Cannot assign to read only property '" ++ key ++ "' of object"
  | .invalidTarget => "Invalid left-hand side in assignment"
  | .notDeleted key base => "Cannot delete property '" ++ key ++ "' of " ++ base
  | .strictDelete => "Delete of an unqualified identifier in strict mode."
  | .searchNotObject key value =>
    "Cannot use 'in' operator to search for '" ++ key ++ "' in " ++ value
  | .instanceNotObject => "Right-hand side of 'instanceof' is not an object"
  | .instanceNotCallable => "Right-hand side of 'instanceof' is not callable"
  | .instancePrototype => "Function has non-object prototype in instanceof check"
  | .strictTarget name => "Unexpected " ++ name ++ " in strict mode"

end ScriptError

/-! ## Faults of the engine -/

/-- Constructs that are part of the tree but not executed. -/
inductive Unsupported where
  | classDeclaration
  | superAlone
  | superProperty
  | superCall
  deriving DecidableEq, Inhabited

def Unsupported.text : Unsupported → String
  | .classDeclaration => "class declaration"
  | .superAlone => "super"
  | .superProperty => "super property access"
  | .superCall => "super call"

/-- What the engine relies on. -/
inductive Invariant where
  | bindingNeverCreated
  | immutableObjectBinding
  | escapedScript
  | escapedFunction
  | scopeNotGlobal
  | iterationWithoutOuter
  | accessorWithoutFunction
  deriving DecidableEq, Inhabited

def Invariant.text : Invariant → String
  | .bindingNeverCreated => "initializing a binding that was never created"
  | .immutableObjectBinding => "object environments have no immutable bindings"
  | .escapedScript => "break or continue escaped the script"
  | .escapedFunction => "break or continue escaped a function body"
  | .scopeNotGlobal => "script environment is not global"
  | .iterationWithoutOuter => "iteration scope without an outer scope"
  | .accessorWithoutFunction => "accessor property without a function"

/-- A condition that stops the engine; scripts cannot catch it.  `outOfFuel` is
the end of the allotted steps and stands for a run that goes on. -/
inductive Fault where
  | unsupported (what : Unsupported)
  | invariant (what : Invariant)
  | lazyReentrancy (key : String)
  | interrupted
  | outOfFuel
  deriving DecidableEq, Inhabited

def Fault.message : Fault → String
  | .unsupported what => "unsupported construct: " ++ what.text
  | .invariant what => "internal invariant violated: " ++ what.text
  | .lazyReentrancy key => "lazy property '" ++ key ++ "' was read while its resolver was running"
  | .interrupted => "execution interrupted by host"
  | .outOfFuel => "execution out of fuel"

end Ecma
