import Ecma.Host.Program
import Ecma.Property.Store

/-!
# Objects

The data of one object.  Properties under texts and under symbols are kept
apart.
-/

namespace Ecma

inductive ObjectClass where
  | object
  | function
  | arguments
  | error (kind : ErrorKind)
  | boolean
  | number
  | string
  | symbol
  deriving DecidableEq, Inhabited

def ObjectClass.name : ObjectClass → String
  | .object => "Object"
  | .function => "Function"
  | .arguments => "Arguments"
  | .error kind => "Error(" ++ kind.label ++ ")"
  | .boolean => "Boolean"
  | .number => "Number"
  | .string => "String"
  | .symbol => "Symbol"

/-- What calling an object runs. -/
inductive Callable where
  | closure (function : FunctionNode) (scope : ScopeRef) (isStrict : Bool)
  | native (name : String) (arity : Nat) (run : Value → List Value → HostProgram Value)

/-- Whether `new` can be applied: to functions of a script that are no arrows. -/
def Callable.isConstructor : Callable → Bool
  | .closure f _ _ => !f.isArrow
  | .native _ _ _ => false

structure Object where
  objectClass : ObjectClass
  prototype : Option ObjectRef
  isExtensible : Bool
  strings : PropertyStore Text
  symbols : PropertyStore Symbol
  callable : Option Callable
  primitive : Option Value
  deriving Inhabited

namespace Object

/-- An object without properties. -/
def new (objectClass : ObjectClass) (prototype : Option ObjectRef) (cutover : Nat) : Object :=
  { objectClass, prototype, isExtensible := true
    strings := .empty cutover, symbols := .empty cutover
    callable := none, primitive := none }

/-- The own property under a key, as it is stored. -/
def own? (o : Object) : PropertyKey → Option Descriptor
  | .string t => o.strings.get? t
  | .symbol s => o.symbols.get? s

def hasOwn (o : Object) (k : PropertyKey) : Bool := (o.own? k).isSome

/-- Replaces the property under a key, or adds it as the last one. -/
def store (o : Object) (k : PropertyKey) (d : Descriptor) : Object :=
  match k with
  | .string t => { o with strings := o.strings.set t d }
  | .symbol s => { o with symbols := o.symbols.set s d }

/-- Changes the property under a key in place, if there is one. -/
def modify (o : Object) (k : PropertyKey) (f : Descriptor → Descriptor) : Object :=
  match k with
  | .string t => { o with strings := o.strings.modify t f }
  | .symbol s => { o with symbols := o.symbols.modify s f }

def remove (o : Object) (k : PropertyKey) : Object :=
  match k with
  | .string t => { o with strings := (o.strings.remove t).2 }
  | .symbol s => { o with symbols := (o.symbols.remove s).2 }

def propertyCount (o : Object) : Nat := o.strings.size + o.symbols.size

def isCallable (o : Object) : Bool := o.callable.isSome

def isConstructor (o : Object) : Bool := o.callable.any Callable.isConstructor

/-! ## Keys in order -/

def indexEntry? (t : Text) : Option (Nat × Text) := t.arrayIndex?.map (·, t)

/-- The own texts: array indices in numeric order, then the others as added. -/
def ownTexts (o : Object) : List Text :=
  let keys := o.strings.keys
  ((keys.filterMap indexEntry?).mergeSort fun a b ↦ decide (a.1 ≤ b.1)).map Prod.snd ++
    keys.filter fun t ↦ t.arrayIndex?.isNone

/-- The own keys: array indices, other texts, symbols. -/
def ownKeys (o : Object) : List PropertyKey :=
  o.ownTexts.map PropertyKey.string ++ o.symbols.keys.map PropertyKey.symbol

end Object

end Ecma
