import Ecma.Error.Cause
import Ecma.Value.Basic

/-!
# Scopes

A scope holds variables itself (declarative), takes them from an object, or, at
the top of a script, does both.  A binding without a value is not yet
initialised and cannot be read or set.
-/

namespace Ecma

structure Binding where
  value : Option Value
  canDelete : Bool
  isMutable : Bool
  isStrict : Bool
  deriving Inhabited

/-- Why an operation on a declarative record is refused. -/
inductive BindingError where
  | script (e : ScriptError)
  | neverCreated

/-- Variables by name. -/
structure Bindings where
  entries : List (String × Binding)
  deriving Inhabited

namespace Bindings

def empty : Bindings := ⟨[]⟩

def find? (b : Bindings) (name : String) : Option Binding := b.entries.lookup name

def contains (b : Bindings) (name : String) : Bool := (b.find? name).isSome

def insert (b : Bindings) (name : String) (binding : Binding) : Bindings :=
  ⟨(name, binding) :: b.entries⟩

def writeEntries (name : String) (v : Value) : List (String × Binding) → List (String × Binding)
  | [] => []
  | (n, binding) :: rest =>
    if n == name then (n, { binding with value := some v }) :: rest
    else (n, binding) :: writeEntries name v rest

/-- Gives a binding that is present a value. -/
def write (b : Bindings) (name : String) (v : Value) : Bindings :=
  ⟨writeEntries name v b.entries⟩

def erase (b : Bindings) (name : String) : Bindings :=
  ⟨b.entries.filter fun e ↦ !(e.1 == name)⟩

def names (b : Bindings) : List String := b.entries.map Prod.fst

@[simp] theorem find?_empty (name : String) : empty.find? name = none := rfl

@[simp] theorem find?_insert_self (b : Bindings) (name : String) (binding : Binding) :
    (b.insert name binding).find? name = some binding := by
  simp [insert, find?]

theorem find?_insert_of_ne (b : Bindings) {name other : String} (h : other ≠ name)
    (binding : Binding) : (b.insert name binding).find? other = b.find? other := by
  simp [insert, find?, List.lookup_cons, beq_false_of_ne h]

theorem find?_write_self (b : Bindings) (name : String) (v : Value) :
    (b.write name v).find? name = (b.find? name).map fun x ↦ { x with value := some v } := by
  obtain ⟨entries⟩ := b
  simp only [write, find?]
  induction entries with
  | nil => rfl
  | cons e rest ih =>
    obtain ⟨n, x⟩ := e
    by_cases h : n = name
    · subst h
      simp [writeEntries]
    · simp [writeEntries, List.lookup_cons, h, beq_false_of_ne (Ne.symm h), ih]

theorem find?_write_of_ne (b : Bindings) {name other : String} (h : other ≠ name) (v : Value) :
    (b.write name v).find? other = b.find? other := by
  obtain ⟨entries⟩ := b
  simp only [write, find?]
  induction entries with
  | nil => rfl
  | cons e rest ih =>
    obtain ⟨n, x⟩ := e
    by_cases hn : n = name
    · subst hn
      simp [writeEntries, List.lookup_cons, beq_false_of_ne h]
    · simp [writeEntries, List.lookup_cons, hn, ih]

/-! ## Operations that may be refused -/

def create (b : Bindings) (name : String) (binding : Binding) : Except BindingError Bindings :=
  if b.contains name then .error (.script (.redeclared name)) else .ok (b.insert name binding)

/-- Declares a variable without a value. -/
def createMutable (b : Bindings) (name : String) (canDelete : Bool) :
    Except BindingError Bindings :=
  b.create name ⟨none, canDelete, true, false⟩

/-- Declares a constant without a value. -/
def createImmutable (b : Bindings) (name : String) (strict : Bool) :
    Except BindingError Bindings :=
  b.create name ⟨none, false, false, strict⟩

def initialise (b : Bindings) (name : String) (v : Value) : Except BindingError Bindings :=
  if b.contains name then .ok (b.write name v) else .error .neverCreated

/-- Assigns to a variable.  In sloppy code an absent one is created, and a
constant keeps its value. -/
def set (b : Bindings) (name : String) (v : Value) (strict : Bool) :
    Except BindingError Bindings :=
  match b.find? name with
  | none =>
    if strict then .error (.script (.notDefined name))
    else (b.createMutable name true).bind fun b ↦ b.initialise name v
  | some binding =>
    if binding.value.isNone then .error (.script (.notInitialized name))
    else if binding.isMutable then .ok (b.write name v)
    else if strict || binding.isStrict then .error (.script .constantAssigned)
    else .ok b

def get (b : Bindings) (name : String) : Except BindingError Value :=
  match b.find? name with
  | some ⟨some v, _, _, _⟩ => .ok v
  | some ⟨none, _, _, _⟩ => .error (.script (.notInitialized name))
  | none => .error (.script (.notDefined name))

/-- Removes a variable if that is allowed; an absent one counts as removed. -/
def delete (b : Bindings) (name : String) : Bool × Bindings :=
  match b.find? name with
  | none => (true, b)
  | some binding => if binding.canDelete then (true, b.erase name) else (false, b)

/-! ## Access through bound properties -/

def value? (b : Bindings) (name : String) : Option Value := (b.find? name).bind Binding.value

/-- Writes a variable that is present and mutable, and nothing else. -/
def store (b : Bindings) (name : String) (v : Value) : Bindings :=
  match b.find? name with
  | some binding => if binding.isMutable then b.write name v else b
  | none => b

end Bindings

/-! ## Records and scopes -/

inductive ScopeRecord where
  | declarative (bindings : Bindings) (this : Option Value)
  | object (o : ObjectRef) (isWith : Bool)
  | global (o : ObjectRef) (bindings : Bindings) (varNames : List String)
  deriving Inhabited

namespace ScopeRecord

/-- The variables that the record holds itself. -/
def bindings? : ScopeRecord → Option Bindings
  | .declarative b _ | .global _ b _ => some b
  | .object _ _ => none

def withBindings (r : ScopeRecord) (b : Bindings) : ScopeRecord :=
  match r with
  | .declarative _ this => .declarative b this
  | .global o _ names => .global o b names
  | .object o isWith => .object o isWith

def hasThis : ScopeRecord → Bool
  | .declarative _ this => this.isSome
  | .object _ _ => false
  | .global _ _ _ => true

def this? : ScopeRecord → Option Value
  | .declarative _ this => this
  | .object _ _ => none
  | .global o _ _ => some (.object o)

/-- The object of a `with` scope, which is the `this` of calls through it. -/
def withObject? : ScopeRecord → Option ObjectRef
  | .object o true => some o
  | _ => none

def isGlobal : ScopeRecord → Bool
  | .global _ _ _ => true
  | _ => false

def kindName : ScopeRecord → String
  | .declarative _ _ => "Declarative"
  | .object _ _ => "Object"
  | .global _ _ _ => "Global"

end ScopeRecord

structure Scope where
  record : ScopeRecord
  outer : Option ScopeRef
  isStrict : Bool
  deriving Inhabited

namespace Scope

/-- The shape of a scope in one line. -/
def describe (s : Scope) : String :=
  "Environment \x7b kind: \"" ++ s.record.kindName ++ "\", strict: " ++ toString s.isStrict ++
    ", has_outer: " ++ toString s.outer.isSome ++ " \x7d"

end Scope

end Ecma
