import Ecma.Number.Text
import Ecma.Object.Basic
import Ecma.Property.Cell
import Ecma.Scope.Record

/-!
# The heap

Objects, scopes and lazy cells by reference.  References are handed out in
order and never taken back, so a heap only grows.
-/

namespace Ecma

structure Heap where
  objects : Array Object
  scopes : Array Scope
  cells : Array LazyCell
  deriving Inhabited

namespace Heap

def empty : Heap := ⟨#[], #[], #[]⟩

/-! ## Objects -/

/-- The object of a reference; a reference to nothing has the default one. -/
def object (h : Heap) (o : ObjectRef) : Object := h.objects.getD o.index default

def addObject (h : Heap) (data : Object) : ObjectRef × Heap :=
  (⟨h.objects.size⟩, { h with objects := h.objects.push data })

def modifyObject (h : Heap) (o : ObjectRef) (f : Object → Object) : Heap :=
  { h with objects := h.objects.modify o.index f }

@[simp] theorem object_addObject_self (h : Heap) (data : Object) :
    (h.addObject data).2.object (h.addObject data).1 = data := by
  simp [addObject, object]

theorem object_addObject_of_lt {h : Heap} {o : ObjectRef} (ho : o.index < h.objects.size)
    (data : Object) : (h.addObject data).2.object o = h.object o := by
  simp [addObject, object, Array.getElem?_push, Nat.ne_of_lt ho]

theorem object_modifyObject_self {h : Heap} {o : ObjectRef} (ho : o.index < h.objects.size)
    (f : Object → Object) : (h.modifyObject o f).object o = f (h.object o) := by
  simp [modifyObject, object, ho, Array.getElem_modify_self]

theorem object_modifyObject_of_ne (h : Heap) {o p : ObjectRef} (hp : p ≠ o)
    (f : Object → Object) : (h.modifyObject o f).object p = h.object p := by
  have : o.index ≠ p.index := fun hc ↦ hp (by cases o; cases p; simp_all)
  simp [modifyObject, object, Array.getElem?_modify, this]

def own? (h : Heap) (o : ObjectRef) (k : PropertyKey) : Option Descriptor := (h.object o).own? k

def isCallable (h : Heap) : Value → Bool
  | .object o => (h.object o).isCallable
  | _ => false

def isConstructor (h : Heap) : Value → Bool
  | .object o => (h.object o).isConstructor
  | _ => false

/-! ## Prototype chains -/

/-- At most `n` objects, each the prototype of the one before. -/
def chainFrom (h : Heap) : Nat → Option ObjectRef → List ObjectRef
  | 0, _ => []
  | _, none => []
  | n + 1, some o => o :: chainFrom h n (h.object o).prototype

/-- An object and its prototypes, outwards.  A chain without a cycle has no
more objects than the heap. -/
def chain (h : Heap) (o : Option ObjectRef) : List ObjectRef := h.chainFrom h.objects.size o

/-- Whether the object or a prototype of it has a property under the key. -/
def hasProperty (h : Heap) (o : ObjectRef) (k : PropertyKey) : Bool :=
  (h.chain (some o)).any fun p ↦ (h.object p).hasOwn k

/-- The value under a key if the nearest property with that key is plain data;
no accessor and no resolver is run. -/
def findData? (h : Heap) (o : ObjectRef) (t : Text) : Option Value :=
  ((h.chain (some o)).findSome? fun p ↦ h.own? p (.string t)).bind Descriptor.value?

/-! ## Scopes -/

def scope (h : Heap) (s : ScopeRef) : Scope := h.scopes.getD s.index default

def addScope (h : Heap) (data : Scope) : ScopeRef × Heap :=
  (⟨h.scopes.size⟩, { h with scopes := h.scopes.push data })

def modifyScope (h : Heap) (s : ScopeRef) (f : Scope → Scope) : Heap :=
  { h with scopes := h.scopes.modify s.index f }

@[simp] theorem scope_modifyObject (h : Heap) (o : ObjectRef) (f : Object → Object) (s : ScopeRef) :
    (h.modifyObject o f).scope s = h.scope s := rfl

@[simp] theorem object_modifyScope (h : Heap) (s : ScopeRef) (f : Scope → Scope) (o : ObjectRef) :
    (h.modifyScope s f).object o = h.object o := rfl

@[simp] theorem scope_addScope_self (h : Heap) (data : Scope) :
    (h.addScope data).2.scope (h.addScope data).1 = data := by
  simp [addScope, scope]

theorem scope_addScope_of_lt {h : Heap} {s : ScopeRef} (hs : s.index < h.scopes.size)
    (data : Scope) : (h.addScope data).2.scope s = h.scope s := by
  simp [addScope, scope, Array.getElem?_push, Nat.ne_of_lt hs]

theorem scope_modifyScope_self {h : Heap} {s : ScopeRef} (hs : s.index < h.scopes.size)
    (f : Scope → Scope) : (h.modifyScope s f).scope s = f (h.scope s) := by
  simp [modifyScope, scope, hs, Array.getElem_modify_self]

theorem scope_modifyScope_of_ne (h : Heap) {s t : ScopeRef} (ht : t ≠ s)
    (f : Scope → Scope) : (h.modifyScope s f).scope t = h.scope t := by
  have : s.index ≠ t.index := fun hc ↦ ht (by cases s; cases t; simp_all)
  simp [modifyScope, scope, Array.getElem?_modify, this]

/-- At most `n` scopes, each the outer scope of the one before. -/
def scopesFrom (h : Heap) : Nat → Option ScopeRef → List ScopeRef
  | 0, _ => []
  | _, none => []
  | n + 1, some s => s :: scopesFrom h n (h.scope s).outer

/-- A scope and the scopes around it, outwards. -/
def scopeChain (h : Heap) (s : ScopeRef) : List ScopeRef := h.scopesFrom h.scopes.size (some s)

/-- The value of a variable through a bound property; `undefined` if it has none. -/
def boundValue (h : Heap) (s : ScopeRef) (name : String) : Value :=
  (((h.scope s).record.bindings?).bind (·.value? name)).getD .undefined

/-- Writes a variable through a bound property. -/
def storeBound (h : Heap) (s : ScopeRef) (name : String) (v : Value) : Heap :=
  h.modifyScope s fun scope ↦
    match scope.record.bindings? with
    | some b => { scope with record := scope.record.withBindings (b.store name v) }
    | none => scope

/-! ## Cells -/

def cell (h : Heap) (c : CellRef) : LazyCell := h.cells.getD c.index default

def addCell (h : Heap) (data : LazyCell) : CellRef × Heap :=
  (⟨h.cells.size⟩, { h with cells := h.cells.push data })

def setCell (h : Heap) (c : CellRef) (data : LazyCell) : Heap :=
  { h with cells := h.cells.modify c.index fun _ ↦ data }

/-! ## Showing values -/

def display (h : Heap) : Value → String
  | .undefined => "undefined"
  | .null => "null"
  | .boolean b => toString b
  | .number n => n.toText
  | .string t => toString t
  | .symbol s => s.toText
  | .object o => if (h.object o).isCallable then "[object Function]" else "[object Object]"

/-- The answer of `typeof`. -/
def typeOf (h : Heap) : Value → String
  | .undefined => "undefined"
  | .null => "object"
  | .boolean _ => "boolean"
  | .number _ => "number"
  | .string _ => "string"
  | .symbol _ => "symbol"
  | .object o => if (h.object o).isCallable then "function" else "object"

/-- The names of the classes that a value is in. -/
def classesOf (h : Heap) (v : Value) : List String :=
  let classes := [("undefined", v.isUndefined), ("null", v.isNull), ("boolean", v.isBoolean),
    ("number", v.isNumber), ("integer", v.isInteger), ("string", v.isString),
    ("symbol", v.isSymbol), ("object", v.isObject), ("primitive", v.isPrimitive),
    ("nullish", v.isNullish), ("nan", v.isNaN), ("negative_zero", v.isNegativeZero),
    ("callable", h.isCallable v)]
  (classes.filter Prod.snd).map Prod.fst

def findText? (h : Heap) (o : ObjectRef) (name : String) : Option Text :=
  match h.findData? o (Text.ofString name) with
  | some (.string t) => some t
  | _ => none

/-- A thrown value as messages show it: an error object by its name and message,
read without running any code. -/
def describeThrown (h : Heap) : Value → String
  | .object o =>
    match h.findText? o "name", h.findText? o "message" with
    | some name, some message =>
      if message.isEmpty then toString name
      else if name.isEmpty then toString message
      else toString name ++ ": " ++ toString message
    | none, some message => toString message
    | some name, none => toString name
    | none, none => h.display (.object o)
  | v => h.display v

def describeFailure (h : Heap) : Failure → String
  | .thrown v => h.describeThrown v
  | .uncaught v location => "Uncaught " ++ h.describeThrown v ++ " at " ++ location.toText
  | .fault f => f.message

/-- The kind of a failure whose value is an error object. -/
def failureKind? (h : Heap) (e : Failure) : Option ErrorKind :=
  match e.value? with
  | some (.object o) =>
    match (h.object o).objectClass with
    | .error kind => some kind
    | _ => none
  | _ => none

end Heap

end Ecma
