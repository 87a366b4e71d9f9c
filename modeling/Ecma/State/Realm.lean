import Ecma.State.Heap

/-!
# Realms

The objects every interpreter starts with: prototypes without methods, so that
wrappers, functions and errors have a chain, and the global object.
-/

namespace Ecma

structure Realm where
  objectPrototype : ObjectRef
  functionPrototype : ObjectRef
  booleanPrototype : ObjectRef
  numberPrototype : ObjectRef
  stringPrototype : ObjectRef
  symbolPrototype : ObjectRef
  typeErrorPrototype : ObjectRef
  rangeErrorPrototype : ObjectRef
  referenceErrorPrototype : ObjectRef
  syntaxErrorPrototype : ObjectRef
  globalObject : ObjectRef
  globalScope : ScopeRef
  deriving Inhabited

namespace Realm

def errorPrototype (r : Realm) : ErrorKind → ObjectRef
  | .typeError | .redeclaration => r.typeErrorPrototype
  | .rangeError => r.rangeErrorPrototype
  | .referenceError => r.referenceErrorPrototype
  | .syntaxError => r.syntaxErrorPrototype

/-- The prototype of functions, which is itself callable and does nothing. -/
def emptyFunction : Callable := .native "" 0 fun _ _ ↦ pure .undefined

def storeHidden (data : Object) (name : String) (v : Value) : Object :=
  data.store (.ofString name) (.hidden v)

/-- The prototype of the error objects of one name. -/
def errorObject (prototype : ObjectRef) (name : String) (cutover : Nat) : Object :=
  storeHidden (storeHidden (.new .object (some prototype) cutover) "name" (.ofString name))
    "message" (.ofString "")

def storeFrozen (data : Object) (name : String) (v : Value) : Object :=
  data.store (.ofString name) (.data v false false false)

/-- The global object, which refers to itself. -/
def globalData (prototype self : ObjectRef) (cutover : Nat) : Object :=
  let data := storeFrozen (.new .object (some prototype) cutover) "undefined" .undefined
  let data := storeFrozen data "NaN" (.ofBinary64 .nan)
  let data := storeFrozen data "Infinity" (.ofBinary64 .infinity)
  storeHidden data "globalThis" (.object self)

/-- A new realm in a heap. -/
def build (cutover : Nat) (h : Heap) : Realm × Heap :=
  let (objectPrototype, h) := h.addObject (.new .object none cutover)
  let inherits (c : ObjectClass) : Object := .new c (some objectPrototype) cutover
  let (functionPrototype, h) :=
    h.addObject { inherits .function with callable := some emptyFunction }
  let (booleanPrototype, h) :=
    h.addObject { inherits .boolean with primitive := some (.boolean false) }
  let (numberPrototype, h) :=
    h.addObject { inherits .number with primitive := some (.ofInt32 0) }
  let (stringPrototype, h) :=
    h.addObject { inherits .string with primitive := some (.ofString "") }
  let (symbolPrototype, h) := h.addObject (inherits .object)
  let (errorPrototype, h) := h.addObject (errorObject objectPrototype "Error" cutover)
  let (typeErrorPrototype, h) :=
    h.addObject (errorObject errorPrototype ErrorKind.typeError.name cutover)
  let (rangeErrorPrototype, h) :=
    h.addObject (errorObject errorPrototype ErrorKind.rangeError.name cutover)
  let (referenceErrorPrototype, h) :=
    h.addObject (errorObject errorPrototype ErrorKind.referenceError.name cutover)
  let (syntaxErrorPrototype, h) :=
    h.addObject (errorObject errorPrototype ErrorKind.syntaxError.name cutover)
  let self : ObjectRef := ⟨h.objects.size⟩
  let (globalObject, h) := h.addObject (globalData objectPrototype self cutover)
  let (globalScope, h) := h.addScope ⟨.global globalObject .empty [], none, false⟩
  ({ objectPrototype, functionPrototype, booleanPrototype, numberPrototype, stringPrototype,
     symbolPrototype, typeErrorPrototype, rangeErrorPrototype, referenceErrorPrototype,
     syntaxErrorPrototype, globalObject, globalScope }, h)

end Realm

end Ecma
