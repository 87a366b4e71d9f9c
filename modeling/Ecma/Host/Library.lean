import Ecma.Engine.Level

/-!
# Functions of the host

A small library over the engine's operations, installed on the global object
for scripts to use, and functions with a fixed behaviour.
-/

namespace Ecma

namespace Host

/-! ## Typed requests -/

def log (line : String) : HostProgram Unit := .ask (.log line)

def display (v : Value) : HostProgram String := .ask (.display v)

def toPropertyKey (v : Value) : HostProgram PropertyKey := .ask (.toPropertyKey v)

def get (o : ObjectRef) (k : PropertyKey) : HostProgram Value := .ask (.get o k (.object o))

def hasProperty (o : ObjectRef) (k : PropertyKey) : HostProgram Bool := .ask (.hasProperty o k)

def define (o : ObjectRef) (k : PropertyKey) (d : Descriptor) : HostProgram Bool :=
  .ask (.define o k d)

def displayAll : List Value → HostProgram (List String)
  | [] => pure []
  | v :: rest => do
    let shown ← display v
    return shown :: (← displayAll rest)

def argument (args : List Value) (n : Nat) : Value := args.getD n .undefined

/-- The object a function needs as an argument. -/
def requireObject : Value → HostProgram ObjectRef
  | .object o => pure o
  | _ => .raise .typeError "host: object expected"

def ofObject? : Option ObjectRef → Value
  | some o => .object o
  | none => .null

/-! ## The library -/

/-- A function of the library. -/
structure Entry where
  name : String
  arity : Nat
  run : List Value → HostProgram Value

def print (args : List Value) : HostProgram Value := do
  log (" ".intercalate (← displayAll args))
  return .undefined

/-- A field of a descriptor object: its name, and the patch it makes. -/
structure Field where
  name : String
  apply : Descriptor → Value → Descriptor

def fields : List Field :=
  [⟨"value", Descriptor.withValue⟩,
    ⟨"writable", fun d v ↦ d.withWritable v.toBoolean⟩,
    ⟨"get", Descriptor.withGet⟩,
    ⟨"set", Descriptor.withSet⟩,
    ⟨"enumerable", fun d v ↦ d.withEnumerable v.toBoolean⟩,
    ⟨"configurable", fun d v ↦ d.withConfigurable v.toBoolean⟩]

/-- Reads the fields that a descriptor object has, in order. -/
def readFields (o : ObjectRef) (d : Descriptor) : List Field → HostProgram Descriptor
  | [] => pure d
  | field :: rest => do
    if ← hasProperty o (.ofString field.name) then
      let v ← get o (.ofString field.name)
      readFields o (field.apply d v) rest
    else readFields o d rest

def defineProperty (args : List Value) : HostProgram Value := do
  let o ← requireObject (argument args 0)
  let k ← toPropertyKey (argument args 1)
  let source ← requireObject (argument args 2)
  let d ← readFields source .generic fields
  return .boolean (← define o k d)

def getPrototypeOf (args : List Value) : HostProgram Value := do
  let o ← requireObject (argument args 0)
  let prototype : Option ObjectRef ← HostProgram.ask (.prototypeOf o)
  return ofObject? prototype

def setPrototypeOf (args : List Value) : HostProgram Value := do
  let o ← requireObject (argument args 0)
  let changed : Bool ← HostProgram.ask (.setPrototypeOf o (argument args 1).object?)
  return .boolean changed

def preventExtensions (args : List Value) : HostProgram Value := do
  let o ← requireObject (argument args 0)
  let prevented : Bool ← HostProgram.ask (.preventExtensions o)
  return .boolean prevented

def isExtensible (args : List Value) : HostProgram Value := do
  let o ← requireObject (argument args 0)
  let extensible : Bool ← HostProgram.ask (.isExtensible o)
  return .boolean extensible

def create (args : List Value) : HostProgram Value := do
  let o : ObjectRef ← HostProgram.ask (.newObject (argument args 0).object?)
  return .object o

def keys (args : List Value) : HostProgram Value := do
  let o ← requireObject (argument args 0)
  let found : List Text ← HostProgram.ask (.enumerableKeys o)
  return .ofString (",".intercalate (found.map toString))

def keyText : PropertyKey → String
  | .string t => toString t
  | .symbol s => s.toText

def ownKeys (args : List Value) : HostProgram Value := do
  let o ← requireObject (argument args 0)
  let found : List PropertyKey ← HostProgram.ask (.ownKeys o)
  return .ofString (",".intercalate (found.map keyText))

def symbol (args : List Value) : HostProgram Value := do
  let v := argument args 0
  let description : Option String ←
    if v.isUndefined then pure none
    else do
      let t : Text ← HostProgram.ask (.toText v)
      pure (some (toString t))
  let s : Symbol ← HostProgram.ask (.newSymbol description)
  return .symbol s

def sameValue (args : List Value) : HostProgram Value :=
  return .boolean ((argument args 0).sameValue (argument args 1))

def toObject (args : List Value) : HostProgram Value := do
  let o : ObjectRef ← HostProgram.ask (.toObject (argument args 0))
  return .object o

/-- Throws its argument and leaves the throw location alone. -/
def throwRaw (args : List Value) : HostProgram Value := .fail (.thrown (argument args 0))

def callFunction (args : List Value) : HostProgram Value :=
  .ask (.call (argument args 0) (argument args 1) (args.drop 2))

/-- Calls a function and gives what it throws back as a value, also when the
throw has left a script; a fault stays a fault. -/
def callQuiet (args : List Value) : HostProgram Value :=
  .perform (.call (argument args 0) .undefined []) fun
    | .ok v => pure v
    | .error e => e.value?.elim (.fail e) pure

def defineLazy (args : List Value) : HostProgram Value := do
  let o ← requireObject (argument args 0)
  let k ← toPropertyKey (argument args 1)
  let cell : CellRef ←
    HostProgram.ask (.newCell (.logging ("lazy " ++ keyText k) (argument args 2)))
  return .boolean (← define o k (.lazy cell true true true))

def interrupt (_ : List Value) : HostProgram Value := do
  let _ : Unit ← HostProgram.ask .interrupt
  return .undefined

def library : List Entry :=
  [⟨"print", 0, print⟩, ⟨"defineProperty", 3, defineProperty⟩,
    ⟨"getPrototypeOf", 1, getPrototypeOf⟩, ⟨"setPrototypeOf", 2, setPrototypeOf⟩,
    ⟨"preventExtensions", 1, preventExtensions⟩, ⟨"isExtensible", 1, isExtensible⟩,
    ⟨"create", 1, create⟩, ⟨"keys", 1, keys⟩, ⟨"ownKeys", 1, ownKeys⟩, ⟨"symbol", 1, symbol⟩,
    ⟨"sameValue", 2, sameValue⟩, ⟨"toObject", 1, toObject⟩, ⟨"throwRaw", 1, throwRaw⟩,
    ⟨"callFn", 2, callFunction⟩, ⟨"callQuiet", 1, callQuiet⟩, ⟨"lazy", 3, defineLazy⟩,
    ⟨"interrupt", 0, interrupt⟩]

def installEntries (eng : Engine) (o : ObjectRef) : List Entry → Action Unit
  | [] => pure ()
  | e :: rest => do
    let f ← Function.createNative e.name e.arity fun _ args ↦ e.run args
    discard (Object.define eng o (.ofString e.name) (.hidden f))
    installEntries eng o rest

def installSymbols (eng : Engine) (o : ObjectRef) : List WellKnown → Action Unit
  | [] => pure ()
  | w :: rest => do
    discard (Object.define eng o (.ofString ("$" ++ w.name)) (.hidden (.symbol w.symbol)))
    installSymbols eng o rest

/-- Puts the library and the well-known symbols on the global object. -/
def install (eng : Engine) : Action Unit := do
  let o := (← Action.realm).globalObject
  installEntries eng o library
  installSymbols eng o WellKnown.all

/-! ## Fixed behaviours -/

/-- What a function of the host does after it has logged its call. -/
inductive Behaviour where
  | give (v : Value)
  | throw (v : Value)
  | raise (kind : ErrorKind) (message : String)
  | throwUncaught (v : Value) (location : Location)
  | argument (n : Nat)
  | this

namespace Behaviour

def run (name : String) (b : Behaviour) (receiver : Value) (args : List Value) :
    HostProgram Value := do
  let shownThis ← display receiver
  let shownArgs ← displayAll args
  log (name ++ " this=" ++ shownThis ++ " args=" ++ ",".intercalate shownArgs)
  match b with
  | .give v => return v
  | .throw v => .fail (.thrown v)
  | .raise kind message => .raise kind message
  | .throwUncaught v location => .fail (.uncaught v location)
  | .argument n => return Host.argument args n
  | .this => return receiver

end Behaviour

end Host

end Ecma
