import Ecma.Error.Failure
import Ecma.Property.Cell
import Ecma.Property.Descriptor
import Ecma.Statement.Completion

/-!
# Programs of the host

A function supplied by the host is a tree: it answers, or asks the engine for
something and goes on with the reply, be it a result or a failure.  What it may
ask for is listed here; it can have code evaluated and executed, but neither start a
script nor declare a variable.
-/

namespace Ecma

/-- What a host function may ask of the engine. -/
inductive Request where
  | log (line : String)
  | display (v : Value)
  | raise (kind : ErrorKind) (message : String)
  | interrupt
  | toPropertyKey (v : Value)
  | toText (v : Value)
  | toObject (v : Value)
  | toPrimitive (v : Value) (hint : Hint)
  | toNumber (v : Value)
  | looselyEqual (x y : Value)
  | lessThan (x y : Value) (leftFirst : Bool)
  | newSymbol (description : Option String)
  | newObject (prototype : Option ObjectRef)
  | newCell (r : Resolver)
  | prototypeOf (o : ObjectRef)
  | setPrototypeOf (o : ObjectRef) (prototype : Option ObjectRef)
  | preventExtensions (o : ObjectRef)
  | isExtensible (o : ObjectRef)
  | ownKeys (o : ObjectRef)
  | enumerableKeys (o : ObjectRef)
  | hasProperty (o : ObjectRef) (k : PropertyKey)
  | getOwn (o : ObjectRef) (k : PropertyKey)
  | get (o : ObjectRef) (k : PropertyKey) (receiver : Value)
  | set (o : ObjectRef) (k : PropertyKey) (v receiver : Value)
  | define (o : ObjectRef) (k : PropertyKey) (d : Descriptor)
  | createData (o : ObjectRef) (k : PropertyKey) (v : Value)
  | delete (o : ObjectRef) (k : PropertyKey)
  | hasVariable (s : ScopeRef) (name : String)
  | getVariable (s : ScopeRef) (name : String) (strict : Bool)
  | setVariable (s : ScopeRef) (name : String) (v : Value) (strict : Bool)
  | deleteVariable (s : ScopeRef) (name : String)
  | call (f this : Value) (args : List Value)
  | construct (f : Value) (args : List Value)
  | evaluate (e : Expression) (s : ScopeRef)
  | execute (stmt : Statement) (s : ScopeRef)

/-- What the engine replies to a request that succeeds. -/
def Request.Reply : Request → Type
  | .log _ | .interrupt | .setVariable _ _ _ _ => Unit
  | .display _ => String
  | .raise _ _ => Empty
  | .toPropertyKey _ => PropertyKey
  | .toText _ => Text
  | .toObject _ | .newObject _ => ObjectRef
  | .toNumber _ => Binary64
  | .lessThan _ _ _ => Option Bool
  | .newSymbol _ => Symbol
  | .newCell _ => CellRef
  | .prototypeOf _ => Option ObjectRef
  | .setPrototypeOf _ _ | .preventExtensions _ | .isExtensible _ => Bool
  | .ownKeys _ => List PropertyKey
  | .enumerableKeys _ => List Text
  | .getOwn _ _ => Option Descriptor
  | .looselyEqual _ _ | .hasProperty _ _ | .set _ _ _ _ | .define _ _ _ | .createData _ _ _
  | .delete _ _ | .hasVariable _ _ | .deleteVariable _ _ => Bool
  | .toPrimitive _ _ | .get _ _ _ | .getVariable _ _ _ | .call _ _ _ | .construct _ _
  | .evaluate _ _ => Value
  | .execute _ _ => Completion

/-- A computation of the host with a result in `α`. -/
inductive HostProgram (α : Type) where
  | done (result : Except Failure α)
  | perform (request : Request)
      (next : Except Failure request.Reply → HostProgram α)

namespace HostProgram

variable {α β : Type}

protected def bind : HostProgram α → (α → HostProgram β) → HostProgram β
  | .done (.ok a), f => f a
  | .done (.error e), _ => .done (.error e)
  | .perform request next, f => .perform request fun reply ↦ (next reply).bind f

instance : Monad HostProgram where
  pure a := .done (.ok a)
  bind := HostProgram.bind

@[simp] theorem pure_bind (a : α) (f : α → HostProgram β) : (pure a >>= f) = f a := rfl

@[simp] theorem done_error_bind (e : Failure) (f : α → HostProgram β) :
    (HostProgram.done (.error e) >>= f) = .done (.error e) := rfl

@[simp] theorem perform_bind (request : Request)
    (next : Except Failure request.Reply → HostProgram α) (f : α → HostProgram β) :
    (HostProgram.perform request next >>= f) = .perform request fun reply ↦ next reply >>= f := rfl

/-- Asks for something and fails as it fails. -/
def ask (request : Request) : HostProgram request.Reply := .perform request .done

/-- Asks for something and gives the failure back as a result. -/
def attempt (request : Request) : HostProgram (Except Failure request.Reply) :=
  .perform request fun reply ↦ .done (.ok reply)

def fail (e : Failure) : HostProgram α := .done (.error e)

/-- Throws an error object of the given kind. -/
def raise (kind : ErrorKind) (message : String) : HostProgram α :=
  .perform (.raise kind message) fun
    | .error e => .done (.error e)
    | .ok reply => nomatch (reply : Empty)

end HostProgram

end Ecma
