import Ecma.Expression.Operator
import Ecma.Expression.Reference
import Ecma.Function.Call

/-!
# Evaluating expressions
-/

namespace Ecma

namespace Expression

/-- How a callee is named in a message. -/
def calleeText : Expression → String
  | .identifier name => name
  | .this => "this"
  | .dot base name => calleeText base ++ "." ++ name
  | .index base _ => calleeText base ++ "[...]"
  | _ => "expression"

def unsupported {α : Type} (what : Unsupported) : Action α := Action.fault (.unsupported what)

/-! ## References -/

/-- The object whose property an expression names. -/
def evalBase (eng : Engine) (e : Expression) (s : ScopeRef) : Action Value :=
  match e with
  | .super => unsupported .superProperty
  | e => eng.eval e s

/-- What an expression that can be assigned to stands for. -/
def evalReference (eng : Engine) (e : Expression) (s : ScopeRef) : Action Reference := do
  match e with
  | .identifier name => Reference.resolve eng name s
  | .dot holder name =>
    let base ← evalBase eng holder s
    return .property base (.ofString name) (← Action.scope s).isStrict
  | .index holder key =>
    let base ← evalBase eng holder s
    let k ← Conversion.toPropertyKey eng (← eng.eval key s)
    return .property base k (← Action.scope s).isStrict
  | _ => Action.throwNew .invalidTarget

/-! ## Functions and objects -/

/-- The closure of a function expression.  One with a name of its own sees
itself under that name. -/
def evalFunction (eng : Engine) (f : FunctionNode) (s : ScopeRef) (name : Option String) :
    Action Value := do
  match if f.isArrow then none else f.ownName? with
  | some own =>
    let inner ← Action.newBlockScope s
    Scope.createImmutable inner own false
    let closure ← Function.instantiate f inner none
    Scope.initialise eng inner own closure
    return closure
  | none => Function.instantiate f s name

/-- Evaluates an expression; a function without a name takes `name`. -/
def evalNamed (eng : Engine) (e : Expression) (s : ScopeRef) (name : String) : Action Value :=
  match e with
  | .function f => if f.ownName?.isNone then evalFunction eng f s (some name) else eng.eval e s
  | e => eng.eval e s

def evalKey (eng : Engine) (k : MemberKey) (s : ScopeRef) : Action PropertyKey := do
  match k with
  | .identifier name => return .ofString name
  | .string t => return .ofString t
  | .number x => return .ofString (Numeric.ofBinary64 x).toText
  | .computed e => Conversion.toPropertyKey eng (← eng.eval e s)

/-- The accessor of an object literal, named after its key. -/
def accessorPatch (kind : MemberKind) (closure : Value) : Descriptor :=
  let patch := match kind with
    | .setter => Descriptor.generic.withSet closure
    | _ => Descriptor.generic.withGet closure
  (patch.withEnumerable true).withConfigurable true

def accessorName (kind : MemberKind) (k : PropertyKey) : String :=
  (match kind with
    | .setter => "set "
    | _ => "get ") ++ k.functionName

def evalMember (eng : Engine) (o : ObjectRef) (s : ScopeRef) : Member → Action Unit
  | .mk kind key value => do
    let k ← evalKey eng key s
    match kind, value with
    | .value, e =>
      let v ← evalNamed eng e s k.functionName
      Object.createDataOrThrow eng o k v
    | kind, .function f =>
      let closure ← Function.instantiate f s (some (accessorName kind k))
      Object.defineOrThrow eng o k (accessorPatch kind closure)
    | _, _ => Action.fault (.invariant .accessorWithoutFunction)

def evalMembers (eng : Engine) (o : ObjectRef) (s : ScopeRef) : List Member → Action Unit
  | [] => pure ()
  | m :: rest => do
    evalMember eng o s m
    evalMembers eng o s rest

/-! ## Operators on references -/

/-- In strict code `eval` and `arguments` are not assigned to. -/
def checkTarget (target : Expression) (s : ScopeRef) : Action Unit := do
  match target with
  | .identifier name =>
    if (← Action.scope s).isStrict && (name == "eval" || name == "arguments") then
      Action.throwNew (.strictTarget name)
  | _ => pure ()

def deleteProperty (base : Value) (k : PropertyKey) (s : ScopeRef) : Action Value := do
  let o ← Conversion.toObject base
  let deleted ← Object.delete o k
  if !deleted && (← Action.scope s).isStrict then
    Action.throwNew (.notDeleted k.display (← Action.display base))
  else return .boolean deleted

def evalDelete (eng : Engine) (operand : Expression) (s : ScopeRef) : Action Value := do
  match operand with
  | .identifier name =>
    if (← Action.scope s).isStrict then Action.throwNew .strictDelete
    else
      match ← Reference.resolve eng name s with
      | .binding inner name _ => return .boolean (← Scope.delete inner name)
      | _ => return .boolean true
  | .dot _ _ | .index _ _ =>
    match ← evalReference eng operand s with
    | .property base k _ => deleteProperty base k s
    | _ => return .boolean true
  | e =>
    discard (eng.eval e s)
    return .boolean true

def evalTypeof (eng : Engine) (operand : Expression) (s : ScopeRef) : Action Value := do
  let v ← match operand with
    | .identifier name => do
      match ← Reference.resolve eng name s with
      | .unresolvable _ _ => pure .undefined
      | reference => reference.read eng
    | e => eng.eval e s
  return .ofString ((← Action.heap).typeOf v)

def evalUpdate (eng : Engine) (op : UpdateOperator) (returnsNew : Bool) (target : Expression)
    (s : ScopeRef) : Action Value := do
  checkTarget target s
  let reference ← evalReference eng target s
  let old ← Conversion.toNumber eng (← reference.read eng)
  let new := Operator.update op old
  reference.write eng (.ofBinary64 new)
  return .ofBinary64 (if returnsNew then new else old)

/-- The right side of an assignment, named after a variable it is assigned to. -/
def evalAssigned (eng : Engine) (target value : Expression) (s : ScopeRef) : Action Value :=
  match target with
  | .identifier name => evalNamed eng value s name
  | _ => eng.eval value s

def evalAssign (eng : Engine) (op : AssignOperator) (target value : Expression) (s : ScopeRef) :
    Action Value := do
  checkTarget target s
  let reference ← evalReference eng target s
  match op with
  | .plain =>
    let v ← evalAssigned eng target value s
    reference.write eng v
    return v
  | .logical op =>
    let current ← reference.read eng
    if Operator.shortCircuits op current then return current
    else
      let v ← evalAssigned eng target value s
      reference.write eng v
      return v
  | .compound op =>
    let current ← reference.read eng
    let right ← eng.eval value s
    let v ← Operator.binary eng op current right
    reference.write eng v
    return v

/-! ## Calls -/

def evalAll (eng : Engine) (s : ScopeRef) : List Expression → Action (List Value)
  | [] => pure []
  | e :: rest => do
    let v ← eng.eval e s
    return v :: (← evalAll eng s rest)

/-- The function of a call and its `this`. -/
def evalCallee (eng : Engine) (callee : Expression) (s : ScopeRef) : Action (Value × Value) := do
  match callee with
  | .identifier _ | .dot _ _ | .index _ _ =>
    let reference ← evalReference eng callee s
    let f ← reference.read eng
    return (f, ← reference.thisValue)
  | .super => unsupported .superCall
  | e => return (← eng.eval e s, .undefined)

def evalCall (eng : Engine) (callee : Expression) (args : List Expression) (s : ScopeRef) :
    Action Value := do
  let (f, receiver) ← evalCallee eng callee s
  let args ← evalAll eng s args
  if ← Action.isCallable f then eng.call f receiver args
  else Action.throwNew (.notFunction (calleeText callee))

def evalConstruct (eng : Engine) (callee : Expression) (args : List Expression) (s : ScopeRef) :
    Action Value := do
  let f ← eng.eval callee s
  let args ← evalAll eng s args
  if (← Action.heap).isConstructor f then Function.construct eng f args
  else Action.throwNew (.notConstructor (calleeText callee))

def evalSequence (eng : Engine) (s : ScopeRef) (last : Value) : List Expression → Action Value
  | [] => return last
  | e :: rest => do evalSequence eng s (← eng.eval e s) rest

/-! ## Evaluation -/

/-- Evaluates an expression in a scope. -/
def eval (eng : Engine) (e : Expression) (s : ScopeRef) : Action Value := do
  match e with
  | .null => return .null
  | .boolean b => return .boolean b
  | .number x => return .ofBinary64 x
  | .string t => return .ofString t
  | .identifier _ | .dot _ _ | .index _ _ => (← evalReference eng e s).read eng
  | .this => Reference.resolveThis s
  | .super => unsupported .superAlone
  | .object members =>
    let o ← Action.newPlainObject
    evalMembers eng o s members
    return .object o
  | .function f => evalFunction eng f s none
  | .unary op operand => Operator.unary eng op (← eng.eval operand s)
  | .typeof operand => evalTypeof eng operand s
  | .void operand =>
    discard (eng.eval operand s)
    return .undefined
  | .delete operand => evalDelete eng operand s
  | .binary op left right =>
    let x ← eng.eval left s
    let y ← eng.eval right s
    Operator.binary eng op x y
  | .logical op left right =>
    let x ← eng.eval left s
    if Operator.shortCircuits op x then return x else eng.eval right s
  | .update op returnsNew target => evalUpdate eng op returnsNew target s
  | .assign op target value => evalAssign eng op target value s
  | .conditional test yes no =>
    if (← eng.eval test s).toBoolean then eng.eval yes s else eng.eval no s
  | .call callee args => evalCall eng callee args s
  | .construct callee args => evalConstruct eng callee args s
  | .sequence items => evalSequence eng s .undefined items

end Expression

end Ecma
