import Ecma.Expression.Evaluation
import Ecma.Proofs.Policy.Functions

/-!
# Expressions

Each form of expression is put together from conversions, operations on objects
and scopes, calls, and the evaluation of its parts by the engine.
-/

namespace Ecma

namespace Policy

namespace Governs

variable {P : Policy} {eng : Engine} (hG : P.Governs eng)

include hG

/-! ## Operators -/

theorem keeps_unary (op : UnaryOperator) (v : Value) : P.Keeps (Operator.unary eng op v) := by
  cases op with
  | minus => exact (hG.keeps_toNumber v).bind fun _ ↦ keeps_pure _
  | plus => exact (hG.keeps_toNumber v).bind fun _ ↦ keeps_pure _
  | not => exact keeps_pure _
  | bitNot => exact (hG.keeps_toNumber v).bind fun _ ↦ keeps_pure _

theorem keeps_add (x y : Value) : P.Keeps (Operator.add eng x y) := by
  refine (hG.keeps_toPrimitive x _).bind fun px ↦ ?_
  refine (hG.keeps_toPrimitive y _).bind fun py ↦ ?_
  split
  · exact (hG.keeps_primitiveToText px).bind fun _ ↦
      (hG.keeps_primitiveToText py).bind fun _ ↦ keeps_pure _
  · exact (hG.keeps_primitiveToNumeric px).bind fun _ ↦
      (hG.keeps_primitiveToNumeric py).bind fun _ ↦ keeps_pure _

theorem keeps_inheritsFrom (constructor value : Value) :
    P.Keeps (Operator.inheritsFrom eng constructor value) := by
  unfold Operator.inheritsFrom
  split
  · refine (hG.keeps_get _ _ _).bind fun prototype ↦ ?_
    split
    · exact hG.basics.keeps_heap.bind fun _ ↦ keeps_pure _
    · exact hG.basics.keeps_throwNew _
  · exact keeps_pure _

theorem keeps_instanceOf (value target : Value) :
    P.Keeps (Operator.instanceOf eng value target) := by
  unfold Operator.instanceOf
  split
  · exact hG.basics.keeps_throwNew _
  · refine (hG.keeps_getMethod target _).bind fun handler ↦ ?_
    split
    · exact (hG.call _ _ _).bind fun _ ↦ keeps_pure _
    · exact (hG.basics.keeps_isCallable target).bind fun _ ↦
        keeps_ite (hG.keeps_inheritsFrom target value) (hG.basics.keeps_throwNew _)

theorem keeps_hasKey (key target : Value) : P.Keeps (Operator.hasKey eng key target) := by
  unfold Operator.hasKey
  split
  · exact (hG.keeps_toPropertyKey key).bind fun _ ↦ hG.basics.keeps_heap.bind fun _ ↦ keeps_pure _
  · exact (hG.basics.keeps_display key).bind fun _ ↦
      (hG.basics.keeps_display _).bind fun _ ↦ hG.basics.keeps_throwNew _

theorem keeps_numeric (f : Binary64 → Binary64 → Binary64) (x y : Value) :
    P.Keeps (Operator.numeric eng f x y) :=
  (hG.keeps_toNumber x).bind fun _ ↦ (hG.keeps_toNumber y).bind fun _ ↦ keeps_pure _

theorem keeps_binary (op : BinaryOperator) (x y : Value) :
    P.Keeps (Operator.binary eng op x y) := by
  cases op with
  | add => exact hG.keeps_add x y
  | equal => exact (hG.keeps_looseEqual x y).bind fun _ ↦ keeps_pure _
  | notEqual => exact (hG.keeps_looseEqual x y).bind fun _ ↦ keeps_pure _
  | strictEqual => exact keeps_pure _
  | strictNotEqual => exact keeps_pure _
  | less => exact (hG.keeps_less x y true).bind fun _ ↦ keeps_pure _
  | greater => exact (hG.keeps_less y x false).bind fun _ ↦ keeps_pure _
  | lessEqual => exact (hG.keeps_less y x false).bind fun _ ↦ keeps_pure _
  | greaterEqual => exact (hG.keeps_less x y true).bind fun _ ↦ keeps_pure _
  | hasKey => exact hG.keeps_hasKey x y
  | instanceOf => exact hG.keeps_instanceOf x y
  | _ => exact hG.keeps_numeric _ x y

/-! ## References -/

theorem keeps_resolveIn (name : String) (strict : Bool) (scopes : List ScopeRef) :
    P.Keeps (Reference.resolveIn eng name strict scopes) := by
  induction scopes with
  | nil => exact keeps_pure _
  | cons s rest ih =>
      exact (hG.keeps_hasBinding s name).bind fun _ ↦ keeps_ite (keeps_pure _) ih

theorem keeps_resolve (name : String) (s : ScopeRef) :
    P.Keeps (Reference.resolve eng name s) :=
  hG.basics.keeps_heap.bind fun _ ↦ hG.keeps_resolveIn name _ _

theorem keeps_read (reference : Reference) : P.Keeps (reference.read eng) := by
  cases reference with
  | binding s name strict => exact hG.keeps_getBinding s name strict
  | property base key strict =>
      refine keeps_ite ?_ ?_
      · exact (hG.basics.keeps_display base).bind fun _ ↦ hG.basics.keeps_throwNew _
      · exact hG.keeps_getOf base key
  | unresolvable name strict => exact hG.basics.keeps_throwNew _

theorem keeps_write (v : Value) (reference : Reference) : P.Keeps (reference.write eng v) := by
  cases reference with
  | binding s name strict => exact hG.keeps_setBinding s name v strict
  | property base key strict =>
      refine keeps_ite ?_ ?_
      · exact (hG.basics.keeps_display base).bind fun _ ↦ hG.basics.keeps_throwNew _
      · refine (hG.keeps_toObject base).bind fun o ↦ ?_
        exact (hG.keeps_set o key v base).bind fun _ ↦
          keeps_ite (hG.basics.keeps_throwNew _) (keeps_pure _)
  | unresolvable name strict =>
      refine keeps_ite ?_ ?_
      · exact hG.basics.keeps_throwNew _
      · exact hG.basics.keeps_realm.bind fun _ ↦ (hG.keeps_set _ _ v _).discard

theorem keeps_thisValue (reference : Reference) : P.Keeps reference.thisValue := by
  cases reference with
  | binding s name strict => exact (hG.basics.keeps_scope s).bind fun _ ↦ keeps_pure _
  | property base key strict => exact keeps_pure _
  | unresolvable name strict => exact keeps_pure _

theorem keeps_evalBase {e : Expression} (he : P.Admits (Tree.placedExpression e)) (s : ScopeRef) :
    P.Keeps (Expression.evalBase eng e s) := by
  unfold Expression.evalBase
  split
  · exact hG.basics.fault _ nofun nofun
  · exact hG.eval he s

theorem keeps_evalReference {e : Expression} (he : P.Admits (Tree.placedExpression e))
    (s : ScopeRef) : P.Keeps (Expression.evalReference eng e s) := by
  unfold Expression.evalReference
  split
  · exact hG.keeps_resolve _ s
  next holder _ =>
    exact (hG.keeps_evalBase (e := holder) he s).bind fun _ ↦
      (hG.basics.keeps_scope s).bind fun _ ↦ keeps_pure _
  · obtain ⟨hholder, hkey⟩ := admits_and.1 he
    refine (hG.keeps_evalBase hholder s).bind fun base ↦ ?_
    refine (hG.eval hkey s).bind fun key ↦ ?_
    exact (hG.keeps_toPropertyKey key).bind fun _ ↦
      (hG.basics.keeps_scope s).bind fun _ ↦ keeps_pure _
  · exact hG.basics.keeps_throwNew _

/-! ## Functions and objects -/

theorem keeps_evalFunction {f : FunctionNode} (hf : P.Admits (Tree.placedFunction f))
    (s : ScopeRef) (name : Option String) : P.Keeps (Expression.evalFunction eng f s name) := by
  unfold Expression.evalFunction
  split
  next own _ =>
    refine P.holds_bind (hG.scopes.newBlockScope s) fun inner ↦ ?_
    refine P.holds_bind (hG.scopes.createImmutable inner own false) fun _ ↦ ?_
    refine (hG.creation.instantiate hf inner none).bind_holds fun closure ↦ ?_
    exact P.holds_bind (hG.holds_initialise inner own closure) fun _ ↦ keeps_pure _
  next => exact hG.creation.instantiate hf s name

theorem keeps_evalNamed {e : Expression} (he : P.Admits (Tree.placedExpression e)) (s : ScopeRef)
    (name : String) : P.Keeps (Expression.evalNamed eng e s name) := by
  unfold Expression.evalNamed
  split
  · exact keeps_ite (hG.keeps_evalFunction he s _) (hG.eval he s)
  · exact hG.eval he s

theorem keeps_evalKey {k : MemberKey} (hk : P.Admits (Tree.placedKey k)) (s : ScopeRef) :
    P.Keeps (Expression.evalKey eng k s) := by
  cases k with
  | identifier name => exact keeps_pure _
  | string t => exact keeps_pure _
  | number x => exact keeps_pure _
  | computed e => exact (hG.eval hk s).bind fun v ↦ hG.keeps_toPropertyKey v

omit hG in
theorem isStandard_accessorPatch (kind : MemberKind) (closure : Value) :
    (Expression.accessorPatch kind closure).IsStandard := by
  cases kind <;> rfl

theorem keeps_evalMember (o : ObjectRef) (s : ScopeRef) {m : Member}
    (hm : P.Admits (Tree.placedMember m)) : P.Keeps (Expression.evalMember eng o s m) := by
  obtain ⟨kind, key, value⟩ := m
  obtain ⟨hkey, hvalue⟩ := admits_and.1 hm
  refine (hG.keeps_evalKey hkey s).bind fun k ↦ ?_
  split
  · exact (hG.keeps_evalNamed hvalue s _).bind fun v ↦ hG.keeps_createDataOrThrow o k v
  · exact (hG.creation.instantiate hvalue s _).bind fun closure ↦
      hG.keeps_defineOrThrow o k (isStandard_accessorPatch _ closure)
  · exact hG.basics.fault _ nofun nofun

theorem keeps_evalMembers (o : ObjectRef) (s : ScopeRef) {members : List Member}
    (hmembers : P.Admits (Tree.placedMembers members)) :
    P.Keeps (Expression.evalMembers eng o s members) := by
  induction members with
  | nil => exact keeps_pure _
  | cons m rest ih =>
      obtain ⟨hm, hrest⟩ := admits_and.1 hmembers
      exact (hG.keeps_evalMember o s hm).bind fun _ ↦ ih hrest

/-! ## Operators on references -/

theorem keeps_checkTarget (target : Expression) (s : ScopeRef) :
    P.Keeps (Expression.checkTarget target s) := by
  unfold Expression.checkTarget
  split
  · exact (hG.basics.keeps_scope s).bind fun _ ↦
      keeps_ite (hG.basics.keeps_throwNew _) (keeps_pure _)
  · exact keeps_pure _

theorem keeps_deleteProperty (base : Value) (k : PropertyKey) (s : ScopeRef) :
    P.Keeps (Expression.deleteProperty base k s) := by
  refine (hG.keeps_toObject base).bind fun o ↦ ?_
  refine (hG.properties.delete o k).bind fun deleted ↦ ?_
  refine (hG.basics.keeps_scope s).bind fun scope ↦ ?_
  split
  · exact (hG.basics.keeps_display base).bind fun _ ↦ hG.basics.keeps_throwNew _
  · exact keeps_pure _

theorem keeps_evalDelete {e : Expression} (he : P.Admits (Tree.placedExpression e))
    (s : ScopeRef) : P.Keeps (Expression.evalDelete eng e s) := by
  unfold Expression.evalDelete
  split
  · refine (hG.basics.keeps_scope s).bind fun scope ↦ ?_
    split
    · exact hG.basics.keeps_throwNew _
    · refine (hG.keeps_resolve _ s).bind fun reference ↦ ?_
      split
      · exact (hG.keeps_deleteVariable _ _).bind fun _ ↦ keeps_pure _
      · exact keeps_pure _
  case h_2 | h_3 =>
    refine (hG.keeps_evalReference he s).bind fun reference ↦ ?_
    split
    · exact hG.keeps_deleteProperty _ _ s
    · exact keeps_pure _
  · exact (hG.eval he s).discard.bind fun _ ↦ keeps_pure _

theorem keeps_evalTypeof {e : Expression} (he : P.Admits (Tree.placedExpression e))
    (s : ScopeRef) : P.Keeps (Expression.evalTypeof eng e s) := by
  have hname (v : Value) : P.Keeps (do return Value.ofString ((← Action.heap).typeOf v)) :=
    hG.basics.keeps_heap.bind fun _ ↦ keeps_pure _
  unfold Expression.evalTypeof
  dsimp only
  split
  · refine (hG.keeps_resolve _ s).bind fun reference ↦ ?_
    split
    · exact hname _
    · exact (hG.keeps_read _).bind hname
  · exact (hG.eval he s).bind hname

theorem keeps_evalUpdate (op : UpdateOperator) (returnsNew : Bool) {e : Expression}
    (he : P.Admits (Tree.placedExpression e)) (s : ScopeRef) :
    P.Keeps (Expression.evalUpdate eng op returnsNew e s) := by
  refine (hG.keeps_checkTarget e s).bind fun _ ↦ ?_
  refine (hG.keeps_evalReference he s).bind fun reference ↦ ?_
  refine (hG.keeps_read reference).bind fun v ↦ ?_
  refine (hG.keeps_toNumber v).bind fun old ↦ ?_
  exact (hG.keeps_write _ reference).bind fun _ ↦ keeps_pure _

theorem keeps_evalAssigned (target : Expression) {value : Expression}
    (he : P.Admits (Tree.placedExpression value)) (s : ScopeRef) :
    P.Keeps (Expression.evalAssigned eng target value s) := by
  unfold Expression.evalAssigned
  split
  · exact hG.keeps_evalNamed he s _
  · exact hG.eval he s

theorem keeps_evalAssign (op : AssignOperator) {target value : Expression}
    (htarget : P.Admits (Tree.placedExpression target))
    (hvalue : P.Admits (Tree.placedExpression value)) (s : ScopeRef) :
    P.Keeps (Expression.evalAssign eng op target value s) := by
  refine (hG.keeps_checkTarget target s).bind fun _ ↦ ?_
  refine (hG.keeps_evalReference htarget s).bind fun reference ↦ ?_
  have hassign : P.Keeps (do
      let v ← Expression.evalAssigned eng target value s
      reference.write eng v
      return v) :=
    (hG.keeps_evalAssigned target hvalue s).bind fun v ↦
      (hG.keeps_write v reference).bind fun _ ↦ keeps_pure _
  cases op with
  | plain => exact hassign
  | logical op =>
      exact (hG.keeps_read reference).bind fun _ ↦ keeps_ite (keeps_pure _) hassign
  | compound op =>
      refine (hG.keeps_read reference).bind fun current ↦ ?_
      refine (hG.eval hvalue s).bind fun right ↦ ?_
      refine (hG.keeps_binary op current right).bind fun v ↦ ?_
      exact (hG.keeps_write v reference).bind fun _ ↦ keeps_pure _

/-! ## Calls -/

theorem keeps_evalAll (s : ScopeRef) {es : List Expression}
    (hes : P.Admits (Tree.placedExpressions es)) : P.Keeps (Expression.evalAll eng s es) := by
  induction es with
  | nil => exact keeps_pure _
  | cons e rest ih =>
      obtain ⟨he, hrest⟩ := admits_and.1 hes
      exact (hG.eval he s).bind fun _ ↦ (ih hrest).bind fun _ ↦ keeps_pure _

theorem keeps_evalCallee {callee : Expression} (he : P.Admits (Tree.placedExpression callee))
    (s : ScopeRef) : P.Keeps (Expression.evalCallee eng callee s) := by
  have hreference : P.Keeps (do
      let reference ← Expression.evalReference eng callee s
      let f ← reference.read eng
      return (f, ← reference.thisValue)) := by
    refine (hG.keeps_evalReference he s).bind fun reference ↦ ?_
    refine (hG.keeps_read reference).bind fun f ↦ ?_
    exact (hG.keeps_thisValue reference).bind fun _ ↦ keeps_pure _
  unfold Expression.evalCallee
  split
  · exact hreference
  · exact hreference
  · exact hreference
  · exact hG.basics.fault _ nofun nofun
  · exact (hG.eval he s).bind fun _ ↦ keeps_pure _

theorem keeps_evalCall {callee : Expression} {args : List Expression}
    (hcallee : P.Admits (Tree.placedExpression callee))
    (hargs : P.Admits (Tree.placedExpressions args)) (s : ScopeRef) :
    P.Keeps (Expression.evalCall eng callee args s) := by
  refine (hG.keeps_evalCallee hcallee s).bind fun target ↦ ?_
  refine (hG.keeps_evalAll s hargs).bind fun args ↦ ?_
  exact (hG.basics.keeps_isCallable _).bind fun _ ↦
    keeps_ite (hG.call _ _ _) (hG.basics.keeps_throwNew _)

theorem keeps_evalConstruct {callee : Expression} {args : List Expression}
    (hcallee : P.Admits (Tree.placedExpression callee))
    (hargs : P.Admits (Tree.placedExpressions args)) (s : ScopeRef) :
    P.Keeps (Expression.evalConstruct eng callee args s) := by
  refine (hG.eval hcallee s).bind fun f ↦ ?_
  refine (hG.keeps_evalAll s hargs).bind fun args ↦ ?_
  exact hG.basics.keeps_heap.bind fun _ ↦
    keeps_ite (hG.keeps_construct f args) (hG.basics.keeps_throwNew _)

theorem keeps_evalSequence (s : ScopeRef) (last : Value) {es : List Expression}
    (hes : P.Admits (Tree.placedExpressions es)) :
    P.Keeps (Expression.evalSequence eng s last es) := by
  induction es generalizing last with
  | nil => exact keeps_pure _
  | cons e rest ih =>
      obtain ⟨he, hrest⟩ := admits_and.1 hes
      exact (hG.eval he s).bind fun v ↦ ih v hrest

/-! ## Evaluation -/

theorem keeps_eval {e : Expression} (he : P.Admits (Tree.placedExpression e)) (s : ScopeRef) :
    P.Keeps (Expression.eval eng e s) := by
  have hread : P.Keeps (do (← Expression.evalReference eng e s).read eng) :=
    (hG.keeps_evalReference he s).bind fun reference ↦ hG.keeps_read reference
  cases e with
  | null => exact keeps_pure _
  | boolean b => exact keeps_pure _
  | number x => exact keeps_pure _
  | string t => exact keeps_pure _
  | identifier name => exact hread
  | dot base name => exact hread
  | index base key => exact hread
  | this => exact hG.basics.keeps_heap.bind fun _ ↦ keeps_pure _
  | super => exact hG.basics.fault _ nofun nofun
  | object members =>
      refine hG.keeps_newPlainObject.bind fun o ↦ ?_
      exact (hG.keeps_evalMembers o s he).bind fun _ ↦ keeps_pure _
  | function f => exact hG.keeps_evalFunction he s none
  | unary op operand => exact (hG.eval (e := operand) he s).bind fun v ↦ hG.keeps_unary op v
  | typeof operand => exact hG.keeps_evalTypeof (e := operand) he s
  | void operand => exact (hG.eval (e := operand) he s).discard.bind fun _ ↦ keeps_pure _
  | delete operand => exact hG.keeps_evalDelete (e := operand) he s
  | binary op left right =>
      obtain ⟨hleft, hright⟩ := admits_and.1 he
      exact (hG.eval hleft s).bind fun x ↦ (hG.eval hright s).bind fun y ↦ hG.keeps_binary op x y
  | logical op left right =>
      obtain ⟨hleft, hright⟩ := admits_and.1 he
      exact (hG.eval hleft s).bind fun x ↦ keeps_ite (keeps_pure _) (hG.eval hright s)
  | update op returnsNew target => exact hG.keeps_evalUpdate op returnsNew (e := target) he s
  | assign op target value =>
      obtain ⟨htarget, hvalue⟩ := admits_and.1 he
      exact hG.keeps_evalAssign op htarget hvalue s
  | conditional test yes no =>
      obtain ⟨htest, hbranches⟩ := admits_and.1 he
      obtain ⟨hyes, hno⟩ := admits_and.1 hbranches
      exact (hG.eval htest s).bind fun _ ↦ keeps_ite (hG.eval hyes s) (hG.eval hno s)
  | call callee args =>
      obtain ⟨hcallee, hargs⟩ := admits_and.1 he
      exact hG.keeps_evalCall hcallee hargs s
  | construct callee args =>
      obtain ⟨hcallee, hargs⟩ := admits_and.1 he
      exact hG.keeps_evalConstruct hcallee hargs s
  | sequence items => exact hG.keeps_evalSequence s _ he

end Governs

end Policy

end Ecma
