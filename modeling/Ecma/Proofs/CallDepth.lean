import Ecma.Proofs.Discipline.Engine

/-!
# The depth of calls

A call counts itself while it runs, and nothing else changes the count, so every
operation leaves the depth of calls as it was, however it ends.  A call that
would be too deep is refused before anything of the callee runs.
-/

namespace Ecma

/-! ## Operations -/

/-- The operations of an engine: evaluating, executing and calling, conversions, and
the operations on objects. -/
inductive Engine.Operation (eng : Engine) : {α : Type} → Action α → Prop where
  | eval (e : Expression) (s : ScopeRef) : Operation eng (Expression.eval eng e s)
  | exec (stmt : Statement) (s : ScopeRef) (labels : List String) :
      Operation eng (Action.ofExecution (Statement.exec eng stmt s labels))
  | execAll (body : List Statement) (s : ScopeRef) :
      Operation eng (Action.ofExecution (Statement.execAll eng body s))
  | call (f this : Value) (args : List Value) : Operation eng (Function.call eng f this args)
  | construct (f : Value) (args : List Value) : Operation eng (Function.construct eng f args)
  | native {α : Type} (program : HostProgram α) : Operation eng (Host.run eng program)
  | toPrimitive (v : Value) (hint : Hint) : Operation eng (Conversion.toPrimitive eng v hint)
  | toNumeric (v : Value) : Operation eng (Conversion.toNumeric eng v)
  | toNumber (v : Value) : Operation eng (Conversion.toNumber eng v)
  | toInteger (v : Value) : Operation eng (Conversion.toInteger eng v)
  | toIntegerOrInfinity (v : Value) : Operation eng (Conversion.toIntegerOrInfinity eng v)
  | toLength (v : Value) : Operation eng (Conversion.toLength eng v)
  | toInt32 (v : Value) : Operation eng (Conversion.toInt32 eng v)
  | toUInt32 (v : Value) : Operation eng (Conversion.toUInt32 eng v)
  | toUInt16 (v : Value) : Operation eng (Conversion.toUInt16 eng v)
  | toText (v : Value) : Operation eng (Conversion.toText eng v)
  | toPropertyKey (v : Value) : Operation eng (Conversion.toPropertyKey eng v)
  | toObject (v : Value) : Operation eng (Conversion.toObject v)
  | requireObjectCoercible (v : Value) : Operation eng (Conversion.requireObjectCoercible v)
  | looseEqual (x y : Value) : Operation eng (Conversion.looseEqual eng x y)
  | less (x y : Value) (leftFirst : Bool) : Operation eng (Conversion.less eng x y leftFirst)
  | instanceOf (value target : Value) : Operation eng (Operator.instanceOf eng value target)
  | getOf (v : Value) (k : PropertyKey) : Operation eng (Conversion.getOf eng v k)
  | getMethod (v : Value) (k : PropertyKey) : Operation eng (Conversion.getMethod eng v k)
  | getOwn (o : ObjectRef) (k : PropertyKey) : Operation eng (Object.getOwn eng o k)
  | define (o : ObjectRef) (k : PropertyKey) (patch : Descriptor) :
      Operation eng (Object.define eng o k patch)
  | defineOrThrow (o : ObjectRef) (k : PropertyKey) (patch : Descriptor) :
      Operation eng (Object.defineOrThrow eng o k patch)
  | createData (o : ObjectRef) (k : PropertyKey) (v : Value) :
      Operation eng (Object.createData eng o k v)
  | createDataOrThrow (o : ObjectRef) (k : PropertyKey) (v : Value) :
      Operation eng (Object.createDataOrThrow eng o k v)
  | get (o : ObjectRef) (k : PropertyKey) (receiver : Value) :
      Operation eng (Object.get eng o k receiver)
  | set (o : ObjectRef) (k : PropertyKey) (v receiver : Value) :
      Operation eng (Object.set eng o k v receiver)
  | delete (o : ObjectRef) (k : PropertyKey) : Operation eng (Object.delete o k)
  | setPrototype (o : ObjectRef) (prototype : Option ObjectRef) :
      Operation eng (Object.setPrototype o prototype)
  | preventExtensions (o : ObjectRef) : Operation eng (Object.preventExtensions o)
  | enumerableKeys (o : ObjectRef) : Operation eng (Object.enumerableKeys eng o)
  | next (it : ForIn) : Operation eng (it.next eng)

/-! ## The depth stays -/

/-- The depth of calls after an action is the depth before it. -/
def balanced : Discipline where
  Fails _ := True
  Patches _ := True
  Good _ := True
  Step σ σ' := σ'.callDepth = σ.callDepth
  refl _ := rfl
  trans h h' := h'.trans h
  fails _ _ := trivial
  patches _ _ := trivial

namespace balanced

open Discipline

theorem honours {α : Type} (program : HostProgram α) :
    program.Honours balanced.toHostContract :=
  program.honours_of_forall (fun _ ↦ trivial) fun _ ↦ trivial

theorem callable_honours (f : Callable) : f.Honours balanced.toHostContract := by
  cases f with
  | closure f s strict => trivial
  | native name arity run => exact fun this args ↦ honours (run this args)

theorem base : balanced.Base where
  quiet _ _ _ _ hdepth _ := ⟨trivial, hdepth⟩
  grows _ _ _ hdepth _ := ⟨trivial, hdepth⟩
  deepen _ _ := trivial
  surface σ τ _ _ hstep := by
    -- The body was balanced one call deeper.
    refine ⟨trivial, ?_⟩
    have hdepth : τ.callDepth = σ.callDepth + 1 := hstep
    change τ.callDepth - 1 = σ.callDepth
    rw [hdepth, Nat.add_sub_cancel]
  beside _ _ := trivial
  resume _ _ _ _ _ := ⟨trivial, rfl⟩
  callable _ _ f _ _ := callable_honours f

theorem lax : balanced.policy.Lax where
  basics := base.basics
  newCell r _ := base.keeps_newCell r
  constant _ := trivial
  addObject _ _ _ _ := ⟨trivial, rfl, fun _ _ ↦ trivial⟩
  modifyObject _ _ _ _ _ := ⟨trivial, rfl, fun _ _ ↦ trivial⟩
  storeBound := base.keeps_storeBound
  resolve _ heng := base.basics.keeps_resolve base.keeps_log
    (fun _ _ _ _ ↦ ⟨trivial, rfl, fun _ _ ↦ trivial⟩)
    (keeps_readApart base (holds_of_serves heng))

theorem governs (n : Nat) : balanced.policy.Governs (.level n) :=
  Policy.Lawful.governs_level
    ⟨base.basics, base.creation, base.loose.scopes, lax.properties⟩ n

theorem keeps_operation {n : Nat} {α : Type} {m : Action α}
    (hm : Engine.Operation (.level n) m) : balanced.Keeps m := by
  have hG := governs n
  cases hm with
  | eval e s => exact hG.keeps_eval False.elim s
  | exec stmt s labels => exact hG.executes_exec False.elim s labels
  | execAll body s => exact hG.executes_execAll s False.elim
  | call f this args => exact hG.keeps_call f this args
  | construct f args => exact hG.keeps_construct f args
  | native program =>
      refine hG.keeps_runProgram (honours program) (program.asks_of_forall fun request ↦ ?_)
      exact ⟨trivial, request.isPlaced_of_not id⟩
  | toPrimitive v hint => exact hG.keeps_coercion (.toPrimitive v hint)
  | toNumeric v => exact hG.keeps_coercion (.toNumeric v)
  | toNumber v => exact hG.keeps_coercion (.toNumber v)
  | toInteger v => exact hG.keeps_coercion (.toInteger v)
  | toIntegerOrInfinity v => exact hG.keeps_coercion (.toIntegerOrInfinity v)
  | toLength v => exact hG.keeps_coercion (.toLength v)
  | toInt32 v => exact hG.keeps_coercion (.toInt32 v)
  | toUInt32 v => exact hG.keeps_coercion (.toUInt32 v)
  | toUInt16 v => exact hG.keeps_coercion (.toUInt16 v)
  | toText v => exact hG.keeps_coercion (.toText v)
  | toPropertyKey v => exact hG.keeps_coercion (.toPropertyKey v)
  | toObject v => exact hG.keeps_coercion (.toObject v)
  | requireObjectCoercible v => exact hG.keeps_coercion (.requireObjectCoercible v)
  | looseEqual x y => exact hG.keeps_looseEqual x y
  | less x y leftFirst => exact hG.keeps_less x y leftFirst
  | instanceOf value target => exact hG.keeps_instanceOf value target
  | getOf v k => exact hG.keeps_getOf v k
  | getMethod v k => exact hG.keeps_getMethod v k
  | getOwn o k => exact hG.keeps_getOwn o k
  | define o k patch => exact hG.keeps_define o k trivial
  | defineOrThrow o k patch =>
      refine Keeps.bind (hG.keeps_define o k trivial) fun defined ↦ ?_
      exact keeps_ite (hG.basics.keeps_throwNew _) (keeps_pure _)
  | createData o k v => exact hG.keeps_createData o k v
  | createDataOrThrow o k v => exact hG.keeps_createDataOrThrow o k v
  | get o k receiver => exact hG.keeps_get o k receiver
  | set o k v receiver => exact hG.keeps_set o k v receiver
  | delete o k => exact hG.properties.delete o k
  | setPrototype o prototype => exact hG.properties.setPrototype o prototype
  | preventExtensions o => exact hG.properties.preventExtensions o
  | enumerableKeys o => exact hG.keeps_enumerableKeys o
  | next it => exact hG.keeps_next it

end balanced

/-! ## Nothing starts too deep -/

namespace Function

/-- A call that starts what it calls in the given way. -/
def callWith (start : ObjectRef → Callable → Value → List Value → Action Value) (f this : Value)
    (args : List Value) : Action Value := do
  let callable? : Option (ObjectRef × Callable) ← match f with
    | .object o => pure ((← Action.object o).callable.map (o, ·))
    | _ => pure none
  match callable? with
  | none => Action.throwNew (.notFunction (← Action.display f))
  | some (o, callable) =>
    let state ← get
    if state.options.maxCallDepth ≤ state.callDepth then Action.throwNew .callDepth
    else
      enterDepth
      let result ← Action.attempt (start o callable this args)
      leaveDepth
      Action.ofExcept result

theorem call_eq_callWith (eng : Engine) : call eng = callWith (enter eng) := rfl

/-- Sounds the alarm in place of a body that would start too deep. -/
def enterGuarded (alarm : ObjectRef → Callable → Value → List Value → Action Value) (eng : Engine)
    (callee : ObjectRef) (f : Callable) (this : Value) (args : List Value) : Action Value := do
  let state ← get
  if state.options.maxCallDepth < state.callDepth then alarm callee f this args
  else enter eng callee f this args

/-- The outcome of a call, by what there is to call and how deep the call is. -/
theorem run_callWith (start : ObjectRef → Callable → Value → List Value → Action Value)
    (o : ObjectRef) (this : Value) (args : List Value) (σ : State) :
    (callWith start (.object o) this args).run σ =
      match (σ.heap.object o).callable with
      | none => (do Action.throwNew (.notFunction (← Action.display (.object o)))
          : Action Value).run σ
      | some f =>
        if σ.options.maxCallDepth ≤ σ.callDepth then (Action.throwNew .callDepth).run σ
        else
          let r := (start o f this args).run { σ with callDepth := σ.callDepth + 1 }
          (r.1, { r.2 with callDepth := r.2.callDepth - 1 }) := by
  -- The callable is looked up together with its object, so that the match is on a pair.
  let counted (f : Callable) : Action Value := do
    enterDepth
    let result ← Action.attempt (start o f this args)
    leaveDepth
    Action.ofExcept result
  have hread : (callWith start (.object o) this args).run σ =
      (match (σ.heap.object o).callable.map (o, ·) with
      | none => do Action.throwNew (.notFunction (← Action.display (.object o)))
      | some (_, f) =>
        if σ.options.maxCallDepth ≤ σ.callDepth then Action.throwNew .callDepth else counted f
        : Action Value).run σ := by
    change Action.run (match (σ.heap.object o).callable.map (o, ·) with
      | none => _
      | some (o, f) => _) σ = _
    cases (σ.heap.object o).callable <;> rfl
  rw [hread]
  cases (σ.heap.object o).callable with
  | none => rfl
  | some f =>
      dsimp only [Option.map_some]
      split <;> rfl

/-- A body starts at most as deep as is allowed, so the alarm is never heard. -/
theorem callWith_enterGuarded
    (alarm : ObjectRef → Callable → Value → List Value → Action Value) (eng : Engine) :
    callWith (enterGuarded alarm eng) = call eng := by
  funext f this args σ
  cases f with
  | object o =>
      change (callWith (enterGuarded alarm eng) (.object o) this args).run σ =
        (callWith (enter eng) (.object o) this args).run σ
      rw [run_callWith, run_callWith]
      split
      · rfl
      next f _ =>
        split
        · rfl
        next hdepth =>
          have hguard : (enterGuarded alarm eng o f this args).run
                { σ with callDepth := σ.callDepth + 1 } =
              (if σ.options.maxCallDepth < σ.callDepth + 1 then alarm o f this args
                else enter eng o f this args).run { σ with callDepth := σ.callDepth + 1 } := rfl
          -- The call counts itself: below the limit before, it is at most there now.
          rw [hguard, if_neg (by omega)]
  | _ => rfl

/-- A call that would be too deep throws, and changes nothing that is there. -/
theorem throws_call (eng : Engine) {o : ObjectRef} {f : Callable} {σ : State}
    (hf : (σ.heap.object o).callable = some f) (hdepth : σ.options.maxCallDepth ≤ σ.callDepth)
    (this : Value) (args : List Value) :
    σ.Throws .rangeError ((call eng (.object o) this args).run σ) := by
  rw [call_eq_callWith, run_callWith, hf]
  dsimp only
  rw [if_pos hdepth]
  exact Action.throws_raise _ _ σ

end Function

/-- The engine of `n` levels with an alarm for bodies that would start too deep. -/
def Engine.guarded (alarm : ObjectRef → Callable → Value → List Value → Action Value) :
    Nat → Engine
  | 0 => exhausted
  | n + 1 =>
    { fuel := n + 1
      call := Function.callWith (Function.enterGuarded alarm (guarded alarm n))
      get := Object.get (guarded alarm n)
      eval := Expression.eval (guarded alarm n)
      exec := Statement.exec (guarded alarm n) }

theorem Engine.guarded_eq_level
    (alarm : ObjectRef → Callable → Value → List Value → Action Value) (n : Nat) :
    guarded alarm n = level n := by
  induction n with
  | zero => rfl
  | succ n ih => rw [guarded, level, ih, Function.callWith_enterGuarded]

/-! ## Scripts -/

/-- A script starts at depth zero and ends there. -/
theorem Script.callDepth_run (n : Nat) (body : List Statement) (σ : State) :
    ((Script.run (.level n) body).run σ).2.callDepth = 0 := by
  let s := σ.realm.globalScope
  let strict := σ.options.strict || Tree.isStrict body
  let start : State :=
    { σ with
      callDepth := 0
      heap := σ.heap.modifyScope s fun scope ↦ { scope with isStrict := strict } }
  have hfinish (c : Completion) : balanced.Keeps (Script.finish c) := by
    cases c with
    | normal v => exact Discipline.keeps_pure _
    | «return» v l => exact Discipline.keeps_pure _
    | throw v l => exact Discipline.keeps_throw trivial
    | «break» label v l => exact Discipline.keeps_throw trivial
    | «continue» label v l => exact Discipline.keeps_throw trivial
  have hexec : balanced.Keeps (Action.ofExecution (Script.exec (.level n) body s)) :=
    (balanced.governs n).executes_script False.elim s
  exact (hexec.bind hfinish start trivial).step

/-- Whatever an operation of the engine does and however it ends, it leaves the depth of
calls as it found it; a script leaves it at zero.  What stands in for bodies that start
too deep makes no difference: there are none.  A call at the limit throws a range
error, and nothing that is there is changed. -/
theorem call_depth_is_balanced_and_bounded (n : Nat) :
    (∀ (α : Type) (m : Action α), Engine.Operation (.level n) m → ∀ σ,
      (m.run σ).2.callDepth = σ.callDepth) ∧
    (∀ body σ, ((Script.run (.level n) body).run σ).2.callDepth = 0) ∧
    (∀ alarm, Engine.guarded alarm n = .level n) ∧
    ∀ (σ : State) o f this args, (σ.heap.object o).callable = some f →
      σ.options.maxCallDepth ≤ σ.callDepth →
      σ.Throws .rangeError ((Function.call (.level n) (.object o) this args).run σ) :=
  ⟨fun _ _ hm σ ↦ (balanced.keeps_operation hm σ trivial).step, Script.callDepth_run n,
    fun alarm ↦ Engine.guarded_eq_level alarm n,
    fun _ _ _ this args hf hdepth ↦ Function.throws_call _ hf hdepth this args⟩

/-- Where no call may be nested, the prototype of functions cannot be called. -/
theorem call_depth_is_balanced_and_bounded_refused :
    let σ := State.initial ⟨false, 0, 9⟩
    (σ.heap.object ⟨1⟩).isCallable = true ∧ σ.options.maxCallDepth ≤ σ.callDepth ∧
      σ.Throws .rangeError ((Function.call (.level 3) (.object ⟨1⟩) .null []).run σ) := by
  intro σ
  have hf : (σ.heap.object ⟨1⟩).callable = some Realm.emptyFunction := rfl
  have hdepth : σ.options.maxCallDepth ≤ σ.callDepth := Nat.le_refl 0
  obtain ⟨-, -, -, hthrows⟩ := call_depth_is_balanced_and_bounded 3
  exact ⟨congrArg Option.isSome hf, hdepth, hthrows σ ⟨1⟩ _ .null [] hf hdepth⟩

end Ecma
