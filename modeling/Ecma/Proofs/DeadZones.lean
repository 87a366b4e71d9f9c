import Ecma.Proofs.BoundProperties
import Ecma.Proofs.DormantVariables
import Ecma.Proofs.LazyResolution

/-!
# Dead zones

From its declaration to its initialisation a variable is in its dead zone: it can
be neither read nor set by its name.  Whatever the host does with an interpreter,
calls, scripts and operations on objects in any order, the dead zone lasts until
the variable is initialised, with one exception: a value that is written to a
property bound to the variable goes to it, if it is not a constant.
-/

namespace Ecma

/-! ## What the host does -/

/-- One thing that the host does with an interpreter. -/
inductive HostStep where
  | scope (s : ScopeRef) (action : VariableCall)
  | properties (step : PropertyStep)
  | call (f this : Value) (args : List Value)
  | construct (f : Value) (args : List Value)
  | evaluate (e : Expression) (s : ScopeRef)
  | execute (stmt : Statement) (s : ScopeRef)
  | script (body : List Statement)

namespace HostStep

def perform (eng : Engine) : HostStep → Action Unit
  | .scope s action => discard (action.perform eng s)
  | .properties step => step.perform eng
  | .call f this args => discard (Function.call eng f this args)
  | .construct f args => discard (Function.construct eng f args)
  | .evaluate e s => discard (Expression.eval eng e s)
  | .execute stmt s => discard (Action.ofExecution (Statement.exec eng stmt s []))
  | .script body => discard (Script.run eng body)

/-- The state after the steps are done in turn; one that fails leaves its state to the next. -/
def runAll (eng : Engine) (steps : List HostStep) (σ : State) : State :=
  steps.foldl (fun σ step ↦ ((step.perform eng).run σ).2) σ

theorem runAll_append (eng : Engine) (steps rest : List HostStep) (σ : State) :
    runAll eng (steps ++ rest) σ = runAll eng rest (runAll eng steps σ) :=
  List.foldl_append

/-- The condition is met by each step in the state in which it is done. -/
def Along (C : State → HostStep → Prop) (eng : Engine) : List HostStep → State → Prop
  | [], _ => True
  | step :: rest, σ => C σ step ∧ Along C eng rest ((step.perform eng).run σ).2

end HostStep

/-! ## Steps that run code -/

/-- The step does not itself end the dead zone, and binds no property to the variable unless
that is a constant; its code is placed. -/
def HostStep.Avoids (x : Dormant) : HostStep → Prop
  | .scope s action => s = x.scope → action.Spares x
  | .properties (.operation (.define _ _ patch)) => x.Fits patch
  | .properties _ | .call _ _ _ | .construct _ _ => True
  | .evaluate e _ => Tree.placedExpression e = true
  | .execute stmt s => Tree.placedStatement stmt = true ∧ (s = x.scope →
      x.name ∉ (Tree.formLexicalNames (Tree.unlabelled stmt)).map LexicalName.name)
  | .script body => Tree.placedList body = true

namespace dormancy

variable {x : Dormant} (hdelete : x.canDelete = false) (n : Nat)

include hdelete

theorem keeps_variable {s : ScopeRef} {call : VariableCall} (hcall : s = x.scope → call.Spares x) :
    (dormancy x).Keeps (call.perform (.level n) s) := by
  have hG := governs hdelete n
  cases call with
  | createMutable name canDelete =>
      exact (keeps_createMutable _ s name canDelete fun o ↦
        hG.keeps_objectCreate o name canDelete).map _
  | createImmutable name strict => exact (keeps_createImmutable s name strict).map _
  | initialise name v =>
      have hne : (s, name) ≠ (x.scope, x.name) := fun hsame ↦
        hcall (congrArg Prod.fst hsame) (congrArg Prod.snd hsame)
      exact (keeps_initialise hne v fun o ↦ hG.keeps_objectSet o name v false).map _
  | set name v strict => exact (hG.keeps_setBinding s name v strict).map _
  | get name strict => exact (hG.keeps_getBinding s name strict).map _
  | delete name => exact (keeps_delete hcall fun o ↦ hG.properties.delete o _).map _
  | store name v =>
      have hne (hmutable : x.isMutable = true) : (s, name) ≠ (x.scope, x.name) := by
        intro hsame
        have hconstant := hcall (congrArg Prod.fst hsame) (congrArg Prod.snd hsame)
        rw [hmutable] at hconstant
        cases hconstant
      exact (keeps_storeBound hne v).map _

theorem keeps_execute {stmt : Statement} (hstmt : Tree.placedStatement stmt = true) {s : ScopeRef}
    (hs : s = x.scope →
      x.name ∉ (Tree.formLexicalNames (Tree.unlabelled stmt)).map LexicalName.name) :
    (dormancy x).Keeps (Action.ofExecution (Statement.exec (.level n) stmt s [])) := by
  refine HoldsDormant.of_run fun σ hσ ↦ ?_
  refine ((governs hdelete n).executes_exec (fun _ ↦ hstmt) s [] ?_ σ hσ).1
  rintro _ ⟨name, hname, rfl⟩ hsame
  cases hsame
  exact hs rfl hname

theorem keeps_script {body : List Statement} (hbody : Tree.placedList body = true) :
    (dormancy x).Keeps (Script.run (.level n) body) := by
  have hexec (s : ScopeRef) := (governs hdelete n).executes_script (fun _ ↦ hbody) s
  have hfinish (c : Completion) : (dormancy x).Keeps (Script.finish c) := by
    cases c <;> exact HoldsDormant.of_eq (fun _ ↦ rfl) fun _ ↦ rfl
  -- The strictness of the global scope is set first, which is no change of its variables.
  refine HoldsDormant.of_run fun σ hσ ↦ ?_
  let s := σ.realm.globalScope
  let strict := σ.options.strict || Tree.isStrict body
  let σ₁ : State :=
    { σ with
      heap := σ.heap.modifyScope s fun scope ↦ { scope with isStrict := strict }
      callDepth := 0 }
  have hwaits : x.WaitsIn σ₁.heap := hσ.waits.modifyScope fun _ ↦ rfl
  have hσ₁ : σ₁.Shields x :=
    ⟨hwaits, hσ.conforms.of_objects rfl, hσ.placed.of_objects rfl, hσ.global⟩
  have hrun := HoldsDormant.bind (hexec s) hfinish
  refine (hrun ?_ σ₁ hσ₁).1
  rintro _ rfl
  exact hσ.global

theorem keeps_perform {step : HostStep} (hstep : step.Avoids x) :
    (dormancy x).Keeps (step.perform (.level n)) := by
  have hG := governs hdelete n
  cases step with
  | scope s action => exact (keeps_variable hdelete n hstep).discard
  | properties step =>
      refine PropertyStep.keeps_perform hG fun o k patch heq ↦ ?_
      subst heq
      exact hstep
  | call f this args => exact (hG.keeps_call f this args).discard
  | construct f args => exact (hG.keeps_construct f args).discard
  | evaluate e s => exact (hG.keeps_eval (fun _ ↦ hstep) s).discard
  | execute stmt s => exact (keeps_execute hdelete n hstep.1 hstep.2).discard
  | script body => exact (keeps_script hdelete n hstep).discard

end dormancy

/-! ## Steps that run no code -/

/-- The object is there, and a value that is written to its property does not go to the
variable. -/
def Dormant.IsApart (x : Dormant) (o : ObjectRef) (k : PropertyKey) (h : Heap) : Prop :=
  o.index < h.objects.size ∧
    (x.isMutable = true → h.boundTo? o k ≠ some (x.scope, x.name))

/-- What is looked up is no accessor, and no value that is written goes to the variable. -/
def ObjectOperation.Spares (depth : Nat) (x : Dormant) (h : Heap) : ObjectOperation → Prop
  | .define o k patch => patch.value?.isSome → x.IsApart o k h
  | .createData o k _ => x.IsApart o k h
  | .set o k _ receiver => h.ReadsPlainly k depth o ∧ ∀ p, receiver = .object p → x.IsApart p k h
  | .get o k _ => h.ReadsPlainly k depth o
  | .getOwn _ _ | .delete _ _ | .setPrototype _ _ | .preventExtensions _ => True

/-- The step runs no code, nor does a resolver that it may start, and it writes no value to
the variable. -/
def HostStep.SparesQuietly (depth : Nat) (x : Dormant) (h : Heap) : HostStep → Prop
  | .scope s action =>
    (s = x.scope → action.Spares x) ∧ (s ≠ x.scope → ∃ b, h.IsDeclarative s b)
  | .properties (.next _) => h.ResolversReadPlainly depth
  | .properties (.operation op) => h.ResolversReadPlainly depth ∧ op.Spares depth x h
  | .call _ _ _ | .construct _ _ | .evaluate _ _ | .execute _ _ | .script _ => False

namespace Dormant

variable {x : Dormant} {h h' : Heap} {o : ObjectRef} {k : PropertyKey}

theorem WaitsIn.settles (hx : x.WaitsIn h) (hs : h.Settles h') : x.WaitsIn h' := by
  obtain ⟨b, ⟨hlt, this, hrecord⟩, hb⟩ := hx
  exact ⟨b, ⟨Nat.lt_of_lt_of_le hlt hs.scopes_le, this, (hs.scope _ hlt).symm ▸ hrecord⟩, hb⟩

theorem WaitsIn.keepsOthers (hx : x.WaitsIn h) {s : ScopeRef} (hs : s ≠ x.scope)
    (hothers : h.KeepsOthers s h') : x.WaitsIn h' := by
  obtain ⟨b, ⟨hlt, this, hrecord⟩, hb⟩ := hx
  exact ⟨b, ⟨hothers.size ▸ hlt, this, hothers.scope _ hs.symm ▸ hrecord⟩, hb⟩

theorem WaitsIn.passesOn (hx : x.WaitsIn h) {patch : Descriptor}
    (hk : patch.value?.isSome → x.IsApart o k h) (hpasses : h.PassesOn o k patch h') :
    x.WaitsIn h' := by
  cases hpasses with
  | nothing => exact hx
  | value hown hpatch v =>
      refine hx.storeBound (fun hmutable hsame ↦ (hk hpatch).2 hmutable ?_) v
      rw [← hsame]
      exact Heap.boundTo?_eq_some.2 ⟨_, hown⟩

theorem IsApart.settles (hk : x.IsApart o k h) (hs : h.Settles h') : x.IsApart o k h' := by
  obtain ⟨ho, hne⟩ := hk
  -- A property that reading has changed is plain data by now.
  refine ⟨Nat.lt_of_lt_of_le ho hs.objects_le, fun hmutable hbound ↦ hne hmutable ?_⟩
  obtain ⟨a, hown⟩ := Heap.boundTo?_eq_some.1 hbound
  rcases hs.own o ho k with hsame | ⟨_, _, _, -, -, hvalue⟩
  · exact Heap.boundTo?_eq_some.2 ⟨a, hsame ▸ hown⟩
  · rw [hvalue] at hown
    cases hown

end Dormant

theorem VariableCall.waitsIn_perform (eng : Engine) {x : Dormant} {σ : State}
    (hx : x.WaitsIn σ.heap) {s : ScopeRef} {b : Bindings} (hs : σ.heap.IsDeclarative s b)
    {call : VariableCall} (hcall : s = x.scope → call.Spares x) :
    x.WaitsIn ((call.perform eng s).run σ).2.heap := by
  obtain ⟨failure, τ, hrun, hscopes⟩ | ⟨reply, b', τ, hrun, hs', hothers, happly⟩ :=
    run_perform_cases eng hs call
  · rw [hrun]
    exact hx.of_scopes hscopes
  · rw [hrun]
    by_cases hscope : s = x.scope
    · subst hscope
      obtain ⟨b₀, ⟨-, this, hrecord⟩, hb₀⟩ := hx
      obtain ⟨-, this', hrecord'⟩ := hs
      cases hrecord.symm.trans hrecord'
      exact ⟨b', hs', Dormant.find?_of_apply (hcall rfl) hb₀ happly⟩
    · exact hx.keepsOthers hscope hothers

section Quiet

variable {depth n : Nat} {x : Dormant} {σ : State} (hx : x.WaitsIn σ.heap)
  {pending : List CellRef} (hσ : σ.heap.IsPlain depth pending)

include hx hσ

theorem Object.waitsIn_define {o : ObjectRef} {k : PropertyKey} {patch : Descriptor}
    (hk : patch.value?.isSome → x.IsApart o k σ.heap) :
    x.WaitsIn ((define (.level n) o k patch).run σ).2.heap := by
  have hread := readsOnly_getOwn (Engine.readsAlong_level depth n) hσ o k
  rw [run_define]
  generalize (getOwn (.level n) o k).run σ = r at hread
  obtain ⟨e | _ | shown, τ⟩ := r
  · exact hx.settles hread.settles
  · have hτ : x.WaitsIn τ.heap := hx.settles hread.settles
    dsimp only
    split
    · exact hτ.of_scopes rfl
    · exact hτ
  · have hτ : x.WaitsIn τ.heap := hx.settles hread.settles
    dsimp only
    split
    · obtain ⟨form, heap, hstore, hpasses, -⟩ :=
        run_storePatched o k patch (shown.patched patch) τ
      rw [hstore]
      exact (hτ.passesOn (fun hv ↦ (hk hv).settles hread.settles) hpasses).of_scopes rfl
    · exact hτ

theorem Object.waitsIn_setOnReceiver {k : PropertyKey} {receiver : Value}
    (hk : ∀ p, receiver = .object p → x.IsApart p k σ.heap) (v : Value) :
    x.WaitsIn ((setOnReceiver (.level n) k v receiver).run σ).2.heap := by
  cases receiver with
  | object p =>
      have hread := readsOnly_getOwn (Engine.readsAlong_level depth n) hσ p k
      rw [setOnReceiver, Action.run_bind]
      generalize (getOwn (.level n) p k).run σ = r at hread
      obtain ⟨e | found, τ⟩ := r
      · exact hx.settles hread.settles
      · have hdefine (patch : Descriptor) :
            x.WaitsIn ((define (.level n) p k patch).run τ).2.heap :=
          waitsIn_define (hx.settles hread.settles) (hσ.settles hread.settles hread.stored)
            fun _ ↦ (hk p rfl).settles hread.settles
        cases found with
        | none => exact hdefine _
        | some existing =>
            dsimp only
            split
            · exact hx.settles hread.settles
            · exact hdefine _
  | _ => exact hx

theorem Object.waitsIn_set {o : ObjectRef} {k : PropertyKey} {receiver : Value}
    (ho : σ.heap.ReadsPlainly k depth o)
    (hk : ∀ p, receiver = .object p → x.IsApart p k σ.heap) (v : Value) :
    x.WaitsIn ((set (.level n) o k v receiver).run σ).2.heap := by
  rw [set, find, Action.run_bind]
  -- What is found is no accessor, so the value goes to the receiver or nowhere.
  rcases run_findFrom_plain ho with hnone | ⟨hshort, -⟩ | ⟨p, d, hown, hd, hfound⟩
  · rw [hnone]
    exact waitsIn_setOnReceiver hx hσ hk v
  · rw [hshort]
    exact hx
  · rw [hfound]
    have hread := readsOnly_getOwn (Engine.readsAlong_level depth n) hσ p k
    obtain ⟨r, τ, hrun⟩ := run_getOwn_present (.level n) hown
    rw [hrun] at hread ⊢
    cases r with
    | error e => exact hx.settles hread.settles
    | ok shown =>
        have hshown : shown.isAccessor = false := isAccessor_of_run_getOwn hown hd hrun
        have hsetter : shown.setter? = none := by
          obtain ⟨a, form⟩ := shown
          cases form with
          | accessor get set => cases hshown
          | _ => rfl
        dsimp only [Except.map, Option.getD_some]
        split
        · split
          · exact waitsIn_setOnReceiver (hx.settles hread.settles)
              (hσ.settles hread.settles hread.stored)
              (fun p hp ↦ (hk p hp).settles hread.settles) v
          · exact hx.settles hread.settles
        · rw [hsetter]
          exact hx.settles hread.settles

theorem ObjectOperation.waitsIn_perform {op : ObjectOperation} (hop : op.Spares depth x σ.heap) :
    x.WaitsIn ((op.perform (.level n)).run σ).2.heap := by
  have heng := Engine.readsAlong_level depth n
  cases op with
  | define o k patch =>
      rw [perform, Action.run_discard]
      exact Object.waitsIn_define hx hσ hop
  | createData o k v =>
      rw [perform, Action.run_discard]
      exact Object.waitsIn_define hx hσ fun _ ↦ hop
  | set o k v receiver =>
      rw [perform, Action.run_discard]
      exact Object.waitsIn_set hx hσ hop.1 hop.2 v
  | delete o k =>
      rw [perform, Action.run_discard, Object.run_delete]
      split
      · exact hx
      · split
        · exact hx.of_scopes rfl
        · exact hx
  | getOwn o k =>
      rw [perform, Action.run_discard]
      exact hx.settles (Object.readsOnly_getOwn heng hσ o k).settles
  | get o k receiver =>
      rw [perform, Action.run_discard]
      exact hx.settles (Object.readsOnly_get heng hσ hop receiver).settles
  | setPrototype o prototype =>
      rw [perform, Action.run_discard, Object.setPrototype, Action.run_bind, Action.run_heap]
      dsimp only
      split
      · exact hx
      split
      · exact hx
      split
      · exact hx
      · exact hx.of_scopes rfl
  | preventExtensions o => exact hx.of_scopes rfl

end Quiet

namespace HostStep

variable {depth n : Nat} {x : Dormant} {σ : State}

theorem waitsIn_perform (hx : x.WaitsIn σ.heap) (hσ : σ.heap.IsStored) {step : HostStep}
    (hstep : step.SparesQuietly depth x σ.heap) :
    x.WaitsIn ((step.perform (.level n)).run σ).2.heap := by
  cases step with
  | scope s action =>
      obtain ⟨hspares, hdeclarative⟩ := hstep
      obtain ⟨b, hs⟩ : ∃ b, σ.heap.IsDeclarative s b := by
        by_cases hs : s = x.scope
        · obtain ⟨b, hb, -⟩ := hx
          exact ⟨b, hs ▸ hb⟩
        · exact hdeclarative hs
      rw [perform, Action.run_discard]
      exact action.waitsIn_perform (.level n) hx hs hspares
  | properties step =>
      cases step with
      | next it =>
          rw [perform, PropertyStep.perform, Action.run_discard]
          exact hx.settles (ForIn.readsOnly_nextFrom (Engine.readsAlong_level depth n)
            (hσ.isPlain hstep) _ it).settles
      | operation op =>
          exact ObjectOperation.waitsIn_perform hx (hσ.isPlain hstep.1) hstep.2
  | call | construct | evaluate | execute | script => exact hstep.elim

end HostStep

/-! ## Runs -/

/-- Where scopes do not matter, neither do calls on variables. -/
theorem VariableCall.keeps_perform {P : Policy} {eng : Engine} (hP : P.Loose) (hG : P.Governs eng)
    (s : ScopeRef) (call : VariableCall) : P.Keeps (call.perform eng s) := by
  cases call with
  | createMutable name canDelete =>
      refine Policy.Keeps.bind ?_ fun _ ↦ Policy.keeps_pure _
      refine (hG.basics.keeps_scope s).bind fun scope ↦ ?_
      split
      · exact hP.keeps_update s _ _
      · exact hP.keeps_update s _ _
      · exact hG.keeps_objectCreate _ name canDelete
  | createImmutable name strict =>
      refine Policy.Keeps.bind ?_ fun _ ↦ Policy.keeps_pure _
      refine (hG.basics.keeps_scope s).bind fun scope ↦ ?_
      split
      · exact hP.keeps_update s _ _
      · exact hP.keeps_update s _ _
      · exact hG.basics.fault _ nofun nofun
  | initialise name v =>
      refine Policy.Keeps.bind ?_ fun _ ↦ Policy.keeps_pure _
      refine (hG.basics.keeps_scope s).bind fun scope ↦ ?_
      split
      · exact hP.keeps_update s _ _
      · exact hG.keeps_objectSet _ name v false
      · exact Policy.keeps_ite (hP.keeps_update s _ _) (hG.keeps_objectSet _ name v false)
  | set name v strict => exact (hG.keeps_setBinding s name v strict).map _
  | get name strict => exact (hG.keeps_getBinding s name strict).map _
  | delete name => exact (hG.keeps_deleteVariable s name).map _
  | store name v => exact (hP.modifyScope s _).map _

/-- A lawful discipline under which anything may fail, and at any depth of calls. -/
structure Discipline.Tolerant (D : Discipline) : Prop extends D.Lawful where
  anyFailure : ∀ e, D.Fails e
  anyDepth : ∀ σ depth, D.Good σ →
    D.Good { σ with callDepth := depth } ∧ D.Step σ { σ with callDepth := depth }

theorem Discipline.Tolerant.keeps_script {D : Discipline} (hD : D.Tolerant) (n : Nat)
    (body : List Statement) : D.Keeps (Script.run (.level n) body) := by
  intro σ hσ
  let s := σ.realm.globalScope
  let strict := σ.options.strict || Tree.isStrict body
  let marked : State :=
    { σ with heap := σ.heap.modifyScope s fun scope ↦ { scope with isStrict := strict } }
  obtain ⟨hmarked, hfirst⟩ := hD.quiet σ marked rfl rfl rfl hσ
  obtain ⟨hstart, hsecond⟩ := hD.anyDepth marked 0 hmarked
  have hexec : D.Keeps (Action.ofExecution (Script.exec (.level n) body s)) :=
    (hD.governs_level n).executes_script body s
  have hfinish (c : Completion) : D.Keeps (Script.finish c) := by
    cases c with
    | normal v => exact keeps_pure _
    | «return» v l => exact keeps_pure _
    | throw v l => exact keeps_throw (hD.anyFailure _)
    | «break» label v l => exact keeps_throw (hD.anyFailure _)
    | «continue» label v l => exact keeps_throw (hD.anyFailure _)
  exact (hexec.bind hfinish _ hstart).after (D.trans hfirst hsecond)

namespace HostStep

/-- Whatever the host does keeps such a discipline, if its patches do. -/
theorem keeps_perform {D : Discipline} (hD : D.Tolerant) (n : Nat) {step : HostStep}
    (hpatches : ∀ o k patch, step = .properties (.operation (.define o k patch)) →
      D.Patches patch) : D.Keeps (step.perform (.level n)) := by
  have hG := (hD.governs_level n).policy
  cases step with
  | scope s action =>
      have hkeeps : D.policy.Keeps (action.perform (.level n) s) :=
        action.keeps_perform hD.loose hG s
      exact Discipline.Keeps.discard hkeeps
  | properties step =>
      exact PropertyStep.keeps_perform hG fun o k patch heq ↦ hpatches o k patch (heq ▸ rfl)
  | call f this args => exact (hG.keeps_call f this args).discard
  | construct f args => exact (hG.keeps_construct f args).discard
  | evaluate e s => exact (hG.keeps_eval False.elim s).discard
  | execute stmt s => exact Discipline.Keeps.discard (hG.executes_exec False.elim s [])
  | script body => exact (hD.keeps_script n body).discard

variable {depth n : Nat} {x : Dormant} {σ : State} {steps : List HostStep}

theorem isStored_perform (hσ : σ.heap.IsStored) (step : HostStep) :
    ((step.perform (.level n)).run σ).2.heap.IsStored := by
  have htolerant : storing.Tolerant :=
    { storing.lawful with
      anyFailure := fun _ ↦ trivial
      anyDepth := fun _ _ hσ ↦ ⟨hσ, Nat.le_refl _⟩ }
  exact (keeps_perform htolerant n (fun _ _ _ _ ↦ trivial) σ hσ).good

theorem waitsIn_runAll (hx : x.WaitsIn σ.heap) (hσ : σ.heap.IsStored)
    (hsteps : Along (fun ρ step ↦ step.SparesQuietly depth x ρ.heap) (.level n) steps σ) :
    x.WaitsIn (runAll (.level n) steps σ).heap := by
  induction steps generalizing σ with
  | nil => exact hx
  | cons step rest ih =>
      exact ih (waitsIn_perform hx hσ hsteps.1) (isStored_perform hσ step) hsteps.2

theorem shields_runAll (hdelete : x.canDelete = false) (hσ : σ.Shields x)
    (hsteps : ∀ step ∈ steps, step.Avoids x) : (runAll (.level n) steps σ).Shields x := by
  induction steps generalizing σ with
  | nil => exact hσ
  | cons step rest ih =>
      have hstep := dormancy.keeps_perform hdelete n (hsteps step List.mem_cons_self)
      exact ih (HoldsDormant.shields hstep hσ) fun step' h ↦ hsteps step' (List.mem_cons_of_mem _ h)

/-- The steps neither initialise nor delete the variable, and write no value to it through a
property that is bound to it.  Where code runs, that is because the variable is a constant or
no property is bound to it. -/
inductive Spared (n : Nat) (x : Dormant) : List HostStep → State → Prop
  | code {steps : List HostStep} {σ : State} (hσ : σ.Shields x) (hdelete : x.canDelete = false)
      (hsteps : ∀ step ∈ steps, step.Avoids x) : Spared n x steps σ
  | quiet {steps : List HostStep} {σ : State} (depth : Nat) (hσ : σ.heap.IsStored)
      (hsteps : Along (fun ρ step ↦ step.SparesQuietly depth x ρ.heap) (.level n) steps σ) :
      Spared n x steps σ
  | append {steps rest : List HostStep} {σ : State} (hsteps : Spared n x steps σ)
      (hrest : Spared n x rest (runAll (.level n) steps σ)) : Spared n x (steps ++ rest) σ

theorem Spared.waitsIn (hsteps : Spared n x steps σ) (hx : x.WaitsIn σ.heap) :
    x.WaitsIn (runAll (.level n) steps σ).heap := by
  induction hsteps with
  | code hσ hdelete hsteps => exact (shields_runAll hdelete hσ hsteps).waits
  | quiet depth hσ hsteps => exact waitsIn_runAll hx hσ hsteps
  | append _ _ ih ih' =>
      rw [runAll_append]
      exact ih' (ih hx)

end HostStep

/-- The dead zone of a variable lasts through all that the host does until the variable is
initialised, deleted, or given a value through a property that is bound to it. -/
theorem dead_zone_lasts (n : Nat) (x : Dormant) (steps : List HostStep) (σ : State)
    (hx : x.WaitsIn σ.heap) (hsteps : HostStep.Spared n x steps σ) :
    let τ := HostStep.runAll (.level n) steps σ
    x.WaitsIn τ.heap ∧ ∀ eng v strict,
      τ.Throws .referenceError ((Scope.get eng x.scope x.name strict).run τ) ∧
        τ.Throws .referenceError ((Scope.set eng x.scope x.name v strict).run τ) := by
  intro τ
  have hτ : x.WaitsIn τ.heap := hsteps.waitsIn hx
  obtain ⟨b, hs, hb⟩ := id hτ
  exact ⟨hτ, fun eng v strict ↦ VariableCall.throws_of_uninitialised eng hs hb rfl v strict⟩

/-- A constant waits while a value is assigned to a property that is bound to it, by the host
and by a script; a variable waits while the property is bound, read and hidden. -/
theorem dead_zone_lasts_bound :
    let base := State.initial .standard
    let g := base.realm.globalObject
    let p : PropertyKey := .ofString "p"
    let made (isMutable : Bool) := base.heap.addScope
      ⟨.declarative (Bindings.empty.insert "x" ⟨none, false, isMutable, false⟩) none, none, false⟩
    let σ (isMutable : Bool) : State := { base with heap := (made isMutable).2 }
    let x (isMutable : Bool) : Dormant := ⟨(made isMutable).1, "x", false, isMutable, false⟩
    let bind (isMutable : Bool) : HostStep :=
      .properties (.operation (.define g p (.bound (x isMutable).scope "x" true true)))
    let assign : Statement :=
      .mk ⟨1, 1⟩ (.expression (.assign .plain (.identifier "p") (.boolean true)))
    let writes : List HostStep :=
      [bind false, .properties (.operation (.set g p (.boolean true) (.object g))),
        .script [assign]]
    let reads : List HostStep :=
      [bind true, .properties (.operation (.get g p (.object g))),
        .properties (.operation (.define g p (Descriptor.generic.withEnumerable false))),
        .scope (x true).scope (.set "x" .null true)]
    (∀ isMutable, (x isMutable).WaitsIn (σ isMutable).heap) ∧
      HostStep.Spared 9 (x false) writes (σ false) ∧
      HostStep.Spared 9 (x true) reads (σ true) ∧
      (x false).WaitsIn (HostStep.runAll (.level 9) writes (σ false)).heap ∧
      (x true).WaitsIn (HostStep.runAll (.level 9) reads (σ true)).heap := by
  intro base g p made σ x bind assign writes reads
  have hwaits (isMutable : Bool) : (x isMutable).WaitsIn (σ isMutable).heap :=
    Dormant.waitsIn_addScope base.heap "x" false isMutable false none none false
  have hwrites : HostStep.Spared 9 (x false) writes (σ false) := by
    have hdata (v : Value) (w e c : Bool) : (x false).Fits (.data v w e c) :=
      Dormant.fits_of_boundTo? rfl
    have hglobal : base.realm.globalScope.index ≠ base.heap.scopes.size := by decide +kernel
    have hshields : (σ false).Shields (x false) :=
      ⟨hwaits false, (Realm.allConform_build hdata _ Heap.allConform_empty).of_objects rfl,
        (Heap.allCallable_empty.build (fun _ _ ↦ trivial) _).of_objects rfl,
        fun hscope ↦ hglobal (congrArg ScopeRef.index hscope)⟩
    refine .code hshields rfl fun step hstep ↦ ?_
    simp only [writes, List.mem_cons, List.not_mem_nil, or_false] at hstep
    rcases hstep with rfl | rfl | rfl
    · exact fun hmutable ↦ nomatch hmutable
    · trivial
    · rfl
  have hreads : HostStep.Spared 9 (x true) reads (σ true) := by
    have hstored : (σ true).heap.IsStored :=
      (Realm.allConform_build (fun _ _ _ _ ↦ trivial) _ Heap.allConform_empty).of_objects rfl
    have hcells {h : Heap} (hsize : h.cells.size = 0) : h.ResolversReadPlainly 1 := by
      intro c r hc
      have hlt : c.index < h.cells.size := Heap.lt_of_cell_ne_resolving (by simp [hc])
      omega
    let τ := HostStep.runAll (.level 9) [bind true] (σ true)
    have hplain : (τ.heap.own? g p).map Descriptor.isAccessor = some false := by decide +kernel
    exact .quiet 1 hstored ⟨⟨hcells rfl, nofun⟩,
      ⟨hcells (by decide +kernel), Heap.readsPlainly_of_own? 0 hplain⟩,
      ⟨hcells (by decide +kernel), nofun⟩, ⟨fun _ ↦ trivial, fun hs ↦ absurd rfl hs⟩, trivial⟩
  exact ⟨hwaits, hwrites, hreads, (dead_zone_lasts 9 _ _ _ (hwaits false) hwrites).1,
    (dead_zone_lasts 9 _ _ _ (hwaits true) hreads).1⟩

/-- The exception is a real one: a value that is assigned to a property ends the dead
zone of the variable that the property is bound to. -/
theorem bound_write_ends_dead_zone :
    let base := State.initial .standard
    let g := base.realm.globalObject
    let p : PropertyKey := .ofString "p"
    let made := base.heap.addScope
      ⟨.declarative (Bindings.empty.insert "x" ⟨none, false, true, false⟩) none, none, false⟩
    let σ : State := { base with heap := made.2 }
    let x : Dormant := ⟨made.1, "x", false, true, false⟩
    let steps : List HostStep :=
      [.properties (.operation (.define g p (.bound x.scope "x" true true))),
        .properties (.operation (.set g p (.boolean true) (.object g)))]
    x.WaitsIn σ.heap ∧ (∀ s v, HostStep.scope s (.initialise "x" v) ∉ steps) ∧
      ((Scope.get (.level 9) x.scope "x" true).run (HostStep.runAll (.level 9) steps σ)).1 =
        .ok (.boolean true) := by
  intro base g p made σ x steps
  have hwaits : x.WaitsIn σ.heap :=
    Dormant.waitsIn_addScope base.heap "x" false true false none none false
  refine ⟨hwaits, by simp [steps], ?_⟩
  rfl

end Ecma
