import Ecma.Proofs.Discipline.Engine
import Ecma.Proofs.JumpConfinement
import Ecma.Proofs.Policy.Callables

/-!
# Bodies that no jump escapes

The fault for a jump that left a script comes up at the end of a script and
nowhere else, so a script that is well labelled never ends with it unless a
function of the host makes it up.  The fault for a jump that left a function
comes up at the end of that function's body; a call whose own body is well
labelled ends with it only if a call inside did.
-/

namespace Ecma

/-! ## The fault of scripts -/

/-- Host programs that do not make up the fault of scripts. -/
def plainHost : HostContract := ⟨fun e ↦ e ≠ .fault (.invariant .escapedScript), fun _ ↦ True⟩

/-- The functions of the host in the heap keep to the contract. -/
def Heap.HasPlainHost (h : Heap) : Prop :=
  ∀ o f, (h.object o).callable = some f → f.Honours plainHost

namespace Heap

theorem HasPlainHost.of_grows {h h' : Heap} (hh : h.HasPlainHost) (hg : h.Grows plainHost h') :
    h'.HasPlainHost := by
  intro o f hf
  by_cases ho : o.index < h.objects.size
  · rw [hg.object_eq o ho] at hf
    exact hh o f hf
  · by_cases ho' : o.index < h'.objects.size
    · exact (hg.object_new o (Nat.le_of_not_lt ho) ho').callable f hf
    · rw [callable_of_le (Nat.le_of_not_lt ho')] at hf
      cases hf

end Heap

/-- No operation fails with the fault of scripts. -/
def plainRuns : Discipline where
  toHostContract := plainHost
  Good σ := σ.heap.HasPlainHost
  Step _ _ := True
  refl _ := trivial
  trans _ _ := trivial
  fails _ he := he
  patches _ _ := trivial

namespace plainRuns

open Discipline

theorem base : plainRuns.Base where
  quiet _ _ hobjects _ _ hσ := ⟨Heap.AllCallable.of_objects hσ hobjects, trivial⟩
  grows _ _ hg _ hσ := ⟨Heap.HasPlainHost.of_grows hσ hg, trivial⟩
  deepen _ hσ := hσ
  surface _ _ _ hτ _ := ⟨hτ, trivial⟩
  beside σ hσ := Heap.HasPlainHost.of_grows hσ (Realm.grows_build _ σ.heap)
  resume _ _ _ hτ _ := ⟨hτ, trivial⟩
  callable _ o f hσ hf := hσ o f hf

theorem lax : plainRuns.policy.Lax where
  basics := base.basics
  newCell r _ := base.keeps_newCell r
  constant _ := trivial
  addObject _ hdata _ hσ :=
    ⟨Heap.AllCallable.addObject hσ fun f hf ↦ (hdata f hf).honours, trivial, nofun⟩
  modifyObject o _ hg _ hσ := ⟨Heap.AllCallable.modifyObject hσ o hg, trivial, nofun⟩
  storeBound := base.keeps_storeBound
  resolve _ heng := base.basics.keeps_resolve base.keeps_log
    (fun _ _ _ hσ ↦ ⟨Heap.AllCallable.of_objects hσ rfl, trivial, nofun⟩)
    (keeps_readApart base (holds_of_serves heng))

theorem lawful : plainRuns.Lawful := base.lawful_of_lax lax

end plainRuns

/-! ## Scripts -/

/-- A completion that the empty context permits is no jump. -/
theorem finish_of_permits {c : Completion} (hc : JumpContext.empty.permits c = true)
    (σ σ' : State) :
    (Script.finish c).run σ ≠ (.error (.fault (.invariant .escapedScript)), σ') ∧
      (Function.finish c).run σ ≠ (.error (.fault (.invariant .escapedFunction)), σ') := by
  cases c with
  | normal v => exact ⟨nofun, nofun⟩
  | «return» v l => exact ⟨nofun, nofun⟩
  | throw v l => exact ⟨nofun, nofun⟩
  | «break» label v l => cases label <;> cases hc
  | «continue» label v l => cases label <;> cases hc

theorem run_ofExecution_eq_ok {α : Type} {m : Execution α} {σ σ' : State} {a : α}
    (h : (Action.ofExecution m).run σ = (.ok a, σ')) : m.run σ = (.ok a, σ') := by
  rw [Policy.run_ofExecution] at h
  split at h
  next a' τ hrun =>
    cases h
    exact hrun
  next => cases h

theorem Script.confined_exec (n : Nat) {body : List Statement} (s : ScopeRef)
    (hbody : Tree.wellLabelledAll .empty body = true) :
    Statement.Confined .empty (Script.exec (.level n) body s) :=
  Statement.confined_attempt _ _ fun _ ↦
    Statement.confined_execAll (Statement.confines_level n) s hbody

theorem Script.run_ne_escaped (n : Nat) {body : List Statement} {σ : State}
    (hbody : Tree.wellLabelledAll .empty body = true) (hσ : σ.heap.HasPlainHost) (σ' : State) :
    (Script.run (.level n) body).run σ ≠ (.error (.fault (.invariant .escapedScript)), σ') := by
  intro hrun
  let s := σ.realm.globalScope
  let strict := σ.options.strict || Tree.isStrict body
  let σ₁ : State :=
    { σ with
      heap := σ.heap.modifyScope s fun scope ↦ { scope with isStrict := strict }
      callDepth := 0 }
  have hσ₁ : plainRuns.Good σ₁ := Heap.AllCallable.of_objects hσ rfl
  have hexec := (plainRuns.lawful.governs_level n).executes_script body s σ₁ hσ₁
  have hbind : (Action.ofExecution (Script.exec (.level n) body s) >>= Script.finish).run σ₁ =
      (.error (.fault (.invariant .escapedScript)), σ') := hrun
  rw [Action.run_bind] at hbind
  rcases hout : (Action.ofExecution (Script.exec (.level n) body s)).run σ₁ with ⟨e | c, τ⟩
  · rw [hout] at hbind hexec
    cases hbind
    exact hexec.fails _ rfl rfl
  · rw [hout] at hbind
    have hc := Script.confined_exec n s hbody σ₁ c τ (run_ofExecution_eq_ok hout)
    exact (finish_of_permits hc τ σ').1 hbind

/-! ## Calls -/

namespace Function

/-- How the statements of a function's body end, for a call of it. -/
def outcome (eng : Engine) (callee : ObjectRef) (f : FunctionNode) (closure : ScopeRef)
    (strict : Bool) (this : Value) (args : List Value) : Action Completion := do
  let s ← Action.newFunctionScope closure (← bindThis f strict this) strict
  declare eng callee f s args
  Action.ofExecution (Statement.execAll eng f.body s)

variable {f : FunctionNode} {closure : ScopeRef} {strict : Bool}

theorem enter_closure (eng : Engine) (callee : ObjectRef) (this : Value) (args : List Value) :
    enter eng callee (.closure f closure strict) this args =
      outcome eng callee f closure strict this args >>= finish := by
  simp [enter, prepare, outcome]

theorem permits_outcome (n : Nat) (callee : ObjectRef) (this : Value) (args : List Value)
    (hbody : Tree.wellLabelledAll .empty f.body = true) {σ σ' : State} {c : Completion}
    (hrun : (outcome (.level n) callee f closure strict this args).run σ = (.ok c, σ')) :
    JumpContext.empty.permits c = true := by
  unfold outcome at hrun
  rw [Action.run_bind] at hrun
  split at hrun
  · rw [Action.run_bind] at hrun
    split at hrun
    next s τ _ =>
      rw [Action.run_bind] at hrun
      split at hrun
      next τ' _ =>
        have hexec := run_ofExecution_eq_ok hrun
        exact Statement.confined_execAll (Statement.confines_level n) s hbody _ c σ' hexec
      next => cases hrun
    next => cases hrun
  · cases hrun

theorem run_call_callable (eng : Engine) {o : ObjectRef} (this : Value) (args : List Value)
    {σ : State} {g : Callable} (hcallable : (σ.heap.object o).callable = some g) :
    (call eng (.object o) this args).run σ =
      if σ.options.maxCallDepth ≤ σ.callDepth then (Action.throwNew .callDepth).run σ
      else
        let r := (enter eng o g this args).run { σ with callDepth := σ.callDepth + 1 }
        (r.1, { r.2 with callDepth := r.2.callDepth - 1 }) := by
  unfold call
  extract_lets enterOrRefuse
  change (enterOrRefuse ((σ.heap.object o).callable.map (o, ·))).run σ = _
  rw [hcallable]
  change Action.run (if σ.options.maxCallDepth ≤ σ.callDepth then _ else _) σ = _
  split <;> rfl

/-- A call whose own body is well labelled ends with the fault of functions only
if what is called inside ends with it. -/
theorem run_outcome_of_run_call (n : Nat) {o : ObjectRef} {this : Value} {args : List Value}
    (hbody : Tree.wellLabelledAll .empty f.body = true) {σ σ' : State}
    (hcallable : (σ.heap.object o).callable = some (.closure f closure strict))
    (hrun : (call (.level n) (.object o) this args).run σ =
      (.error (.fault (.invariant .escapedFunction)), σ')) :
    ∃ τ, (outcome (.level n) o f closure strict this args).run
      { σ with callDepth := σ.callDepth + 1 } =
        (.error (.fault (.invariant .escapedFunction)), τ) := by
  rw [run_call_callable _ _ _ hcallable, enter_closure] at hrun
  split at hrun
  · cases hrun
  · rw [Action.run_bind] at hrun
    rcases hout : (outcome (.level n) o f closure strict this args).run
      { σ with callDepth := σ.callDepth + 1 } with ⟨e | c, τ⟩
    · rw [hout] at hrun
      cases hrun
      exact ⟨τ, rfl⟩
    · rw [hout] at hrun
      have hc := permits_outcome n o this args hbody hout
      have hfault : ((finish c).run τ).1 = .error (.fault (.invariant .escapedFunction)) :=
        congrArg Prod.fst hrun
      exact absurd (Prod.ext hfault rfl : (finish c).run τ = (_, ((finish c).run τ).2))
        (finish_of_permits hc τ _).2

end Function

/-! ## Statements, scripts and calls together -/

/-- Statements complete only with jumps that have a target around them, so no
jump escapes a well-labelled script, and a call of a well-labelled function
ends with the fault for that only if its statements had ended with it. -/
theorem jumps_stay_inside (n : Nat) :
    (∀ ctx chain stmt s, Tree.wellLabelled ctx chain stmt = true →
      ∀ σ c σ', (Statement.exec (.level n) stmt s chain).run σ = (.ok c, σ') →
        ctx.permits c = true) ∧
    (∀ body, Tree.wellLabelledAll .empty body = true → ∀ σ, σ.heap.HasPlainHost →
      ∀ σ', (Script.run (.level n) body).run σ ≠
        (.error (.fault (.invariant .escapedScript)), σ')) ∧
    (∀ f, Tree.wellLabelledAll .empty f.body = true → ∀ o closure strict σ,
      (σ.heap.object o).callable = some (.closure f closure strict) → ∀ this args,
      (∀ τ c τ', (Function.outcome (.level n) o f closure strict this args).run τ = (.ok c, τ') →
        JumpContext.empty.permits c = true) ∧
      ∀ σ', (Function.call (.level n) (.object o) this args).run σ =
          (.error (.fault (.invariant .escapedFunction)), σ') →
        ∃ τ, (Function.outcome (.level n) o f closure strict this args).run
          { σ with callDepth := σ.callDepth + 1 } =
            (.error (.fault (.invariant .escapedFunction)), τ)) := by
  refine ⟨?_, ?_, ?_⟩
  · intro ctx chain stmt s hstmt
    exact Statement.confines_exec (Statement.confines_level n) ctx chain stmt s hstmt
  · intro body hbody σ hσ
    exact Script.run_ne_escaped n hbody hσ
  · intro f hbody o closure strict σ hcallable this args
    constructor
    · intro τ c τ' hrun
      exact Function.permits_outcome n o this args hbody hrun
    · intro σ' hrun
      exact Function.run_outcome_of_run_call n hbody hcallable hrun

/-- A loop under two labels; a `switch` in it continues the loop and leaves it. -/
theorem jumps_stay_inside_switch :
    let node (form : StatementForm) : Statement := .mk .origin form
    let clauses : List SwitchClause :=
      [.mk (some .null) [node (.continue (some "a"))], .mk none [node (.break (some "b"))]]
    let stmt := node (.labelled "a" (node (.labelled "b"
      (node (.whileLoop (.boolean true) (node (.switch .null clauses)))))))
    let f : FunctionNode := .mk (some "f") [] [stmt] false
    let σ := State.initial .standard
    let made := σ.heap.addObject
      (Function.baseData σ.realm.functionPrototype 9 (.closure f σ.realm.globalScope false) "f" 0)
    let σ₁ : State := { σ with heap := made.2 }
    (∀ s σ c σ', (Statement.exec (.level 9) stmt s []).run σ = (.ok c, σ') →
      JumpContext.empty.permits c = true) ∧
    (∀ σ', (Script.run (.level 9) [stmt]).run σ ≠
      (.error (.fault (.invariant .escapedScript)), σ')) ∧
    ∀ σ', (Function.call (.level 9) (.object made.1) .undefined []).run σ₁ =
        (.error (.fault (.invariant .escapedFunction)), σ') →
      ∃ τ, (Function.outcome (.level 9) made.1 f σ.realm.globalScope false .undefined []).run
        { σ₁ with callDepth := σ₁.callDepth + 1 } =
          (.error (.fault (.invariant .escapedFunction)), τ) := by
  intro node clauses stmt f σ made σ₁
  have hempty : Heap.empty.HasPlainHost := fun _ _ h ↦ nomatch h
  have hhost : σ.heap.HasPlainHost := hempty.of_grows (Realm.grows_build _ _)
  have hcallable : (σ₁.heap.object made.1).callable =
      some (.closure f σ.realm.globalScope false) := by
    rw [Heap.object_addObject_self]
    rfl
  obtain ⟨hexec, hscript, hcall⟩ := jumps_stay_inside 9
  exact ⟨fun s ↦ hexec .empty [] stmt s rfl, hscript [stmt] rfl σ hhost,
    (hcall f rfl made.1 σ.realm.globalScope false σ₁ hcallable .undefined []).2⟩

end Ecma
