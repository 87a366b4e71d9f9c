import Ecma.Proofs.Policy.Laws
import Ecma.Proofs.Policy.Statements
import Ecma.Proofs.Discipline.Allocation

/-!
# Disciplines as policies

To keep a discipline is a policy that asks nothing of scripts and does not look
at scopes, so all levels of the engine keep a lawful discipline.
-/

namespace Ecma

namespace Discipline

variable {D : Discipline} {eng : Engine} {α : Type}

/-! ## Resolvers -/

section Resolvers

variable (hD : D.Base) (heng : D.Holds eng)

include hD heng

theorem keeps_readApart (o : ObjectRef) (k : PropertyKey) : D.Keeps (Lazy.readApart eng o k) := by
  unfold Lazy.readApart
  dsimp only
  refine keeps_set_bind (fun σ hσ ↦ ?_) fun σ ↦ ?_
  · have hinner := heng.get o k (.object o) σ.beside (hD.beside σ hσ)
    exact hD.resume σ _ hσ hinner.good hinner.step
  · split
    · exact hD.keeps_log _
    · exact keeps_fault nofun
    · exact hD.keeps_log _

theorem keeps_runSteps (steps : List ResolverStep) : D.Keeps (Lazy.runSteps eng steps) := by
  induction steps with
  | nil => exact keeps_pure ()
  | cons step rest ih =>
      cases step with
      | log line => exact (hD.keeps_log line).bind fun _ ↦ ih
      | read o k => exact (keeps_readApart hD heng o k).bind fun _ ↦ ih

end Resolvers

/-! ## The policy -/

def policy (D : Discipline) : Policy where
  host := D.toHostContract
  demands := False
  Holds _ m _ := D.Keeps m
  holds_pure a _ := keeps_pure a
  holds_bind := Keeps.bind
  mono _ _ hm := hm
  persist hm := hm
  idle _ _ _ hm := hm

theorem Holds.serves (heng : D.Holds eng) : D.policy.Serves eng where
  call := heng.call
  get := heng.get
  eval _ s := heng.eval _ s
  exec _ s labels := heng.exec _ s labels

theorem holds_of_serves (heng : D.policy.Serves eng) : D.Holds eng where
  call := heng.call
  get := heng.get
  eval _ s := heng.eval False.elim s
  exec _ s labels := heng.exec False.elim s labels

/-- The reply to a request is looked at only to see whether the fuel is out. -/
theorem keeps_program (hperform : ∀ request : Request, request.Honours D.toHostContract →
      D.Keeps (Host.perform eng request)) {program : HostProgram α}
    (hprogram : program.Honours D.toHostContract) : D.Keeps (Host.run eng program) := by
  induction program with
  | done result => exact keeps_ofExcept hprogram
  | perform request next ih =>
      obtain ⟨hrequest, hnext⟩ := hprogram
      rw [Host.run]
      refine (hperform request hrequest).attempt_bind fun reply hfails ↦ ?_
      split
      · exact keeps_fault nofun
      · exact ih _ (hnext _ hfails)

namespace Base

variable (hD : D.Base)

include hD

theorem executes_of_quiet {m : Execution α} (a : State → α) (f : State → State)
    (hrun : ∀ σ, m.run σ = (.ok (a σ), f σ))
    (hobjects : ∀ σ, (f σ).heap.objects = σ.heap.objects)
    (hcells : ∀ σ, (f σ).heap.cells = σ.heap.cells)
    (hdepth : ∀ σ, (f σ).callDepth = σ.callDepth) : D.Executes m := by
  refine hD.keeps_of_quiet a f ?_ hobjects hcells hdepth
  intro σ
  rw [Policy.run_ofExecution, hrun]

theorem executes_forget : D.Executes Statement.forget :=
  hD.executes_of_quiet _ _ (fun _ ↦ rfl) (fun _ ↦ rfl) (fun _ ↦ rfl) fun _ ↦ rfl

theorem executes_takeInterrupt : D.Executes (modifyGet State.takeInterrupt) := by
  refine hD.executes_of_quiet (·.takeInterrupt.1) (·.takeInterrupt.2) (fun _ ↦ rfl) ?_ ?_ ?_
  all_goals
    intro σ
    unfold State.takeInterrupt
    split <;> rfl

theorem executes_throwCompletion {e : Failure} (he : D.Fails e) (location : Location) :
    D.Executes (Statement.throwCompletion e location) := by
  cases e with
  | thrown v =>
      exact hD.executes_of_quiet (fun σ ↦ .throw v (σ.throwLocation.getD location))
        (fun σ ↦ { σ with throwLocation := none }) (fun _ ↦ rfl) (fun _ ↦ rfl) (fun _ ↦ rfl)
        fun _ ↦ rfl
  | uncaught v l => exact keeps_pure _
  | fault f => exact keeps_throw he

theorem executes_recovers {e : Failure} (he : D.Fails e) {m : Execution Completion}
    (hm : Statement.Recovers e m) : D.Executes m := by
  cases hm with
  | report location => exact hD.executes_throwCompletion he location
  | drop c =>
      have hdrop : D.policy.Executes ∅ (do Statement.forget; return c) :=
        Policy.Executes.bind hD.executes_forget fun _ ↦ Policy.executes_pure c
      exact hdrop

theorem executes_handle {m : Action α} (next : Except Failure α → Execution Completion)
    (hm : D.Keeps m) (hok : ∀ a, (∃ σ τ, m.run σ = (.ok a, τ)) → D.Executes (next (.ok a)))
    (herror : ∀ e, Statement.Recovers e (next (.error e))) :
    D.Executes (Execution.ofAction m >>= next) := by
  intro σ hσ
  have hfirst := hm σ hσ
  rw [Policy.run_ofAction_bind]
  rcases hrun : m.run σ with ⟨e | a, τ⟩
  · rw [hrun] at hfirst
    have hsecond := hD.executes_recovers (hfirst.fails e rfl) (herror e) τ hfirst.good
    exact hsecond.after hfirst.step
  · rw [hrun] at hfirst
    exact (hok a ⟨σ, τ, hrun⟩ τ hfirst.good).after hfirst.step

theorem keeps_finish (c : Completion) : D.Keeps (Function.finish c) := by
  cases c with
  | normal v => exact keeps_pure _
  | «return» v l => exact keeps_pure _
  | throw v l => exact (hD.keeps_setThrowLocation _).bind fun _ ↦ keeps_throw_thrown v
  | «break» label v l => exact keeps_fault nofun
  | «continue» label v l => exact keeps_fault nofun

theorem basics : D.policy.Basics where
  patches := D.patches
  read m f hrun := keeps_of_run_eq (fun σ ↦ f σ.heap σ.realm σ.options) hrun
  fault _ _ hescaped := keeps_fault hescaped
  raise := hD.keeps_raise
  log line _ := hD.keeps_log line
  raises _ _ := trivial
  interrupt := hD.keeps_interrupt
  newSymbol := hD.keeps_newSymbol
  callable o next hnone hsome := by
    intro σ hσ
    change D.Allows σ ((next (σ.heap.object o).callable).run σ)
    cases hcallable : (σ.heap.object o).callable with
    | none => exact hnone σ hσ
    | some f =>
        have hf := hD.callable σ o f hσ hcallable
        exact hsome f (Policy.admissible_of_honours id (fun _ ↦ trivial) hf) σ hσ
  depth m m' hm hm' := by
    intro σ hσ
    change D.Allows σ ((if σ.options.maxCallDepth ≤ σ.callDepth then m else m').run σ)
    exact keeps_ite hm hm' σ hσ
  counted m hm := by
    intro σ hσ
    have hinner := hm _ (hD.deepen σ hσ)
    obtain ⟨hgood, hstep⟩ := hD.surface σ _ hσ hinner.good hinner.step
    exact ⟨hgood, hstep, hinner.fails⟩
  program _ hperform _ _ hprogram _ :=
    keeps_program (fun request hrequest ↦ hperform request hrequest
      ⟨trivial, request.isPlaced_of_not id⟩) hprogram
  finish := hD.keeps_finish
  handle := hD.executes_handle
  forget := hD.executes_forget
  takeInterrupt := hD.executes_takeInterrupt

theorem creation : D.policy.Creation where
  newCell r _ := hD.keeps_newCell r
  newObject := hD.keeps_newObject
  newError := hD.keeps_newError
  wrap := hD.keeps_wrap
  createUnmapped := hD.keeps_createUnmapped
  createMapped := hD.keeps_createMapped
  instantiate _ s name := hD.keeps_instantiate _ s name

theorem loose : D.policy.Loose where
  basics := hD.basics
  free hm := hm
  neverCreated := keeps_fault nofun
  addScope := hD.keeps_addScope
  modifyScope := hD.keeps_modifyScope

end Base

/-! ## Lawful disciplines -/

/-- A discipline that looks at nothing of an object but what it calls. -/
theorem Base.lawful_of_lax (hD : D.Base) (hlax : D.policy.Lax) : D.Lawful :=
  { hD with
    getOwn := fun eng heng ↦ hlax.properties.getOwn eng heng.serves
    define := fun eng heng ↦ hlax.properties.define eng heng.serves
    delete := hlax.properties.delete
    setPrototype := hlax.properties.setPrototype
    preventExtensions := hlax.properties.preventExtensions }

theorem Lawful.lawful (hD : D.Lawful) : D.policy.Lawful where
  basics := hD.toBase.basics
  creation := hD.toBase.creation
  scopes := hD.toBase.loose.scopes
  properties :=
    { getOwn := fun eng heng ↦ hD.getOwn eng (holds_of_serves heng)
      define := fun eng heng ↦ hD.define eng (holds_of_serves heng)
      delete := hD.delete
      setPrototype := hD.setPrototype
      preventExtensions := hD.preventExtensions }

/-- Every level of the engine keeps a lawful discipline. -/
theorem Lawful.governs_level (hD : D.Lawful) (n : Nat) : D.Governs (Engine.level n) :=
  { hD, holds_of_serves (hD.lawful.governs_level n).toServes with }

namespace Governs

variable (hG : D.Governs eng)

include hG

theorem policy : D.policy.Governs eng :=
  { hG.toLawful.lawful, hG.toHolds.serves with }

theorem keeps_getOwn (o : ObjectRef) (k : PropertyKey) : D.Keeps (Object.getOwn eng o k) :=
  hG.policy.keeps_getOwn o k

theorem keeps_define (o : ObjectRef) (k : PropertyKey) {patch : Descriptor}
    (hpatch : D.Patches patch) : D.Keeps (Object.define eng o k patch) :=
  hG.policy.keeps_define o k hpatch

theorem keeps_createData (o : ObjectRef) (k : PropertyKey) (v : Value) :
    D.Keeps (Object.createData eng o k v) :=
  hG.policy.keeps_createData o k v

theorem keeps_get (o : ObjectRef) (k : PropertyKey) (receiver : Value) :
    D.Keeps (Object.get eng o k receiver) :=
  hG.policy.keeps_get o k receiver

theorem keeps_set (o : ObjectRef) (k : PropertyKey) (v receiver : Value) :
    D.Keeps (Object.set eng o k v receiver) :=
  hG.policy.keeps_set o k v receiver

theorem executes_script (body : List Statement) (s : ScopeRef) :
    D.Executes (Script.exec eng body s) :=
  hG.policy.executes_script False.elim s

end Governs

end Discipline

end Ecma
