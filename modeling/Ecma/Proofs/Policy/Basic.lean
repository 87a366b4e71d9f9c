import Ecma.Proofs.Discipline.Basic
import Ecma.Proofs.Placement
import Mathlib.Data.Set.Insert

/-!
# Policies

A policy is a property of actions that actions put together from others inherit
from them.  It may speak of one run or compare several, and it may rely on what
is known of a scope before an action and say what is known after it.  Once the
few actions that all operations are made of are of the kind, so is all that an
engine does.
-/

namespace Ecma

/-- What may be known of a scope, and stays true once it is. -/
inductive Fact where
  /-- The scope holds variables itself. -/
  | holder (s : ScopeRef)
  /-- It holds a variable of the name, which cannot be deleted. -/
  | declared (s : ScopeRef) (name : String)

/-- All the names are declared in the scope. -/
def Fact.all (s : ScopeRef) (names : List String) : Set Fact :=
  {fact | ∃ name ∈ names, fact = .declared s name}

namespace Fact

theorem all_subset {s : ScopeRef} {names names' : List String} (h : names ⊆ names') :
    all s names ⊆ all s names' := by
  rintro fact ⟨name, hname, rfl⟩
  exact ⟨name, h hname, rfl⟩

theorem declared_mem_all {s : ScopeRef} {name : String} {names : List String} (h : name ∈ names) :
    declared s name ∈ all s names :=
  ⟨name, h, rfl⟩

theorem all_cons (s : ScopeRef) (name : String) (names : List String) :
    all s (name :: names) = {declared s name} ∪ all s names := by
  ext fact
  simp [all]

end Fact

namespace Statement

/-- Forgets where a value was thrown. -/
def forget : Execution Unit := modify fun σ ↦ { σ with throwLocation := none }

/-- How an execution may go on after a failure: it reports it, or drops it
together with the place of the throw. -/
inductive Recovers (e : Failure) : Execution Completion → Prop where
  | report (location : Location) : Recovers e (throwCompletion e location)
  | drop (c : Completion) : Recovers e (do forget; return c)

end Statement

/-- The program asks the engine only for what `A` permits. -/
def HostProgram.Asks {α : Type} (A : Request → Prop) : HostProgram α → Prop
  | .done _ => True
  | .perform request next => A request ∧ ∀ reply, (next reply).Asks A

theorem HostProgram.asks_of_forall {α : Type} {A : Request → Prop} (hA : ∀ request, A request)
    (program : HostProgram α) : program.Asks A := by
  induction program with
  | done result => trivial
  | perform request next ih => exact ⟨hA request, ih⟩

/-- Code that the engine is asked to run is placed, if that is demanded; a statement to be executed
alone declares nothing in its scope. -/
def Request.IsPlaced (demands : Prop) : Request → Prop
  | .evaluate e _ => demands → Tree.placedExpression e = true
  | .execute stmt _ => demands → Tree.placedAlone stmt = true
  | _ => True

theorem Request.isPlaced_of_not {demands : Prop} (hdemands : ¬demands) (request : Request) :
    request.IsPlaced demands := by
  cases request with
  | evaluate e s => exact fun h ↦ absurd h hdemands
  | execute stmt s => exact fun h ↦ absurd h hdemands
  | _ => trivial

structure Policy where
  /-- What the functions of the host keep to. -/
  host : HostContract
  /-- What the functions of the host may ask for. -/
  asks : Request → Prop := fun _ ↦ True
  /-- Whether scripts have to be placed; if not, no name need be declared. -/
  demands : Prop
  /-- From what is known at first, the action is of the kind, and tells the rest. -/
  Holds : ∀ {α : Type}, Set Fact → Action α → (α → Set Fact) → Prop
  holds_pure : ∀ {α : Type} (a : α) (Φ : α → Set Fact), Holds (Φ a) (pure a) Φ
  holds_bind : ∀ {α β : Type} {Γ : Set Fact} {m : Action α} {Φ : α → Set Fact}
    {f : α → Action β} {Ψ : β → Set Fact},
    Holds Γ m Φ → (∀ a, Holds (Φ a) (f a) Ψ) → Holds Γ (m >>= f) Ψ
  mono : ∀ {α : Type} {Γ Γ' : Set Fact} {m : Action α} {Φ Φ' : α → Set Fact},
    Γ ⊆ Γ' → (∀ a, Φ' a ⊆ Φ a) → Holds Γ m Φ → Holds Γ' m Φ'
  /-- Facts stay true. -/
  persist : ∀ {α : Type} {Γ : Set Fact} {m : Action α} {Φ : α → Set Fact},
    Holds Γ m Φ → Holds Γ m fun a ↦ Γ ∪ Φ a
  /-- Where scripts need not be placed, it does not matter what is declared. -/
  idle : ∀ {α : Type} {Γ Γ' : Set Fact} {m : Action α} {Φ Φ' : α → Set Fact}, ¬demands →
    (∀ s, .holder s ∈ Γ → .holder s ∈ Γ') → (∀ a s, .holder s ∈ Φ' a → .holder s ∈ Φ a) →
    Holds Γ m Φ → Holds Γ' m Φ'

namespace Policy

variable {α β : Type}

/-- The action is of the kind, whatever is known. -/
def Keeps (P : Policy) (m : Action α) : Prop := P.Holds ∅ m fun _ ↦ ∅

def Executes (P : Policy) (Γ : Set Fact) (m : Execution α) : Prop :=
  P.Holds Γ (Action.ofExecution m) fun _ ↦ ∅

/-- The condition is met, if the policy demands it. -/
def Admits (P : Policy) (b : Bool) : Prop := P.demands → b = true

/-- What the host may ask for, with code that is as the policy demands. -/
def Permits (P : Policy) (request : Request) : Prop := P.asks request ∧ request.IsPlaced P.demands

theorem permits_eq_asks {P : Policy} (hdemands : ¬P.demands) : P.Permits = P.asks :=
  funext fun request ↦ propext (and_iff_left (request.isPlaced_of_not hdemands))

theorem permits_eq_isPlaced {P : Policy} (hasks : ∀ request, P.asks request) :
    P.Permits = Request.IsPlaced P.demands :=
  funext fun request ↦ propext (and_iff_right (hasks request))

/-- What may be called. -/
def Admissible (P : Policy) : Callable → Prop
  | .closure f _ _ => P.Admits (Tree.placedFunction f)
  | .native _ _ run => ∀ this args, (run this args).Honours P.host ∧ (run this args).Asks P.Permits

theorem Admissible.honours {P : Policy} {f : Callable} (hf : P.Admissible f) :
    f.Honours P.host := by
  cases f with
  | closure f s strict => trivial
  | native name arity run => exact fun this args ↦ (hf this args).1

/-- Where nothing is demanded of scripts and functions of the host may ask for
anything, the contract is enough. -/
theorem admissible_of_honours {P : Policy} (hdemands : ¬P.demands)
    (hasks : ∀ request, P.asks request) {f : Callable} (hf : f.Honours P.host) :
    P.Admissible f := by
  cases f with
  | closure f s strict => exact fun h ↦ absurd h hdemands
  | native name arity run =>
      rw [← permits_eq_asks hdemands] at hasks
      exact fun this args ↦ ⟨hf this args, HostProgram.asks_of_forall hasks _⟩

theorem admits_and {P : Policy} {a b : Bool} : P.Admits (a && b) ↔ P.Admits a ∧ P.Admits b := by
  simp only [Admits, Bool.and_eq_true]
  exact forall_and

/-- The operations of an engine are of the kind.  A statement initialises the
names that it declares, which must be there. -/
structure Serves (P : Policy) (eng : Engine) : Prop where
  call : ∀ f this args, P.Keeps (eng.call f this args)
  get : ∀ o k receiver, P.Keeps (eng.get o k receiver)
  eval : ∀ {e}, P.Admits (Tree.placedExpression e) → ∀ s, P.Keeps (eng.eval e s)
  exec : ∀ {stmt}, P.Admits (Tree.placedStatement stmt) → ∀ s labels,
    P.Executes (Fact.all s ((Tree.formLexicalNames (Tree.unlabelled stmt)).map LexicalName.name))
      (eng.exec stmt s labels)

/-! ## Laws -/

/-- The laws of reads, failures, calls and executions. -/
structure Basics (P : Policy) : Prop where
  patches : ∀ d : Descriptor, d.IsStandard → P.host.Patches d
  read : ∀ {α : Type} (m : Action α) (f : Heap → Realm → Options → α),
    (∀ σ, m.run σ = (.ok (f σ.heap σ.realm σ.options), σ)) → P.Keeps m
  fault : ∀ {α : Type} (f : Fault), f ≠ .invariant .bindingNeverCreated →
    f ≠ .invariant .escapedScript → P.Keeps (Action.fault f : Action α)
  raise : ∀ {α : Type} kind message, P.Keeps (Action.raise kind message : Action α)
  log : ∀ line, P.asks (.log line) → P.Keeps (Action.log line)
  /-- The engine's own functions raise errors. -/
  raises : ∀ kind message, P.asks (.raise kind message)
  interrupt : P.Keeps Action.interrupt
  newSymbol : ∀ description, P.Keeps (Action.newSymbol description)
  /-- What is found to be callable may be called. -/
  callable : ∀ {α : Type} (o : ObjectRef) (next : Option Callable → Action α),
    P.Keeps (next none) → (∀ f, P.Admissible f → P.Keeps (next (some f))) →
    P.Keeps (do next (← Action.object o).callable)
  depth : ∀ {α : Type} (m m' : Action α), P.Keeps m → P.Keeps m' → P.Keeps (do
    let state ← get
    if state.options.maxCallDepth ≤ state.callDepth then m else m')
  /-- A call counts itself while it runs. -/
  counted : ∀ {α : Type} (m : Action α), P.Keeps m → P.Keeps (do
    Function.enterDepth
    let result ← Action.attempt m
    Function.leaveDepth
    Action.ofExcept result)
  program : ∀ eng,
    (∀ request : Request, request.Honours P.host → P.Permits request →
      P.Keeps (Host.perform eng request)) →
    ∀ {α : Type} (program : HostProgram α), program.Honours P.host → program.Asks P.Permits →
      P.Keeps (Host.run eng program)
  finish : ∀ c, P.Keeps (Function.finish c)
  handle : ∀ {α : Type} {Γ : Set Fact} {m : Action α} {Φ : α → Set Fact}
    (next : Except Failure α → Execution Completion), P.Holds Γ m Φ →
    (∀ a, (∃ σ τ, m.run σ = (.ok a, τ)) → P.Executes (Φ a) (next (.ok a))) →
    (∀ e, Statement.Recovers e (next (.error e))) → P.Executes Γ (Execution.ofAction m >>= next)
  forget : P.Executes ∅ Statement.forget
  takeInterrupt : P.Executes ∅ (modifyGet State.takeInterrupt)

/-- The laws of new objects and cells. -/
structure Creation (P : Policy) : Prop where
  newCell : ∀ r, P.asks (.newCell r) → P.Keeps (Action.newCell r)
  newObject : ∀ c prototype, P.Keeps (Action.newObject c prototype)
  newError : ∀ kind message, P.Keeps (Action.newError kind message)
  wrap : ∀ c prototype v, P.Keeps (Conversion.wrap c prototype v)
  createUnmapped : ∀ args, P.Keeps (Arguments.createUnmapped args)
  createMapped : ∀ callee params args s,
    P.Holds {.holder s} (Arguments.createMapped callee params args s) fun _ ↦ ∅
  instantiate : ∀ {f}, P.Admits (Tree.placedFunction f) → ∀ s name,
    P.Keeps (Function.instantiate f s name)

/-- The laws of scopes.  Variables of an object are properties of it. -/
structure Scopes (P : Policy) : Prop where
  newBlockScope : ∀ outer, P.Holds ∅ (Action.newBlockScope outer) fun s ↦ {.holder s}
  newFunctionScope : ∀ outer this strict,
    P.Holds ∅ (Action.newFunctionScope outer this strict) fun s ↦ {.holder s}
  newObjectScope : ∀ o isWith outer, P.Keeps (Action.newObjectScope o isWith outer)
  createMutable : ∀ eng s name, (∀ o, P.Keeps (Scope.objectCreate eng o name false)) →
    P.Holds {.holder s} (Scope.createMutable eng s name false) fun _ ↦ {.declared s name}
  createImmutable : ∀ s name strict,
    P.Holds {.holder s} (Scope.createImmutable s name strict) fun _ ↦ {.declared s name}
  initialise : ∀ eng s name v, (∀ o, P.Keeps (Scope.objectSet eng o name v false)) →
    P.Holds {.declared s name} (Scope.initialise eng s name v) fun _ ↦ ∅
  set : ∀ eng s name v strict, (∀ o, P.Keeps (Scope.objectSet eng o name v strict)) →
    P.Keeps (Scope.set eng s name v strict)
  delete : ∀ s name, (∀ o, P.Keeps (Object.delete o (Scope.keyOf name))) →
    P.Keeps (Scope.delete s name)
  modifyVarNames : ∀ s f, P.Holds {.holder s} (Scope.modifyVarNames s f) fun _ ↦ ∅

/-- The laws of the operations on the properties of one object. -/
structure Properties (P : Policy) : Prop where
  getOwn : ∀ eng, P.Serves eng → ∀ o k, P.Keeps (Object.getOwn eng o k)
  define : ∀ eng, P.Serves eng → ∀ o k patch, P.host.Patches patch →
    P.Keeps (Object.define eng o k patch)
  delete : ∀ o k, P.Keeps (Object.delete o k)
  setPrototype : ∀ o prototype, P.Keeps (Object.setPrototype o prototype)
  preventExtensions : ∀ o, P.Keeps (Object.preventExtensions o)

structure Lawful (P : Policy) : Prop where
  basics : P.Basics
  creation : P.Creation
  scopes : P.Scopes
  properties : P.Properties

/-- An engine under a lawful policy whose operations are of the kind. -/
structure Governs (P : Policy) (eng : Engine) : Prop extends P.Lawful, P.Serves eng

/-! ## Putting actions together -/

section Combinators

variable {P : Policy} {Γ : Set Fact} {Φ : α → Set Fact} {Ψ : β → Set Fact}

theorem Holds.of_subset {m : Action α} {Γ' : Set Fact} (hm : P.Holds Γ m Φ) (hΓ : Γ ⊆ Γ') :
    P.Holds Γ' m Φ :=
  P.mono hΓ (fun _ ↦ subset_rfl) hm

theorem Holds.weaken {m : Action α} {Γ' : Set Fact} {Φ' : α → Set Fact} (hm : P.Holds Γ m Φ)
    (hΓ : Γ ⊆ Γ') (hΦ : ∀ a, Φ' a ⊆ Γ' ∪ Φ a) : P.Holds Γ' m Φ' :=
  P.mono subset_rfl hΦ (P.persist (hm.of_subset hΓ))

/-- What is known at first is known in between. -/
theorem Holds.bind {m : Action α} {f : α → Action β} (hm : P.Holds Γ m Φ)
    (hf : ∀ a, P.Holds (Γ ∪ Φ a) (f a) Ψ) : P.Holds Γ (m >>= f) Ψ :=
  P.holds_bind (P.persist hm) hf

theorem Keeps.holds {m : Action α} (hm : P.Keeps m) (Γ : Set Fact) : P.Holds Γ m fun _ ↦ Γ :=
  P.mono subset_rfl (fun _ ↦ Set.subset_union_left)
    (P.persist (Holds.of_subset hm (Set.empty_subset Γ)))

theorem Keeps.bind_holds {m : Action α} {f : α → Action β} (hm : P.Keeps m)
    (hf : ∀ a, P.Holds Γ (f a) Ψ) : P.Holds Γ (m >>= f) Ψ :=
  P.holds_bind (hm.holds Γ) hf

theorem Keeps.bind {m : Action α} {f : α → Action β} (hm : P.Keeps m)
    (hf : ∀ a, P.Keeps (f a)) : P.Keeps (m >>= f) :=
  P.holds_bind hm hf

theorem holds_pure_of_subset {a : α} (h : Φ a ⊆ Γ) : P.Holds Γ (pure a) Φ :=
  (P.holds_pure a Φ).of_subset h

theorem keeps_pure (a : α) : P.Keeps (pure a) := P.holds_pure a fun _ ↦ ∅

theorem Keeps.map {m : Action α} (hm : P.Keeps m) (f : α → β) : P.Keeps (f <$> m) := by
  rw [← bind_pure_comp]
  exact hm.bind fun a ↦ keeps_pure (f a)

theorem Keeps.discard {m : Action α} (hm : P.Keeps m) : P.Keeps (discard m) := hm.map _

theorem keeps_ite {c : Prop} [Decidable c] {m m' : Action α} (hm : P.Keeps m)
    (hm' : P.Keeps m') : P.Keeps (if c then m else m') := by
  split
  · exact hm
  · exact hm'

end Combinators

/-! ## Putting executions together -/

section Executions

variable {P : Policy} {Γ : Set Fact}

theorem run_ofExecution (m : Execution α) (σ : State) :
    (Action.ofExecution m).run σ =
      match m.run σ with
      | (.ok a, σ') => (.ok a, σ')
      | (.error f, σ') => (.error (.fault f), σ') := rfl

theorem run_ofAction_bind (m : Action α) (next : Except Failure α → Execution β) (σ : State) :
    (Action.ofExecution (Execution.ofAction m >>= next)).run σ =
      (Action.ofExecution (next (m.run σ).1)).run (m.run σ).2 := rfl

theorem ofExecution_bind (m : Execution α) (f : α → Execution β) :
    Action.ofExecution (m >>= f) = Action.ofExecution m >>= fun a ↦ Action.ofExecution (f a) := by
  funext σ
  change (Action.ofExecution (m >>= f)).run σ = Action.run _ σ
  rw [Action.run_bind, run_ofExecution, run_ofExecution, Execution.run_bind]
  rcases m.run σ with ⟨_ | a, σ₁⟩ <;> rfl

theorem executes_pure (a : α) : P.Executes Γ (pure a) :=
  holds_pure_of_subset (Set.empty_subset Γ)

theorem Executes.of_subset {m : Execution α} {Γ' : Set Fact} (hm : P.Executes Γ m) (hΓ : Γ ⊆ Γ') :
    P.Executes Γ' m :=
  Holds.of_subset hm hΓ

theorem Executes.bind {m : Execution α} {f : α → Execution β} (hm : P.Executes Γ m)
    (hf : ∀ a, P.Executes Γ (f a)) : P.Executes Γ (m >>= f) := by
  unfold Executes
  rw [ofExecution_bind]
  exact Holds.bind hm fun a ↦ Holds.of_subset (hf a) Set.subset_union_left

end Executions

namespace Basics

variable {P : Policy} {Γ : Set Fact} (hP : P.Basics)

include hP

theorem executes_fault {f : Fault} (hcreated : f ≠ .invariant .bindingNeverCreated)
    (hescaped : f ≠ .invariant .escapedScript) : P.Executes Γ (throw f : Execution α) :=
  Holds.of_subset (hP.fault f hcreated hescaped) (Set.empty_subset Γ)

theorem executes_attempt {m : Action α} {Φ : α → Set Fact} (hm : P.Holds Γ m Φ)
    (location : Location) {next : α → Execution Completion}
    (hnext : ∀ a, P.Executes (Γ ∪ Φ a) (next a)) :
    P.Executes Γ (Statement.attempt m location next) := by
  refine hP.handle _ (P.persist hm) (fun a _ ↦ hnext a) fun e ↦ ?_
  exact .report location

theorem executes_attempt_keeps {m : Action α} (hm : P.Keeps m) (location : Location)
    {next : α → Execution Completion} (hnext : ∀ a, P.Executes Γ (next a)) :
    P.Executes Γ (Statement.attempt m location next) :=
  hP.executes_attempt (hm.holds Γ) location fun a ↦ (hnext a).of_subset Set.subset_union_left

/-! ### Reads and new things -/

theorem keeps_heap : P.Keeps Action.heap := hP.read _ (fun h _ _ ↦ h) fun _ ↦ rfl

theorem keeps_realm : P.Keeps Action.realm := hP.read _ (fun _ r _ ↦ r) fun _ ↦ rfl

theorem keeps_object (o : ObjectRef) : P.Keeps (Action.object o) :=
  hP.read _ (fun h _ _ ↦ h.object o) fun _ ↦ rfl

theorem keeps_scope (s : ScopeRef) : P.Keeps (Action.scope s) :=
  hP.read _ (fun h _ _ ↦ h.scope s) fun _ ↦ rfl

theorem keeps_display (v : Value) : P.Keeps (Action.display v) :=
  hP.read _ (fun h _ _ ↦ h.display v) fun _ ↦ rfl

theorem keeps_isCallable (v : Value) : P.Keeps (Action.isCallable v) :=
  hP.read _ (fun h _ _ ↦ h.isCallable v) fun _ ↦ rfl

theorem keeps_outOfFuel : P.Keeps (Action.fault .outOfFuel : Action α) :=
  hP.fault _ nofun nofun

theorem executes_outOfFuel : P.Executes Γ (throw .outOfFuel : Execution α) :=
  hP.executes_fault nofun nofun

theorem keeps_throwNew (e : ScriptError) : P.Keeps (Action.throwNew e : Action α) :=
  hP.raise e.kind e.message

end Basics

namespace Lawful

variable {P : Policy} (hP : P.Lawful)

include hP

theorem keeps_newPlainObject : P.Keeps Action.newPlainObject :=
  hP.basics.keeps_realm.bind fun _ ↦ hP.creation.newObject _ _

theorem keeps_toObject (v : Value) : P.Keeps (Conversion.toObject v) := by
  refine hP.basics.keeps_realm.bind fun realm ↦ ?_
  split
  · exact keeps_pure _
  · exact (hP.basics.keeps_display _).bind fun _ ↦ hP.basics.keeps_throwNew _
  · exact (hP.basics.keeps_display _).bind fun _ ↦ hP.basics.keeps_throwNew _
  · exact hP.creation.wrap _ _ _
  · exact hP.creation.wrap _ _ _
  · exact hP.creation.wrap _ _ _
  · exact hP.creation.wrap _ _ _

end Lawful

end Policy

end Ecma
