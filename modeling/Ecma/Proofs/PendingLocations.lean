import Ecma.Proofs.OwnPropertyRuns
import Ecma.Proofs.Policy.Callables
import Ecma.Proofs.Policy.Laws
import Ecma.Proofs.Policy.Statements
import Ecma.Proofs.ScopeEvolution

/-!
# No place of a throw is left behind

A call that ends in a throw leaves the place of the throw in the state, for the
statement that reports it.  Whatever happens to the throw then, the place is
taken or forgotten: from a state without one, only an action that is itself
ending in a throw can leave one.  A function of the host that catches what a
call back into the engine throws could keep one, so the host is asked not to
call back.
-/

namespace Ecma

/-! ## Host functions that do not call back -/

/-- The request is answered without running any code. -/
def Request.IsDirect : Request → Prop
  | .toPropertyKey _ | .toText _ | .toPrimitive _ _ | .toNumber _ | .looselyEqual _ _
  | .lessThan _ _ _ | .enumerableKeys _ | .getOwn _ _ | .get _ _ _ | .set _ _ _ _ | .define _ _ _
  | .createData _ _ _ | .hasVariable _ _ | .getVariable _ _ _ | .setVariable _ _ _ _ | .call _ _ _
  | .construct _ _ | .evaluate _ _ | .execute _ _ => False
  | _ => True

/-- If the callable belongs to the host, it does not call back. -/
def Callable.IsDirect : Callable → Prop
  | .closure _ _ _ => True
  | .native _ _ run => ∀ this args, (run this args).Asks Request.IsDirect

def Heap.HasDirectHost (h : Heap) : Prop := h.AllCallable Callable.IsDirect

/-- To delete is to answer. -/
theorem Object.exists_run_delete (o : ObjectRef) (k : PropertyKey) (σ : State) :
    ∃ b τ, (Object.delete o k).run σ = (.ok b, τ) := by
  rw [Object.run_delete]
  split
  · exact ⟨_, _, rfl⟩
  · split <;> exact ⟨_, _, rfl⟩

theorem Scope.exists_run_delete (s : ScopeRef) (name : String) (σ : State) :
    ∃ b τ, (Scope.delete s name).run σ = (.ok b, τ) := by
  rw [Scope.delete, Action.run_bind, Action.run_scope]
  dsimp only
  split
  · exact ⟨_, _, rfl⟩
  · exact Object.exists_run_delete _ _ σ
  · split
    · exact ⟨_, _, rfl⟩
    · rw [Action.run_bind, Action.run_heap]
      dsimp only
      split
      · obtain ⟨b, τ, hdelete⟩ := Object.exists_run_delete _ (keyOf name) σ
        rw [Action.run_bind, hdelete]
        cases b <;> exact ⟨_, _, rfl⟩
      · exact ⟨_, _, rfl⟩

/-- What is thrown on such a request is a new error, which has no place. -/
theorem Host.throwLocation_perform {eng : Engine} {request : Request} (hrequest : request.IsDirect)
    {σ τ : State} {v : Value} (hrun : (perform eng request).run σ = (.error (.thrown v), τ)) :
    τ.throwLocation = none := by
  have hwrap (c : ObjectClass) (prototype : ObjectRef) (w : Value) :
      (Conversion.wrap c prototype w).run σ ≠ (.error (.thrown v), τ) := by
    obtain ⟨o, σ', hok, -⟩ := Conversion.allocates_wrap (H := ⟨fun _ ↦ True, fun _ ↦ True⟩)
      c prototype w σ (Heap.grows_refl σ.heap)
    rw [hok]
    nofun
  cases request with
  | raise kind message =>
      cases hrun
      rfl
  | toObject w =>
      cases w with
      | undefined =>
          cases hrun
          rfl
      | null =>
          cases hrun
          rfl
      | object o => cases hrun
      | boolean b => exact absurd hrun (hwrap .boolean σ.realm.booleanPrototype (.boolean b))
      | number x => exact absurd hrun (hwrap .number σ.realm.numberPrototype (.number x))
      | string t => exact absurd hrun (hwrap .string σ.realm.stringPrototype (.string t))
      | symbol s => exact absurd hrun (hwrap .symbol σ.realm.symbolPrototype (.symbol s))
  | setPrototypeOf o prototype =>
      unfold perform Object.setPrototype at hrun
      change Action.run (if _ then _ else if _ then _ else if _ then _ else _) σ = _ at hrun
      split at hrun
      · cases hrun
      · split at hrun
        · cases hrun
        · split at hrun <;> cases hrun
  | delete o k =>
      obtain ⟨b, σ', hok⟩ := Object.exists_run_delete o k σ
      cases hok.symm.trans hrun
  | deleteVariable s name =>
      obtain ⟨b, σ', hok⟩ := Scope.exists_run_delete s name σ
      cases hok.symm.trans hrun
  | log line | display w | interrupt | newSymbol description | newObject prototype | newCell r
  | prototypeOf o | preventExtensions o | isExtensible o | ownKeys o | hasProperty o k =>
      cases hrun
  | _ => exact hrequest.elim

/-! ## Actions that leave no place -/

/-- The host does not call back, and there is a place only after a throw. -/
structure EndsClean {α : Type} (r : Except Failure α × State) : Prop where
  host : r.2.heap.HasDirectHost
  clean : (∀ v, r.1 ≠ .error (.thrown v)) → r.2.throwLocation = none

/-- From a state without a place, the action leaves one only by a throw. -/
def LeavesClean {α : Type} (m : Action α) : Prop :=
  ∀ σ, σ.heap.HasDirectHost → σ.throwLocation = none → EndsClean (m.run σ)

namespace LeavesClean

variable {α β : Type}

theorem of_run {m : Action α} (hhost : ∀ σ, σ.heap.HasDirectHost → (m.run σ).2.heap.HasDirectHost)
    (hlocation : ∀ σ, (m.run σ).2.throwLocation = σ.throwLocation) : LeavesClean m :=
  fun σ hσ hnone ↦ ⟨hhost σ hσ, fun _ ↦ (hlocation σ).trans hnone⟩

theorem of_heap_eq {m : Action α} (hheap : ∀ σ, (m.run σ).2.heap = σ.heap)
    (hlocation : ∀ σ, (m.run σ).2.throwLocation = σ.throwLocation) : LeavesClean m :=
  of_run (fun σ hσ ↦ (hheap σ).symm ▸ hσ) hlocation

theorem of_onHeap (f : Heap → α × Heap)
    (hf : ∀ h : Heap, h.HasDirectHost → (f h).2.HasDirectHost) : LeavesClean (Action.onHeap f) :=
  of_run (fun σ hσ ↦ hf σ.heap hσ) fun _ ↦ rfl

theorem pure (a : α) : LeavesClean (pure a : Action α) := of_heap_eq (fun _ ↦ rfl) fun _ ↦ rfl

theorem fail (e : Failure) : LeavesClean (throw e : Action α) :=
  of_heap_eq (fun _ ↦ rfl) fun _ ↦ rfl

theorem bind {m : Action α} {f : α → Action β} (hm : LeavesClean m) (hf : ∀ a, LeavesClean (f a)) :
    LeavesClean (m >>= f) := by
  intro σ hσ hnone
  have hfirst := hm σ hσ hnone
  rw [Action.run_bind]
  rcases hrun : m.run σ with ⟨e | a, σ₁⟩
  · rw [hrun] at hfirst
    refine ⟨hfirst.host, fun he ↦ hfirst.clean fun v hv ↦ he v ?_⟩
    rw [Except.error.inj hv]
  · rw [hrun] at hfirst
    exact hf a σ₁ hfirst.host (hfirst.clean nofun)

/-- An action whose end is left to the caller: after a throw there may be a place. -/
theorem then_ok {m : Action α} (hm : LeavesClean m) {σ τ : State} (hσ : σ.heap.HasDirectHost)
    (hnone : σ.throwLocation = none) {a : α} (hrun : m.run σ = (.ok a, τ)) :
    τ.throwLocation = none := by
  have hclean := (hm σ hσ hnone).clean
  rw [hrun] at hclean
  exact hclean nofun

end LeavesClean

def noPlaceLeft : Policy where
  host := ⟨fun _ ↦ True, fun _ ↦ True⟩
  asks := Request.IsDirect
  demands := False
  Holds _ m _ := LeavesClean m
  holds_pure a _ := .pure a
  holds_bind := LeavesClean.bind
  mono _ _ hm := hm
  persist hm := hm
  idle _ _ _ hm := hm

namespace noPlaceLeft

open LeavesClean

variable {α : Type}

theorem admissible_iff {f : Callable} : noPlaceLeft.Admissible f ↔ f.IsDirect := by
  cases f with
  | closure f s strict => exact ⟨fun _ ↦ trivial, fun _ ↦ False.elim⟩
  | native name arity run =>
      unfold Policy.Admissible
      rw [Policy.permits_eq_asks id]
      refine forall₂_congr fun this args ↦ and_iff_right ?_
      exact (run this args).honours_of_forall (fun _ ↦ trivial) fun _ ↦ trivial

/-! ## Failures and host programs -/

theorem leaves_raise (kind : ErrorKind) (message : String) :
    LeavesClean (Action.raise kind message : Action α) := by
  intro σ hσ _
  rw [Action.run_raise]
  refine ⟨?_, fun _ ↦ rfl⟩
  refine Heap.AllCallable.modifyObject ?_ _ fun data ↦ data.callable_store _ _
  exact Heap.AllCallable.addObject hσ nofun

theorem leaves_log (line : String) : LeavesClean (Action.log line) :=
  of_heap_eq (fun _ ↦ rfl) fun _ ↦ rfl

/-- No request of the program leaves a place, not even one that is answered by a
throw, so the program may do with the reply what it likes. -/
theorem leaves_program {eng : Engine}
    (hperform : ∀ request : Request, request.IsDirect → LeavesClean (Host.perform eng request))
    {program : HostProgram α} (hprogram : program.Asks Request.IsDirect) :
    LeavesClean (Host.run eng program) := by
  induction program with
  | done result => exact of_heap_eq (fun _ ↦ rfl) fun _ ↦ rfl
  | perform request next ih =>
      obtain ⟨hrequest, hnext⟩ := hprogram
      intro σ hσ hnone
      have hfirst := hperform request hrequest σ hσ hnone
      have hafter : ((Host.perform eng request).run σ).2.throwLocation = none := by
        rcases hrun : (Host.perform eng request).run σ with ⟨r, τ⟩
        rw [hrun] at hfirst
        by_cases hthrown : ∃ v, r = .error (.thrown v)
        · obtain ⟨v, rfl⟩ := hthrown
          exact Host.throwLocation_perform hrequest hrun
        · exact hfirst.clean fun v hv ↦ hthrown ⟨v, hv⟩
      rw [Host.run, Action.run_bind, Action.run_attempt]
      dsimp only
      split
      · exact fail _ _ hfirst.host hafter
      · exact ih _ (hnext _) _ hfirst.host hafter

/-! ## Executions -/

/-- Whatever is made of a failure, its place is taken or forgotten. -/
theorem endsClean_recovers {e : Failure} {m : Execution Completion}
    (hm : Statement.Recovers e m) {σ : State} (hσ : σ.heap.HasDirectHost)
    (hnone : (∀ v, e ≠ .thrown v) → σ.throwLocation = none) :
    EndsClean ((Action.ofExecution m).run σ) := by
  cases hm with
  | report location =>
      cases e with
      | thrown v => exact ⟨hσ, fun _ ↦ rfl⟩
      | uncaught v l => exact ⟨hσ, fun _ ↦ hnone nofun⟩
      | fault f => exact ⟨hσ, fun _ ↦ hnone nofun⟩
  | drop c => exact ⟨hσ, fun _ ↦ rfl⟩

theorem executes_handle {m : Action α} (next : Except Failure α → Execution Completion)
    (hm : LeavesClean m)
    (hok : ∀ a, (∃ σ τ, m.run σ = (.ok a, τ)) → LeavesClean (Action.ofExecution (next (.ok a))))
    (herror : ∀ e, Statement.Recovers e (next (.error e))) :
    LeavesClean (Action.ofExecution (Execution.ofAction m >>= next)) := by
  intro σ hσ hnone
  have hfirst := hm σ hσ hnone
  rw [Policy.run_ofAction_bind]
  rcases hrun : m.run σ with ⟨e | a, τ⟩
  · rw [hrun] at hfirst
    refine endsClean_recovers (herror e) hfirst.host fun he ↦ hfirst.clean fun v hv ↦ ?_
    exact he v (Except.error.inj hv)
  · rw [hrun] at hfirst
    exact hok a ⟨σ, τ, hrun⟩ τ hfirst.host (hfirst.clean nofun)

theorem executes_takeInterrupt :
    LeavesClean (Action.ofExecution (modifyGet State.takeInterrupt)) := by
  refine of_heap_eq (fun σ ↦ ?_) fun σ ↦ ?_
  · change σ.takeInterrupt.2.heap = _
    unfold State.takeInterrupt
    split <;> rfl
  · change σ.takeInterrupt.2.throwLocation = _
    unfold State.takeInterrupt
    split <;> rfl

/-! ## Laws -/

/-- A function that ends in a throw leaves the place, and throws. -/
theorem leaves_finish (c : Completion) : LeavesClean (Function.finish c) := by
  cases c with
  | normal v => exact .pure _
  | «return» v l => exact .pure _
  | throw v l => exact fun σ hσ _ ↦ ⟨hσ, fun hthrown ↦ absurd rfl (hthrown v)⟩
  | «break» label v l => exact fail _
  | «continue» label v l => exact fail _

theorem basics : noPlaceLeft.Basics where
  patches _ _ := trivial
  read m f hrun := of_heap_eq (fun σ ↦ by rw [hrun]) fun σ ↦ by rw [hrun]
  fault _ _ _ := fail _
  raise := leaves_raise
  log line _ := leaves_log line
  raises _ _ := trivial
  interrupt := of_heap_eq (fun _ ↦ rfl) fun _ ↦ rfl
  newSymbol _ := of_heap_eq (fun _ ↦ rfl) fun _ ↦ rfl
  callable o next hnone hsome := by
    intro σ hσ hlocation
    change EndsClean ((next (σ.heap.object o).callable).run σ)
    cases hcallable : (σ.heap.object o).callable with
    | none => exact hnone σ hσ hlocation
    | some f => exact hsome f (admissible_iff.2 (hσ o f hcallable)) σ hσ hlocation
  depth m m' hm hm' := by
    intro σ hσ hnone
    change EndsClean ((if σ.options.maxCallDepth ≤ σ.callDepth then m else m').run σ)
    split
    · exact hm σ hσ hnone
    · exact hm' σ hσ hnone
  counted m hm := by
    intro σ hσ hnone
    obtain ⟨hhost, hclean⟩ := hm { σ with callDepth := σ.callDepth + 1 } hσ hnone
    exact ⟨hhost, hclean⟩
  program _ hperform _ _ _ hpermits := by
    rw [Policy.permits_eq_asks id] at hperform hpermits
    refine leaves_program (fun request hrequest ↦ hperform request ?_ hrequest) hpermits
    cases request <;> trivial
  finish := leaves_finish
  handle := executes_handle
  forget _ hσ _ := ⟨hσ, fun _ ↦ rfl⟩
  takeInterrupt := executes_takeInterrupt

theorem loose : noPlaceLeft.Loose where
  basics := basics
  free hm := hm
  neverCreated := fail _
  addScope data := of_onHeap (·.addScope data) fun _ hh ↦ hh.of_objects rfl
  modifyScope s f := of_onHeap (((), ·.modifyScope s f)) fun _ hh ↦ hh.of_objects rfl

/-- A resolver reads through an interpreter of its own, whose place is its own. -/
theorem leaves_readApart {eng : Engine} (heng : noPlaceLeft.Serves eng) (o : ObjectRef)
    (k : PropertyKey) : LeavesClean (Lazy.readApart eng o k) := by
  intro σ hσ hnone
  have hbeside : σ.beside.heap.HasDirectHost := Heap.AllCallable.build hσ (fun _ _ ↦ trivial) _
  have hinner := heng.get o k (.object o) σ.beside hbeside rfl
  rw [Lazy.run_readApart]
  exact basics.keeps_report leaves_log _ _ _ hinner.host hnone

theorem lax : noPlaceLeft.Lax where
  basics := basics
  newCell r _ := of_onHeap (·.addCell (.unresolved r)) fun _ hh ↦ hh.of_objects rfl
  constant _ := trivial
  addObject data hdata := of_onHeap (·.addObject data) fun _ hh ↦
    hh.addObject fun f hf ↦ admissible_iff.1 (hdata f hf)
  modifyObject o g hg := of_onHeap (((), ·.modifyObject o g)) fun _ hh ↦ hh.modifyObject o hg
  storeBound s name v := of_onHeap (((), ·.storeBound s name v)) fun _ hh ↦ hh.of_objects rfl
  resolve _ heng := basics.keeps_resolve leaves_log
    (fun c data ↦ of_onHeap (((), ·.setCell c data)) fun _ hh ↦ hh.of_objects rfl)
    (leaves_readApart heng)

theorem governs (n : Nat) : noPlaceLeft.Governs (.level n) :=
  Policy.Lawful.governs_level ⟨basics, lax.creation, loose.scopes, lax.properties⟩ n

end noPlaceLeft

/-! ## Statements and evaluations -/

/-- What is evaluated, called, read, written or converted. -/
inductive Engine.Evaluation (eng : Engine) : {α : Type} → Action α → Prop where
  | eval (e : Expression) (s : ScopeRef) : Evaluation eng (Expression.eval eng e s)
  | call (f this : Value) (args : List Value) : Evaluation eng (Function.call eng f this args)
  | construct (f : Value) (args : List Value) : Evaluation eng (Function.construct eng f args)
  | get (o : ObjectRef) (k : PropertyKey) (receiver : Value) :
      Evaluation eng (Object.get eng o k receiver)
  | set (o : ObjectRef) (k : PropertyKey) (v receiver : Value) :
      Evaluation eng (Object.set eng o k v receiver)
  | coercion {α : Type} {m : Action α} (hm : Coercion eng m) : Evaluation eng m

theorem Engine.Evaluation.leavesClean {n : Nat} {α : Type} {m : Action α}
    (hm : Evaluation (.level n) m) : LeavesClean m := by
  have hG := noPlaceLeft.governs n
  cases hm with
  | eval e s => exact hG.keeps_eval False.elim s
  | call f this args => exact hG.keeps_call f this args
  | construct f args => exact hG.keeps_construct f args
  | get o k receiver => exact hG.keeps_get o k receiver
  | set o k v receiver => exact hG.keeps_set o k v receiver
  | coercion hm => exact hG.keeps_coercion hm

theorem Statement.leavesClean_exec (n : Nat) (stmt : Statement) (s : ScopeRef)
    (labels : List String) : LeavesClean (Action.ofExecution (exec (.level n) stmt s labels)) :=
  (noPlaceLeft.governs n).executes_exec False.elim s labels

/-- From a state without a place of a throw, a statement that completes, in whatever
way, and an evaluation that succeeds leave none. -/
theorem no_throwLocation_survives (n : Nat) (σ : State) (hσ : σ.heap.HasDirectHost)
    (hnone : σ.throwLocation = none) :
    (∀ stmt s labels c τ, (Statement.exec (.level n) stmt s labels).run σ = (.ok c, τ) →
      τ.throwLocation = none) ∧
    ∀ (α : Type) (m : Action α), Engine.Evaluation (.level n) m → ∀ a τ, m.run σ = (.ok a, τ) →
      τ.throwLocation = none := by
  refine ⟨fun stmt s labels c τ hrun ↦ ?_, fun α m hm a τ hrun ↦ ?_⟩
  · refine (Statement.leavesClean_exec n stmt s labels).then_ok hσ hnone (a := c) ?_
    rw [Policy.run_ofExecution, hrun]
  · exact hm.leavesClean.then_ok hσ hnone hrun

/-- A function throws, which leaves the place, and its caller catches. -/
theorem no_throwLocation_survives_caught :
    let σ := State.initial .standard
    let s := σ.realm.globalScope
    let thrower : FunctionNode := .mk none [] [.mk ⟨2, 3⟩ (.throw (.boolean true))] false
    let call : Expression := .call (.function thrower) []
    let caught : Statement :=
      .mk ⟨1, 1⟩ (.try [.mk ⟨1, 7⟩ (.expression call)] (some (.mk none [])) none)
    let run := (Statement.exec (.level 9) caught s []).run σ
    σ.heap.HasDirectHost ∧ σ.throwLocation = none ∧
      ((Expression.eval (.level 9) call s).run σ).2.throwLocation = some ⟨2, 3⟩ ∧
      run.1.isOk = true ∧ run.2.throwLocation = none := by
  intro σ s thrower call caught run
  have hσ : σ.heap.HasDirectHost := Heap.allCallable_empty.build (fun _ _ ↦ trivial) _
  have hok : run.1.isOk = true := by decide +kernel
  have hplace : ((Expression.eval (.level 9) call s).run σ).2.throwLocation = some ⟨2, 3⟩ := by
    decide +kernel
  have hexec : ∀ c τ, run = (.ok c, τ) → τ.throwLocation = none :=
    (no_throwLocation_survives 9 σ hσ rfl).1 caught s []
  refine ⟨hσ, rfl, hplace, hok, ?_⟩
  clear_value run
  rcases run with ⟨f | c, τ⟩
  · cases hok
  · exact hexec c τ rfl

end Ecma
