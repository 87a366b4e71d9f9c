import Ecma.Host.Library
import Ecma.Proofs.Policy.Callables
import Ecma.Proofs.Policy.Laws
import Ecma.Proofs.Policy.Statements

/-!
# Throw locations of earlier runs

A script reports an uncaught value with the place where it was thrown.  The
place comes from the state, where the call that ended in the throw has left it,
and the state may still have one from before the script.  Two runs that differ
only in that end alike, as long as every throw sets the place anew: all throws
of the engine do, and so do the errors that the host raises.  A value that the
host throws by itself does not.
-/

namespace Ecma

/-- The states differ in nothing but the place of the last throw. -/
def State.Alike (σ τ : State) : Prop := ∃ l, τ = { σ with throwLocation := l }

/-- Host programs that throw nothing by themselves: they raise errors, and pass
on what is thrown to them. -/
def raisingHost : HostContract := ⟨fun e ↦ ∀ v, e ≠ .thrown v, fun _ ↦ True⟩

/-- The functions of the host in the heap keep to the contract. -/
def Heap.HasRaisingHost (h : Heap) : Prop := h.AllCallable (·.Honours raisingHost)

/-! ## Two runs at once -/

/-- Two runs end alike, and after a throw in the very same state. -/
structure EndAlike {α : Type} (r r' : Except Failure α × State) : Prop where
  result : r'.1 = r.1
  alike : r.2.Alike r'.2
  thrown : ∀ v, r.1 = .error (.thrown v) → r'.2 = r.2
  host : r.2.heap.HasRaisingHost

/-- The action does not look at the place of the last throw, and sets it if it
ends in a throw itself. -/
def IgnoresLocation {α : Type} (m : Action α) : Prop :=
  ∀ σ τ, σ.heap.HasRaisingHost → σ.Alike τ → EndAlike (m.run σ) (m.run τ)

namespace IgnoresLocation

variable {α β : Type}

/-- An action that does not fail. -/
theorem of_run_eq {m : Action α} (a : State → α) (f : State → State)
    (hrun : ∀ σ, m.run σ = (.ok (a σ), f σ))
    (ha : ∀ σ l, a { σ with throwLocation := l } = a σ)
    (hf : ∀ σ l, (f σ).Alike (f { σ with throwLocation := l }))
    (hhost : ∀ σ, σ.heap.HasRaisingHost → (f σ).heap.HasRaisingHost) : IgnoresLocation m := by
  rintro σ _ hσ ⟨l, rfl⟩
  rw [hrun, hrun]
  exact ⟨by rw [ha], hf σ l, nofun, hhost σ hσ⟩

theorem of_modifyHeap (f : Heap → α × Heap)
    (hf : ∀ h : Heap, h.HasRaisingHost → (f h).2.HasRaisingHost) :
    IgnoresLocation (Action.onHeap f) :=
  of_run_eq (fun σ ↦ (f σ.heap).1) (fun σ ↦ { σ with heap := (f σ.heap).2 }) (fun _ ↦ rfl)
    (fun _ _ ↦ rfl) (fun _ l ↦ ⟨l, rfl⟩) fun σ hσ ↦ hf σ.heap hσ

/-- A failure that is no throw. -/
theorem of_throw {e : Failure} (he : ∀ v, e ≠ .thrown v) :
    IgnoresLocation (throw e : Action α) := by
  rintro σ _ hσ ⟨l, rfl⟩
  refine ⟨rfl, ⟨l, rfl⟩, fun v hv ↦ ?_, hσ⟩
  exact absurd (Except.error.inj hv) (he v)

/-- A throw from a state that does not depend on the place. -/
theorem of_run_eq_run {m : Action α}
    (hrun : ∀ σ l, m.run { σ with throwLocation := l } = m.run σ)
    (hhost : ∀ σ, σ.heap.HasRaisingHost → (m.run σ).2.heap.HasRaisingHost) :
    IgnoresLocation m := by
  rintro σ _ hσ ⟨l, rfl⟩
  rw [hrun σ l]
  exact ⟨rfl, ⟨_, rfl⟩, fun _ _ ↦ rfl, hhost σ hσ⟩

theorem pure (a : α) : IgnoresLocation (pure a : Action α) :=
  of_run_eq (fun _ ↦ a) id (fun _ ↦ rfl) (fun _ _ ↦ rfl) (fun _ l ↦ ⟨l, rfl⟩) fun _ hσ ↦ hσ

theorem bind {m : Action α} {f : α → Action β} (hm : IgnoresLocation m)
    (hf : ∀ a, IgnoresLocation (f a)) : IgnoresLocation (m >>= f) := by
  intro σ τ hσ hτ
  obtain ⟨hresult, halike, hthrown, hhost⟩ := hm σ τ hσ hτ
  rw [Action.run_bind, Action.run_bind]
  -- Both runs of the first part have one result, so one split serves the two.
  rcases hrun : m.run σ with ⟨e | a, σ₁⟩
  all_goals
    rcases hrun' : m.run τ with ⟨r, τ₁⟩
    rw [hrun, hrun'] at hresult halike hthrown
    rw [hrun] at hhost
    cases hresult
  · exact ⟨rfl, halike, fun v hv ↦ hthrown v (congrArg _ (Except.error.inj hv)), hhost⟩
  · exact hf a σ₁ τ₁ hhost halike

end IgnoresLocation

/-- Actions that do not look at the place of the last throw. -/
def anyLocation : Policy where
  host := raisingHost
  demands := False
  Holds _ m _ := IgnoresLocation m
  holds_pure a _ := .pure a
  holds_bind := IgnoresLocation.bind
  mono _ _ hm := hm
  persist hm := hm
  idle _ _ _ hm := hm

namespace anyLocation

open IgnoresLocation

variable {α : Type}

/-! ## Failures -/

theorem hasRaisingHost_run_newError {σ : State} (hσ : σ.heap.HasRaisingHost) (kind : ErrorKind)
    (message : String) : ((Action.newError kind message).run σ).2.heap.HasRaisingHost := by
  refine Heap.AllCallable.modifyObject ?_ _ fun data ↦ data.callable_store _ _
  exact Heap.AllCallable.addObject hσ nofun

theorem ignores_raise (kind : ErrorKind) (message : String) :
    IgnoresLocation (Action.raise kind message : Action α) := by
  refine of_run_eq_run (fun σ l ↦ rfl) fun σ hσ ↦ ?_
  rw [Action.run_raise]
  exact hasRaisingHost_run_newError hσ kind message

theorem ignores_log (line : String) : IgnoresLocation (Action.log line) :=
  of_run_eq (fun _ ↦ ()) _ (fun _ ↦ rfl) (fun _ _ ↦ rfl) (fun _ l ↦ ⟨l, rfl⟩) fun _ hσ ↦ hσ

theorem ignores_finish (c : Completion) : IgnoresLocation (Function.finish c) := by
  cases c with
  | normal v => exact .pure _
  | «return» v l => exact .pure _
  | throw v l => exact of_run_eq_run (fun _ _ ↦ rfl) fun _ hσ ↦ hσ
  | «break» label v l => exact of_throw nofun
  | «continue» label v l => exact of_throw nofun

/-! ## Executions -/

theorem executes_forget : IgnoresLocation (Action.ofExecution Statement.forget) :=
  of_run_eq (fun _ ↦ ()) (fun σ ↦ { σ with throwLocation := none }) (fun _ ↦ rfl)
    (fun _ _ ↦ rfl) (fun _ _ ↦ ⟨none, rfl⟩) fun _ hσ ↦ hσ

theorem executes_takeInterrupt :
    IgnoresLocation (Action.ofExecution (modifyGet State.takeInterrupt)) := by
  refine of_run_eq (·.takeInterrupt.1) (·.takeInterrupt.2) (fun _ ↦ rfl) ?_ ?_ ?_
  · intro σ l
    unfold State.takeInterrupt
    split <;> rfl
  · intro σ l
    refine ⟨l, ?_⟩
    unfold State.takeInterrupt
    split <;> rfl
  · intro σ hσ
    unfold State.takeInterrupt
    split <;> exact hσ

/-- Once a failure has been looked at, nothing is left to compare but two states
that are the same after a throw. -/
theorem endAlike_recovers {e : Failure} {m : Execution Completion}
    (hm : Statement.Recovers e m) {σ τ : State} (hσ : σ.heap.HasRaisingHost) (hτ : σ.Alike τ)
    (hthrown : ∀ v, e = .thrown v → τ = σ) :
    EndAlike ((Action.ofExecution m).run σ) ((Action.ofExecution m).run τ) := by
  cases hm with
  | report location =>
      cases e with
      | thrown v =>
          rw [hthrown v rfl]
          exact ⟨rfl, ⟨_, rfl⟩, nofun, hσ⟩
      | uncaught v l => exact IgnoresLocation.pure _ σ τ hσ hτ
      | fault f => exact of_throw (e := .fault f) nofun σ τ hσ hτ
  | drop c =>
      rw [Policy.ofExecution_bind]
      exact executes_forget.bind (fun _ ↦ .pure c) σ τ hσ hτ

theorem executes_handle {m : Action α} (next : Except Failure α → Execution Completion)
    (hm : IgnoresLocation m)
    (hok : ∀ a, (∃ σ τ, m.run σ = (.ok a, τ)) → IgnoresLocation (Action.ofExecution (next (.ok a))))
    (herror : ∀ e, Statement.Recovers e (next (.error e))) :
    IgnoresLocation (Action.ofExecution (Execution.ofAction m >>= next)) := by
  intro σ τ hσ hτ
  obtain ⟨hresult, halike, hthrown, hhost⟩ := hm σ τ hσ hτ
  rw [Policy.run_ofAction_bind, Policy.run_ofAction_bind, hresult]
  cases hr : (m.run σ).1 with
  | error e =>
      refine endAlike_recovers (herror e) hhost halike fun v hv ↦ hthrown v ?_
      rw [hr, hv]
  | ok a => exact hok a ⟨σ, (m.run σ).2, Prod.ext hr rfl⟩ _ _ hhost halike

/-! ## Host programs -/

section Programs

variable {eng : Engine}
  (hperform : ∀ request : Request, IgnoresLocation (Host.perform eng request))

include hperform

theorem hasRaisingHost_run (program : HostProgram α) {σ : State} (hσ : σ.heap.HasRaisingHost) :
    ((Host.run eng program).run σ).2.heap.HasRaisingHost := by
  induction program generalizing σ with
  | done result => exact hσ
  | perform request next ih =>
      have hhost := (hperform request σ σ hσ ⟨_, rfl⟩).host
      rw [Host.run, Action.run_bind, Action.run_attempt]
      dsimp only
      split
      · exact hhost
      · exact ih _ hhost

theorem ignores_run {program : HostProgram α} (hprogram : program.Honours raisingHost) :
    IgnoresLocation (Host.run eng program) := by
  induction program with
  | done result =>
      rintro σ _ hσ ⟨l, rfl⟩
      refine ⟨rfl, ⟨l, rfl⟩, fun v hv ↦ ?_, hσ⟩
      exact absurd rfl (hprogram _ hv v)
  | perform request next ih =>
      obtain ⟨-, hnext⟩ := hprogram
      intro σ τ hσ hτ
      obtain ⟨hresult, halike, hthrown, hhost⟩ := hperform request σ τ hσ hτ
      rw [Host.run, Action.run_bind, Action.run_bind, Action.run_attempt, Action.run_attempt,
        hresult]
      dsimp only
      split
      · exact of_throw (e := .fault .outOfFuel) nofun _ _ hhost halike
      -- A program to which something has been thrown may do what it likes: from there
      -- on the two runs are one and the same.
      · by_cases hcalm : ∀ e, ((Host.perform eng request).run σ).1 = .error e → ∀ v, e ≠ .thrown v
        · exact ih _ (hnext _ hcalm) _ _ hhost halike
        · push Not at hcalm
          obtain ⟨_, he, v, rfl⟩ := hcalm
          rw [hthrown v he]
          exact ⟨rfl, ⟨_, rfl⟩, fun _ _ ↦ rfl, hasRaisingHost_run hperform _ hhost⟩

end Programs

/-! ## Laws -/

theorem basics : anyLocation.Basics where
  patches _ _ := trivial
  read m f hrun := of_run_eq _ id hrun (fun _ _ ↦ rfl) (fun _ l ↦ ⟨l, rfl⟩) fun _ hσ ↦ hσ
  fault _ _ _ := of_throw nofun
  raise := ignores_raise
  log line _ := ignores_log line
  raises _ _ := trivial
  interrupt := of_run_eq (fun _ ↦ ()) _ (fun _ ↦ rfl) (fun _ _ ↦ rfl) (fun _ l ↦ ⟨l, rfl⟩)
    fun _ hσ ↦ hσ
  newSymbol _ := of_run_eq _ _ (fun _ ↦ rfl) (fun _ _ ↦ rfl) (fun _ l ↦ ⟨l, rfl⟩) fun _ hσ ↦ hσ
  callable o next hnone hsome := by
    rintro σ _ hσ ⟨l, rfl⟩
    change EndAlike ((next (σ.heap.object o).callable).run σ)
      ((next (σ.heap.object o).callable).run { σ with throwLocation := l })
    cases hcallable : (σ.heap.object o).callable with
    | none => exact hnone σ _ hσ ⟨l, rfl⟩
    | some f =>
        have hf := Policy.admissible_of_honours (P := anyLocation) id (fun _ ↦ trivial)
          (hσ o f hcallable)
        exact hsome f hf σ _ hσ ⟨l, rfl⟩
  depth m m' hm hm' := by
    rintro σ _ hσ ⟨l, rfl⟩
    change EndAlike ((if σ.options.maxCallDepth ≤ σ.callDepth then m else m').run σ)
      ((if σ.options.maxCallDepth ≤ σ.callDepth then m else m').run _)
    split
    · exact hm σ _ hσ ⟨l, rfl⟩
    · exact hm' σ _ hσ ⟨l, rfl⟩
  counted m hm := by
    rintro σ _ hσ ⟨l, rfl⟩
    obtain ⟨hresult, ⟨l', hl'⟩, hthrown, hhost⟩ :=
      hm { σ with callDepth := σ.callDepth + 1 }
        { σ with callDepth := σ.callDepth + 1, throwLocation := l } hσ ⟨l, rfl⟩
    let leave (τ : State) : State := { τ with callDepth := τ.callDepth - 1 }
    exact ⟨hresult, ⟨l', congrArg leave hl'⟩, fun v hv ↦ congrArg leave (hthrown v hv), hhost⟩
  program _ hperform _ _ hprogram _ :=
    ignores_run (fun request ↦ hperform request (by cases request <;> trivial)
      ⟨trivial, request.isPlaced_of_not id⟩) hprogram
  finish := ignores_finish
  handle := executes_handle
  forget := executes_forget
  takeInterrupt := executes_takeInterrupt

theorem loose : anyLocation.Loose where
  basics := basics
  free hm := hm
  neverCreated := of_throw nofun
  addScope data := of_modifyHeap (·.addScope data) fun _ hh ↦ hh.of_objects rfl
  modifyScope s f := of_modifyHeap (((), ·.modifyScope s f)) fun _ hh ↦ hh.of_objects rfl

/-- A resolver reads through an interpreter that starts without a place. -/
theorem ignores_readApart {eng : Engine} (heng : anyLocation.Serves eng) (o : ObjectRef)
    (k : PropertyKey) : IgnoresLocation (Lazy.readApart eng o k) := by
  rintro σ _ hσ ⟨l, rfl⟩
  have hbeside : σ.beside.heap.HasRaisingHost := Heap.AllCallable.build hσ (fun _ _ ↦ nofun) _
  have hinner := (heng.get o k (.object o) σ.beside σ.beside hbeside ⟨_, rfl⟩).host
  rw [Lazy.run_readApart, Lazy.run_readApart]
  exact basics.keeps_report ignores_log _ _ _ _ hinner ⟨l, rfl⟩

theorem lax : anyLocation.Lax where
  basics := basics
  newCell r _ := of_modifyHeap (·.addCell (.unresolved r)) fun _ hh ↦ hh.of_objects rfl
  constant _ := trivial
  addObject data hdata := of_modifyHeap (·.addObject data) fun _ hh ↦
    hh.addObject fun f hf ↦ (hdata f hf).honours
  modifyObject o g hg := of_modifyHeap (((), ·.modifyObject o g)) fun _ hh ↦ hh.modifyObject o hg
  storeBound s name v := of_modifyHeap (((), ·.storeBound s name v)) fun _ hh ↦ hh.of_objects rfl
  resolve _ heng := basics.keeps_resolve ignores_log
    (fun c data ↦ of_modifyHeap (((), ·.setCell c data)) fun _ hh ↦ hh.of_objects rfl)
    (ignores_readApart heng)

theorem lawful : anyLocation.Lawful := ⟨basics, lax.creation, loose.scopes, lax.properties⟩

end anyLocation

/-! ## Scripts -/

theorem Script.ignoresLocation_run (n : Nat) (body : List Statement) :
    IgnoresLocation (Script.run (.level n) body) := by
  rintro σ _ hσ ⟨l, rfl⟩
  let s := σ.realm.globalScope
  let strict := σ.options.strict || Tree.isStrict body
  have hbody : anyLocation.Admits (Tree.placedList body) := False.elim
  have hexec := (anyLocation.lawful.governs_level n).executes_script hbody s
  have hfinish (c : Completion) : IgnoresLocation (Script.finish c) := by
    cases c with
    | normal v => exact .pure _
    | «return» v l => exact .pure _
    | throw v l => exact .of_throw nofun
    | «break» label v l => exact .of_throw nofun
    | «continue» label v l => exact .of_throw nofun
  exact IgnoresLocation.bind hexec hfinish
    { σ with
      heap := σ.heap.modifyScope s fun scope ↦ { scope with isStrict := strict }
      callDepth := 0 }
    { σ with
      heap := σ.heap.modifyScope s fun scope ↦ { scope with isStrict := strict }
      callDepth := 0
      throwLocation := l } (hσ.of_objects rfl) ⟨l, rfl⟩

/-- The result of a script does not depend on the place that an earlier throw has
left, unless the host throws values by itself; nor does the state after it, but for
that place. -/
theorem script_ignores_throwLocation (n : Nat) (body : List Statement) (σ : State)
    (hσ : σ.heap.HasRaisingHost) (l l' : Option Location) :
    let r := (Script.run (.level n) body).run { σ with throwLocation := l }
    let r' := (Script.run (.level n) body).run { σ with throwLocation := l' }
    r'.1 = r.1 ∧ r.2.Alike r'.2 := by
  have hrun := Script.ignoresLocation_run n body { σ with throwLocation := l }
    { σ with throwLocation := l' } hσ ⟨l', rfl⟩
  exact ⟨hrun.result, hrun.alike⟩

/-- A script calls a function of the host, which raises an error. -/
theorem script_ignores_throwLocation_raised :
    let refuse : Callable := .native "refuse" 0 fun _ _ ↦ .raise .typeError "refused"
    let σ := State.initial .standard
    let made := σ.heap.addObject (Function.baseData σ.realm.functionPrototype 9 refuse "refuse" 0)
    let heap := made.2.modifyObject σ.realm.globalObject
      (·.store (.ofString "refuse") (.hidden (.object made.1)))
    let body : List Statement :=
      [.mk ⟨7, 1⟩ (.expression (.call (.identifier "refuse") []))]
    let run (l : Option Location) :=
      (Script.run (.level 9) body).run { σ with heap, throwLocation := l }
    heap.HasRaisingHost ∧ (run none).1 = (run (some ⟨2, 3⟩)).1 ∧
      (run (some ⟨2, 3⟩)).2.Alike (run none).2 := by
  intro refuse σ made heap body run
  have hrefuse : refuse.Honours raisingHost := by
    refine fun _ _ ↦ ⟨trivial, fun reply hreply ↦ ?_⟩
    cases reply with
    | error e => exact fun e' he' ↦ Except.error.inj he' ▸ hreply e rfl
    | ok reply => exact nomatch (reply : Empty)
  have hσ : σ.heap.HasRaisingHost := Heap.allCallable_empty.build (fun _ _ ↦ nofun) _
  have hmade : made.2.HasRaisingHost :=
    hσ.addObject fun f hf ↦ Option.some.inj hf ▸ hrefuse
  have hheap : heap.HasRaisingHost := hmade.modifyObject _ fun data ↦ data.callable_store _ _
  exact ⟨hheap, script_ignores_throwLocation 9 body { σ with heap } hheap (some ⟨2, 3⟩) none⟩

/-- A value that the host throws by itself is reported where the last throw before
the script was. -/
theorem throwRaw_reports_earlier_location :
    let σ := State.initial .standard
    let throwRaw : Callable := .native "throwRaw" 1 fun _ ↦ Host.throwRaw
    let made :=
      σ.heap.addObject (Function.baseData σ.realm.functionPrototype 9 throwRaw "throwRaw" 1)
    let heap := made.2.modifyObject σ.realm.globalObject
      (·.store (.ofString "throwRaw") (.hidden (.object made.1)))
    let body : List Statement :=
      [.mk ⟨7, 1⟩ (.expression (.call (.identifier "throwRaw") [.boolean true]))]
    let run (l : Option Location) :=
      (Script.run (.level 9) body).run { σ with heap, throwLocation := l }
    (run none).1 = .error (.uncaught (.boolean true) ⟨7, 1⟩) ∧
      (run (some ⟨2, 3⟩)).1 = .error (.uncaught (.boolean true) ⟨2, 3⟩) :=
  ⟨rfl, rfl⟩

end Ecma
