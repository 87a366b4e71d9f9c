import Ecma.Proofs.Policy.Callables
import Ecma.Proofs.Policy.Laws
import Ecma.Proofs.Policy.Statements
import Ecma.Proofs.ScopeEvolution

/-!
# Names are declared before they are initialised

The scope of a list of statements gets the names that the list declares before
the list runs; the statements initialise them later, after other code has run.
If declarations stand only where a list is, every name that is initialised has
been declared in that very scope and is still there.
-/

namespace Ecma

/-- Host programs that do not make up the fault of a name that is not there. -/
def declaringHost (demands : Prop) : HostContract :=
  ⟨fun e ↦ demands → e ≠ .fault (.invariant .bindingNeverCreated), fun _ ↦ True⟩

/-- What may be called, if declarations are to stand where lists are. -/
def Callable.IsPlaced (demands : Prop) : Callable → Prop
  | .closure f _ _ => demands → Tree.placedFunction f = true
  | .native _ _ run => ∀ this args, (run this args).Honours (declaringHost demands) ∧
      (run this args).Asks (Request.IsPlaced demands)

/-- All that can be called in the heap is placed. -/
def Heap.IsPlaced (demands : Prop) (h : Heap) : Prop := h.AllCallable (·.IsPlaced demands)

/-! ## Actions that keep declared names -/

variable {demands : Prop} {α β : Type}

/-- What an action must lead to from `σ`. -/
structure KeepsNames (demands : Prop) (σ : State) (r : Except Failure α × State)
    (Φ : α → Set Fact) : Prop where
  placed : r.2.heap.IsPlaced demands
  evolves : σ.heap.ScopesEvolve r.2.heap
  created : demands → ∀ e, r.1 = .error e → e ≠ .fault (.invariant .bindingNeverCreated)
  facts : demands → ∀ a, r.1 = .ok a → ∀ fact ∈ Φ a, fact.HoldsIn r.2.heap

/-- A change before. -/
theorem KeepsNames.after {σ τ : State} {r : Except Failure α × State} {Φ : α → Set Fact}
    (h : KeepsNames demands τ r Φ) (hev : σ.heap.ScopesEvolve τ.heap) :
    KeepsNames demands σ r Φ :=
  ⟨h.placed, hev.trans h.evolves, h.created, h.facts⟩

/-- From what is known of the scopes. -/
def HoldsNames (demands : Prop) (Γ : Set Fact) (m : Action α) (Φ : α → Set Fact) : Prop :=
  ∀ σ, σ.heap.IsPlaced demands → (demands → ∀ fact ∈ Γ, fact.HoldsIn σ.heap) →
    KeepsNames demands σ (m.run σ) Φ

namespace HoldsNames

variable {Γ Γ' : Set Fact} {Φ Φ' : α → Set Fact} {Ψ : β → Set Fact}

/-- An action that does not fail and tells nothing. -/
theorem of_run_eq {m : Action α} (a : State → α) (f : State → State)
    (hrun : ∀ σ, m.run σ = (.ok (a σ), f σ))
    (hplaced : ∀ σ : State, σ.heap.IsPlaced demands → (f σ).heap.IsPlaced demands)
    (hev : ∀ σ : State, σ.heap.ScopesEvolve (f σ).heap) : HoldsNames demands ∅ m fun _ ↦ ∅ := by
  intro σ hσ _
  rw [hrun]
  exact ⟨hplaced σ hσ, hev σ, fun _ ↦ nofun, fun _ _ _ _ h ↦ nomatch h⟩

/-- An action that leaves the heap alone. -/
theorem of_heap_eq {m : Action α} (a : State → α) (f : State → State)
    (hrun : ∀ σ, m.run σ = (.ok (a σ), f σ)) (hheap : ∀ σ, (f σ).heap = σ.heap) :
    HoldsNames demands ∅ m fun _ ↦ ∅ := by
  refine of_run_eq a f hrun (fun σ hσ ↦ ?_) fun σ ↦ ?_
  · rw [hheap]
    exact hσ
  · rw [hheap]
    exact .of_scopes rfl

theorem of_throw {e : Failure} (he : demands → e ≠ .fault (.invariant .bindingNeverCreated)) :
    HoldsNames demands Γ (throw e : Action α) Φ := by
  intro σ hσ _
  refine ⟨hσ, .of_scopes rfl, fun hd e' he' ↦ ?_, fun _ ↦ nofun⟩
  exact Except.error.inj he' ▸ he hd

theorem of_fault {f : Fault} (hf : f ≠ .invariant .bindingNeverCreated) :
    HoldsNames demands Γ (Action.fault f : Action α) Φ :=
  of_throw fun _ h ↦ hf (Failure.fault.inj h)

theorem pure (a : α) (Φ : α → Set Fact) : HoldsNames demands (Φ a) (pure a) Φ := by
  intro σ hσ hΓ
  refine ⟨hσ, .of_scopes rfl, fun _ ↦ nofun, fun hd a' ha' ↦ ?_⟩
  cases ha'
  exact hΓ hd

theorem bind {m : Action α} {f : α → Action β} (hm : HoldsNames demands Γ m Φ)
    (hf : ∀ a, HoldsNames demands (Φ a) (f a) Ψ) : HoldsNames demands Γ (m >>= f) Ψ := by
  intro σ hσ hΓ
  have hfirst := hm σ hσ hΓ
  rw [Action.run_bind]
  rcases hrun : m.run σ with ⟨e | a, σ₁⟩
  · rw [hrun] at hfirst
    refine ⟨hfirst.placed, hfirst.evolves, fun hd e' he' ↦ ?_, fun _ ↦ nofun⟩
    cases he'
    exact hfirst.created hd e rfl
  · rw [hrun] at hfirst
    exact (hf a σ₁ hfirst.placed fun hd ↦ hfirst.facts hd a rfl).after hfirst.evolves

theorem mono {m : Action α} (hΓ : Γ ⊆ Γ') (hΦ : ∀ a, Φ' a ⊆ Φ a)
    (hm : HoldsNames demands Γ m Φ) : HoldsNames demands Γ' m Φ' := by
  intro σ hσ hfacts
  obtain ⟨hplaced, hev, hcreated, htold⟩ := hm σ hσ fun hd fact h ↦ hfacts hd fact (hΓ h)
  exact ⟨hplaced, hev, hcreated, fun hd a ha fact h ↦ htold hd a ha fact (hΦ a h)⟩

theorem persist {m : Action α} (hm : HoldsNames demands Γ m Φ) :
    HoldsNames demands Γ m fun a ↦ Γ ∪ Φ a := by
  intro σ hσ hfacts
  obtain ⟨hplaced, hev, hcreated, htold⟩ := hm σ hσ hfacts
  refine ⟨hplaced, hev, hcreated, fun hd a ha fact h ↦ ?_⟩
  rcases h with h | h
  · exact (hfacts hd fact h).evolves hev
  · exact htold hd a ha fact h

theorem idle {m : Action α} (hd : ¬demands) (hm : HoldsNames demands Γ m Φ) :
    HoldsNames demands Γ' m Φ' := by
  intro σ hσ _
  obtain ⟨hplaced, hev, -, -⟩ := hm σ hσ fun h ↦ absurd h hd
  exact ⟨hplaced, hev, fun h ↦ absurd h hd, fun h ↦ absurd h hd⟩

/-- An action that needs to know nothing. -/
theorem keeps {m : Action α} (hm : HoldsNames demands ∅ m Φ) {σ : State}
    (hσ : σ.heap.IsPlaced demands) : KeepsNames demands σ (m.run σ) Φ :=
  hm σ hσ fun _ _ h ↦ nomatch h

end HoldsNames

/-- Names stay declared, and if scripts are placed, none is missing. -/
def declaredNames (demands : Prop) : Policy where
  host := declaringHost demands
  demands := demands
  Holds Γ m Φ := HoldsNames demands Γ m Φ
  holds_pure := HoldsNames.pure
  holds_bind := HoldsNames.bind
  mono := HoldsNames.mono
  persist := HoldsNames.persist
  idle hd _ _ hm := hm.idle hd

namespace declaredNames

open HoldsNames

/-! ## Failures and host programs -/

theorem holds_setThrowLocation (l : Option Location) :
    HoldsNames demands ∅ (Action.setThrowLocation l) fun _ ↦ ∅ :=
  of_heap_eq (fun _ ↦ ()) _ (fun _ ↦ rfl) fun _ ↦ rfl

theorem holds_log (line : String) : HoldsNames demands ∅ (Action.log line) fun _ ↦ ∅ :=
  of_heap_eq (fun _ ↦ ()) _ (fun _ ↦ rfl) fun _ ↦ rfl

theorem holds_newError (kind : ErrorKind) (message : String) :
    HoldsNames demands ∅ (Action.newError kind message) fun _ ↦ ∅ := by
  refine of_run_eq _ _ (fun _ ↦ rfl) (fun σ hσ ↦ ?_) fun _ ↦ .of_scopes rfl
  refine Heap.AllCallable.modifyObject ?_ _ fun data ↦ data.callable_store _ _
  exact Heap.AllCallable.addObject hσ nofun

theorem holds_raise {Φ : α → Set Fact} (kind : ErrorKind) (message : String) :
    HoldsNames demands ∅ (Action.raise kind message : Action α) Φ :=
  (holds_setThrowLocation none).bind fun _ ↦
    (holds_newError kind message).bind fun _ ↦ of_throw fun _ ↦ nofun

theorem holds_run {eng : Engine}
    (hperform : ∀ request : Request, request.Honours (declaringHost demands) →
      request.IsPlaced demands → HoldsNames demands ∅ (Host.perform eng request) fun _ ↦ ∅)
    {program : HostProgram α} (hprogram : program.Honours (declaringHost demands))
    (hplaced : program.Asks (Request.IsPlaced demands)) :
    HoldsNames demands ∅ (Host.run eng program) fun _ ↦ ∅ := by
  induction program with
  | done result =>
      intro σ hσ _
      exact ⟨hσ, .of_scopes rfl, fun hd e he ↦ hprogram e he hd, fun _ _ _ _ h ↦ nomatch h⟩
  | perform request next ih =>
      obtain ⟨hrequest, hnext⟩ := hprogram
      intro σ hσ hΓ
      have hfirst := hperform request hrequest hplaced.1 σ hσ hΓ
      have hreply := hnext ((Host.perform eng request).run σ).1 fun e he hd ↦
        hfirst.created hd e he
      rw [Host.run, Action.run_bind, Action.run_attempt]
      dsimp only
      split
      · exact ((of_fault (f := .outOfFuel) nofun).keeps hfirst.placed).after hfirst.evolves
      · exact ((ih _ hreply (hplaced.2 _)).keeps hfirst.placed).after hfirst.evolves

/-! ## Executions -/

theorem executes_recovers {e : Failure}
    (he : demands → e ≠ .fault (.invariant .bindingNeverCreated)) {m : Execution Completion}
    (hm : Statement.Recovers e m) :
    HoldsNames demands ∅ (Action.ofExecution m) fun _ ↦ ∅ := by
  cases hm with
  | report location =>
      cases e with
      | thrown v =>
          exact of_heap_eq (fun σ ↦ .throw v (σ.throwLocation.getD location))
            (fun σ ↦ { σ with throwLocation := none }) (fun _ ↦ rfl) fun _ ↦ rfl
      | uncaught v l => exact HoldsNames.pure _ fun _ ↦ ∅
      | fault f => exact of_throw he
  | drop c =>
      exact of_heap_eq (fun _ ↦ c) (fun σ ↦ { σ with throwLocation := none }) (fun _ ↦ rfl)
        fun _ ↦ rfl

theorem executes_handle {Γ : Set Fact} {m : Action α} {Φ : α → Set Fact}
    (next : Except Failure α → Execution Completion) (hm : HoldsNames demands Γ m Φ)
    (hok : ∀ a, (∃ σ τ, m.run σ = (.ok a, τ)) →
      HoldsNames demands (Φ a) (Action.ofExecution (next (.ok a))) fun _ ↦ ∅)
    (herror : ∀ e, Statement.Recovers e (next (.error e))) :
    HoldsNames demands Γ (Action.ofExecution (Execution.ofAction m >>= next)) fun _ ↦ ∅ := by
  intro σ hσ hΓ
  have hfirst := hm σ hσ hΓ
  rw [Policy.run_ofAction_bind]
  rcases hrun : m.run σ with ⟨e | a, τ⟩
  · rw [hrun] at hfirst
    have hrecovers := executes_recovers (fun hd ↦ hfirst.created hd e rfl) (herror e)
    exact (hrecovers.keeps hfirst.placed).after hfirst.evolves
  · rw [hrun] at hfirst
    exact (hok a ⟨σ, τ, hrun⟩ τ hfirst.placed fun hd ↦ hfirst.facts hd a rfl).after hfirst.evolves

theorem executes_takeInterrupt :
    HoldsNames demands ∅ (Action.ofExecution (modifyGet State.takeInterrupt)) fun _ ↦ ∅ := by
  refine of_heap_eq (·.takeInterrupt.1) (·.takeInterrupt.2) (fun _ ↦ rfl) fun σ ↦ ?_
  unfold State.takeInterrupt
  split <;> rfl

/-! ## Laws -/

theorem holds_finish (c : Completion) : HoldsNames demands ∅ (Function.finish c) fun _ ↦ ∅ := by
  cases c with
  | normal v => exact HoldsNames.pure _ fun _ ↦ ∅
  | «return» v l => exact HoldsNames.pure _ fun _ ↦ ∅
  | throw v l => exact (holds_setThrowLocation _).bind fun _ ↦ of_throw fun _ ↦ nofun
  | «break» label v l => exact of_fault nofun
  | «continue» label v l => exact of_fault nofun

theorem admissible_iff {f : Callable} :
    (declaredNames demands).Admissible f ↔ f.IsPlaced demands := by
  cases f with
  | closure f s strict => exact Iff.rfl
  | native name arity run =>
      unfold Policy.Admissible
      rw [Policy.permits_eq_isPlaced fun _ ↦ trivial]
      exact Iff.rfl

theorem basics : (declaredNames demands).Basics where
  patches _ _ := trivial
  read m f hrun := of_heap_eq _ id hrun fun _ ↦ rfl
  fault _ hf _ := of_fault hf
  raise := holds_raise
  log line _ := holds_log line
  raises _ _ := trivial
  interrupt := of_heap_eq (fun _ ↦ ()) _ (fun _ ↦ rfl) fun _ ↦ rfl
  newSymbol _ := of_heap_eq _ _ (fun _ ↦ rfl) fun _ ↦ rfl
  callable o next hnone hsome := by
    intro σ hσ hΓ
    change KeepsNames demands σ ((next (σ.heap.object o).callable).run σ) _
    cases hcallable : (σ.heap.object o).callable with
    | none => exact hnone σ hσ hΓ
    | some f =>
        exact hsome f (admissible_iff.2 (hσ o f hcallable)) σ hσ hΓ
  depth m m' hm hm' := by
    intro σ hσ hΓ
    change KeepsNames demands σ
      ((if σ.options.maxCallDepth ≤ σ.callDepth then m else m').run σ) _
    split
    · exact hm σ hσ hΓ
    · exact hm' σ hσ hΓ
  counted m hm := by
    intro σ hσ hΓ
    obtain ⟨hplaced, hev, hcreated, hfacts⟩ := hm { σ with callDepth := σ.callDepth + 1 } hσ hΓ
    exact ⟨hplaced, hev, hcreated, hfacts⟩
  program _ hperform _ _ hprogram hpermits := by
    rw [Policy.permits_eq_isPlaced fun _ ↦ trivial] at hperform hpermits
    exact holds_run hperform hprogram hpermits
  finish := holds_finish
  handle := executes_handle
  forget := of_heap_eq (fun _ ↦ ()) (fun σ ↦ { σ with throwLocation := none }) (fun _ ↦ rfl)
    fun _ ↦ rfl
  takeInterrupt := executes_takeInterrupt

theorem holds_readApart {eng : Engine} (heng : (declaredNames demands).Serves eng) (o : ObjectRef)
    (k : PropertyKey) : HoldsNames demands ∅ (Lazy.readApart eng o k) fun _ ↦ ∅ := by
  intro σ hσ _
  have hbeside : σ.beside.heap.IsPlaced demands :=
    Heap.AllCallable.build hσ (fun _ _ ↦ ⟨nofun, trivial⟩) _
  have hbuild : σ.heap.ScopesEvolve σ.beside.heap := .build _ _
  have hinner := HoldsNames.keeps (heng.get o k (.object o)) hbeside
  rw [Lazy.run_readApart]
  have hreport := basics.keeps_report (P := declaredNames demands) holds_log
    ((eng.get o k (.object o)).run σ.beside).2.heap ((eng.get o k (.object o)).run σ.beside).1
  exact (HoldsNames.keeps hreport (σ := σ.resume _) hinner.placed).after
    (hbuild.trans hinner.evolves)

theorem lax : (declaredNames demands).Lax where
  basics := basics
  newCell _ _ := of_run_eq _ _ (fun _ ↦ rfl) (fun _ hσ ↦ hσ.of_objects rfl) fun _ ↦ .of_scopes rfl
  constant _ := trivial
  addObject _ hdata :=
    of_run_eq _ _ (fun _ ↦ rfl)
      (fun _ hσ ↦ hσ.addObject fun f hf ↦ admissible_iff.1 (hdata f hf)) fun _ ↦ .of_scopes rfl
  modifyObject o _ hg := of_run_eq (fun _ ↦ ()) _ (fun _ ↦ rfl) (fun _ hσ ↦ hσ.modifyObject o hg)
    fun _ ↦ .of_scopes rfl
  storeBound s name v := of_run_eq (fun _ ↦ ()) _ (fun _ ↦ rfl) (fun _ hσ ↦ hσ.of_objects rfl)
    fun σ ↦ .storeBound σ.heap s name v
  resolve _ heng := basics.keeps_resolve holds_log
    (fun _ _ ↦ of_run_eq (fun _ ↦ ()) _ (fun _ ↦ rfl) (fun _ hσ ↦ hσ.of_objects rfl)
      fun _ ↦ .of_scopes rfl)
    (holds_readApart heng)

/-! ## Scopes -/

theorem holds_addScope {m : Action ScopeRef} (data : State → Scope)
    (hrun : ∀ σ, m.run σ =
      (.ok (σ.heap.addScope (data σ)).1, { σ with heap := (σ.heap.addScope (data σ)).2 }))
    (hdata : ∀ σ, ∃ b, (data σ).record.bindings? = some b) :
    HoldsNames demands ∅ m fun s ↦ {.holder s} := by
  intro σ hσ _
  rw [hrun]
  refine ⟨Heap.AllCallable.of_objects hσ rfl, .addScope _ _, fun _ ↦ nofun, fun _ s hs ↦ ?_⟩
  cases hs
  rintro _ rfl
  refine ⟨by simp [Heap.addScope], ?_⟩
  rw [Heap.scope_addScope_self]
  exact hdata σ

section Update

variable {s : ScopeRef} {b : Bindings} {σ : State} (hσ : σ.heap.IsPlaced demands)
  (hb : (σ.heap.scope s).record.bindings? = some b)

include hσ hb

theorem keepsNames_update {f : Bindings → Except BindingError Bindings} {Φ : Set Fact}
    (hok : ∀ b', f b = .ok b' → b.Evolves b') (herror : demands → f b ≠ .error .neverCreated)
    (hfacts : demands → ∀ b', f b = .ok b' → ∀ fact ∈ Φ, fact.HoldsIn
      (σ.heap.modifyScope s fun scope ↦ { scope with record := scope.record.withBindings b' })) :
    KeepsNames demands σ ((Scope.update s b f).run σ) fun _ ↦ Φ := by
  unfold Scope.update
  split
  next b' hb' =>
    exact ⟨hσ.of_objects rfl, .modifyScope (Scope.evolves_withBindings hb (hok b' hb')),
      fun _ ↦ nofun, fun hd _ _ ↦ hfacts hd b' hb'⟩
  next e he =>
    cases e with
    | script e => exact (holds_raise _ _).keeps hσ
    | neverCreated => exact (of_throw fun hd ↦ absurd he (herror hd)).keeps hσ

theorem keepsNames_create {name : String} {x : Binding} (hx : x.canDelete = false)
    (hs : demands → σ.heap.IsHolder s) :
    KeepsNames demands σ ((Scope.update s b (·.create name x)).run σ) fun _ ↦
      {.declared s name} := by
  refine keepsNames_update hσ hb (fun b' h ↦ Bindings.evolves_create h)
    (fun _ ↦ b.create_ne_neverCreated name x) ?_
  rintro hd b' hb' _ rfl
  obtain ⟨-, rfl⟩ := Bindings.create_eq_ok hb'
  exact Heap.declares_modifyScope (hs hd).1 hb (b.find?_insert_self name x) hx

theorem keepsNames_deleteBinding (name : String) :
    KeepsNames demands σ ((Scope.deleteBinding s b name).run σ) fun _ ↦ ∅ :=
  ⟨hσ.of_objects rfl, .modifyScope (Scope.evolves_withBindings hb (b.evolves_delete name)),
    fun _ ↦ nofun, fun _ _ _ _ h ↦ nomatch h⟩

end Update

theorem holds_createMutable (eng : Engine) (s : ScopeRef) (name : String)
    (hobject : ∀ o, HoldsNames demands ∅ (Scope.objectCreate eng o name false) fun _ ↦ ∅) :
    HoldsNames demands {.holder s} (Scope.createMutable eng s name false) fun _ ↦
      {.declared s name} := by
  intro σ hσ hΓ
  have hs (hd : demands) : σ.heap.IsHolder s := hΓ hd (.holder s) rfl
  rw [Scope.createMutable, Action.run_bind, Action.run_scope]
  dsimp only
  split
  next b _ hrecord => exact keepsNames_create hσ (by rw [hrecord]; rfl) rfl hs
  next b _ hrecord => exact keepsNames_create hσ (by rw [hrecord]; rfl) rfl hs
  next o _ hrecord =>
    have hd : ¬demands := by
      intro hd
      obtain ⟨-, b, hb⟩ := hs hd
      rw [hrecord] at hb
      cases hb
    exact ((hobject o).idle hd).keeps hσ

theorem holds_createImmutable (s : ScopeRef) (name : String) (strict : Bool) :
    HoldsNames demands {.holder s} (Scope.createImmutable s name strict) fun _ ↦
      {.declared s name} := by
  intro σ hσ hΓ
  have hs (hd : demands) : σ.heap.IsHolder s := hΓ hd (.holder s) rfl
  rw [Scope.createImmutable, Action.run_bind, Action.run_scope]
  dsimp only
  split
  next b _ hrecord => exact keepsNames_create hσ (by rw [hrecord]; rfl) rfl hs
  next b _ hrecord => exact keepsNames_create hσ (by rw [hrecord]; rfl) rfl hs
  next => exact (of_fault (f := .invariant .immutableObjectBinding) nofun).keeps hσ

theorem holds_initialise (eng : Engine) (s : ScopeRef) (name : String) (v : Value)
    (hobject : ∀ o, HoldsNames demands ∅ (Scope.objectSet eng o name v false) fun _ ↦ ∅) :
    HoldsNames demands {.declared s name} (Scope.initialise eng s name v) fun _ ↦ ∅ := by
  intro σ hσ hΓ
  have hinitialise {b : Bindings} (hb : (σ.heap.scope s).record.bindings? = some b) :
      KeepsNames demands σ ((Scope.update s b (·.initialise name v)).run σ) fun _ ↦ ∅ := by
    refine keepsNames_update hσ hb (fun b' h ↦ Bindings.evolves_initialise h) (fun hd ↦ ?_)
      fun _ _ _ _ h ↦ nomatch h
    obtain ⟨-, b', hb', x, hx, -⟩ := hΓ hd (.declared s name) rfl
    cases Option.some.inj (hb.symm.trans hb')
    simp [Bindings.initialise, Bindings.contains, hx]
  rw [Scope.initialise, Action.run_bind, Action.run_scope]
  dsimp only
  split
  next hrecord => exact hinitialise (by rw [hrecord]; rfl)
  next => exact (hobject _).keeps hσ
  next hrecord =>
    split
    · exact hinitialise (by rw [hrecord]; rfl)
    · exact (hobject _).keeps hσ

theorem holds_set (eng : Engine) (s : ScopeRef) (name : String) (v : Value) (strict : Bool)
    (hobject : ∀ o, HoldsNames demands ∅ (Scope.objectSet eng o name v strict) fun _ ↦ ∅) :
    HoldsNames demands ∅ (Scope.set eng s name v strict) fun _ ↦ ∅ := by
  intro σ hσ _
  have hset {b : Bindings} (hb : (σ.heap.scope s).record.bindings? = some b) :
      KeepsNames demands σ ((Scope.update s b (·.set name v strict)).run σ) fun _ ↦ ∅ :=
    keepsNames_update hσ hb (fun b' h ↦ Bindings.evolves_set h)
      (fun _ ↦ b.set_ne_neverCreated name v strict) fun _ _ _ _ h ↦ nomatch h
  rw [Scope.set, Action.run_bind, Action.run_scope]
  dsimp only
  split
  next hrecord => exact hset (by rw [hrecord]; rfl)
  next => exact (hobject _).keeps hσ
  next hrecord =>
    split
    · exact hset (by rw [hrecord]; rfl)
    · exact (hobject _).keeps hσ

theorem holds_modifyVarNames (s : ScopeRef) (f : List String → List String) :
    HoldsNames demands ∅ (Scope.modifyVarNames s f) fun _ ↦ ∅ := by
  refine of_run_eq (fun _ ↦ ()) _ (fun _ ↦ rfl) (fun _ hσ ↦ hσ.of_objects rfl) fun σ ↦ ?_
  refine .modifyScope ?_
  split
  next o b names hrecord =>
    refine ⟨rfl, fun b' this hdeclarative ↦ ?_, fun b' hb' ↦ ?_⟩
    · rw [hrecord] at hdeclarative
      cases hdeclarative
    · rw [hrecord] at hb'
      exact ⟨b', hb', b'.evolves_refl⟩
  next => exact Scope.evolves_refl _

theorem holds_delete (s : ScopeRef) (name : String)
    (hobject : ∀ o, HoldsNames demands ∅ (Object.delete o (Scope.keyOf name)) fun _ ↦ ∅) :
    HoldsNames demands ∅ (Scope.delete s name) fun _ ↦ ∅ := by
  intro σ hσ _
  rw [Scope.delete, Action.run_bind, Action.run_scope]
  dsimp only
  split
  next hrecord => exact keepsNames_deleteBinding hσ (by rw [hrecord]; rfl) name
  next => exact (hobject _).keeps hσ
  next o b _ hrecord =>
    split
    · exact keepsNames_deleteBinding hσ (by rw [hrecord]; rfl) name
    · have hproperty : (declaredNames demands).Keeps (do
          if ((← Action.heap).object o).hasOwn (Scope.keyOf name) then
            let deleted ← Object.delete o (Scope.keyOf name)
            if deleted then Scope.modifyVarNames s (·.filter (· ≠ name))
            return deleted
          else return true) := by
        refine basics.keeps_heap.bind fun h ↦ Policy.keeps_ite ?_ (Policy.keeps_pure _)
        refine Policy.Keeps.bind (hobject o) fun deleted ↦ ?_
        dsimp only
        refine Policy.keeps_ite ?_ (Policy.keeps_pure _)
        exact Policy.Keeps.bind (holds_modifyVarNames s _) fun _ ↦ Policy.keeps_pure _
      exact HoldsNames.keeps hproperty hσ

theorem scopes : (declaredNames demands).Scopes where
  newBlockScope outer :=
    holds_addScope (fun σ ↦ ⟨.declarative .empty none, some outer, (σ.heap.scope outer).isStrict⟩)
      (fun _ ↦ rfl) fun _ ↦ ⟨_, rfl⟩
  newFunctionScope outer this strict :=
    holds_addScope (fun _ ↦ ⟨.declarative .empty this, some outer, strict⟩) (fun _ ↦ rfl)
      fun _ ↦ ⟨_, rfl⟩
  newObjectScope _ _ _ := of_run_eq _ _ (fun _ ↦ rfl) (fun _ hσ ↦ hσ.of_objects rfl)
    fun σ ↦ .addScope σ.heap _
  createMutable := holds_createMutable
  createImmutable := holds_createImmutable
  initialise := holds_initialise
  set := holds_set
  delete := holds_delete
  modifyVarNames s f := (holds_modifyVarNames s f).mono (Set.empty_subset _) fun _ ↦ subset_rfl

theorem lawful : (declaredNames demands).Lawful := ⟨basics, lax.creation, scopes, lax.properties⟩

end declaredNames

/-! ## Scripts -/

theorem Script.keepsNames_run (n : Nat) {body : List Statement}
    (hbody : demands → Tree.placedList body = true) {σ : State} (hσ : σ.heap.IsPlaced demands)
    (hglobal : demands → σ.heap.IsHolder σ.realm.globalScope) :
    KeepsNames demands σ ((Script.run (.level n) body).run σ) fun _ ↦ ∅ := by
  let s := σ.realm.globalScope
  let strict := σ.options.strict || Tree.isStrict body
  let σ₁ : State :=
    { σ with
      heap := σ.heap.modifyScope s fun scope ↦ { scope with isStrict := strict }
      callDepth := 0 }
  have hev : σ.heap.ScopesEvolve σ₁.heap :=
    .modifyScope (Scope.evolves_of_record rfl rfl)
  have hexec := (declaredNames.lawful.governs_level n).executes_script hbody s
  have hfinish (c : Completion) : HoldsNames demands ∅ (Script.finish c) fun _ ↦ ∅ := by
    cases c with
    | normal v => exact .pure _ fun _ ↦ ∅
    | «return» v l => exact .pure _ fun _ ↦ ∅
    | throw v l => exact .of_throw fun _ ↦ nofun
    | «break» label v l => exact .of_fault nofun
    | «continue» label v l => exact .of_fault nofun
  have hrun := HoldsNames.bind hexec hfinish σ₁ (Heap.AllCallable.of_objects hσ rfl)
  refine (hrun ?_).after hev
  rintro hd _ rfl
  exact (hglobal hd).evolves hev

theorem State.isPlaced_initial (options : Options) :
    (State.initial options).heap.IsPlaced demands :=
  Heap.allCallable_empty.build (fun _ _ ↦ ⟨nofun, trivial⟩) _

theorem State.isHolder_initial (options : Options) :
    (State.initial options).heap.IsHolder (State.initial options).realm.globalScope :=
  ⟨Nat.zero_lt_one, .empty, rfl⟩

/-- How the names of a list of statements get into a scope: those of a script, of
a block and of the body of a function. -/
inductive Declaring (eng : Engine) (s : ScopeRef) : List Statement → Action Unit → Prop where
  | script (body : List Statement) : Declaring eng s body (Script.declare eng (.analyze body) s)
  | block (body : List Statement) : Declaring eng s body (Statement.declareBlock eng body s)
  | function (callee : ObjectRef) (f : FunctionNode) (args : List Value) :
      Declaring eng s f.body (Function.declare eng callee f s args)

theorem Declaring.holds {n : Nat} {s : ScopeRef} {body : List Statement} {m : Action Unit}
    (hm : Declaring (.level n) s body m) (hbody : Tree.placedList body = true) :
    HoldsNames True {.holder s} m fun _ ↦
      Fact.all s ((Tree.lexicalNames body).map LexicalName.name) := by
  have hlawful : (declaredNames True).Lawful := declaredNames.lawful
  have hG := hlawful.governs_level n
  cases hm with
  | script body => exact hG.holds_declareScript (fun _ ↦ hbody) s
  | block body => exact hG.holds_declareBlock (fun _ ↦ hbody) s
  | function callee f args =>
      obtain ⟨name, params, body, isArrow⟩ := f
      exact hG.holds_declare callee _ s args fun _ ↦ hbody

/-! ## Names that stay -/

theorem HostProgram.honours_undemanding (program : HostProgram α) :
    program.Honours (declaringHost False) :=
  program.honours_of_forall (fun _ ↦ False.elim) fun _ ↦ trivial

theorem Heap.isPlaced_undemanding (h : Heap) : h.IsPlaced False := by
  intro o f _
  cases f with
  | closure f s strict => exact False.elim
  | native name arity run =>
      exact fun this args ↦ ⟨HostProgram.honours_undemanding _,
        HostProgram.asks_of_forall (Request.isPlaced_of_not id) _⟩

theorem scopesEvolve_of_run {α : Type} {Γ : Set Fact} {m : Action α} {Φ : α → Set Fact}
    (hm : HoldsNames False Γ m Φ) {σ τ : State} {r : Except Failure α} (hrun : m.run σ = (r, τ)) :
    σ.heap.ScopesEvolve τ.heap := by
  have hevolves := (hm σ σ.heap.isPlaced_undemanding False.elim).evolves
  rwa [hrun] at hevolves

theorem scopesEvolve_of_execution {α : Type} {Γ : Set Fact} {m : Execution α}
    (hm : (declaredNames False).Executes Γ m) {σ τ : State} {r : Except Fault α}
    (hrun : m.run σ = (r, τ)) : σ.heap.ScopesEvolve τ.heap := by
  have hevolves := (hm σ σ.heap.isPlaced_undemanding False.elim).evolves
  rw [Policy.run_ofExecution, hrun] at hevolves
  cases r <;> exact hevolves

theorem Statement.scopesEvolve_exec (n : Nat) (stmt : Statement) (s : ScopeRef)
    (labels : List String) (σ : State) :
    σ.heap.ScopesEvolve ((Statement.exec (.level n) stmt s labels).run σ).2.heap := by
  have hstmt : (declaredNames False).Admits (Tree.placedStatement stmt) := False.elim
  exact scopesEvolve_of_execution
    ((declaredNames.lawful.governs_level n).executes_exec hstmt s labels) rfl

/-! ## Names that are there -/

/-- No run of a placed script, from a fresh interpreter or after others, initialises
a name that is not there.  The names that a list of statements declares are in its
scope once they have been declared, and stay whatever is executed. -/
theorem initialised_names_are_declared (n : Nat) :
    (∀ body, Tree.placedList body = true →
      (∀ options σ', (Script.run (.level n) body).run (State.initial options) ≠
        (.error (.fault (.invariant .bindingNeverCreated)), σ')) ∧
      ∀ σ : State, σ.heap.IsPlaced True → σ.heap.IsHolder σ.realm.globalScope →
        ∀ σ', (Script.run (.level n) body).run σ ≠
          (.error (.fault (.invariant .bindingNeverCreated)), σ')) ∧
    ∀ s body m, Declaring (.level n) s body m → Tree.placedList body = true →
      ∀ σ : State, σ.heap.IsPlaced True → σ.heap.IsHolder s →
        ∀ σ₁, m.run σ = (.ok (), σ₁) → ∀ l ∈ Tree.lexicalNames body,
          σ₁.heap.Declares s l.name ∧ ∀ stmt inner labels,
            ((Statement.exec (.level n) stmt inner labels).run σ₁).2.heap.Declares s l.name := by
  refine ⟨fun body hbody ↦ ?_, fun s body m hm hbody σ hσ hs σ₁ hrun l hl ↦ ?_⟩
  · have hcreated (σ : State) (hσ : σ.heap.IsPlaced True)
        (hglobal : σ.heap.IsHolder σ.realm.globalScope) (σ' : State) :
        (Script.run (.level n) body).run σ ≠
          (.error (.fault (.invariant .bindingNeverCreated)), σ') := by
      intro hrun
      have hkeeps := Script.keepsNames_run n (fun _ ↦ hbody) hσ fun _ ↦ hglobal
      exact hkeeps.created trivial _ (congrArg Prod.fst hrun) rfl
    exact ⟨fun options ↦ hcreated _ (State.isPlaced_initial options)
      (State.isHolder_initial options), hcreated⟩
  · have hkeeps := hm.holds hbody σ hσ fun _ fact hfact ↦ hfact ▸ hs
    rw [hrun] at hkeeps
    have hdeclares : σ₁.heap.Declares s l.name :=
      hkeeps.facts trivial () rfl _ (Fact.declared_mem_all (List.mem_map_of_mem hl))
    exact ⟨hdeclares, fun stmt inner labels ↦
      hdeclares.evolves (Statement.scopesEvolve_exec n stmt inner labels σ₁)⟩

/-- A script with a function, a block, a labelled constant and a loop variable, each
initialised after other code has run. -/
theorem initialised_names_are_declared_closure :
    let node (form : StatementForm) : Statement := .mk .origin form
    let call : Expression := .call (.identifier "f") []
    let f : FunctionNode := .mk (some "f") ["p"]
      [node (.variable .constant [.mk "c" (some (.identifier "p"))]),
        node (.return (some (.identifier "c")))] false
    let loop : StatementForm := .forLoop (.declare .lexical [.mk "i" (some call)])
      (some (.identifier "i")) none
      (node (.block [node (.variable .lexical [.mk "x" (some call)])]))
    let body : List Statement :=
      [node (.function f), node (.labelled "a" (node (.variable .constant [.mk "y" (some call)]))),
        node loop]
    let s := (State.initial .standard).realm.globalScope
    Tree.placedList body = true ∧
      (∀ σ', (Script.run (.level 9) body).run (State.initial .standard) ≠
        (.error (.fault (.invariant .bindingNeverCreated)), σ')) ∧
      ∀ σ₁, (Script.declare (.level 9) (.analyze body) s).run (State.initial .standard) =
        (.ok (), σ₁) → σ₁.heap.Declares s "y" := by
  intro node call f loop body s
  have hbody : Tree.placedList body = true := rfl
  obtain ⟨hrun, hdeclares⟩ := initialised_names_are_declared 9
  refine ⟨hbody, (hrun body hbody).1 .standard, fun σ₁ hσ₁ ↦ ?_⟩
  exact (hdeclares s body _ (.script body) hbody _ (State.isPlaced_initial .standard)
    (State.isHolder_initial .standard) σ₁ hσ₁ ⟨"y", true⟩ List.mem_cons_self).1

end Ecma
