import Ecma.Proofs.FadingBindings
import Ecma.Proofs.Policy.Callables
import Ecma.Proofs.Policy.Laws
import Ecma.Proofs.Policy.Statements
import Ecma.Proofs.VariableLifecycle

/-!
# Variables without a value

A variable has no value from its declaration until it is initialised.  Code
initialises variables of the scope that it runs in, and a scope for code to run
in is a new one, or the global one.  So no code gives a value to a variable that
has been waiting for one in another scope, as long as it is a constant or no
property is bound to it.
-/

namespace Ecma

/-- A variable without a value: its scope, its name and its kind. -/
structure Dormant where
  scope : ScopeRef
  name : String
  canDelete : Bool
  isMutable : Bool
  isStrict : Bool

/-- The call gives the variable no value and does not remove it, if it is a call on the
variables of its scope. -/
def VariableCall.Spares (x : Dormant) : VariableCall → Prop
  | .initialise name _ => name ≠ x.name
  | .delete name => name = x.name → x.canDelete = false
  | .store name _ => name = x.name → x.isMutable = false
  | .createMutable _ _ | .createImmutable _ _ | .set _ _ _ | .get _ _ => True

namespace Dormant

variable {x : Dormant} {h h' : Heap} {s : ScopeRef} {b b' : Bindings}

def binding (x : Dormant) : Binding := ⟨none, x.canDelete, x.isMutable, x.isStrict⟩

/-- The scope holds the variable itself, still without a value. -/
def WaitsIn (x : Dormant) (h : Heap) : Prop :=
  ∃ b, h.IsDeclarative x.scope b ∧ b.find? x.name = some x.binding

theorem waitsIn_addScope (h : Heap) (name : String) (canDelete isMutable isStrict : Bool)
    (this : Option Value) (outer : Option ScopeRef) (strict : Bool) :
    let declared := Bindings.empty.insert name ⟨none, canDelete, isMutable, isStrict⟩
    let made := h.addScope ⟨.declarative declared this, outer, strict⟩
    WaitsIn ⟨made.1, name, canDelete, isMutable, isStrict⟩ made.2 := by
  intro declared made
  refine ⟨declared, ⟨?_, this, ?_⟩, Bindings.find?_insert_self _ _ _⟩
  · simp [made, Heap.addScope]
  · rw [Heap.scope_addScope_self]

/-! ## Calls on variables -/

/-- The only calls that could change the variable are those that `Spares` excludes: it is
declared already, and cannot be read or set. -/
theorem find?_of_apply {call : VariableCall} {reply : VariableReply} (hcall : call.Spares x)
    (hb : b.find? x.name = some x.binding) (h : call.apply b = .ok (reply, b')) :
    b'.find? x.name = some x.binding := by
  by_cases hname : x.name = call.name
  · have hmoves := VariableCall.moves_of_apply h
    rw [← hname, hb] at hmoves
    generalize b'.find? x.name = after at hmoves
    generalize hbefore : some x.binding = before at hmoves
    cases hmoves with
    | declare | declareConstant | assignAbsent | deleteAbsent | storeAbsent => cases hbefore
    | initialise name v => exact absurd hname.symm hcall
    | assign _ _ _ _ hvalue =>
        cases hbefore
        cases hvalue
    | assignConstant _ _ _ hvalue =>
        cases hbefore
        cases hvalue
    | read _ _ hvalue =>
        cases hbefore
        cases hvalue
    | delete name hdelete =>
        cases hbefore
        cases hdelete.symm.trans (hcall hname.symm)
    | deleteRefused => rfl
    | store name v hmutable =>
        cases hbefore
        cases hmutable.symm.trans (hcall hname.symm)
    | storeConstant => rfl
  · rw [VariableCall.find?_of_apply_of_ne h hname, hb]

/-! ## Changes of the heap -/

namespace WaitsIn

theorem of_scopes (hx : x.WaitsIn h) (hscopes : h'.scopes = h.scopes) : x.WaitsIn h' := by
  obtain ⟨b, hs, hb⟩ := hx
  exact ⟨b, hs.of_scopes hscopes, hb⟩

theorem addScope (hx : x.WaitsIn h) (data : Scope) : x.WaitsIn (h.addScope data).2 := by
  obtain ⟨b, ⟨hlt, this, hrecord⟩, hb⟩ := hx
  refine ⟨b, ⟨?_, this, ?_⟩, hb⟩
  · simp only [Heap.addScope, Array.size_push]
    exact Nat.lt_succ_of_lt hlt
  · rw [Heap.scope_addScope_of_lt hlt, hrecord]

theorem build (hx : x.WaitsIn h) (cutover : Nat) : x.WaitsIn (Realm.build cutover h).2 := by
  refine Realm.build_induction (M := x.WaitsIn) (H := anyHost) Descriptor.isComplete_data
    (fun h data _ hh ↦ ?_) (fun h data hh ↦ ?_) cutover hx
  · exact hh.of_scopes rfl
  · exact hh.addScope data

theorem modifyScope (hx : x.WaitsIn h) {f : Scope → Scope}
    (hf : s = x.scope → (f (h.scope s)).record = (h.scope s).record) :
    x.WaitsIn (h.modifyScope s f) := by
  obtain ⟨b, ⟨hlt, this, hrecord⟩, hb⟩ := hx
  refine ⟨b, ⟨?_, this, ?_⟩, hb⟩
  · simpa [Heap.modifyScope] using hlt
  · by_cases hs : s = x.scope
    · subst hs
      rw [Heap.scope_modifyScope_self hlt, hf rfl, hrecord]
    · rw [Heap.scope_modifyScope_of_ne h (Ne.symm hs), hrecord]

theorem withBindings (hx : x.WaitsIn h) (hb : (h.scope s).record.bindings? = some b)
    (hkept : s = x.scope → b.find? x.name = some x.binding →
      b'.find? x.name = some x.binding) :
    x.WaitsIn (h.modifyScope s fun scope ↦
      { scope with record := scope.record.withBindings b' }) := by
  by_cases hs : s = x.scope
  · subst hs
    obtain ⟨b₀, ⟨hlt, this, hrecord⟩, hb₀⟩ := hx
    rw [hrecord] at hb
    cases hb
    refine ⟨b', ⟨?_, this, ?_⟩, hkept rfl hb₀⟩
    · simpa [Heap.modifyScope] using hlt
    · rw [Heap.scope_modifyScope_self hlt, hrecord]
      rfl
  · exact hx.modifyScope fun h ↦ absurd h hs

theorem storeBound (hx : x.WaitsIn h) {name : String}
    (hne : x.isMutable = true → (s, name) ≠ (x.scope, x.name)) (v : Value) :
    x.WaitsIn (h.storeBound s name v) := by
  cases hb : (h.scope s).record.bindings? with
  | none =>
      refine hx.modifyScope fun _ ↦ ?_
      rw [hb]
  | some b =>
      rw [Heap.storeBound_eq hb]
      refine hx.withBindings hb fun hs hfind ↦ ?_
      have hspares : (VariableCall.store name v).Spares x := by
        intro hname
        rw [hs, hname] at hne
        exact Bool.eq_false_iff.2 fun hmutable ↦ hne hmutable rfl
      exact find?_of_apply hspares hfind rfl

end WaitsIn

/-! ## Properties, host functions and code -/

/-- A property through which no value gets to the variable. -/
def Fits (x : Dormant) (d : Descriptor) : Prop :=
  x.isMutable = true → d.form.boundTo? ≠ some (x.scope, x.name)

/-- Host programs that bind no property to the variable, unless it is a constant. -/
def host (x : Dormant) : HostContract := ⟨fun _ ↦ True, x.Fits⟩

theorem fits_of_boundTo? {d : Descriptor} (hd : d.form.boundTo? = none) : x.Fits d := by
  intro _ hbound
  rw [hd] at hbound
  cases hbound

theorem Fits.of_boundTo? {d d' : Descriptor} (hd : x.Fits d)
    (hform : d'.form.boundTo? = d.form.boundTo?) : x.Fits d' := by
  intro hmutable hbound
  exact hd hmutable (hform ▸ hbound)

/-- What is known of the scopes that code runs in. -/
def Avoids (x : Dormant) : Fact → Prop
  | .holder s => s ≠ x.scope
  | .declared s name => (s, name) ≠ (x.scope, x.name)

end Dormant

/-- Code of a script, and code that the host has evaluated or executed, declares names only where
lists of statements are. -/
def Callable.HasPlacedCode : Callable → Prop
  | .closure f _ _ => Tree.placedFunction f = true
  | .native _ _ run => ∀ this args, (run this args).Asks (Request.IsPlaced True)

/-- The variable waits in the state, and no code can get at it otherwise than by its name. -/
structure State.Shields (x : Dormant) (σ : State) : Prop where
  waits : x.WaitsIn σ.heap
  conforms : σ.heap.AllConform x.Fits x.host
  placed : σ.heap.AllCallable Callable.HasPlacedCode
  global : σ.realm.globalScope ≠ x.scope

namespace State.Shields

variable {x : Dormant} {σ : State} {s : ScopeRef} {b : Bindings} (hσ : σ.Shields x)

include hσ

theorem of_eq {τ : State} (hheap : τ.heap = σ.heap) (hrealm : τ.realm = σ.realm) :
    τ.Shields x := by
  obtain ⟨hwaits, hconforms, hplaced, hglobal⟩ := hσ
  exact ⟨hheap ▸ hwaits, hheap ▸ hconforms, hheap ▸ hplaced, hrealm ▸ hglobal⟩

theorem of_objects {heap : Heap} (hobjects : heap.objects = σ.heap.objects)
    (hwaits : x.WaitsIn heap) : Shields x { σ with heap } :=
  ⟨hwaits, hσ.conforms.of_objects hobjects, hσ.placed.of_objects hobjects, hσ.global⟩

theorem addObject {data : Object} (hdata : data.Conforms x.Fits x.host)
    (hcallable : ∀ f, data.callable = some f → f.HasPlacedCode) :
    Shields x { σ with heap := (σ.heap.addObject data).2 } :=
  ⟨hσ.waits.of_scopes rfl, hσ.conforms.addObject hdata, hσ.placed.addObject hcallable, hσ.global⟩

theorem modifyObject (o : ObjectRef) {g : Object → Object}
    (hg : ∀ data : Object, data.Conforms x.Fits x.host → (g data).Conforms x.Fits x.host)
    (hcallable : ∀ data : Object, (g data).callable = data.callable) :
    Shields x { σ with heap := σ.heap.modifyObject o g } :=
  ⟨hσ.waits.of_scopes rfl, hσ.conforms.modifyObject o hg, hσ.placed.modifyObject o hcallable,
    hσ.global⟩

theorem store (o : ObjectRef) (k : PropertyKey) {d : Descriptor} (hd : x.Fits d) :
    Shields x { σ with heap := σ.heap.modifyObject o (·.store k d) } :=
  hσ.modifyObject o (fun _ hdata ↦ hdata.store k hd) fun data ↦ data.callable_store k d

theorem addScope (data : Scope) : Shields x { σ with heap := (σ.heap.addScope data).2 } :=
  hσ.of_objects rfl (hσ.waits.addScope data)

/-- The scope of an interpreter made now is new. -/
theorem beside : σ.beside.Shields x := by
  have hdata (v : Value) (w e c : Bool) : x.Fits (.data v w e c) := Dormant.fits_of_boundTo? rfl
  refine ⟨hσ.waits.build _, Realm.allConform_build hdata _ hσ.conforms,
    Heap.AllCallable.build hσ.placed (fun _ _ ↦ trivial) _, fun hscope ↦ ?_⟩
  obtain ⟨b, ⟨hlt, -⟩, -⟩ := hσ.waits
  have hindex : x.scope.index = σ.heap.scopes.size := (congrArg ScopeRef.index hscope).symm
  exact Nat.ne_of_lt hlt hindex

theorem resume {τ : State} (hτ : τ.Shields x) : (σ.resume τ).Shields x :=
  ⟨hτ.waits, hτ.conforms, hτ.placed, hσ.global⟩

theorem fits {o : ObjectRef} {k : PropertyKey} {d : Descriptor} (hown : σ.heap.own? o k = some d) :
    x.Fits d :=
  (hσ.conforms o (Heap.lt_of_own? hown)).own k d hown

/-- What a patch writes to a variable does not go to this one. -/
theorem passesOn {o : ObjectRef} {k : PropertyKey} {patch : Descriptor} {heap : Heap}
    (hpasses : σ.heap.PassesOn o k patch heap) : Shields x { σ with heap } := by
  cases hpasses with
  | nothing => exact hσ
  | value hown _ v =>
      refine hσ.of_objects rfl (hσ.waits.storeBound (fun hmutable hsame ↦ ?_) v)
      exact hσ.fits hown hmutable (congrArg some hsame)

end State.Shields

/-! ## The policy -/

variable {x : Dormant} {α β : Type}

/-- From what is known of the scopes, the action leaves the variable waiting. -/
def HoldsDormant (x : Dormant) (Γ : Set Fact) (m : Action α) (Φ : α → Set Fact) : Prop :=
  (∀ fact ∈ Γ, x.Avoids fact) → ∀ σ : State, σ.Shields x →
    (m.run σ).2.Shields x ∧ ∀ a, (m.run σ).1 = .ok a → ∀ fact ∈ Φ a, x.Avoids fact

namespace HoldsDormant

variable {Γ Γ' : Set Fact} {Φ Φ' : α → Set Fact} {Ψ : β → Set Fact}

/-- An action that tells nothing. -/
theorem of_run {m : Action α} (hm : ∀ σ : State, σ.Shields x → (m.run σ).2.Shields x) :
    HoldsDormant x Γ m fun _ ↦ ∅ :=
  fun _ σ hσ ↦ ⟨hm σ hσ, fun _ _ _ h ↦ nomatch h⟩

theorem of_eq {m : Action α} (hheap : ∀ σ : State, (m.run σ).2.heap = σ.heap)
    (hrealm : ∀ σ : State, (m.run σ).2.realm = σ.realm) : HoldsDormant x Γ m fun _ ↦ ∅ :=
  of_run fun σ hσ ↦ hσ.of_eq (hheap σ) (hrealm σ)

theorem pure (a : α) (Φ : α → Set Fact) : HoldsDormant x (Φ a) (pure a) Φ := by
  refine fun hΓ σ hσ ↦ ⟨hσ, fun a' ha' ↦ ?_⟩
  cases ha'
  exact hΓ

theorem bind {m : Action α} {f : α → Action β} (hm : HoldsDormant x Γ m Φ)
    (hf : ∀ a, HoldsDormant x (Φ a) (f a) Ψ) : HoldsDormant x Γ (m >>= f) Ψ := by
  intro hΓ σ hσ
  have hfirst := hm hΓ σ hσ
  rw [Action.run_bind]
  rcases hrun : m.run σ with ⟨e | a, σ₁⟩
  · rw [hrun] at hfirst
    exact ⟨hfirst.1, nofun⟩
  · rw [hrun] at hfirst
    exact hf a (hfirst.2 a rfl) σ₁ hfirst.1

theorem mono {m : Action α} (hΓ : Γ ⊆ Γ') (hΦ : ∀ a, Φ' a ⊆ Φ a) (hm : HoldsDormant x Γ m Φ) :
    HoldsDormant x Γ' m Φ' := by
  intro hfacts σ hσ
  obtain ⟨hτ, htells⟩ := hm (fun fact h ↦ hfacts fact (hΓ h)) σ hσ
  exact ⟨hτ, fun a ha fact h ↦ htells a ha fact (hΦ a h)⟩

theorem persist {m : Action α} (hm : HoldsDormant x Γ m Φ) :
    HoldsDormant x Γ m fun a ↦ Γ ∪ Φ a := by
  intro hΓ σ hσ
  obtain ⟨hτ, htells⟩ := hm hΓ σ hσ
  exact ⟨hτ, fun a ha fact h ↦ h.elim (hΓ fact) (htells a ha fact)⟩

/-- An action that needs to know nothing. -/
theorem shields {m : Action α} (hm : HoldsDormant x ∅ m Φ) {σ : State} (hσ : σ.Shields x) :
    (m.run σ).2.Shields x :=
  (hm (fun _ h ↦ nomatch h) σ hσ).1

end HoldsDormant

def dormancy (x : Dormant) : Policy where
  host := x.host
  demands := True
  Holds Γ m Φ := HoldsDormant x Γ m Φ
  holds_pure := HoldsDormant.pure
  holds_bind := HoldsDormant.bind
  mono := HoldsDormant.mono
  persist := HoldsDormant.persist
  idle hd _ _ _ := absurd trivial hd

namespace dormancy

open HoldsDormant

/-! ## Failures, host programs and executions -/

theorem keeps_newError (kind : ErrorKind) (message : String) :
    (dormancy x).Keeps (Action.newError kind message) := by
  refine of_run fun σ hσ ↦ ?_
  rw [Action.run_newError]
  have hadded := hσ.addObject
    (Object.conforms_new (.error kind) (some (σ.realm.errorPrototype kind)) σ.options.cutover) nofun
  exact hadded.store _ _ (Dormant.fits_of_boundTo? rfl)

theorem keeps_raise (kind : ErrorKind) (message : String) :
    (dormancy x).Keeps (Action.raise kind message : Action α) := by
  have hclear : (dormancy x).Keeps (Action.setThrowLocation none) :=
    of_eq (fun _ ↦ rfl) fun _ ↦ rfl
  exact hclear.bind fun _ ↦ (keeps_newError kind message).bind fun _ ↦
    of_eq (fun _ ↦ rfl) fun _ ↦ rfl

theorem keeps_program {eng : Engine}
    (hperform : ∀ request : Request, request.Honours x.host → request.IsPlaced True →
      (dormancy x).Keeps (Host.perform eng request))
    {program : HostProgram α} (hprogram : program.Honours x.host)
    (hplaced : program.Asks (Request.IsPlaced True)) :
    (dormancy x).Keeps (Host.run eng program) := by
  induction program with
  | done result => exact of_eq (fun _ ↦ rfl) fun _ ↦ rfl
  | perform request next ih =>
      obtain ⟨hrequest, hnext⟩ := hprogram
      refine of_run fun σ hσ ↦ ?_
      have hfirst := HoldsDormant.shields (hperform request hrequest hplaced.1) hσ
      rw [Host.run, Action.run_bind, Action.run_attempt]
      dsimp only
      split
      · exact hfirst
      · exact HoldsDormant.shields (ih _ (hnext _ fun _ _ ↦ trivial) (hplaced.2 _)) hfirst

theorem executes_recovers {e : Failure} {m : Execution Completion} (hm : Statement.Recovers e m) :
    (dormancy x).Executes ∅ m := by
  cases hm with
  | report location => cases e <;> exact of_eq (fun _ ↦ rfl) fun _ ↦ rfl
  | drop c => exact of_eq (fun _ ↦ rfl) fun _ ↦ rfl

theorem executes_handle {Γ : Set Fact} {m : Action α} {Φ : α → Set Fact}
    (next : Except Failure α → Execution Completion) (hm : (dormancy x).Holds Γ m Φ)
    (hok : ∀ a, (∃ σ τ, m.run σ = (.ok a, τ)) → (dormancy x).Executes (Φ a) (next (.ok a)))
    (herror : ∀ e, Statement.Recovers e (next (.error e))) :
    (dormancy x).Executes Γ (Execution.ofAction m >>= next) := by
  intro hΓ σ hσ
  have hfirst := hm hΓ σ hσ
  rw [Policy.run_ofAction_bind]
  rcases hrun : m.run σ with ⟨e | a, τ⟩
  · rw [hrun] at hfirst
    exact executes_recovers (herror e) (fun _ h ↦ nomatch h) τ hfirst.1
  · rw [hrun] at hfirst
    exact hok a ⟨σ, τ, hrun⟩ (hfirst.2 a rfl) τ hfirst.1

theorem executes_takeInterrupt : (dormancy x).Executes ∅ (modifyGet State.takeInterrupt) := by
  refine of_run fun σ hσ ↦ ?_
  change σ.takeInterrupt.2.Shields x
  unfold State.takeInterrupt
  split
  · exact hσ.of_eq rfl rfl
  · exact hσ

/-! ## Laws -/

theorem permits_eq : (dormancy x).Permits = Request.IsPlaced True :=
  Policy.permits_eq_isPlaced fun _ ↦ trivial

theorem hasPlacedCode {f : Callable} (hf : (dormancy x).Admissible f) : f.HasPlacedCode := by
  cases f with
  | closure f s strict => exact hf trivial
  | native name arity run => exact fun this args ↦ permits_eq (x := x) ▸ (hf this args).2

theorem admissible {σ : State} (hσ : σ.Shields x) {o : ObjectRef} {f : Callable}
    (hf : (σ.heap.object o).callable = some f) : (dormancy x).Admissible f := by
  have hhonours := hσ.conforms.callable hf
  have hplaced := hσ.placed o f hf
  cases f with
  | closure f s strict => exact fun _ ↦ hplaced
  | native name arity run =>
      exact fun this args ↦ ⟨hhonours this args, permits_eq (x := x) ▸ hplaced this args⟩

theorem basics : (dormancy x).Basics where
  patches _ hd := Dormant.fits_of_boundTo? hd.isOrdinary.boundTo?
  read m f hrun := of_eq (fun σ ↦ by rw [hrun]) fun σ ↦ by rw [hrun]
  fault _ _ _ := of_eq (fun _ ↦ rfl) fun _ ↦ rfl
  raise := keeps_raise
  log _ _ := of_eq (fun _ ↦ rfl) fun _ ↦ rfl
  raises _ _ := trivial
  interrupt := of_eq (fun _ ↦ rfl) fun _ ↦ rfl
  newSymbol _ := of_eq (fun _ ↦ rfl) fun _ ↦ rfl
  callable o next hnone hsome := by
    refine of_run fun σ hσ ↦ ?_
    change ((next (σ.heap.object o).callable).run σ).2.Shields x
    cases hf : (σ.heap.object o).callable with
    | none => exact HoldsDormant.shields hnone hσ
    | some f => exact HoldsDormant.shields (hsome f (admissible hσ hf)) hσ
  depth m m' hm hm' := by
    refine of_run fun σ hσ ↦ ?_
    change ((if σ.options.maxCallDepth ≤ σ.callDepth then m else m').run σ).2.Shields x
    split
    · exact HoldsDormant.shields hm hσ
    · exact HoldsDormant.shields hm' hσ
  counted m hm := by
    refine of_run fun σ hσ ↦ ?_
    have hinner := HoldsDormant.shields hm
      (State.Shields.of_eq (τ := { σ with callDepth := σ.callDepth + 1 }) hσ rfl rfl)
    exact hinner.of_eq rfl rfl
  program _ hperform _ _ hprogram hpermits := by
    rw [permits_eq] at hperform hpermits
    exact keeps_program hperform hprogram hpermits
  finish c := by cases c <;> exact of_eq (fun _ ↦ rfl) fun _ ↦ rfl
  handle := executes_handle
  forget := of_eq (fun _ ↦ rfl) fun _ ↦ rfl
  takeInterrupt := executes_takeInterrupt

theorem makes : (dormancy x).Makes x.Fits where
  basics := basics
  data _ _ _ _ := Dormant.fits_of_boundTo? rfl
  accessor _ _ _ _ := Dormant.fits_of_boundTo? rfl
  lazy _ _ _ _ := Dormant.fits_of_boundTo? rfl
  newCell _ _ := of_run fun _ hσ ↦ hσ.of_objects rfl (hσ.waits.of_scopes rfl)
  constant _ := trivial
  addObject _ hdata hcallable :=
    of_run fun _ hσ ↦ hσ.addObject hdata fun f hf ↦ hasPlacedCode (hcallable f hf)
  store o k _ hd := of_run fun _ hσ ↦ hσ.store o k hd
  storeMapped o s entries := by
    refine fun hΓ σ hσ ↦ ⟨?_, fun _ _ _ h ↦ nomatch h⟩
    have hs : s ≠ x.scope := hΓ (.holder s) rfl
    have hFits (name : String) (e c : Bool) : x.Fits (.bound s name e c) := by
      intro _ hbound
      exact hs (congrArg Prod.fst (Option.some.inj hbound))
    exact hσ.modifyObject o (fun _ hdata ↦ Arguments.conforms_storeMapped hFits entries hdata)
      (Policy.Lax.callable_storeMapped s entries)

/-! ## Variables -/

section Variables

variable {σ : State} (hσ : σ.Shields x) {s : ScopeRef} {b : Bindings}

include hσ

theorem shields_throwBinding (e : BindingError) :
    ((Scope.throwBinding e : Action α).run σ).2.Shields x := by
  cases e with
  | script e => exact HoldsDormant.shields (keeps_raise e.kind e.message) hσ
  | neverCreated => exact hσ

theorem shields_update (hb : (σ.heap.scope s).record.bindings? = some b)
    {f : Bindings → Except BindingError Bindings}
    (hf : s = x.scope → ∀ b', f b = .ok b' → b.find? x.name = some x.binding →
      b'.find? x.name = some x.binding) :
    ((Scope.update s b f).run σ).2.Shields x := by
  unfold Scope.update
  split
  next b' hb' => exact hσ.of_objects rfl (hσ.waits.withBindings hb fun hs ↦ hf hs b' hb')
  next e _ => exact shields_throwBinding hσ e

theorem shields_create (hb : (σ.heap.scope s).record.bindings? = some b) (name : String)
    (y : Binding) : ((Scope.update s b (·.create name y)).run σ).2.Shields x := by
  refine shields_update hσ hb fun _ b' hb' hfind ↦ ?_
  obtain ⟨habsent, rfl⟩ := Bindings.create_eq_ok hb'
  have hne : x.name ≠ name := by
    rintro hname
    simp [Bindings.contains, ← hname, hfind] at habsent
  rw [b.find?_insert_of_ne hne, hfind]

theorem shields_call (hb : (σ.heap.scope s).record.bindings? = some b) {call : VariableCall}
    (hspares : s = x.scope → call.Spares x) {f : Bindings → Except BindingError Bindings}
    (hf : call.apply b = (f b).map (.done, ·)) : ((Scope.update s b f).run σ).2.Shields x := by
  refine shields_update hσ hb fun hs b' hb' hfind ↦ ?_
  rw [hb'] at hf
  exact Dormant.find?_of_apply (hspares hs) hfind hf

end Variables

/-- A call that writes to a variable the scope holds itself, or else to a property. -/
theorem keeps_write (call : VariableCall) {s : ScopeRef} (hspares : s = x.scope → call.Spares x)
    {write : Bindings → Except BindingError Bindings}
    (hwrite : ∀ b, call.apply b = (write b).map (.done, ·)) {onObject : ObjectRef → Action Unit}
    (hobject : ∀ o, (dormancy x).Keeps (onObject o)) :
    (dormancy x).Keeps (do
      match (← Action.scope s).record with
      | .declarative b _ => Scope.update s b write
      | .object o _ => onObject o
      | .global o b _ => if b.contains call.name then Scope.update s b write else onObject o) := by
  refine of_run fun σ hσ ↦ ?_
  rw [Action.run_bind, Action.run_scope]
  dsimp only
  split
  next hrecord => exact shields_call hσ (by rw [hrecord]; rfl) hspares (hwrite _)
  next => exact HoldsDormant.shields (hobject _) hσ
  next hrecord =>
    split
    · exact shields_call hσ (by rw [hrecord]; rfl) hspares (hwrite _)
    · exact HoldsDormant.shields (hobject _) hσ

theorem keeps_initialise {eng : Engine} {s : ScopeRef} {name : String}
    (hne : (s, name) ≠ (x.scope, x.name)) (v : Value)
    (hobject : ∀ o, (dormancy x).Keeps (Scope.objectSet eng o name v false)) :
    (dormancy x).Keeps (Scope.initialise eng s name v) :=
  keeps_write (.initialise name v) (fun hs hname ↦ hne (by rw [hs, hname])) (fun _ ↦ rfl) hobject

theorem keeps_set (eng : Engine) (s : ScopeRef) (name : String) (v : Value) (strict : Bool)
    (hobject : ∀ o, (dormancy x).Keeps (Scope.objectSet eng o name v strict)) :
    (dormancy x).Keeps (Scope.set eng s name v strict) :=
  keeps_write (.set name v strict) (fun _ ↦ trivial) (fun _ ↦ rfl) hobject

theorem keeps_create (s : ScopeRef) (name : String) (y : Binding)
    {onObject : ObjectRef → Action Unit} (hobject : ∀ o, (dormancy x).Keeps (onObject o)) :
    (dormancy x).Keeps (do
      match (← Action.scope s).record with
      | .declarative b _ | .global _ b _ => Scope.update s b (·.create name y)
      | .object o _ => onObject o) := by
  refine of_run fun σ hσ ↦ ?_
  rw [Action.run_bind, Action.run_scope]
  dsimp only
  split
  next hrecord => exact shields_create hσ (by rw [hrecord]; rfl) _ _
  next hrecord => exact shields_create hσ (by rw [hrecord]; rfl) _ _
  next => exact HoldsDormant.shields (hobject _) hσ

theorem keeps_createMutable (eng : Engine) (s : ScopeRef) (name : String) (canDelete : Bool)
    (hobject : ∀ o, (dormancy x).Keeps (Scope.objectCreate eng o name canDelete)) :
    (dormancy x).Keeps (Scope.createMutable eng s name canDelete) :=
  keeps_create s name ⟨none, canDelete, true, false⟩ hobject

theorem keeps_createImmutable (s : ScopeRef) (name : String) (strict : Bool) :
    (dormancy x).Keeps (Scope.createImmutable s name strict) :=
  keeps_create s name ⟨none, false, false, strict⟩ fun _ ↦ of_eq (fun _ ↦ rfl) fun _ ↦ rfl

theorem keeps_modifyVarNames (s : ScopeRef) (f : List String → List String) :
    (dormancy x).Keeps (Scope.modifyVarNames s f) := by
  refine of_run fun σ hσ ↦ hσ.of_objects rfl (hσ.waits.modifyScope fun hs ↦ ?_)
  obtain ⟨b, ⟨-, this, hrecord⟩, -⟩ := hσ.waits
  rw [hs, hrecord]
  exact hrecord

theorem keeps_delete {s : ScopeRef} {name : String}
    (hspares : s = x.scope → (VariableCall.delete name).Spares x)
    (hobject : ∀ o, (dormancy x).Keeps (Object.delete o (Scope.keyOf name))) :
    (dormancy x).Keeps (Scope.delete s name) := by
  have hdelete {σ : State} (hσ : σ.Shields x) {b : Bindings}
      (hb : (σ.heap.scope s).record.bindings? = some b) :
      ((Scope.deleteBinding s b name).run σ).2.Shields x :=
    hσ.of_objects rfl (hσ.waits.withBindings hb fun hs hfind ↦
      Dormant.find?_of_apply (hspares hs) hfind rfl)
  have hproperty (o : ObjectRef) : (dormancy x).Keeps (do
      if ((← Action.heap).object o).hasOwn (Scope.keyOf name) then
        let deleted ← Object.delete o (Scope.keyOf name)
        if deleted then Scope.modifyVarNames s (·.filter (· ≠ name))
        return deleted
      else return true) := by
    refine basics.keeps_heap.bind fun h ↦ Policy.keeps_ite ?_ (Policy.keeps_pure _)
    refine (hobject o).bind fun deleted ↦ ?_
    dsimp only
    refine Policy.keeps_ite ?_ (Policy.keeps_pure _)
    exact (keeps_modifyVarNames s _).bind fun _ ↦ Policy.keeps_pure _
  refine of_run fun σ hσ ↦ ?_
  rw [Scope.delete, Action.run_bind, Action.run_scope]
  dsimp only
  split
  next hrecord => exact hdelete hσ (by rw [hrecord]; rfl)
  next => exact HoldsDormant.shields (hobject _) hσ
  next o b _ hrecord =>
    split
    · exact hdelete hσ (by rw [hrecord]; rfl)
    · exact HoldsDormant.shields (hproperty o) hσ

theorem keeps_storeBound {s : ScopeRef} {name : String}
    (hne : x.isMutable = true → (s, name) ≠ (x.scope, x.name)) (v : Value) :
    (dormancy x).Keeps (Action.modifyHeap (·.storeBound s name v)) :=
  of_run fun _ hσ ↦ hσ.of_objects rfl (hσ.waits.storeBound hne v)

/-- A scope that is made now is not the one of the variable. -/
theorem holds_addScope {m : Action ScopeRef} (data : State → Scope)
    (hrun : ∀ σ, m.run σ =
      (.ok (σ.heap.addScope (data σ)).1, { σ with heap := (σ.heap.addScope (data σ)).2 })) :
    (dormancy x).Holds ∅ m fun s ↦ {.holder s} := by
  intro _ σ hσ
  rw [hrun]
  refine ⟨hσ.addScope _, fun s hs fact hfact ↦ ?_⟩
  cases hs
  cases hfact
  obtain ⟨b, ⟨hlt, -⟩, -⟩ := hσ.waits
  rintro hscope
  exact Nat.ne_of_lt hlt (congrArg ScopeRef.index hscope).symm

theorem scopes (hdelete : x.canDelete = false) : (dormancy x).Scopes where
  newBlockScope outer :=
    holds_addScope (fun σ ↦ ⟨.declarative .empty none, some outer, (σ.heap.scope outer).isStrict⟩)
      fun _ ↦ rfl
  newFunctionScope outer this strict :=
    holds_addScope (fun _ ↦ ⟨.declarative .empty this, some outer, strict⟩) fun _ ↦ rfl
  newObjectScope o isWith outer := of_run fun _ hσ ↦ hσ.addScope _
  createMutable eng s name hobject := by
    intro hΓ σ hσ
    refine ⟨HoldsDormant.shields (keeps_createMutable eng s name false hobject) hσ, ?_⟩
    rintro _ _ _ rfl hsame
    exact hΓ (.holder s) rfl (congrArg Prod.fst hsame)
  createImmutable s name strict := by
    intro hΓ σ hσ
    refine ⟨HoldsDormant.shields (keeps_createImmutable s name strict) hσ, ?_⟩
    rintro _ _ _ rfl hsame
    exact hΓ (.holder s) rfl (congrArg Prod.fst hsame)
  initialise eng s name v hobject hΓ :=
    keeps_initialise (hΓ (.declared s name) rfl) v hobject nofun
  set := keeps_set
  delete s name hobject := keeps_delete (fun _ _ ↦ hdelete) hobject
  modifyVarNames s f := (keeps_modifyVarNames s f).of_subset (Set.empty_subset _)

/-! ## Properties -/

section Properties

variable {eng : Engine} (heng : (dormancy x).Serves eng)

include heng

theorem keeps_readApart (o : ObjectRef) (k : PropertyKey) :
    (dormancy x).Keeps (Lazy.readApart eng o k) := by
  refine of_run fun σ hσ ↦ ?_
  have hinner := HoldsDormant.shields (heng.get o k (.object o)) hσ.beside
  rw [Lazy.run_readApart]
  exact HoldsDormant.shields (basics.keeps_report (fun _ ↦ of_eq (fun _ ↦ rfl) fun _ ↦ rfl) _ _)
    (hσ.resume hinner)

theorem keeps_getOwn (o : ObjectRef) (k : PropertyKey) :
    (dormancy x).Keeps (Object.getOwn eng o k) := by
  have hresolve := basics.keeps_resolve (fun _ ↦ of_eq (fun _ ↦ rfl) fun _ ↦ rfl)
    (fun _ _ ↦ of_run fun _ hσ ↦ hσ.of_objects rfl (hσ.waits.of_scopes rfl)) (keeps_readApart heng)
  have hmemoize (c : CellRef) (v : Value) :
      (dormancy x).Keeps (Action.modifyObject o (Object.memoize k c v)) := by
    refine of_run fun σ hσ ↦ hσ.modifyObject o (fun data hdata ↦ ?_) fun data ↦
      data.callable_modify k _
    exact hdata.modify k fun d hd ↦ hd.of_boundTo? (d.boundTo?_resolveCell c v)
  refine basics.keeps_heap.bind fun h ↦ ?_
  split
  · exact Policy.keeps_pure _
  · refine (hresolve _ _).bind fun v ↦ ?_
    exact (hmemoize _ v).bind fun _ ↦ Policy.keeps_pure _
  · exact basics.keeps_heap.bind fun _ ↦ Policy.keeps_pure _
  · exact Policy.keeps_pure _

theorem keeps_define (o : ObjectRef) (k : PropertyKey) {patch : Descriptor}
    (hpatch : x.Fits patch) : (dormancy x).Keeps (Object.define eng o k patch) := by
  refine of_run fun σ hσ ↦ ?_
  have hread := HoldsDormant.shields (keeps_getOwn heng o k) hσ
  rw [Object.run_define]
  rcases hrun : (Object.getOwn eng o k).run σ with ⟨e | _ | shown, τ⟩
  · rwa [hrun] at hread
  · rw [hrun] at hread
    dsimp only
    split
    · exact State.Shields.store hread o k (hpatch.of_boundTo? patch.boundTo?_complete)
    · exact hread
  · rw [hrun] at hread
    have hτ : τ.Shields x := hread
    dsimp only
    split
    · obtain ⟨form, heap, hstore, hpasses, -, hform⟩ :=
        Object.run_storePatched o k patch (shown.patched patch) τ
      rw [hstore]
      refine (hτ.passesOn hpasses).store o k ?_
      rcases hform with rfl | ⟨d, hown, rfl⟩
      · have hshown := fading.boundTo?_of_run_getOwn hrun
        exact hpatch.of_boundTo? (Descriptor.boundTo?_patched hshown patch)
      · exact (hτ.fits hown).of_boundTo? rfl
    · exact hread

end Properties

theorem properties : (dormancy x).Properties where
  getOwn _ heng o k := keeps_getOwn heng o k
  define _ heng o k _ hpatch := keeps_define heng o k hpatch
  delete o k := by
    refine of_run fun σ hσ ↦ ?_
    rw [Object.run_delete]
    split
    · exact hσ
    · split
      · exact hσ.modifyObject o (fun _ hdata ↦ hdata.remove k) fun data ↦ data.callable_remove k
      · exact hσ
  setPrototype o prototype := by
    refine basics.keeps_heap.bind fun h ↦ ?_
    refine Policy.keeps_ite (Policy.keeps_pure _) (Policy.keeps_ite (Policy.keeps_pure _)
      (Policy.keeps_ite (Policy.keeps_pure _) ?_))
    have hset : (dormancy x).Keeps (Action.modifyObject o fun data ↦ { data with prototype }) :=
      of_run fun _ hσ ↦
        hσ.modifyObject o (fun _ hdata ↦ hdata.of_stores rfl rfl rfl) fun _ ↦ rfl
    exact hset.bind fun _ ↦ Policy.keeps_pure _
  preventExtensions o := of_run fun _ hσ ↦
    hσ.modifyObject o (fun _ hdata ↦ hdata.of_stores rfl rfl rfl) fun _ ↦ rfl

theorem governs (hdelete : x.canDelete = false) (n : Nat) : (dormancy x).Governs (.level n) :=
  Policy.Lawful.governs_level ⟨basics, makes.creation, scopes hdelete, properties⟩ n

end dormancy

end Ecma
