import Ecma.Conversion.Wrapper
import Ecma.Function.Instantiation
import Ecma.Proofs.Discipline.Basic

/-!
# New objects, scopes and errors

The engine makes an object step by step: it adds one, and stores properties of
it afterwards.  Seen from before, the heap has grown.
-/

namespace Ecma

namespace Action

/-- From a heap that has grown from `h₀`, the action always yields a result, one
with the property `Q`, and the heap has still only grown. -/
def Allocates {α : Type} (H : HostContract) (h₀ : Heap) (Q : α → Prop) (m : Action α) :
    Prop :=
  ∀ σ, h₀.Grows H σ.heap → ∃ a σ', m.run σ = (.ok a, σ') ∧
    h₀.Grows H σ'.heap ∧ σ'.callDepth = σ.callDepth ∧ Q a

/-- A reference that `h₀` does not have. -/
def IsNew (h₀ : Heap) (o : ObjectRef) : Prop := h₀.objects.size ≤ o.index

section Combinators

variable {α β : Type} {H : HostContract} {h₀ : Heap} {Q : α → Prop} {R : β → Prop}

theorem allocates_pure {a : α} (ha : Q a) : Allocates H h₀ Q (pure a) :=
  fun σ hσ ↦ ⟨a, σ, rfl, hσ, rfl, ha⟩

theorem Allocates.bind {m : Action α} {f : α → Action β} (hm : Allocates H h₀ Q m)
    (hf : ∀ a, Q a → Allocates H h₀ R (f a)) : Allocates H h₀ R (m >>= f) := by
  intro σ hσ
  obtain ⟨a, σ₁, hrun, hgrows, hdepth, ha⟩ := hm σ hσ
  obtain ⟨b, σ₂, hrun', hgrows', hdepth', hb⟩ := hf a ha σ₁ hgrows
  refine ⟨b, σ₂, ?_, hgrows', hdepth'.trans hdepth, hb⟩
  rw [run_bind, hrun]
  exact hrun'

theorem allocates_get : Allocates H h₀ (fun _ ↦ True) (get : Action State) :=
  fun σ hσ ↦ ⟨σ, σ, rfl, hσ, rfl, trivial⟩

theorem allocates_realm : Allocates H h₀ (fun _ ↦ True) realm :=
  allocates_get.bind fun _ _ ↦ allocates_pure trivial

theorem allocates_scope (s : ScopeRef) : Allocates H h₀ (fun _ ↦ True) (scope s) :=
  fun σ hσ ↦ ⟨_, σ, rfl, hσ, rfl, trivial⟩

theorem allocates_addObject {data : Object} (hdata : data.Conforms Descriptor.IsComplete H) :
    Allocates H h₀ (IsNew h₀) (onHeap (·.addObject data)) :=
  fun _ hσ ↦ ⟨_, _, rfl, hσ.addObject hdata, rfl, hσ.objects_le⟩

theorem allocates_modifyObject {o : ObjectRef} (ho : IsNew h₀ o) {f : Object → Object}
    (hf : ∀ data : Object, data.Conforms Descriptor.IsComplete H →
      (f data).Conforms Descriptor.IsComplete H) :
    Allocates H h₀ (fun _ ↦ True) (modifyObject o f) :=
  fun _ hσ ↦ ⟨(), _, rfl, hσ.modifyObject ho hf, rfl, trivial⟩

theorem allocates_store {o : ObjectRef} (ho : IsNew h₀ o) (k : PropertyKey) {d : Descriptor}
    (hd : d.IsComplete) : Allocates H h₀ (fun _ ↦ True) (store o k d) :=
  allocates_modifyObject ho fun _ hdata ↦ hdata.store k hd

theorem allocates_newCell (r : Resolver) : Allocates H h₀ (fun _ ↦ True) (newCell r) :=
  fun _ hσ ↦ ⟨_, _, rfl, hσ.addCell r, rfl, trivial⟩

theorem allocates_newObject (c : ObjectClass) (prototype : Option ObjectRef) :
    Allocates H h₀ (IsNew h₀) (newObject c prototype) :=
  allocates_get.bind fun _ _ ↦ allocates_addObject (Object.conforms_new _ _ _)

theorem allocates_newPlainObject : Allocates H h₀ (IsNew h₀) newPlainObject :=
  allocates_realm.bind fun _ _ ↦ allocates_newObject _ _

theorem allocates_newError (kind : ErrorKind) (message : String) :
    Allocates H h₀ (fun _ ↦ True) (newError kind message) := by
  refine allocates_realm.bind fun _ _ ↦ ?_
  refine (allocates_newObject _ _).bind fun o ho ↦ ?_
  exact (allocates_store ho _ (Descriptor.isComplete_data _ _ _ _)).bind fun _ _ ↦
    allocates_pure trivial

end Combinators

/-! ## Errors -/

theorem run_newError (kind : ErrorKind) (message : String) (σ : State) :
    (newError kind message).run σ =
      (let made := σ.heap.addObject
         (.new (.error kind) (some (σ.realm.errorPrototype kind)) σ.options.cutover)
       let heap := made.2.modifyObject made.1
         (·.store (.ofString "message") (.hidden (.ofString message)))
       (.ok (.object made.1), { σ with heap })) := rfl

/-- An error is a new object, and is thrown from no place in particular. -/
theorem run_raise {α : Type} (kind : ErrorKind) (message : String) (σ : State) :
    (raise kind message : Action α).run σ =
      (let r := (newError kind message).run { σ with throwLocation := none }
       (r.1.bind fun v ↦ .error (.thrown v), r.2)) := rfl

end Action

/-- The later heap has one more object, an error of the kind. -/
structure Heap.GainsError (kind : ErrorKind) (h h' : Heap) : Prop where
  scopes : h'.scopes = h.scopes
  cells : h'.cells = h.cells
  object_eq : ∀ o : ObjectRef, o.index < h.objects.size → h'.object o = h.object o
  error : (h'.object ⟨h.objects.size⟩).objectClass = .error kind

/-- The outcome of throwing a new error of the kind from a state: nothing that is there
has changed. -/
def State.Throws {α : Type} (σ : State) (kind : ErrorKind) (r : Except Failure α × State) : Prop :=
  ∃ heap, σ.heap.GainsError kind heap ∧
    r = (.error (.thrown (.object ⟨σ.heap.objects.size⟩)), { σ with heap, throwLocation := none })

theorem Action.throws_raise {α : Type} (kind : ErrorKind) (message : String) (σ : State) :
    σ.Throws kind ((raise kind message : Action α).run σ) := by
  let made := σ.heap.addObject
    (.new (.error kind) (some (σ.realm.errorPrototype kind)) σ.options.cutover)
  let heap := made.2.modifyObject made.1
    (·.store (.ofString "message") (.hidden (.ofString message)))
  have hlt : made.1.index < made.2.objects.size := by simp [made, Heap.addObject]
  refine ⟨heap, ⟨rfl, rfl, fun o ho ↦ ?_, ?_⟩, rfl⟩
  · have hne : o ≠ made.1 := fun heq ↦ Nat.lt_irrefl _ (heq ▸ ho)
    exact (Heap.object_modifyObject_of_ne _ hne _).trans (Heap.object_addObject_of_lt ho _)
  · have herror := Heap.object_modifyObject_self hlt
      (·.store (.ofString "message") (.hidden (.ofString message)))
    change (heap.object made.1).objectClass = _
    rw [herror, Object.objectClass_store, Heap.object_addObject_self]
    rfl

/-- A throw ends what follows it. -/
theorem State.Throws.bind {α β : Type} {σ : State} {kind : ErrorKind} {m : Action α}
    (h : σ.Throws kind (m.run σ)) (f : α → Action β) : σ.Throws kind ((m >>= f).run σ) := by
  obtain ⟨heap, hgains, hrun⟩ := h
  rw [Action.run_bind, hrun]
  exact ⟨heap, hgains, rfl⟩

/-! ## Functions -/

namespace Function

open Ecma.Action

variable {H : HostContract} {h₀ : Heap}

theorem conforms_baseData {Fits : Descriptor → Prop} (hFits : ∀ v w e c, Fits (.data v w e c))
    (prototype : ObjectRef) (cutover : Nat) {f : Callable} (hf : f.Honours H) (name : String)
    (length : Nat) : (baseData prototype cutover f name length).Conforms Fits H :=
  (((Object.conforms_new _ _ _).store _ (hFits _ _ _ _)).store _ (hFits _ _ _ _)).withCallable hf

theorem allocates_makeConstructor {o : ObjectRef} (ho : IsNew h₀ o) :
    Allocates H h₀ (fun _ ↦ True) (makeConstructor o) := by
  refine allocates_newPlainObject.bind fun prototype hprototype ↦ ?_
  refine (allocates_store hprototype _ (Descriptor.isComplete_data _ _ _ _)).bind fun _ _ ↦ ?_
  exact allocates_store ho _ (Descriptor.isComplete_data _ _ _ _)

theorem allocates_create {f : Callable} (hf : f.Honours H) (name : String) (length : Nat) :
    Allocates H h₀ (IsNew h₀) (create f name length) := by
  refine allocates_get.bind fun state _ ↦ ?_
  have hdata := conforms_baseData Descriptor.isComplete_data state.realm.functionPrototype
    state.options.cutover hf name length
  refine (allocates_addObject hdata).bind fun o ho ↦ ?_
  dsimp only
  split
  · exact (allocates_makeConstructor ho).bind fun _ _ ↦ allocates_pure ho
  · exact allocates_pure ho

theorem allocates_instantiate (f : FunctionNode) (s : ScopeRef) (name : Option String) :
    Allocates H h₀ (fun _ ↦ True) (instantiate f s name) := by
  have hclosure (strict : Bool) : (Callable.closure f s strict).Honours H := trivial
  refine (allocates_scope s).bind fun _ _ ↦ ?_
  exact (allocates_create (hclosure _) _ _).bind fun _ _ ↦ allocates_pure trivial

end Function

/-! ## Arguments objects -/

namespace Arguments

open Ecma.Action

variable {H : HostContract} {h₀ : Heap}

theorem conforms_storeValues {Fits : Descriptor → Prop} (hFits : ∀ v, Fits (.plain v))
    (args : List Value) (i : Nat) {data : Object} (hdata : data.Conforms Fits H) :
    (storeValues i args data).Conforms Fits H := by
  induction args generalizing i data with
  | nil => exact hdata
  | cons v rest ih => exact ih (i + 1) (hdata.store _ (hFits v))

theorem conforms_baseData {Fits : Descriptor → Prop} (hFits : ∀ v w e c, Fits (.data v w e c))
    (prototype : ObjectRef) (cutover : Nat) (args : List Value) :
    (baseData prototype cutover args).Conforms Fits H :=
  (conforms_storeValues (fun v ↦ hFits v true true true) args 0 (Object.conforms_new _ _ _)).store _
    (hFits _ _ _ _)

theorem allocates_createBase (args : List Value) :
    Allocates H h₀ (IsNew h₀) (createBase args) :=
  allocates_get.bind fun _ _ ↦
    allocates_addObject (conforms_baseData Descriptor.isComplete_data _ _ _)

/-- What guards the callee only raises an error. -/
theorem honours_thrower : (Callable.native "" 0 thrower).Honours H := by
  intro this args
  refine ⟨trivial, ?_⟩
  intro reply hreply
  cases reply with
  | error e =>
      intro e' h
      cases h
      exact hreply e rfl
  | ok reply => exact nomatch (reply : Empty)

theorem allocates_createUnmapped (args : List Value) :
    Allocates H h₀ (IsNew h₀) (createUnmapped args) := by
  refine (allocates_createBase args).bind fun o ho ↦ ?_
  have hcallee : Allocates H h₀ (fun _ ↦ True) (Function.createNative "" 0 thrower) :=
    (Function.allocates_create honours_thrower _ _).bind fun _ _ ↦ allocates_pure trivial
  refine hcallee.bind fun f _ ↦ ?_
  exact (allocates_store ho _ (Descriptor.isComplete_accessor _ _ _ _)).bind fun _ _ ↦
    allocates_pure ho

theorem conforms_storeMapped {Fits : Descriptor → Prop} {s : ScopeRef}
    (hFits : ∀ name e c, Fits (.bound s name e c)) (entries : List (String × Nat)) {data : Object}
    (hdata : data.Conforms Fits H) : (storeMapped s entries data).Conforms Fits H := by
  induction entries generalizing data with
  | nil => exact hdata
  | cons e rest ih => exact ih (hdata.store _ (hFits _ _ _))

theorem allocates_createMapped (callee : ObjectRef) (params : List String) (args : List Value)
    (s : ScopeRef) : Allocates H h₀ (IsNew h₀) (createMapped callee params args s) := by
  refine (allocates_createBase args).bind fun o ho ↦ ?_
  have hmapped (data : Object) (hdata : data.Conforms Descriptor.IsComplete H) :=
    conforms_storeMapped (Descriptor.isComplete_bound s) (mapped params args.length) hdata
  refine (allocates_modifyObject ho hmapped).bind fun _ _ ↦ ?_
  exact (allocates_store ho _ (Descriptor.isComplete_data _ _ _ _)).bind fun _ _ ↦
    allocates_pure ho

end Arguments

/-! ## Objects of primitive values -/

namespace Conversion

open Ecma.Action

variable {H : HostContract} {h₀ : Heap}

theorem allocates_storeUnits (units : List UInt16) (i : Nat) {data : Object}
    (hdata : data.Conforms Descriptor.IsComplete H) :
    Allocates H h₀ (fun data : Object ↦ data.Conforms Descriptor.IsComplete H)
      (storeUnits i units data) := by
  induction units generalizing i data with
  | nil => exact allocates_pure hdata
  | cons u rest ih =>
      refine (allocates_newCell _).bind fun cell _ ↦ ?_
      exact ih (i + 1) (hdata.store _ (Descriptor.isComplete_lazy _ _ _ _))

theorem allocates_storeText (t : Text) {data : Object}
    (hdata : data.Conforms Descriptor.IsComplete H) :
    Allocates H h₀ (fun data : Object ↦ data.Conforms Descriptor.IsComplete H)
      (storeText t data) :=
  (allocates_storeUnits t.units 0 hdata).bind fun _ hdata' ↦
    allocates_pure (hdata'.store _ (Descriptor.isComplete_data _ _ _ _))

theorem allocates_wrap (c : ObjectClass) (prototype : ObjectRef) (v : Value) :
    Allocates H h₀ (IsNew h₀) (wrap c prototype v) := by
  have hnew (cutover : Nat) :
      ({ Object.new c (some prototype) cutover with primitive := some v } : Object).Conforms
        Descriptor.IsComplete H :=
    (Object.conforms_new _ _ _).withPrimitive v
  refine allocates_get.bind fun state _ ↦ ?_
  dsimp only
  split
  · exact (allocates_storeText _ (hnew _)).bind fun _ hdata ↦ allocates_addObject hdata
  · exact allocates_addObject (hnew _)

end Conversion

/-! ## Realms -/

namespace Realm

variable {H : HostContract} {data : Object}

section Objects

variable {Fits : Descriptor → Prop} (hFits : ∀ v w e c, Fits (.data v w e c))

include hFits

theorem conforms_storeHidden (hdata : data.Conforms Fits H) (name : String)
    (v : Value) : (storeHidden data name v).Conforms Fits H :=
  hdata.store _ (hFits _ _ _ _)

theorem conforms_storeFrozen (hdata : data.Conforms Fits H) (name : String)
    (v : Value) : (storeFrozen data name v).Conforms Fits H :=
  hdata.store _ (hFits _ _ _ _)

theorem conforms_errorObject (prototype : ObjectRef) (name : String) (cutover : Nat) :
    (errorObject prototype name cutover).Conforms Fits H :=
  conforms_storeHidden hFits (conforms_storeHidden hFits (Object.conforms_new _ _ _) _ _) _ _

theorem conforms_globalData_of_fits (prototype self : ObjectRef) (cutover : Nat) :
    (globalData prototype self cutover).Conforms Fits H := by
  refine conforms_storeHidden hFits (conforms_storeFrozen hFits (conforms_storeFrozen hFits ?_ _ _)
    _ _) _ _
  exact conforms_storeFrozen hFits (Object.conforms_new _ _ _) _ _

/-- A new realm is made of new objects with plain properties, and a scope. -/
theorem build_induction {M : Heap → Prop} (hobject : ∀ h (data : Object), data.Conforms Fits H →
      M h → M (h.addObject data).2) (hscope : ∀ h data, M h → M (h.addScope data).2)
    (cutover : Nat) {h : Heap} (hh : M h) : M (build cutover h).2 := by
  have hempty : emptyFunction.Honours H := fun _ _ ↦ nofun
  have hnew (c : ObjectClass) (prototype : Option ObjectRef) :
      (Object.new c prototype cutover).Conforms Fits H :=
    Object.conforms_new c prototype cutover
  unfold build
  refine hscope _ _ ?_
  refine hobject _ _ (conforms_globalData_of_fits hFits _ _ _) ?_
  refine hobject _ _ (conforms_errorObject hFits _ _ _) ?_
  refine hobject _ _ (conforms_errorObject hFits _ _ _) ?_
  refine hobject _ _ (conforms_errorObject hFits _ _ _) ?_
  refine hobject _ _ (conforms_errorObject hFits _ _ _) ?_
  refine hobject _ _ (conforms_errorObject hFits _ _ _) ?_
  refine hobject _ _ (hnew _ _) ?_
  refine hobject _ _ ((hnew _ _).withPrimitive _) ?_
  refine hobject _ _ ((hnew _ _).withPrimitive _) ?_
  refine hobject _ _ ((hnew _ _).withPrimitive _) ?_
  refine hobject _ _ ((hnew _ _).withCallable hempty) ?_
  exact hobject _ _ (hnew _ _) hh

theorem allConform_build (cutover : Nat) {h : Heap} (hh : h.AllConform Fits H) :
    (build cutover h).2.AllConform Fits H :=
  build_induction hFits (fun _ _ hdata hh ↦ hh.addObject hdata) (fun _ _ hh ↦ hh.of_objects rfl)
    cutover hh

end Objects

theorem grows_build (cutover : Nat) (h : Heap) : h.Grows H (build cutover h).2 :=
  build_induction Descriptor.isComplete_data (fun _ _ hdata hg ↦ hg.addObject hdata)
    (fun _ data hg ↦ hg.addScope data) cutover h.grows_refl

theorem scopes_build (cutover : Nat) (h : Heap) :
    ∃ data, (build cutover h).2.scopes = h.scopes.push data :=
  ⟨_, rfl⟩

end Realm

/-! ## Actions that keep a discipline -/

namespace Discipline

variable {D : Discipline} {α : Type}

theorem keeps_heap : D.Keeps Action.heap := keeps_of_run_eq (·.heap) fun _ ↦ rfl

namespace Base

variable (hD : D.Base)

include hD

/-- An action that changes neither objects nor cells. -/
theorem keeps_of_quiet {m : Action α} (a : State → α) (f : State → State)
    (hrun : ∀ σ, m.run σ = (.ok (a σ), f σ))
    (hobjects : ∀ σ, (f σ).heap.objects = σ.heap.objects)
    (hcells : ∀ σ, (f σ).heap.cells = σ.heap.cells)
    (hdepth : ∀ σ, (f σ).callDepth = σ.callDepth) : D.Keeps m := by
  intro σ hσ
  obtain ⟨hgood, hstep⟩ := hD.quiet σ (f σ) (hobjects σ) (hcells σ) (hdepth σ) hσ
  rw [hrun]
  exact (allows_ok hgood _).after hstep

theorem keeps_of_allocates {Q : Heap → α → Prop} {m : Action α}
    (h : ∀ h₀, m.Allocates D.toHostContract h₀ (Q h₀)) : D.Keeps m := by
  intro σ hσ
  obtain ⟨a, σ', hrun, hgrows, hdepth, -⟩ := h σ.heap σ (Heap.grows_refl σ.heap)
  obtain ⟨hgood, hstep⟩ := hD.grows σ σ' hgrows hdepth hσ
  rw [hrun]
  exact (allows_ok hgood _).after hstep

/-! ### Quiet actions -/

theorem keeps_modifyScope (s : ScopeRef) (f : Scope → Scope) :
    D.Keeps (Action.modifyHeap (·.modifyScope s f)) :=
  hD.keeps_of_quiet _ _ (fun _ ↦ rfl) (fun _ ↦ rfl) (fun _ ↦ rfl) fun _ ↦ rfl

theorem keeps_storeBound (s : ScopeRef) (name : String) (v : Value) :
    D.Keeps (Action.modifyHeap (·.storeBound s name v)) :=
  hD.keeps_modifyScope s _

theorem keeps_addScope (data : Scope) : D.Keeps (Action.onHeap (·.addScope data)) :=
  hD.keeps_of_quiet _ _ (fun _ ↦ rfl) (fun _ ↦ rfl) (fun _ ↦ rfl) fun _ ↦ rfl

theorem keeps_newSymbol (description : Option String) :
    D.Keeps (Action.newSymbol description) :=
  hD.keeps_of_quiet _ _ (fun _ ↦ rfl) (fun _ ↦ rfl) (fun _ ↦ rfl) fun _ ↦ rfl

theorem keeps_log (line : String) : D.Keeps (Action.log line) :=
  hD.keeps_of_quiet _ _ (fun _ ↦ rfl) (fun _ ↦ rfl) (fun _ ↦ rfl) fun _ ↦ rfl

theorem keeps_setThrowLocation (l : Option Location) : D.Keeps (Action.setThrowLocation l) :=
  hD.keeps_of_quiet _ _ (fun _ ↦ rfl) (fun _ ↦ rfl) (fun _ ↦ rfl) fun _ ↦ rfl

theorem keeps_interrupt : D.Keeps Action.interrupt :=
  hD.keeps_of_quiet _ _ (fun _ ↦ rfl) (fun _ ↦ rfl) (fun _ ↦ rfl) fun _ ↦ rfl

/-! ### Allocating actions -/

theorem keeps_newObject (c : ObjectClass) (prototype : Option ObjectRef) :
    D.Keeps (Action.newObject c prototype) :=
  hD.keeps_of_allocates fun _ ↦ Action.allocates_newObject c prototype

theorem keeps_newCell (r : Resolver) : D.Keeps (Action.newCell r) :=
  hD.keeps_of_allocates fun _ ↦ Action.allocates_newCell r

theorem keeps_newError (kind : ErrorKind) (message : String) :
    D.Keeps (Action.newError kind message) :=
  hD.keeps_of_allocates fun _ ↦ Action.allocates_newError kind message

theorem keeps_raise (kind : ErrorKind) (message : String) :
    D.Keeps (Action.raise kind message : Action α) := by
  refine (hD.keeps_setThrowLocation none).bind fun _ ↦ ?_
  exact (hD.keeps_newError kind message).bind fun v ↦ keeps_throw_thrown v

theorem keeps_instantiate (f : FunctionNode) (s : ScopeRef) (name : Option String) :
    D.Keeps (Function.instantiate f s name) :=
  hD.keeps_of_allocates fun _ ↦ Function.allocates_instantiate f s name

theorem keeps_createUnmapped (args : List Value) : D.Keeps (Arguments.createUnmapped args) :=
  hD.keeps_of_allocates fun _ ↦ Arguments.allocates_createUnmapped args

theorem keeps_createMapped (callee : ObjectRef) (params : List String) (args : List Value)
    (s : ScopeRef) : D.Keeps (Arguments.createMapped callee params args s) :=
  hD.keeps_of_allocates fun _ ↦ Arguments.allocates_createMapped callee params args s

theorem keeps_wrap (c : ObjectClass) (prototype : ObjectRef) (v : Value) :
    D.Keeps (Conversion.wrap c prototype v) :=
  hD.keeps_of_allocates fun _ ↦ Conversion.allocates_wrap c prototype v

end Base

end Discipline

end Ecma
