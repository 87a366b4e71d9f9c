import Ecma.Proofs.Discipline.Allocation
import Ecma.Proofs.Policy.Functions

/-!
# Policies that are easy to keep

A policy that does not look at scopes, or not at the properties of objects, has
fewer laws to show: here the laws of scopes and of properties are derived from
those of single changes of the heap.
-/

namespace Ecma

namespace Lazy

/-- Logs what came of a read through another interpreter. -/
def report (h : Heap) : Except Failure Value → Action Unit
  | .ok v => Action.log ("reenter ok " ++ h.display v)
  | .error (.fault .outOfFuel) => Action.fault .outOfFuel
  | .error e => Action.log ("reenter error " ++ h.describeFailure e)

theorem run_readApart (eng : Engine) (o : ObjectRef) (k : PropertyKey) (σ : State) :
    (readApart eng o k).run σ =
      (let r := (eng.get o k (.object o)).run σ.beside
       (report r.2.heap r.1).run (σ.resume r.2)) := rfl

end Lazy

namespace Policy

variable {P : Policy}

section Resolvers

variable (hP : P.Basics) (hlog : ∀ line, P.Keeps (Action.log line))

include hP hlog

theorem Basics.keeps_report (h : Heap) (r : Except Failure Value) : P.Keeps (Lazy.report h r) := by
  unfold Lazy.report
  split
  · exact hlog _
  · exact hP.keeps_outOfFuel
  · exact hlog _

/-- Where cells may change in any way, resolving comes down to reading apart. -/
theorem Basics.keeps_resolve {eng : Engine}
    (hset : ∀ c data, P.Keeps (Action.modifyHeap (·.setCell c data)))
    (hread : ∀ o k, P.Keeps (Lazy.readApart eng o k)) (c : CellRef) (key : String) :
    P.Keeps (Lazy.resolve eng c key) := by
  have hsteps (steps : List ResolverStep) : P.Keeps (Lazy.runSteps eng steps) := by
    induction steps with
    | nil => exact keeps_pure ()
    | cons step rest ih =>
        cases step with
        | log line => exact (hlog line).bind fun _ ↦ ih
        | read o k => exact (hread o k).bind fun _ ↦ ih
  refine hP.keeps_heap.bind fun h ↦ ?_
  split
  · exact keeps_pure _
  · exact hP.fault _ nofun nofun
  · refine (hset c _).bind fun _ ↦ (hsteps _).bind fun _ ↦ ?_
    exact (hset c _).bind fun _ ↦ keeps_pure _

end Resolvers

theorem Basics.asks_thrower (hP : P.Basics) (this : Value) (args : List Value) :
    (Arguments.thrower this args).Asks P.Permits := by
  refine ⟨⟨hP.raises _ _, trivial⟩, fun reply ↦ ?_⟩
  cases reply with
  | error e => trivial
  | ok reply => exact nomatch (reply : Empty)

/-! ## Scopes that may change in any way -/

/-- The policy does not look at scopes. -/
structure Loose (P : Policy) : Prop where
  basics : P.Basics
  free : ∀ {α : Type} {Γ : Set Fact} {m : Action α} {Φ : α → Set Fact}, P.Keeps m → P.Holds Γ m Φ
  neverCreated : P.Keeps (Action.fault (.invariant .bindingNeverCreated) : Action Unit)
  addScope : ∀ data, P.Keeps (Action.onHeap (·.addScope data))
  modifyScope : ∀ s f, P.Keeps (Action.modifyHeap (·.modifyScope s f))

namespace Loose

variable (hP : P.Loose)

include hP

theorem keeps_update (s : ScopeRef) (b : Bindings) (f : Bindings → Except BindingError Bindings) :
    P.Keeps (Scope.update s b f) := by
  unfold Scope.update
  split
  · exact hP.modifyScope s _
  · unfold Scope.throwBinding
    split
    · exact hP.basics.keeps_throwNew _
    · exact hP.neverCreated

theorem keeps_deleteBinding (s : ScopeRef) (b : Bindings) (name : String) :
    P.Keeps (Scope.deleteBinding s b name) :=
  (hP.modifyScope s _).bind fun _ ↦ keeps_pure _

theorem keeps_delete (s : ScopeRef) (name : String)
    (hobject : ∀ o, P.Keeps (Object.delete o (Scope.keyOf name))) :
    P.Keeps (Scope.delete s name) := by
  refine (hP.basics.keeps_scope s).bind fun scope ↦ ?_
  split
  · exact hP.keeps_deleteBinding s _ name
  · exact hobject _
  · refine keeps_ite (hP.keeps_deleteBinding s _ name) ?_
    refine hP.basics.keeps_heap.bind fun h ↦ keeps_ite ?_ (keeps_pure _)
    refine (hobject _).bind fun deleted ↦ ?_
    dsimp only
    exact keeps_ite ((hP.modifyScope s _).bind fun _ ↦ keeps_pure _) (keeps_pure _)

theorem scopes : P.Scopes where
  newBlockScope outer := by
    apply hP.free
    exact (hP.basics.keeps_scope outer).bind fun _ ↦ hP.addScope _
  newFunctionScope outer this strict := hP.free (hP.addScope _)
  newObjectScope o isWith outer :=
    (hP.basics.keeps_scope outer).bind fun _ ↦ hP.addScope _
  createMutable eng s name hobject := by
    apply hP.free
    refine (hP.basics.keeps_scope s).bind fun scope ↦ ?_
    split
    · exact hP.keeps_update s _ _
    · exact hP.keeps_update s _ _
    · exact hobject _
  createImmutable s name strict := by
    apply hP.free
    refine (hP.basics.keeps_scope s).bind fun scope ↦ ?_
    split
    · exact hP.keeps_update s _ _
    · exact hP.keeps_update s _ _
    · exact hP.basics.fault _ nofun nofun
  initialise eng s name v hobject := by
    apply hP.free
    refine (hP.basics.keeps_scope s).bind fun scope ↦ ?_
    split
    · exact hP.keeps_update s _ _
    · exact hobject _
    · exact keeps_ite (hP.keeps_update s _ _) (hobject _)
  set eng s name v strict hobject := by
    refine (hP.basics.keeps_scope s).bind fun scope ↦ ?_
    split
    · exact hP.keeps_update s _ _
    · exact hobject _
    · exact keeps_ite (hP.keeps_update s _ _) (hobject _)
  delete := hP.keeps_delete
  modifyVarNames s f := hP.free (hP.modifyScope s _)

end Loose

/-! ## Objects that are made -/

/-- Making an object is of the kind.  The properties that it gets are as `Fits` says, also those
that are bound to the variables of a scope made for a call. -/
structure Makes (P : Policy) (Fits : Descriptor → Prop) : Prop where
  basics : P.Basics
  data : ∀ v w e c, Fits (.data v w e c)
  accessor : ∀ get set e c, Fits (.accessor get set e c)
  lazy : ∀ cell w e c, Fits (.lazy cell w e c)
  newCell : ∀ r, P.asks (.newCell r) → P.Keeps (Action.newCell r)
  /-- The units of a text are made on first read. -/
  constant : ∀ v, P.asks (.newCell (.constant v))
  addObject : ∀ data : Object, data.Conforms Fits P.host →
    (∀ f, data.callable = some f → P.Admissible f) → P.Keeps (Action.onHeap (·.addObject data))
  store : ∀ o k d, Fits d → P.Keeps (Action.store o k d)
  storeMapped : ∀ o s entries,
    P.Holds {.holder s} (Action.modifyObject o (Arguments.storeMapped s entries)) fun _ ↦ ∅

theorem Basics.keeps_options (hP : P.Basics) :
    P.Keeps (do return (← get).options : Action Options) :=
  hP.read _ (fun _ _ options ↦ options) fun _ ↦ rfl

namespace Makes

variable {Fits : Descriptor → Prop} (hP : P.Makes Fits)

include hP

theorem keeps_newObject (c : ObjectClass) (prototype : Option ObjectRef) :
    P.Keeps (Action.newObject c prototype) := by
  have hnew : P.Keeps (do
      let options ← (do return (← get).options : Action Options)
      Action.onHeap (·.addObject (.new c prototype options.cutover))) :=
    hP.basics.keeps_options.bind fun _ ↦ hP.addObject _ (Object.conforms_new _ _ _) nofun
  exact hnew

theorem keeps_newPlainObject : P.Keeps Action.newPlainObject :=
  hP.basics.keeps_realm.bind fun _ ↦ hP.keeps_newObject _ _

theorem keeps_create {f : Callable} (hf : P.Admissible f) (name : String) (length : Nat) :
    P.Keeps (Function.create f name length) := by
  have hcallable (prototype : ObjectRef) (cutover : Nat) (g : Callable)
      (hg : (Function.baseData prototype cutover f name length).callable = some g) :
      P.Admissible g :=
    Option.some.inj hg ▸ hf
  have hcreate : P.Keeps (do
      let realm ← Action.realm
      let options ← (do return (← get).options : Action Options)
      let o ← Action.onHeap
        (·.addObject (Function.baseData realm.functionPrototype options.cutover f name length))
      if f.isConstructor then Function.makeConstructor o
      return o) := by
    refine hP.basics.keeps_realm.bind fun realm ↦ hP.basics.keeps_options.bind fun options ↦ ?_
    have hdata := Function.conforms_baseData hP.data realm.functionPrototype options.cutover
      hf.honours name length
    refine (hP.addObject _ hdata (hcallable _ _)).bind fun o ↦ ?_
    dsimp only
    refine keeps_ite (Keeps.bind ?_ fun _ ↦ keeps_pure o) (keeps_pure o)
    refine hP.keeps_newPlainObject.bind fun prototype ↦ ?_
    exact (hP.store _ _ _ (hP.data _ _ _ _)).bind fun _ ↦ hP.store _ _ _ (hP.data _ _ _ _)
  exact hcreate

omit hP in
theorem callable_storeValues (i : Nat) (args : List Value) (data : Object) :
    (Arguments.storeValues i args data).callable = data.callable := by
  induction args generalizing i data with
  | nil => rfl
  | cons v rest ih => rw [Arguments.storeValues, ih, Object.callable_store]

theorem keeps_createBase (args : List Value) : P.Keeps (Arguments.createBase args) := by
  have hnone (prototype : ObjectRef) (cutover : Nat) :
      (Arguments.baseData prototype cutover args).callable = none := by
    rw [Arguments.baseData, Object.callable_store, callable_storeValues]
    rfl
  have hcreate : P.Keeps (do
      let realm ← Action.realm
      let options ← (do return (← get).options : Action Options)
      Action.onHeap
        (·.addObject (Arguments.baseData realm.objectPrototype options.cutover args))) := by
    refine hP.basics.keeps_realm.bind fun realm ↦ hP.basics.keeps_options.bind fun options ↦ ?_
    refine hP.addObject _ (Arguments.conforms_baseData hP.data _ _ args) fun f hf ↦ ?_
    rw [hnone] at hf
    cases hf
  exact hcreate

/-- The cells of the units are made one by one; what goes on with the object sees
nothing else that is callable. -/
theorem keeps_storeUnits_bind {α : Type} (units : List UInt16) (i : Nat) {data : Object}
    (hdata : data.Conforms Fits P.host) {k : Object → Action α}
    (hk : ∀ data' : Object, data'.Conforms Fits P.host → data'.callable = data.callable →
      P.Keeps (k data')) : P.Keeps (Conversion.storeUnits i units data >>= k) := by
  induction units generalizing i data with
  | nil => exact hk data hdata rfl
  | cons u rest ih =>
      rw [Conversion.storeUnits, bind_assoc]
      refine (hP.newCell _ (hP.constant _)).bind fun cell ↦ ?_
      refine ih (i + 1) (hdata.store _ (hP.lazy _ _ _ _)) fun data' hdata' hcallable ↦ ?_
      refine hk data' hdata' ?_
      rw [hcallable, Object.callable_store]

theorem keeps_wrap (c : ObjectClass) (prototype : ObjectRef) (v : Value) :
    P.Keeps (Conversion.wrap c prototype v) := by
  have hadd (data : Object) (hdata : data.Conforms Fits P.host) (hnone : data.callable = none) :
      P.Keeps (Action.onHeap (·.addObject data)) :=
    hP.addObject data hdata fun f hf ↦ by
      rw [hnone] at hf
      cases hf
  -- Only a text stores something, its units, in the new object.
  have hwrap (store : Object → Action Object) (hstore : ∀ data : Object,
      data.Conforms Fits P.host → data.callable = none →
      P.Keeps (store data >>= fun data ↦ Action.onHeap (·.addObject data))) : P.Keeps (do
      let options ← (do return (← get).options : Action Options)
      let data ← store { Object.new c (some prototype) options.cutover with primitive := some v }
      Action.onHeap (·.addObject data)) :=
    hP.basics.keeps_options.bind fun options ↦
      hstore _ ((Object.conforms_new _ _ _).withPrimitive v) rfl
  cases v with
  | string t =>
      refine hwrap (Conversion.storeText t) fun data hdata hnone ↦ ?_
      rw [Conversion.storeText, bind_assoc]
      refine hP.keeps_storeUnits_bind _ 0 hdata fun data' hdata' hcallable ↦ ?_
      refine hadd _ (hdata'.store _ (hP.data _ _ _ _)) ?_
      rw [Object.callable_store, hcallable, hnone]
  | _ => exact hwrap pure hadd

theorem creation : P.Creation where
  newCell := hP.newCell
  newObject := hP.keeps_newObject
  newError kind message := by
    refine hP.basics.keeps_realm.bind fun realm ↦ (hP.keeps_newObject _ _).bind fun o ↦ ?_
    exact (hP.store o _ _ (hP.data _ _ _ _)).bind fun _ ↦ keeps_pure _
  wrap := hP.keeps_wrap
  createUnmapped args := by
    have hthrower : P.Admissible (.native "" 0 Arguments.thrower) := fun this args ↦
      ⟨Arguments.honours_thrower this args, hP.basics.asks_thrower this args⟩
    refine (hP.keeps_createBase args).bind fun o ↦ ?_
    refine ((hP.keeps_create hthrower _ _).bind fun _ ↦ keeps_pure _).bind fun f ↦ ?_
    exact (hP.store o _ _ (hP.accessor _ _ _ _)).bind fun _ ↦ keeps_pure o
  createMapped callee params args s := by
    refine (hP.keeps_createBase args).bind_holds fun o ↦ ?_
    refine (hP.storeMapped o s _).bind fun _ ↦ ?_
    have hcallee := hP.store o (.ofString "callee") _ (hP.data (.object callee) true false true)
    have hstore := hcallee.bind fun _ ↦ keeps_pure o
    exact Holds.of_subset hstore (Set.empty_subset _)
  instantiate hf s name := by
    refine (hP.basics.keeps_scope s).bind fun scope ↦ ?_
    refine (hP.keeps_create ?_ _ _).bind fun _ ↦ keeps_pure _
    exact hf

end Makes

/-! ## Objects that may change in any way -/

/-- The policy looks at nothing of an object but what it calls. -/
structure Lax (P : Policy) : Prop where
  basics : P.Basics
  newCell : ∀ r, P.asks (.newCell r) → P.Keeps (Action.newCell r)
  /-- The units of a text are made on first read. -/
  constant : ∀ v, P.asks (.newCell (.constant v))
  addObject : ∀ data : Object, (∀ f, data.callable = some f → P.Admissible f) →
    P.Keeps (Action.onHeap (·.addObject data))
  modifyObject : ∀ o (g : Object → Object), (∀ data, (g data).callable = data.callable) →
    P.Keeps (Action.modifyObject o g)
  storeBound : ∀ s name v, P.Keeps (Action.modifyHeap (·.storeBound s name v))
  resolve : ∀ eng, P.Serves eng → ∀ c key, P.Keeps (Lazy.resolve eng c key)

namespace Lax

variable (hP : P.Lax)

include hP

theorem keeps_store (o : ObjectRef) (k : PropertyKey) (d : Descriptor) :
    P.Keeps (Action.store o k d) :=
  hP.modifyObject o _ fun data ↦ data.callable_store k d

theorem keeps_rebind (scope : ScopeRef) (name : String) (patch new : Descriptor) :
    P.Keeps (Object.rebind scope name patch new) := by
  unfold Object.rebind
  split
  · dsimp only
    exact keeps_ite ((hP.storeBound scope name _).bind fun _ ↦ keeps_pure _) (keeps_pure _)
  · exact keeps_pure _

omit hP in
theorem callable_storeMapped (s : ScopeRef) (entries : List (String × Nat)) (data : Object) :
    (Arguments.storeMapped s entries data).callable = data.callable := by
  induction entries generalizing data with
  | nil => rfl
  | cons e rest ih => exact (ih _).trans (Object.callable_store _ _ _)

theorem creation : P.Creation := by
  have hmakes : P.Makes fun _ ↦ True :=
    { basics := hP.basics
      data := fun _ _ _ _ ↦ trivial
      accessor := fun _ _ _ _ ↦ trivial
      lazy := fun _ _ _ _ ↦ trivial
      newCell := hP.newCell
      constant := hP.constant
      addObject := fun data _ hdata ↦ hP.addObject data hdata
      store := fun o k d _ ↦ hP.keeps_store o k d
      storeMapped := fun o s entries ↦
        Holds.of_subset (hP.modifyObject o _ (callable_storeMapped s entries))
          (Set.empty_subset _) }
  exact hmakes.creation

/-! ### Own properties -/

section Own

variable {eng : Engine} (heng : P.Serves eng)

include heng

theorem keeps_getOwn (o : ObjectRef) (k : PropertyKey) : P.Keeps (Object.getOwn eng o k) := by
  refine hP.basics.keeps_heap.bind fun h ↦ ?_
  split
  · exact keeps_pure _
  · refine (hP.resolve eng heng _ _).bind fun v ↦ ?_
    exact (hP.modifyObject o _ fun data ↦ data.callable_modify k _).bind fun _ ↦ keeps_pure _
  · exact hP.basics.keeps_heap.bind fun _ ↦ keeps_pure _
  · exact keeps_pure _

theorem keeps_define (o : ObjectRef) (k : PropertyKey) (patch : Descriptor) :
    P.Keeps (Object.define eng o k patch) := by
  refine (hP.keeps_getOwn heng o k).bind fun found ↦ ?_
  split
  · refine (hP.basics.keeps_object o).bind fun data ↦ keeps_ite ?_ (keeps_pure _)
    exact (hP.keeps_store o k _).bind fun _ ↦ keeps_pure _
  · refine keeps_ite ?_ (keeps_pure _)
    refine hP.basics.keeps_heap.bind fun h ↦ ?_
    dsimp only
    split
    · refine (hP.keeps_rebind _ _ patch _).bind fun form ↦ ?_
      exact (hP.keeps_store o k _).bind fun _ ↦ keeps_pure _
    · exact (hP.keeps_store o k _).bind fun _ ↦ keeps_pure _

end Own

theorem properties : P.Properties where
  getOwn _ heng o k := hP.keeps_getOwn heng o k
  define _ heng o k patch _ := hP.keeps_define heng o k patch
  delete o k := by
    refine hP.basics.keeps_heap.bind fun h ↦ ?_
    split
    · exact keeps_pure _
    · refine keeps_ite ?_ (keeps_pure _)
      exact (hP.modifyObject o _ fun data ↦ data.callable_remove k).bind fun _ ↦ keeps_pure _
  setPrototype o prototype := by
    refine hP.basics.keeps_heap.bind fun h ↦ ?_
    refine keeps_ite (keeps_pure _) (keeps_ite (keeps_pure _) (keeps_ite (keeps_pure _) ?_))
    exact (hP.modifyObject o (fun data ↦ { data with prototype }) fun _ ↦ rfl).bind fun _ ↦
      keeps_pure _
  preventExtensions o :=
    (hP.modifyObject o (fun data ↦ { data with isExtensible := false }) fun _ ↦ rfl).bind
      fun _ ↦ keeps_pure _

end Lax

end Policy

end Ecma
