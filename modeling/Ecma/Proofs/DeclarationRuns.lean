import Ecma.Proofs.GlobalLayers
import Ecma.Proofs.Number.Reading
import Ecma.Proofs.Policy.Callables

/-!
# Runs of the declarations of a script

What declaring functions, `var` names and lexical names does to the heap, and
what it leaves alone.  Functions and `var` names become properties of the global
object; if such a property is bound to a variable, the function goes to the
variable.  Lexical names become variables of the global scope.
-/

namespace Ecma

/-! ## Names of functions -/

namespace Tree

/-- The last function of the list that has the name. -/
def lastFunction? (body : List Statement) (name : String) : Option FunctionNode :=
  (body.filterMap fun s ↦ formFunction? (unlabelled s)).reverse.find? (·.name? == some name)

theorem functionKey_of_name? {f : FunctionNode} {name : String} (hf : f.name? = some name) :
    functionKey f = name := by
  rw [functionKey, hf, Option.getD_some]

theorem find?_reverse_of_mem_keepLast {f : FunctionNode} {name : String}
    (hname : f.name? = some name) {fs : List FunctionNode} (hf : f ∈ keepLast fs) :
    fs.reverse.find? (·.name? == some name) = some f := by
  induction fs with
  | nil => cases hf
  | cons g rest ih =>
      rw [List.reverse_cons, List.find?_append]
      unfold keepLast at hf
      split at hf
      next => rw [ih hf, Option.some_or]
      next hlast =>
        rcases List.mem_cons.1 hf with rfl | hf
        · -- No later function has the key of this one, so none has its name.
          have hnone : rest.reverse.find? (·.name? == some name) = none := by
            refine List.find?_eq_none.2 fun g hg hsame ↦ hlast ?_
            have hg' : g.name? = some name := by simpa using hsame
            refine List.any_eq_true.2 ⟨g, List.mem_reverse.1 hg, ?_⟩
            simp [functionKey_of_name? hg', functionKey_of_name? hname]
          rw [hnone, Option.none_or, List.find?_singleton, hname]
          simp
        · rw [ih hf, Option.some_or]

theorem lastFunction?_of_mem {body : List Statement} {f : FunctionNode} {name : String}
    (hf : f ∈ functions body) (hname : f.name? = some name) :
    lastFunction? body name = some f :=
  find?_reverse_of_mem_keepLast hname hf

theorem nodup_names_keepLast (fs : List FunctionNode) :
    ((keepLast fs).filterMap FunctionNode.name?).Nodup := by
  induction fs with
  | nil => exact List.nodup_nil
  | cons g rest ih =>
      unfold keepLast
      split
      next => exact ih
      next hlast =>
        cases hname : g.name? with
        | none => rwa [List.filterMap_cons_none hname]
        | some name =>
            rw [List.filterMap_cons_some hname]
            refine List.nodup_cons.2 ⟨fun hmem ↦ hlast ?_, ih⟩
            obtain ⟨f, hf, hfname⟩ := List.mem_filterMap.1 hmem
            refine List.any_eq_true.2 ⟨f, mem_of_mem_keepLast hf, ?_⟩
            simp [functionKey_of_name? hfname, functionKey_of_name? hname]

end Tree

namespace Scope

theorem keyOf_same_keyOf {name other : String} :
    (keyOf name).same (keyOf other) = true ↔ name = other := by
  refine ⟨fun h ↦ ?_, fun h ↦ h ▸ PropertyKey.same_self _⟩
  have hchars := congrArg Text.chars (PropertyKey.same_string_iff.1 h)
  rw [Text.chars_ofString, Text.chars_ofString] at hchars
  exact String.toList_inj.1 hchars

end Scope

theorem Bindings.find?_store_of_ne (b : Bindings) {x y : String} (hne : y ≠ x) (v : Value) :
    (b.store x v).find? y = b.find? y := by
  unfold store
  split
  · split
    · exact b.find?_write_of_ne hne v
    · rfl
  · rfl

/-! ## What declarations touch -/

namespace Heap

open Scope (keyOf)

/-- What declaring properties of the global object may change: the properties under
the names `K`, the variables that they are bound to, and new objects; and names may
be added to those of the scope. -/
structure Touches (s : ScopeRef) (o : ObjectRef) (K : Set String) (h h' : Heap) : Prop where
  objects_le : h.objects.size ≤ h'.objects.size
  object : ∀ p : ObjectRef, p.index < h.objects.size → p ≠ o → h'.object p = h.object p
  extensible : (h'.object o).isExtensible = (h.object o).isExtensible
  own : ∀ name ∉ K, h'.own? o (keyOf name) = h.own? o (keyOf name)
  present : ∀ name, (h.own? o (keyOf name)).isSome → (h'.own? o (keyOf name)).isSome
  boundTo : ∀ name, h'.boundTo? o (keyOf name) = h.boundTo? o (keyOf name)
  cells : h'.cells = h.cells
  binding : ∀ t x, (∀ name ∈ K, h.boundTo? o (keyOf name) ≠ some (t, x)) →
    h'.bindingAt t x = h.bindingAt t x
  vars : h.varNames s ⊆ h'.varNames s
  isGlobal : (∃ b, h.IsGlobal s o b) → ∃ b, h'.IsGlobal s o b

variable {s : ScopeRef} {o : ObjectRef} {K K' : Set String} {h h' h'' : Heap}

theorem touches_refl (h : Heap) : h.Touches s o K h where
  objects_le := Nat.le_refl _
  object _ _ _ := rfl
  extensible := rfl
  own _ _ := rfl
  present _ := id
  boundTo _ := rfl
  cells := rfl
  binding _ _ _ := rfl
  vars := List.Subset.refl _
  isGlobal := id

namespace Touches

theorem trans (ht : h.Touches s o K h') (ht' : h'.Touches s o K h'') : h.Touches s o K h'' where
  objects_le := Nat.le_trans ht.objects_le ht'.objects_le
  object p hp hne := (ht'.object p (Nat.lt_of_lt_of_le hp ht.objects_le) hne).trans
    (ht.object p hp hne)
  extensible := ht'.extensible.trans ht.extensible
  own name hname := (ht'.own name hname).trans (ht.own name hname)
  present name hname := ht'.present name (ht.present name hname)
  boundTo name := (ht'.boundTo name).trans (ht.boundTo name)
  cells := ht'.cells.trans ht.cells
  binding t x hx := by
    refine (ht'.binding t x fun name hname ↦ ?_).trans (ht.binding t x hx)
    rw [ht.boundTo]
    exact hx name hname
  vars := List.Subset.trans ht.vars ht'.vars
  isGlobal hs := ht'.isGlobal (ht.isGlobal hs)

theorem mono (ht : h.Touches s o K h') (hK : K ⊆ K') : h.Touches s o K' h' where
  objects_le := ht.objects_le
  object := ht.object
  extensible := ht.extensible
  own name hname := ht.own name fun h ↦ hname (hK h)
  present := ht.present
  boundTo := ht.boundTo
  cells := ht.cells
  binding t x hx := ht.binding t x fun name hname ↦ hx name (hK hname)
  vars := ht.vars
  isGlobal := ht.isGlobal

/-- New objects, and nothing else. -/
theorem of_new (ho : o.index < h.objects.size) (hsize : h.objects.size ≤ h'.objects.size)
    (hobject : ∀ p : ObjectRef, p.index < h.objects.size → h'.object p = h.object p)
    (hscopes : h'.scopes = h.scopes) (hcells : h'.cells = h.cells) : h.Touches s o K h' := by
  have hscope (t : ScopeRef) : h'.scope t = h.scope t := by simp [scope, hscopes]
  have hown (k : PropertyKey) : h'.own? o k = h.own? o k := by rw [own?, hobject o ho, own?]
  have hvars : h'.varNames s = h.varNames s := by rw [varNames, hscope, varNames]
  exact {
    objects_le := hsize
    object := fun p hp _ ↦ hobject p hp
    extensible := by rw [hobject o ho]
    own := fun _ _ ↦ hown _
    present := fun name hname ↦ by rwa [hown]
    boundTo := fun name ↦ by rw [boundTo?, hobject o ho, boundTo?]
    cells := hcells
    binding := fun t x _ ↦ by rw [bindingAt, hscope, bindingAt]
    vars := hvars ▸ List.Subset.refl _
    isGlobal := by
      rintro ⟨b, hlt, names, hrecord⟩
      exact ⟨b, hscopes ▸ hlt, names, (congrArg Scope.record (hscope s)).trans hrecord⟩ }

end Touches

/-! ### Variables -/

variable {t u : ScopeRef} {x y : String} {v : Value}

/-- A change of the variables of one scope is seen there only. -/
theorem bindingAt_withVariables (h : Heap) {b : Bindings}
    (hx : ∀ b₀, (h.scope t).record.bindings? = some b₀ → u = t → b.find? x = b₀.find? x) :
    (h.withVariables t b).bindingAt u x = h.bindingAt u x := by
  rcases scope_modifyScope h t u fun scope ↦
      { scope with record := scope.record.withBindings b } with hsame | ⟨rfl, -, hchanged⟩
  · rw [bindingAt, withVariables, hsame, bindingAt]
  · rw [bindingAt, withVariables, hchanged, bindingAt]
    cases hb : (h.scope u).record.bindings? with
    | none =>
        have hrecord : (h.scope u).record.withBindings b = (h.scope u).record := by
          cases hr : (h.scope u).record with
          | object o isWith => rfl
          | _ =>
              rw [hr] at hb
              cases hb
        rw [hrecord, hb]
    | some b₀ =>
        rw [ScopeRecord.bindings?_withBindings hb]
        exact hx b₀ hb rfl

/-- Writing a variable through a property leaves the other variables alone. -/
theorem bindingAt_storeBound (h : Heap) (hne : (t, x) ≠ (u, y)) (v : Value) :
    (h.storeBound t x v).bindingAt u y = h.bindingAt u y := by
  cases hb : (h.scope t).record.bindings? with
  | none =>
      have hsame : h.storeBound t x v = h.modifyScope t id :=
        modifyScope_congr (by rw [hb]; rfl)
      rcases scope_modifyScope h t u id with hscope | ⟨rfl, -, hscope⟩
      · rw [hsame, bindingAt, hscope, bindingAt]
      · rw [hsame, bindingAt, hscope, bindingAt]
        rfl
  | some b =>
      rw [storeBound_eq hb]
      refine h.bindingAt_withVariables fun b₀ hb₀ hu ↦ ?_
      cases Option.some.inj (hb.symm.trans hb₀)
      refine b.find?_store_of_ne (fun hy ↦ hne ?_) v
      rw [hu, hy]

theorem bindingAt_storeVariable (h : Heap) (z : Option (ScopeRef × String)) (hz : z ≠ some (u, y))
    (v : Value) : (h.storeVariable v z).bindingAt u y = h.bindingAt u y := by
  cases z with
  | none => rfl
  | some z => exact h.bindingAt_storeBound (fun heq ↦ hz (congrArg some heq)) v

theorem varNames_storeVariable (h : Heap) (z : Option (ScopeRef × String)) (v : Value) :
    (h.storeVariable v z).varNames s = h.varNames s := by
  cases z with
  | none => rfl
  | some z =>
      refine varNames_modifyScope h z.1 s ?_
      split
      · rw [ScopeRecord.varNames_withBindings]
      · rfl

theorem isGlobal_storeVariable {b : Bindings} (hs : h.IsGlobal s o b)
    (z : Option (ScopeRef × String)) (v : Value) : ∃ b, (h.storeVariable v z).IsGlobal s o b := by
  cases z with
  | none => exact ⟨b, hs⟩
  | some z => exact (hs.narrows (.storeBound h z.1 z.2 v)).1

/-! ### Properties -/

/-- An assignment touches one name. -/
theorem Ready.touches {names : List String} {name : String} (hh : h.Ready o names)
    (ha : h.Assigned o (keyOf name) v h') :
    h.Touches s o {name} h' ∧ ∃ d, h'.own? o (keyOf name) = some d ∧
      (h.boundTo? o (keyOf name) = none → d.form = .data (some v)) := by
  obtain ⟨d, -, hbound, hform, rfl⟩ := ha
  generalize hz : h.boundTo? o (keyOf name) = z at hbound hform
  have hobject (p : ObjectRef) : (h.storeVariable v z).object p = h.object p := by
    simp [Heap.object]
  have hlt : o.index < (h.storeVariable v z).objects.size := by simpa using hh.lt
  have hown (k : PropertyKey) : ((h.storeVariable v z).modifyObject o
      (·.store (keyOf name) d)).own? o k = if (keyOf name).same k then some d else h.own? o k := by
    rw [own?_store hlt (hobject o ▸ hh.valid), own?, hobject, own?]
  have hother {other : String} (hne : other ≠ name) :
      (keyOf name).same (keyOf other) = false :=
    Bool.eq_false_iff.2 fun hsame ↦ hne (Scope.keyOf_same_keyOf.1 hsame).symm
  have hself : ((h.storeVariable v z).modifyObject o (·.store (keyOf name) d)).own? o
      (keyOf name) = some d := by
    rw [hown, if_pos (PropertyKey.same_self _)]
  refine ⟨?_, d, hself, hform⟩
  exact {
    objects_le := by simp [modifyObject]
    object := fun p _ hne ↦ (object_modifyObject_of_ne _ hne _).trans (hobject p)
    extensible := by rw [object_modifyObject_self hlt, Object.isExtensible_store, hobject]
    own := fun other hne ↦ by rw [hown, hother hne, if_neg Bool.false_ne_true]
    present := fun other hpresent ↦ by
      rw [hown]
      split
      · rfl
      · exact hpresent
    boundTo := fun other ↦ by
      by_cases hne : other = name
      · rw [hne, boundTo?_of_own? hself, hbound, hz]
      · have hsame := hown (keyOf other)
        rw [hother hne, if_neg Bool.false_ne_true] at hsame
        rw [boundTo?, Object.boundTo?, ← own?, hsame]
        rfl
    cells := cells_storeVariable h v z
    binding := fun t x hx ↦ h.bindingAt_storeVariable z (hz ▸ hx name rfl) v
    vars := (h.varNames_storeVariable z v).symm ▸ List.Subset.refl _
    isGlobal := by
      rintro ⟨_, hs⟩
      exact isGlobal_storeVariable hs z v }

/-- Adding a name touches no property. -/
theorem touches_withVarNames (h : Heap) (s : ScopeRef) (o : ObjectRef) (name : String) :
    h.Touches s o K (h.withVarNames s (Scope.addVarName name)) := by
  have hscope (t : ScopeRef) :
      ((h.withVarNames s (Scope.addVarName name)).scope t).record.bindings? =
          (h.scope t).record.bindings? ∧
        h.varNames t ⊆ (h.withVarNames s (Scope.addVarName name)).varNames t := by
    unfold withVarNames varNames
    rcases scope_modifyScope h s t _ with hsame | ⟨rfl, -, hchanged⟩
    · rw [hsame]
      exact ⟨rfl, List.Subset.refl _⟩
    · rw [hchanged]
      split
      next hrecord =>
        rw [hrecord]
        exact ⟨rfl, fun other hother ↦ Scope.mem_addVarName.2 (.inr hother)⟩
      next => exact ⟨rfl, List.Subset.refl _⟩
  exact {
    objects_le := Nat.le_refl _
    object := fun _ _ _ ↦ rfl
    extensible := rfl
    own := fun _ _ ↦ rfl
    present := fun _ ↦ id
    boundTo := fun _ ↦ rfl
    cells := rfl
    binding := fun t x _ ↦ by rw [bindingAt, (hscope t).1, bindingAt]
    vars := (hscope s).2
    isGlobal := fun ⟨b, hs⟩ ↦ ⟨b, (hs.withVarNames _).1⟩ }

/-- The name has been declared by `var` or `function`, and the global object has a
property under it. -/
def HasVar (s : ScopeRef) (o : ObjectRef) (name : String) (h : Heap) : Prop :=
  name ∈ h.varNames s ∧ (h.own? o (keyOf name)).isSome

/-- The property under the name is the closure of the function over the scope. -/
def HoldsClosure (s : ScopeRef) (o : ObjectRef) (name : String) (f : FunctionNode) (h : Heap) :
    Prop :=
  ∃ a c strict, h.own? o (keyOf name) = some ⟨a, .data (some (.object c))⟩ ∧ c ≠ o ∧
    c.index < h.objects.size ∧ (h.object c).callable = some (.closure f s strict)

theorem hasVar_withVarNames {name : String} {d : Descriptor} (hs : ∃ b, h.IsGlobal s o b)
    (hown : h.own? o (keyOf name) = some d) :
    (h.withVarNames s (Scope.addVarName name)).HasVar s o name := by
  obtain ⟨b, hs⟩ := hs
  refine ⟨?_, Option.isSome_iff_exists.2 ⟨d, hown⟩⟩
  rw [(hs.withVarNames _).2]
  exact Scope.mem_addVarName.2 (.inl rfl)

theorem Touches.hasVar {name : String} (ht : h.Touches s o K h') (hname : h.HasVar s o name) :
    h'.HasVar s o name :=
  ⟨ht.vars hname.1, ht.present name hname.2⟩

theorem Touches.holdsClosure {name : String} {f : FunctionNode} (ht : h.Touches s o K h')
    (hname : name ∉ K) (hf : h.HoldsClosure s o name f) : h'.HoldsClosure s o name f := by
  obtain ⟨a, c, strict, hown, hne, hlt, hcallable⟩ := hf
  refine ⟨a, c, strict, (ht.own name hname).trans hown, hne,
    Nat.lt_of_lt_of_le hlt ht.objects_le, ?_⟩
  rw [ht.object c hlt hne]
  exact hcallable

end Heap

/-! ## Closures -/

namespace Function

theorem callable_run_makeConstructor {o : ObjectRef} {σ : State}
    (ho : o.index < σ.heap.objects.size) :
    (((makeConstructor o).run σ).2.heap.object o).callable = (σ.heap.object o).callable := by
  let made :=
    σ.heap.addObject (.new .object (some σ.realm.objectPrototype) σ.options.cutover)
  have hlt : o.index < made.2.objects.size := by simp [made, Heap.addObject]; omega
  have hne : o ≠ made.1 := by
    rintro rfl
    exact Nat.lt_irrefl _ ho
  change (((made.2.modifyObject made.1 (·.store (.ofString "constructor") _)).modifyObject o
    (·.store (.ofString "prototype") _)).object o).callable = _
  rw [Heap.object_modifyObject_self (by simpa [Heap.modifyObject] using hlt),
    Object.callable_store, Heap.object_modifyObject_of_ne _ hne, Heap.object_addObject_of_lt ho]

theorem callable_run_create {f : Callable} {name : String} {length : Nat} {o : ObjectRef}
    {σ τ : State} (hrun : (create f name length).run σ = (.ok o, τ)) :
    (τ.heap.object o).callable = some f := by
  let data := baseData σ.realm.functionPrototype σ.options.cutover f name length
  have hdata : ((σ.heap.addObject data).2.object (σ.heap.addObject data).1).callable = some f :=
    congrArg Object.callable (Heap.object_addObject_self _ _)
  unfold create at hrun
  cases hf : f.isConstructor with
  | false =>
      rw [hf] at hrun
      cases hrun
      exact hdata
  | true =>
      rw [hf] at hrun
      cases hrun
      exact (callable_run_makeConstructor (σ := { σ with heap := (σ.heap.addObject data).2 })
        (by simp [Heap.addObject])).trans hdata

/-- A closure is a new object, and nothing that was there before it changes. -/
theorem run_instantiate (f : FunctionNode) (s : ScopeRef) {o : ObjectRef} {K : Set String}
    {σ : State} (ho : o.index < σ.heap.objects.size) :
    ∃ c strict τ, (instantiate f s none).run σ = (.ok (.object c), τ) ∧
      σ.heap.objects.size ≤ c.index ∧ c.index < τ.heap.objects.size ∧
      (τ.heap.object c).callable = some (.closure f s strict) ∧
      τ.heap.object o = σ.heap.object o ∧ σ.heap.Touches s o K τ.heap := by
  let strict := (σ.heap.scope s).isStrict || Tree.isStrict f.body
  let shown := f.name?.getD ""
  obtain ⟨c, τ, hrun, hgrows, -, hnew⟩ := allocates_create (H := ordinaryHost)
    (f := .closure f s strict) trivial shown f.params.length σ σ.heap.grows_refl
  have hcallable := callable_run_create hrun
  have hcells : τ.heap.cells = σ.heap.cells := by
    have hsame : ((create (.closure f s strict) shown f.params.length).run σ).2.heap.cells =
        σ.heap.cells := by
      unfold create
      cases (Callable.closure f s strict).isConstructor <;> rfl
    rwa [hrun] at hsame
  have hscopes := scopes_run_create (.closure f s strict) shown f.params.length σ
  rw [hrun] at hscopes
  have hinstantiate : (instantiate f s none).run σ = (.ok (.object c), τ) := by
    change (do return .object (← create (.closure f s strict) shown f.params.length) :
      Action Value).run σ = _
    rw [Action.run_bind, hrun]
    rfl
  have hlt : c.index < τ.heap.objects.size := by
    by_contra hge
    rw [Heap.callable_of_le (Nat.le_of_not_lt hge)] at hcallable
    cases hcallable
  exact ⟨c, strict, τ, hinstantiate, hnew, hlt, hcallable, hgrows.object_eq o ho,
    .of_new ho hgrows.objects_le hgrows.object_eq hscopes hcells⟩

end Function

/-! ## Runs of declarations -/

namespace Script

open Scope (keyOf)

variable {eng : Engine} {s : ScopeRef} {o : ObjectRef} {names : List String} {σ τ : State}

theorem run_modifyVarNames (s : ScopeRef) (f : List String → List String) (σ : State) :
    (Scope.modifyVarNames s f).run σ =
      (.ok (), { σ with heap := σ.heap.withVarNames s f }) := rfl

/-- Assigning to the property that has just been defined. -/
theorem touches_of_run_set {name : String} {v : Value} {assigned : Bool}
    (hσ : σ.heap.ReadyAt o names (keyOf name))
    (hrun : (Object.set eng o (keyOf name) v (.object o)).run σ = (.ok assigned, τ)) :
    τ.heap.Ready o names ∧ σ.heap.Touches s o {name} τ.heap ∧
      ∃ d, τ.heap.own? o (keyOf name) = some d ∧
        (σ.heap.boundTo? o (keyOf name) = none → d.form = .data (some v)) := by
  obtain ⟨hready, d, hown, hd⟩ := hσ
  rw [Object.run_set_shown eng hown hd.resolved hd.data hd.writable] at hrun
  split at hrun
  · cases hrun
  · obtain ⟨σ', hrun', hassigned⟩ := run_assign eng hown hd v
    cases hrun'.symm.trans hrun
    obtain ⟨htouches, hproperty⟩ := hready.touches (s := s) hassigned
    exact ⟨(hready.assigned hassigned).1, htouches, hproperty⟩

theorem of_run_createGlobalFunction {name : String} {v : Value} (hσ : σ.heap.Ready o names)
    (hs : ∃ b, σ.heap.IsGlobal s o b) (hname : name ∈ names)
    (hrun : (Scope.createGlobalFunction eng s o name v false).run σ = (.ok (), τ)) :
    τ.heap.Ready o names ∧ σ.heap.Touches s o {name} τ.heap ∧ τ.heap.HasVar s o name ∧
      (σ.heap.boundTo? o (keyOf name) = none →
        ∃ a, τ.heap.own? o (keyOf name) = some ⟨a, .data (some v)⟩) := by
  obtain ⟨σ₁, hassigned, hrun'⟩ := run_createGlobalFunction eng s hσ hname v
  rw [hrun'] at hrun
  obtain ⟨htouches, -⟩ := hσ.touches (s := s) hassigned
  obtain ⟨_, _, hset, hnames⟩ := Action.run_bind_eq_ok hrun
  rw [Action.run_discard] at hset
  rcases hset' : (Object.set eng o (keyOf name) v (.object o)).run σ₁ with ⟨e | assigned, σ₂⟩
  · rw [hset'] at hset
    cases hset
  · rw [hset'] at hset
    cases hset
    obtain ⟨hready, htouches', ⟨a, form⟩, hown, hform⟩ :=
      touches_of_run_set (s := s) (hσ.assigned hassigned) hset'
    rw [run_modifyVarNames] at hnames
    cases hnames
    have ht := htouches.trans htouches'
    refine ⟨hready.of_objects rfl, ht.trans (σ₂.heap.touches_withVarNames s o name),
      Heap.hasVar_withVarNames (ht.isGlobal hs) hown, fun hnone ↦ ⟨a, ?_⟩⟩
    have hnone₁ : σ₁.heap.boundTo? o (keyOf name) = none := (htouches.boundTo name).trans hnone
    cases hform hnone₁
    exact hown

theorem of_run_createFunctions {fs : List FunctionNode} (hσ : σ.heap.Ready o names)
    (hs : ∃ b, σ.heap.IsGlobal s o b) (hfs : ∀ name ∈ fs.filterMap FunctionNode.name?, name ∈ names)
    (hdistinct : (fs.filterMap FunctionNode.name?).Nodup)
    (hrun : (createFunctions eng s o fs).run σ = (.ok (), τ)) :
    τ.heap.Ready o names ∧
      σ.heap.Touches s o {name | name ∈ fs.filterMap FunctionNode.name?} τ.heap ∧
      ∀ f ∈ fs, ∀ name, f.name? = some name → τ.heap.HasVar s o name ∧
        (σ.heap.boundTo? o (keyOf name) = none → τ.heap.HoldsClosure s o name f) := by
  induction fs generalizing σ with
  | nil =>
      cases hrun
      exact ⟨hσ, Heap.touches_refl _, nofun⟩
  | cons f rest ih =>
      unfold createFunctions at hrun
      split at hrun
      next hname =>
        rw [List.filterMap_cons_none hname] at hfs hdistinct ⊢
        obtain ⟨hready, htouches, hrest⟩ := ih hσ hs hfs hdistinct hrun
        refine ⟨hready, htouches, fun g hg name hgname ↦ ?_⟩
        rcases List.mem_cons.1 hg with rfl | hg
        · cases hname.symm.trans hgname
        · exact hrest g hg name hgname
      next name hname =>
        rw [List.filterMap_cons_some hname] at hfs hdistinct ⊢
        obtain ⟨hnew, hdistinct⟩ := List.nodup_cons.1 hdistinct
        obtain ⟨c, strict, σ₁, hinstantiate, hge, hlt, hcallable, hobject, htouches₁⟩ :=
          Function.run_instantiate f s (K := {name}) hσ.lt
        rw [Action.run_bind, hinstantiate] at hrun
        obtain ⟨⟨⟩, σ₂, hcreate, hrun⟩ := Action.run_bind_eq_ok hrun
        have hready₁ := hσ.of_object htouches₁.objects_le hobject
        obtain ⟨hready₂, htouches₂, hvar, hclosure⟩ := of_run_createGlobalFunction hready₁
          (htouches₁.isGlobal hs) (hfs name List.mem_cons_self) hcreate
        have hfirst := htouches₁.trans htouches₂
        obtain ⟨hready, hlater, hrest⟩ := ih hready₂ (hfirst.isGlobal hs)
          (fun name hname ↦ hfs name (List.mem_cons_of_mem _ hname)) hdistinct hrun
        refine ⟨hready, ?_, fun g hg other hother ↦ ?_⟩
        · refine (hfirst.mono ?_).trans (hlater.mono fun _ ↦ List.mem_cons_of_mem _)
          rintro _ rfl
          exact List.mem_cons_self
        · rcases List.mem_cons.1 hg with rfl | hg
          · cases hname.symm.trans hother
            -- The names are distinct, so the functions after this one leave it alone.
            refine ⟨hlater.hasVar hvar, fun hnone ↦ hlater.holdsClosure hnew ?_⟩
            -- The closure is new, so it is not the global object.
            have hne : c ≠ o := by
              rintro rfl
              exact absurd hσ.lt (Nat.not_lt.2 hge)
            obtain ⟨a, hown⟩ := hclosure ((htouches₁.boundTo name).trans hnone)
            refine ⟨a, c, strict, hown, hne, Nat.lt_of_lt_of_le hlt htouches₂.objects_le, ?_⟩
            rw [htouches₂.object c hlt hne]
            exact hcallable
          · obtain ⟨hvar, hclosure⟩ := hrest g hg other hother
            exact ⟨hvar, fun hnone ↦ hclosure ((hfirst.boundTo other).trans hnone)⟩

theorem exists_run_set {name : String} {v : Value}
    (hrun : (Scope.objectSet eng o name v false).run σ = (.ok (), τ)) :
    ∃ assigned, (Object.set eng o (keyOf name) v (.object o)).run σ = (.ok assigned, τ) := by
  rw [Scope.objectSet, Action.run_bind, Action.run_heap] at hrun
  dsimp only at hrun
  rw [if_neg (by simp)] at hrun
  obtain ⟨assigned, σ₁, hset, hrun⟩ := Action.run_bind_eq_ok hrun
  rw [if_neg (by simp)] at hrun
  cases hrun
  exact ⟨assigned, hset⟩

/-- A `var` makes a property only where there is none. -/
theorem of_run_createGlobalVar {name : String} (hσ : σ.heap.Ready o names)
    (hs : ∃ b, σ.heap.IsGlobal s o b)
    (hallows : (σ.heap.own? o (keyOf name)).isSome ∨ (σ.heap.object o).isExtensible = true)
    (hrun : (Scope.createGlobalVar eng s o name false).run σ = (.ok (), τ)) :
    τ.heap.Ready o names ∧
      σ.heap.Touches s o {name | σ.heap.own? o (keyOf name) = none} τ.heap ∧
      τ.heap.HasVar s o name := by
  have hhas : (σ.heap.object o).hasOwn (keyOf name) = (σ.heap.own? o (keyOf name)).isSome := rfl
  rw [Scope.createGlobalVar, Action.run_bind, Action.run_object] at hrun
  dsimp only at hrun
  cases hown : σ.heap.own? o (keyOf name) with
  | some d =>
      rw [hhas, hown, Option.isSome_some, if_neg (by simp), run_modifyVarNames] at hrun
      cases hrun
      exact ⟨hσ.of_objects rfl, σ.heap.touches_withVarNames s o name,
        Heap.hasVar_withVarNames hs hown⟩
  | none =>
      rw [hown] at hallows
      have hext : (σ.heap.object o).isExtensible = true := hallows.resolve_left (by simp)
      obtain ⟨σ₁, hdefine, hassigned⟩ := run_define_new eng hown hext .undefined
      have hcreate : (Scope.objectCreate eng o name false).run σ = (.ok (), σ₁) :=
        run_defineOrThrow hdefine
      rw [hhas, hown, Option.isSome_none, hext, if_pos (by simp), Action.run_bind, hcreate] at hrun
      obtain ⟨⟨⟩, σ₂, hset, hnames⟩ := Action.run_bind_eq_ok hrun
      obtain ⟨assigned, hset⟩ := exists_run_set hset
      obtain ⟨htouches₁, -⟩ := hσ.touches (s := s) hassigned
      obtain ⟨hready, htouches₂, d, hown₂, -⟩ :=
        touches_of_run_set (s := s) (hσ.assigned hassigned) hset
      rw [run_modifyVarNames] at hnames
      cases hnames
      have ht := htouches₁.trans htouches₂
      refine ⟨hready.of_objects rfl, ?_, Heap.hasVar_withVarNames (ht.isGlobal hs) hown₂⟩
      refine (ht.trans (σ₂.heap.touches_withVarNames s o name)).mono ?_
      rintro _ rfl
      exact hown

theorem of_run_createVars {vars : List String} (hσ : σ.heap.Ready o names)
    (hs : ∃ b, σ.heap.IsGlobal s o b)
    (hallows : ∀ name ∈ vars,
      (σ.heap.own? o (keyOf name)).isSome ∨ (σ.heap.object o).isExtensible = true)
    (hrun : (createVars eng s o vars).run σ = (.ok (), τ)) :
    σ.heap.Touches s o {name | σ.heap.own? o (keyOf name) = none} τ.heap ∧
      ∀ name ∈ vars, τ.heap.HasVar s o name := by
  induction vars generalizing σ with
  | nil =>
      cases hrun
      exact ⟨Heap.touches_refl _, nofun⟩
  | cons name rest ih =>
      obtain ⟨⟨⟩, σ₁, hfirst, hrun⟩ := Action.run_bind_eq_ok hrun
      obtain ⟨hready, htouches, hvar⟩ :=
        of_run_createGlobalVar hσ hs (hallows name List.mem_cons_self) hfirst
      have hallows₁ : ∀ other ∈ rest, (σ₁.heap.own? o (keyOf other)).isSome ∨
          (σ₁.heap.object o).isExtensible = true := by
        intro other hother
        rw [htouches.extensible]
        exact (hallows other (List.mem_cons_of_mem _ hother)).imp_left (htouches.present other)
      obtain ⟨hlater, hrest⟩ := ih hready (htouches.isGlobal hs) hallows₁ hrun
      refine ⟨htouches.trans (hlater.mono fun other hother ↦ ?_), fun other hother ↦ ?_⟩
      · -- No property goes away: one that is missing later was missing at first.
        refine Option.not_isSome_iff_eq_none.1 fun hsome ↦ ?_
        exact Option.not_isSome_iff_eq_none.2 hother (htouches.present other hsome)
      · rcases List.mem_cons.1 hother with rfl | hother
        · exact hlater.hasVar hvar
        · exact hrest other hother

theorem of_run_checkVars {vars : List String}
    (hrun : (checkVars o vars).run σ = (.ok (), τ)) :
    τ = σ ∧ ∀ name ∈ vars, (σ.heap.own? o (keyOf name)).isSome ∨
      (σ.heap.object o).isExtensible = true := by
  induction vars with
  | nil =>
      cases hrun
      exact ⟨rfl, nofun⟩
  | cons name rest ih =>
      obtain ⟨can, σ₁, hcan, hrest⟩ := Action.run_bind_eq_ok hrun
      have hresult : ((.ok ((σ.heap.object o).hasOwn (keyOf name) ||
          (σ.heap.object o).isExtensible) : Except Failure Bool), σ) = (.ok can, σ₁) := hcan
      cases hresult
      split at hrest
      · exact absurd hrest (Action.run_throwNew_bind_ne_ok _ _ _ _ _)
      next hallows =>
        obtain ⟨hτ, hrest⟩ := ih hrest
        refine ⟨hτ, fun other hother ↦ ?_⟩
        rcases List.mem_cons.1 hother with rfl | hother
        · have hor : ((σ.heap.object o).hasOwn (keyOf other) ||
              (σ.heap.object o).isExtensible) = true := by
            rwa [Bool.not_eq_true', Bool.not_eq_false] at hallows
          exact Bool.or_eq_true_iff.1 hor
        · exact hrest other hother

end Script

/-! ## Lexical names -/

/-- The lexical names have become variables without a value; nothing else has changed. -/
structure Heap.GainsLexical (s : ScopeRef) (o : ObjectRef) (ls : List LexicalName) (h h' : Heap) :
    Prop where
  objects : h'.objects = h.objects
  cells : h'.cells = h.cells
  isGlobal : ∃ b, h'.IsGlobal s o b
  declared : ∀ l ∈ ls, ∃ x, h'.bindingAt s l.name = some x ∧ x.value = none ∧ x.canDelete = false
  stays : ∀ t name x, h.bindingAt t name = some x → h'.bindingAt t name = some x
  values : ∀ t name, (h'.bindingAt t name).bind Binding.value =
    (h.bindingAt t name).bind Binding.value

namespace Heap.GainsLexical

variable {s : ScopeRef} {o : ObjectRef} {ls : List LexicalName} {h h' : Heap}
  (hgains : h.GainsLexical s o ls h')

include hgains

theorem object (p : ObjectRef) : h'.object p = h.object p := by
  rw [Heap.object, hgains.objects, Heap.object]

theorem own? (p : ObjectRef) (k : PropertyKey) : h'.own? p k = h.own? p k := by
  rw [Heap.own?, hgains.object, Heap.own?]

end Heap.GainsLexical

theorem Script.gainsLexical_of_run {eng : Engine} {s : ScopeRef} {o : ObjectRef} {b : Bindings}
    {ls : List LexicalName} {σ τ : State} (hs : σ.heap.IsGlobal s o b)
    (hrun : (Function.createLexical eng s ls).run σ = (.ok (), τ)) :
    σ.heap.GainsLexical s o ls τ.heap := by
  induction ls generalizing σ b with
  | nil =>
      cases hrun
      exact ⟨rfl, rfl, ⟨b, hs⟩, nofun, fun _ _ _ ↦ id, fun _ _ ↦ rfl⟩
  | cons l rest ih =>
      rw [run_createLexical_cons eng hs, Action.run_bind] at hrun
      cases hl : b.contains l.name with
      | true =>
          have hrefused : b.create l.name l.binding = .error (.script (.redeclared l.name)) := by
            rw [Bindings.create, if_pos hl]
          rw [Scope.update, hrefused] at hrun
          cases hrun
      | false =>
          rw [run_update_create hl] at hrun
          have habsent : b.find? l.name = none := by
            simpa [Bindings.contains] using hl
          have hs' := hs.withVariables (b.insert l.name l.binding)
          have hnew : (σ.heap.withVariables s (b.insert l.name l.binding)).bindingAt s l.name =
              some l.binding := by
            rw [hs'.bindingAt, Bindings.find?_insert_self]
          have hold {t : ScopeRef} {name : String} (hne : (t, name) ≠ (s, l.name)) :
              (σ.heap.withVariables s (b.insert l.name l.binding)).bindingAt t name =
                σ.heap.bindingAt t name := by
            refine σ.heap.bindingAt_withVariables fun b₀ hb₀ ht ↦ ?_
            obtain ⟨-, names, hrecord⟩ := hs
            rw [hrecord] at hb₀
            cases hb₀
            exact b.find?_insert_of_ne (fun hname ↦ hne (by rw [ht, hname])) _
          have hrest := ih hs' hrun
          refine ⟨hrest.objects, hrest.cells, hrest.isGlobal, fun l' hl' ↦ ?_,
            fun t name x hx ↦ hrest.stays t name x ?_, fun t name ↦ ?_⟩
          · rcases List.mem_cons.1 hl' with rfl | hl'
            · exact ⟨_, hrest.stays s l'.name _ hnew, rfl, rfl⟩
            · exact hrest.declared l' hl'
          · rw [hold, hx]
            rintro heq
            cases heq
            rw [hs.bindingAt, habsent] at hx
            cases hx
          · rw [hrest.values]
            by_cases heq : (t, name) = (s, l.name)
            · -- The variable is new and has no value, as if it were not there.
              cases heq
              rw [hnew, hs.bindingAt, habsent]
              rfl
            · rw [hold heq]

end Ecma
