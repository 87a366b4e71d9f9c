import Ecma.Proofs.Discipline.Engine
import Ecma.Proofs.OwnPropertyRuns

/-!
# Properties that are bound to variables

Properties are bound to variables when an object is made, and not afterwards: a
property of an object that is there may lose its variable, but no property gets
one, neither its old one back nor another.  This holds whatever the engine runs,
so it is stated as a discipline.
-/

namespace Ecma

/-! ## The variable of a property -/

/-- The variable that a property is bound to: its scope and its name. -/
def PropertyForm.boundTo? : PropertyForm → Option (ScopeRef × String)
  | .bound scope name => some (scope, name)
  | .generic | .data _ | .accessor _ _ | .lazy _ => none

theorem PropertyForm.boundTo?_eq_some {form : PropertyForm} {scope : ScopeRef} {name : String} :
    form.boundTo? = some (scope, name) ↔ form = .bound scope name := by
  cases form <;> simp [boundTo?]

theorem PropertyForm.ne_bound_of_boundTo? {form : PropertyForm} (h : form.boundTo? = none)
    (scope : ScopeRef) (name : String) : form ≠ .bound scope name := by
  rintro rfl
  cases h

namespace Descriptor

theorem IsOrdinary.boundTo? {d : Descriptor} (hd : d.IsOrdinary) : d.form.boundTo? = none := by
  obtain ⟨a, form⟩ := d
  cases form with
  | bound scope name => exact hd.elim
  | _ => rfl

@[simp] theorem boundTo?_resolveCell (d : Descriptor) (c : CellRef) (v : Value) :
    (d.resolveCell c v).form.boundTo? = d.form.boundTo? := by
  unfold resolveCell
  split
  next hform =>
    split
    · rw [hform]
      rfl
    · rfl
  next => rfl

@[simp] theorem boundTo?_complete (d : Descriptor) :
    d.complete.form.boundTo? = d.form.boundTo? := by
  obtain ⟨a, form⟩ := d
  cases form <;> rfl

/-- A property that is not bound is bound by a patch that is bound itself, and by no other. -/
theorem boundTo?_patched {current : Descriptor} (hcurrent : current.form.boundTo? = none)
    (patch : Descriptor) : (current.patched patch).form.boundTo? = patch.form.boundTo? := by
  obtain ⟨a, form⟩ := current
  obtain ⟨b, change⟩ := patch
  unfold patched
  split
  · cases change <;> rfl
  · cases change with
    | generic => cases form <;> exact hcurrent
    | data v =>
        cases v with
        | none => cases form <;> exact hcurrent
        | some v => cases form <;> rfl
    | accessor get set => cases form <;> exact hcurrent
    | lazy c => cases form <;> rfl
    | bound scope name => cases form <;> rfl

end Descriptor

namespace Object

/-- The variable that the own property under a key is bound to. -/
def boundTo? (o : Object) (k : PropertyKey) : Option (ScopeRef × String) :=
  (o.own? k).bind (·.form.boundTo?)

theorem boundTo?_of_own? {o : Object} {k : PropertyKey} {d : Descriptor}
    (hd : o.own? k = some d) : o.boundTo? k = d.form.boundTo? := by
  simp [boundTo?, hd]

section Changes

variable {o : Object} (hvalid : o.Valid) (k k' : PropertyKey)

include hvalid

theorem Valid.boundTo?_store (d : Descriptor) :
    (o.store k d).boundTo? k' = if k.same k' then d.form.boundTo? else o.boundTo? k' := by
  rw [boundTo?, hvalid.own?_store]
  split <;> rfl

theorem Valid.boundTo?_resolve (c : CellRef) (v : Value) :
    (o.modify k (·.resolveCell c v)).boundTo? k' = o.boundTo? k' := by
  rw [boundTo?, hvalid.own?_modify]
  split
  · cases hd : o.own? k' <;> simp [boundTo?, hd]
  · rfl

theorem Valid.boundTo?_remove :
    (o.remove k).boundTo? k' = if k.same k' then none else o.boundTo? k' := by
  rw [boundTo?, hvalid.own?_remove]
  split <;> rfl

end Changes

/-- What is bound later was bound before, to the same variable. -/
def Fades (o o' : Object) : Prop :=
  ∀ k x, o'.boundTo? k = some x → o.boundTo? k = some x

namespace Fades

variable {o : Object}

theorem of_eq {o' : Object} (h : ∀ k, o'.boundTo? k = o.boundTo? k) : o.Fades o' :=
  fun k _ hx ↦ (h k).symm.trans hx

theorem store (hvalid : o.Valid) {k : PropertyKey} {d : Descriptor}
    (hd : ∀ x, d.form.boundTo? = some x → o.boundTo? k = some x) : o.Fades (o.store k d) := by
  intro k' x hx
  rw [hvalid.boundTo?_store] at hx
  split at hx
  next hsame =>
    rw [boundTo?, ← own?_congr hsame]
    exact hd x hx
  next => exact hx

theorem remove (hvalid : o.Valid) (k : PropertyKey) : o.Fades (o.remove k) := by
  intro k' x hx
  rw [hvalid.boundTo?_remove] at hx
  split at hx
  · cases hx
  · exact hx

end Fades

end Object

/-! ## The discipline -/

/-- Host programs that bind no property to a variable. -/
def unboundHost : HostContract := ⟨fun _ ↦ True, fun d ↦ d.form.boundTo? = none⟩

namespace Heap

/-- The objects are built by operations, bound properties are writable, and the
functions of the host bind none. -/
def IsLinked (h : Heap) : Prop := h.AllConform Descriptor.IsSettled unboundHost

/-- The variable that a property of an object is bound to. -/
def boundTo? (h : Heap) (o : ObjectRef) (k : PropertyKey) : Option (ScopeRef × String) :=
  (h.object o).boundTo? k

structure Fades (h h' : Heap) : Prop where
  objects_le : h.objects.size ≤ h'.objects.size
  object : ∀ o : ObjectRef, o.index < h.objects.size → (h.object o).Fades (h'.object o)

namespace Fades

variable {h h' h'' : Heap}

theorem of_objects (hobjects : h'.objects = h.objects) : h.Fades h' where
  objects_le := by rw [hobjects]
  object o _ := by
    have hobject : h'.object o = h.object o := by simp [Heap.object, hobjects]
    rw [hobject]
    exact .of_eq fun _ ↦ rfl

theorem trans (hf : h.Fades h') (hf' : h'.Fades h'') : h.Fades h'' where
  objects_le := Nat.le_trans hf.objects_le hf'.objects_le
  object o ho k x hx :=
    hf.object o ho k x (hf'.object o (Nat.lt_of_lt_of_le ho hf.objects_le) k x hx)

theorem of_grows {H : HostContract} (hg : h.Grows H h') : h.Fades h' where
  objects_le := hg.objects_le
  object o ho := by
    rw [hg.object_eq o ho]
    exact .of_eq fun _ ↦ rfl

theorem modifyObject {o : ObjectRef} {f : Object → Object}
    (hf : o.index < h.objects.size → (h.object o).Fades (f (h.object o))) :
    h.Fades (h.modifyObject o f) where
  objects_le := by simp [Heap.modifyObject]
  object p hp := by
    by_cases hpo : p = o
    · subst hpo
      rw [object_modifyObject_self hp]
      exact hf hp
    · rw [object_modifyObject_of_ne h hpo]
      exact .of_eq fun _ ↦ rfl

/-- A property that is not bound stays so. -/
theorem boundTo?_none (hf : h.Fades h') {o : ObjectRef} (ho : o.index < h.objects.size)
    {k : PropertyKey} (hk : h.boundTo? o k = none) : h'.boundTo? o k = none := by
  rw [Option.eq_none_iff_forall_ne_some]
  intro x hx
  rw [Heap.boundTo?, hf.object o ho k x hx] at hk
  cases hk

end Fades

end Heap

theorem State.isLinked_initial (options : Options) : (State.initial options).heap.IsLinked :=
  Heap.AllConform.of_grows Heap.allConform_empty (fun _ hd ↦ hd.isSettled) (Realm.grows_build _ _)

/-- Linked heaps in which no property gets a variable; anything may fail. -/
def fading : Discipline where
  toHostContract := unboundHost
  Good σ := σ.heap.IsLinked
  Step σ σ' := σ.heap.Fades σ'.heap
  refl _ := .of_objects rfl
  trans h h' := h.trans h'
  fails _ _ := trivial
  patches _ hd := hd.isOrdinary.boundTo?

namespace fading

open Discipline

variable {α : Type} {eng : Engine} {σ τ : State} {o : ObjectRef} {k : PropertyKey}

theorem base : fading.Base where
  quiet _ _ hobjects _ _ hσ := ⟨hσ.of_objects hobjects, .of_objects hobjects⟩
  grows _ _ hg _ hσ := ⟨hσ.of_grows (fun _ hd ↦ hd.isSettled) hg, .of_grows hg⟩
  deepen _ hσ := hσ
  surface _ _ _ hτ hstep := ⟨hτ, hstep⟩
  beside σ hσ := hσ.of_grows (fun _ hd ↦ hd.isSettled) (Realm.grows_build _ σ.heap)
  resume σ τ _ hτ hstep := by
    have hbuild : σ.heap.Grows unboundHost σ.beside.heap := Realm.grows_build _ σ.heap
    exact ⟨hτ, (Heap.Fades.of_grows hbuild).trans hstep⟩
  callable _ _ _ hσ hf := hσ.callable hf

theorem allows_modifyObject (hσ : σ.heap.IsLinked) {f : Object → Object}
    (hconforms : ∀ data : Object, data.Conforms Descriptor.IsSettled unboundHost →
      (f data).Conforms Descriptor.IsSettled unboundHost)
    (hfades : (σ.heap.object o).Valid → (σ.heap.object o).Fades (f (σ.heap.object o)))
    (r : Except Failure α) :
    fading.Allows σ (r, { σ with heap := σ.heap.modifyObject o f }) :=
  ⟨hσ.modifyObject o hconforms, .modifyObject fun ho ↦ hfades (hσ o ho).valid, fun _ _ ↦ trivial⟩

theorem keeps_setCell (c : CellRef) (data : LazyCell) :
    fading.Keeps (Action.modifyHeap (·.setCell c data)) :=
  fun _ hσ ↦ ⟨hσ.of_objects rfl, .of_objects rfl, nofun⟩

/-! ## Reading own properties -/

theorem keeps_resolve (heng : fading.Holds eng) (c : CellRef) (key : String) :
    fading.Keeps (Lazy.resolve eng c key) := by
  refine keeps_heap.bind fun h ↦ ?_
  split
  · exact keeps_pure _
  · exact keeps_fault nofun
  · refine (keeps_setCell c _).bind fun _ ↦ (keeps_runSteps base heng _).bind fun _ ↦ ?_
    exact (keeps_setCell c _).bind fun _ ↦ keeps_pure _

theorem keeps_memoize (o : ObjectRef) (k : PropertyKey) (c : CellRef) (v : Value) :
    fading.Keeps (Action.modifyObject o (Object.memoize k c v)) := by
  intro σ hσ
  refine allows_modifyObject hσ (fun data hdata ↦ ?_) (fun hvalid ↦ ?_) _
  · exact hdata.modify k fun _ hd ↦ hd.resolveCell c v
  · exact .of_eq fun k' ↦ hvalid.boundTo?_resolve k k' c v

theorem keeps_getOwn (heng : fading.Holds eng) (o : ObjectRef) (k : PropertyKey) :
    fading.Keeps (Object.getOwn eng o k) := by
  refine keeps_heap.bind fun h ↦ ?_
  split
  · exact keeps_pure _
  · refine (keeps_resolve heng _ _).bind fun v ↦ ?_
    exact (keeps_memoize o k _ v).bind fun _ ↦ keeps_pure _
  · exact keeps_heap.bind fun _ ↦ keeps_pure _
  · exact keeps_pure _

/-- What is read of a property is not bound, -/
theorem boundTo?_of_run_getOwn {d : Descriptor}
    (hrun : (Object.getOwn eng o k).run σ = (.ok (some d), τ)) : d.form.boundTo? = none := by
  rw [Object.run_getOwn] at hrun
  split at hrun
  · cases hrun
  · split at hrun
    · cases hrun
      rfl
    · cases hrun
  · cases hrun
    rfl
  next d' _ hbound _ =>
    cases hrun
    obtain ⟨a, form⟩ := d
    cases form with
    | bound scope name => exact (hbound a scope name rfl).elim
    | _ => rfl

/-- and has a stray bit only if the property itself has one. -/
theorem isSettled_of_run_getOwn {d : Descriptor} (hσ : σ.heap.IsLinked)
    (hrun : (Object.getOwn eng o k).run σ = (.ok (some d), τ)) : d.IsSettled := by
  refine ⟨Object.isMarked_of_run_getOwn (fun _ hown ↦ ?_) hrun, fun scope name hform ↦ ?_⟩
  · exact ((hσ o (Heap.lt_of_own? hown)).own k _ hown).marked
  · have hbound := boundTo?_of_run_getOwn hrun
    exact absurd hform (PropertyForm.ne_bound_of_boundTo? hbound scope name)

/-! ## Changing own properties -/

theorem allows_store (hσ : σ.heap.IsLinked) {d : Descriptor} (hsettled : d.IsSettled)
    (hd : ∀ x, d.form.boundTo? = some x → σ.heap.boundTo? o k = some x)
    (r : Except Failure α) :
    fading.Allows σ (r, { σ with heap := σ.heap.modifyObject o (·.store k d) }) :=
  allows_modifyObject hσ (fun _ hdata ↦ hdata.store k hsettled) (fun hvalid ↦ .store hvalid hd) r

theorem keeps_define (heng : fading.Holds eng) (o : ObjectRef) (k : PropertyKey)
    {patch : Descriptor} (hpatch : patch.form.boundTo? = none) :
    fading.Keeps (Object.define eng o k patch) := by
  intro σ hσ
  have hread := keeps_getOwn heng o k σ hσ
  rw [Object.run_define]
  rcases hrun : (Object.getOwn eng o k).run σ with ⟨e | found, τ⟩
  · rw [hrun] at hread
    exact ⟨hread.good, hread.step, fun _ _ ↦ trivial⟩
  rw [hrun] at hread
  have hτ : τ.heap.IsLinked := hread.good
  refine Allows.after ?_ hread.step
  cases found with
  | none =>
      dsimp only
      split
      · have hcomplete : patch.complete.form.boundTo? = none := by
          rw [patch.boundTo?_complete, hpatch]
        refine allows_store hτ (Descriptor.isSettled_complete ?_) (fun x hx ↦ ?_) _
        · exact PropertyForm.ne_bound_of_boundTo? hpatch
        rw [hcomplete] at hx
        cases hx
      · exact allows_ok hτ _
  | some shown =>
      dsimp only
      split
      · have hnew := (Descriptor.boundTo?_patched (boundTo?_of_run_getOwn hrun) patch).trans hpatch
        -- A resolver may have run since: the form is that of the patch, or the one which
        -- the property has by now.
        obtain ⟨form, heap, hstore, hpasses, hstored, hform⟩ :=
          Object.run_storePatched o k patch (shown.patched patch) τ
        have hobjects := hpasses.objects
        rw [hstore]
        let τ' : State := { τ with heap }
        have hτ' : τ'.heap.IsLinked := hτ.of_objects hobjects
        have hown : τ'.heap.boundTo? o k = τ.heap.boundTo? o k := by
          simp [τ', Heap.boundTo?, Heap.object, hobjects]
        refine Allows.after (allows_store hτ' ?_ (fun x hx ↦ ?_) _) (.of_objects hobjects)
        · refine hstored.isSettled ((isSettled_of_run_getOwn hσ hrun).patched ?_)
          exact PropertyForm.ne_bound_of_boundTo? hnew
        · rcases hform with rfl | ⟨d, hd, rfl⟩
          · rw [hnew] at hx
            cases hx
          · rw [hown, Heap.boundTo?, Object.boundTo?_of_own? hd]
            exact hx
      · exact allows_ok hτ _

theorem keeps_delete (o : ObjectRef) (k : PropertyKey) : fading.Keeps (Object.delete o k) := by
  refine keeps_heap.bind fun h ↦ ?_
  split
  · exact keeps_pure _
  · split
    · refine Keeps.bind (fun σ hσ ↦ ?_) fun _ ↦ keeps_pure _
      exact allows_modifyObject hσ (fun _ hdata ↦ hdata.remove k) (fun hvalid ↦ .remove hvalid k) _
    · exact keeps_pure _

/-- A change that does not touch the properties. -/
theorem keeps_modifyObject (o : ObjectRef) (f : Object → Object)
    (hstrings : ∀ data, (f data).strings = data.strings)
    (hsymbols : ∀ data, (f data).symbols = data.symbols)
    (hcallable : ∀ data, (f data).callable = data.callable) :
    fading.Keeps (Action.modifyObject o f) := by
  intro σ hσ
  refine allows_modifyObject hσ (fun data hdata ↦ ?_) (fun _ ↦ .of_eq fun k ↦ ?_) _
  · exact hdata.of_stores (hstrings data) (hsymbols data) (hcallable data)
  · rw [Object.boundTo?, Object.own?_of_stores (hstrings _) (hsymbols _), Object.boundTo?]

theorem keeps_setPrototype (o : ObjectRef) (prototype : Option ObjectRef) :
    fading.Keeps (Object.setPrototype o prototype) := by
  refine keeps_heap.bind fun h ↦ ?_
  dsimp only
  split
  · exact keeps_pure _
  split
  · exact keeps_pure _
  split
  · exact keeps_pure _
  · exact (keeps_modifyObject o (fun data ↦ { data with prototype }) (fun _ ↦ rfl) (fun _ ↦ rfl)
      fun _ ↦ rfl).bind fun _ ↦ keeps_pure _

theorem keeps_preventExtensions (o : ObjectRef) : fading.Keeps (Object.preventExtensions o) :=
  (keeps_modifyObject o (fun data ↦ { data with isExtensible := false }) (fun _ ↦ rfl)
    (fun _ ↦ rfl) fun _ ↦ rfl).bind fun _ ↦ keeps_pure _

theorem lawful : fading.Lawful :=
  { base with
    getOwn := fun _ heng o k ↦ keeps_getOwn heng o k
    define := fun _ heng o k _ hpatch ↦ keeps_define heng o k hpatch
    delete := keeps_delete
    setPrototype := keeps_setPrototype
    preventExtensions := keeps_preventExtensions }

end fading

end Ecma
