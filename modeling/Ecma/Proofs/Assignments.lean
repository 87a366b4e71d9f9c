import Ecma.Proofs.CallFreeReads
import Ecma.Proofs.DescriptorKinds
import Ecma.Proofs.ScriptDeclarations

/-!
# Assigning to properties

An assignment looks for the nearest property under the key.  A setter that is
found is called; any other property, or none, only decides whether the receiver
takes the value as a property of its own.  That property may be new, have a value
of its own or be bound to a variable, and nothing but it and that variable is
written.
-/

namespace Ecma

/-! ## Variables behind properties -/

/-- Storing gives a variable that can be assigned its value. -/
theorem Bindings.find?_store_self (b : Bindings) (name : String) (v : Value) :
    (b.store name v).find? name =
      (b.find? name).map fun x ↦ if x.isMutable then { x with value := some v } else x := by
  unfold store
  cases hx : b.find? name with
  | none => simp [hx]
  | some x =>
      cases hmutable : x.isMutable with
      | true => simp [hmutable, find?_write_self, hx]
      | false => simp [hmutable, hx]

namespace Heap

variable {h : Heap} {s : ScopeRef} {name : String} {v : Value}

theorem bindingAt_storeBound_self (h : Heap) (s : ScopeRef) (name : String) (v : Value) :
    (h.storeBound s name v).bindingAt s name =
      (h.bindingAt s name).map fun x ↦ if x.isMutable then { x with value := some v } else x := by
  by_cases hs : s.index < h.scopes.size
  · cases hb : (h.scope s).record.bindings? with
    | none =>
        have hsame : (h.storeBound s name v).scope s = h.scope s := by
          rw [storeBound, scope_modifyScope_self hs, hb]
        rw [bindingAt, hsame, bindingAt, hb]
        rfl
    | some b =>
        rw [storeBound_eq hb, bindingAt, scope_modifyScope_self hs,
          ScopeRecord.bindings?_withBindings hb, bindingAt, hb]
        exact b.find?_store_self name v
  · have hnone (h : Heap) (hs : ¬s.index < h.scopes.size) : h.bindingAt s name = none := by
      simp only [bindingAt, scope, Array.getD_eq_getD_getElem?,
        Array.getElem?_eq_none (Nat.le_of_not_lt hs)]
      rfl
    rw [hnone h hs, hnone _ (by simpa [storeBound, modifyScope] using hs)]
    rfl

/-- What can be assigned has the value that was written to it. -/
theorem value_of_bindingAt_storeBound {x : Binding}
    (hx : (h.storeBound s name v).bindingAt s name = some x) (hmutable : x.isMutable = true) :
    x.value = some v := by
  rw [bindingAt_storeBound_self] at hx
  obtain ⟨y, -, rfl⟩ := Option.map_eq_some_iff.1 hx
  cases hy : y.isMutable with
  | true => simp
  | false =>
      rw [hy, if_neg Bool.false_ne_true, hy] at hmutable
      cases hmutable

/-- The variable is there and can be assigned. -/
def IsMutable (h : Heap) (s : ScopeRef) (name : String) : Prop :=
  ∃ x, h.bindingAt s name = some x ∧ x.isMutable = true

theorem boundValue_storeBound (hs : (h.storeBound s name v).IsMutable s name) :
    (h.storeBound s name v).boundValue s name = v := by
  obtain ⟨x, hx, hmutable⟩ := hs
  rw [boundValue_eq, hx]
  simp [value_of_bindingAt_storeBound hx hmutable]

end Heap

/-! ## What is written -/

/-- The property under the key, now with the attributes `a`, takes the value, and nothing else is
done.  Where it was bound to a variable, the variable takes the value; the property stays bound if
it has the bit of a writable one. -/
inductive State.Takes (o : ObjectRef) (k : PropertyKey) (v : Value) (a : Attributes) (σ τ : State) :
    Prop
  | own (hbound : ∀ b s name, σ.heap.own? o k ≠ some ⟨b, .bound s name⟩)
      (hstores : σ.Stores o k ⟨a, .data (some v)⟩ τ)
  | variable {b : Attributes} {s : ScopeRef} {name : String}
      (hown : σ.heap.own? o k = some ⟨b, .bound s name⟩)
      (hothers : ∀ t y, (s, name) ≠ (t, y) → τ.heap.bindingAt t y = σ.heap.bindingAt t y)
      (hstores : { σ with heap := σ.heap.storeBound s name v }.Stores o k
        ⟨a, if a.writableBits.value then .bound s name else .data (some v)⟩ τ)

namespace State

variable {o : ObjectRef} {k : PropertyKey} {v : Value} {a : Attributes} {σ τ : State}

theorem propertyIs_of_own? (hown : τ.heap.own? o k = some ⟨a, .data (some v)⟩) :
    τ.PropertyIs o k v := by
  have hform (c : CellRef) : PropertyForm.data (some v) ≠ .lazy c := PropertyForm.noConfusion
  intro n receiver
  rw [Object.get, Action.run_bind, Object.run_find_shown _ hown hform, Engine.fuel_level,
    if_neg (Nat.succ_ne_zero n)]
  rfl

/-- Reading gives what was assigned, if a variable that should have taken it could. -/
theorem Takes.propertyIs (h : σ.Takes o k v a τ)
    (hmutable : ∀ b s name, τ.heap.own? o k = some ⟨b, .bound s name⟩ →
      τ.heap.IsMutable s name) : τ.PropertyIs o k v := by
  cases h with
  | own hbound hstores => exact propertyIs_of_own? hstores.own
  | @«variable» b s name hown hothers hstores =>
      have hown' := hstores.own
      split at hown'
      · have hvalue : τ.heap.boundValue s name = v := by
          have hwritten := hmutable a s name hown'
          rw [hstores.state] at hwritten ⊢
          exact Heap.boundValue_storeBound hwritten
        intro n receiver
        rw [Object.run_get_bound hown', hvalue]
      · exact propertyIs_of_own? hown'

end State

/-- A patch with a value leaves data with that value, whatever was there. -/
theorem Descriptor.form_patched_of_data {patch : Descriptor} {v : Value}
    (hpatch : patch.form = .data (some v)) (current : Descriptor) :
    (current.patched patch).form = .data (some v) := by
  obtain ⟨a, form⟩ := current
  obtain ⟨b, change⟩ := patch
  cases hpatch
  unfold patched
  split
  · rfl
  · cases form <;> rfl

/-- Where nothing is called, a property keeps its attributes. -/
theorem Heap.Retains.attributes {h h' : Heap} (hr : h.Retains h') {o : ObjectRef}
    (ho : o.index < h.objects.size) (k : PropertyKey) :
    (h'.own? o k).map Descriptor.attributes = (h.own? o k).map Descriptor.attributes := by
  rcases hr.own o ho k with hsame | ⟨a, c, v, hlazy, -, hvalue⟩
  · rw [hsame]
  · rw [hlazy, hvalue]
    rfl

namespace Object

variable {eng : Engine} {o p r : ObjectRef} {k : PropertyKey} {v receiver : Value}
  {patch new : Descriptor} {σ τ : State} {b : Bool}

/-- A bound property that stays data: the variable takes the value that the patch has, and the
property stays bound if it has the bit of a writable one. -/
theorem run_storePatched_of_bound {a : Attributes} {s : ScopeRef} {name : String}
    (hown : σ.heap.own? o k = some ⟨a, .bound s name⟩) (patch : Descriptor)
    (hnew : new.form = .data (some v)) :
    (storePatched o k patch new).run σ =
      (let form := if new.attributes.writableBits.value then .bound s name else new.form
       let heap := if patch.value?.isSome then σ.heap.storeBound s name v else σ.heap
       (.ok true, { σ with heap := heap.modifyObject o (·.store k ⟨new.attributes, form⟩) })) := by
  rw [storePatched, Action.run_bind, Action.run_heap]
  dsimp only
  rw [hown]
  dsimp only
  rw [rebind, hnew]
  cases patch.value?.isSome <;> rfl

/-- Storing a property that has been given a value. -/
theorem exists_takes_storePatched (hσ : σ.heap.IsStored) (ho : o.index < σ.heap.objects.size)
    (hpatch : patch.form = .data (some v)) (hnew : new.form = .data (some v)) :
    ∃ τ, (storePatched o k patch new).run σ = (.ok true, τ) ∧
      σ.Takes o k v new.attributes τ := by
  by_cases hbound : ∃ a s name, σ.heap.own? o k = some ⟨a, .bound s name⟩
  · obtain ⟨a, s, name, hown⟩ := hbound
    have hvalue : patch.value?.isSome = true := by
      rw [Descriptor.value?, hpatch]
      rfl
    let ρ : State := { σ with heap := σ.heap.storeBound s name v }
    have hρ : ρ.heap.IsStored := Heap.AllConform.of_objects hσ rfl
    refine ⟨_, run_storePatched_of_bound hown patch hnew, ?_⟩
    rw [hvalue, hnew, if_pos rfl]
    refine .variable hown (fun t y hne ↦ ?_) (State.stores_store hρ ho k _)
    exact Heap.bindingAt_storeBound σ.heap hne v
  · have hbound' (a s name) : σ.heap.own? o k ≠ some ⟨a, .bound s name⟩ :=
      fun h ↦ hbound ⟨a, s, name, h⟩
    have hform : new = ⟨new.attributes, .data (some v)⟩ := by rw [← hnew]
    refine ⟨_, run_storePatched_of_not_bound patch new hbound', .own hbound' ?_⟩
    rw [hform]
    exact State.stores_store hσ ho k _

/-! ## Outcomes -/

/-- A property that is given a value is read and then takes it. -/
theorem takes_of_run_define (hpatch : patch.form = .data (some v))
    (hread : ∀ found ρ, (getOwn eng o k).run σ = (.ok found, ρ) →
      ρ.heap.IsStored ∧ o.index < ρ.heap.objects.size)
    (hrun : (define eng o k patch).run σ = (.ok true, τ)) :
    ∃ found ρ, (getOwn eng o k).run σ = (.ok found, ρ) ∧
      ρ.Takes o k v (found.elim patch.complete (·.patched patch)).attributes τ := by
  rw [run_define] at hrun
  rcases hfound : (getOwn eng o k).run σ with ⟨e | _ | shown, ρ⟩
  · rw [hfound] at hrun
    cases hrun
  · obtain ⟨hρ, ho⟩ := hread _ _ hfound
    rw [hfound] at hrun
    dsimp only at hrun
    split at hrun
    · cases hrun
      obtain ⟨-, hown, rfl⟩ | ⟨_, _, _, hnone, -⟩ | ⟨_, _, _, _, _, _, hnone, -⟩ :=
        run_getOwn_cases hfound
      · have hcomplete : patch.complete = ⟨patch.complete.attributes, .data (some v)⟩ := by
          rw [Descriptor.complete, hpatch]
          rfl
        refine ⟨none, ρ, rfl, .own (by simp [hown]) ?_⟩
        rw [Option.elim_none, ← hcomplete]
        exact State.stores_store hρ ho k _
      · cases hnone
      · cases hnone
    · cases hrun
  · obtain ⟨hρ, ho⟩ := hread _ _ hfound
    rw [hfound] at hrun
    dsimp only at hrun
    split at hrun
    · obtain ⟨τ', hstored, htakes⟩ := exists_takes_storePatched hρ ho hpatch
        (Descriptor.form_patched_of_data hpatch shown)
      cases hrun.symm.trans hstored
      exact ⟨some shown, ρ, rfl, htakes⟩
    · cases hrun

/-- What is under the key can be assigned, by this patch. -/
inductive AssignedBy (v : Value) : Option Descriptor → Descriptor → Prop
  | absent : AssignedBy v none (.plain v)
  | present {d : Descriptor} (ha : d.isAccessor = false) (hw : d.isWritable = true) :
      AssignedBy v (some d) (Descriptor.generic.withValue v)

theorem AssignedBy.form_eq {found : Option Descriptor} (h : AssignedBy v found patch) :
    patch.form = .data (some v) := by
  cases h <;> rfl

/-- The receiver is asked for its own property and refuses, or defines it. -/
theorem run_setOnReceiver_cases
    (hrun : (setOnReceiver eng k v receiver).run σ = (.ok b, τ)) :
    (b = false ∧ σ.Consults eng k τ) ∨
    ∃ r found patch ρ, receiver = .object r ∧ (getOwn eng r k).run σ = (.ok found, ρ) ∧
      AssignedBy v found patch ∧ (define eng r k patch).run ρ = (.ok b, τ) := by
  cases receiver with
  | object r =>
      obtain ⟨found, ρ, hfound, hrest⟩ := Action.run_bind_eq_ok hrun
      cases found with
      | none => exact .inr ⟨r, none, _, ρ, rfl, hfound, .absent, hrest⟩
      | some d =>
          dsimp only at hrest
          split at hrest
          · cases hrest
            exact .inl ⟨rfl, State.consults_getOwn hfound⟩
          next hd =>
            have hd' : d.isAccessor = false ∧ d.isWritable = true := by simpa using hd
            exact .inr ⟨r, some d, _, ρ, rfl, hfound, .present hd'.1 hd'.2, hrest⟩
  | _ =>
      cases hrun
      exact .inl ⟨rfl, .refl⟩

/-- The nearest property refuses, or leaves it to the receiver, or has a setter that is called. -/
theorem run_set_cases (hrun : (set eng o k v receiver).run σ = (.ok b, τ)) :
    ∃ found ρ, (find eng o k).run σ = (.ok found, ρ) ∧
      (b = false ∧ τ = ρ ∨
        ((found.getD (.plain .undefined)).isData = true ∧
          (found.getD (.plain .undefined)).isWritable = true ∧
          (setOnReceiver eng k v receiver).run ρ = (.ok b, τ)) ∨
        ∃ d f w, found = some d ∧ d.isData = false ∧ d.setter? = some f ∧
          ρ.heap.isCallable f = true ∧ b = true ∧
          (eng.call f receiver [v]).run ρ = (.ok w, τ)) := by
  obtain ⟨found, ρ, hfound, hrest⟩ := Action.run_bind_eq_ok hrun
  refine ⟨found, ρ, hfound, ?_⟩
  dsimp only at hrest
  split at hrest
  next hdata =>
    split at hrest
    next hw => exact .inr (.inl ⟨hdata, hw, hrest⟩)
    next =>
      cases hrest
      exact .inl ⟨rfl, rfl⟩
  next hdata =>
    have hcheck (f : Value) : (Action.isCallable f).run ρ = (.ok (ρ.heap.isCallable f), ρ) := rfl
    rw [Action.run_bind, hcheck] at hrest
    dsimp only at hrest
    split at hrest
    next hcallable =>
      obtain ⟨d, f, rfl, hf⟩ := exists_setter hcallable
      rw [Option.getD_some] at hdata hcallable hrest
      rw [hf, Option.getD_some] at hcallable hrest
      rw [Action.run_bind, Action.run_discard] at hrest
      rcases hcall : (eng.call f receiver [v]).run ρ with ⟨e | w, τ'⟩
      · rw [hcall] at hrest
        cases hrest
      · rw [hcall] at hrest
        cases hrest
        exact .inr (.inr ⟨d, f, w, rfl, Bool.eq_false_iff.2 hdata, hf, hcallable, rfl, hcall⟩)
    next =>
      cases hrest
      exact .inl ⟨rfl, rfl⟩

/-- What is found is on the nearest object that has it. -/
theorem exists_finds {n : Nat} {d : Descriptor}
    (hrun : (findFrom eng k n o).run σ = (.ok (some d), τ)) :
    ∃ p, σ.heap.Finds n o k p ∧ (getOwn eng p k).run σ = (.ok (some d), τ) := by
  induction n generalizing o with
  | zero => cases hrun
  | succ n ih =>
      unfold Heap.Finds Heap.chainFrom
      rw [List.find?_cons]
      cases hown : σ.heap.own? o k with
      | some d' =>
          have hpresent : (σ.heap.object o).hasOwn k = true := by
            rw [Heap.own?] at hown
            rw [hasOwn, hown]
            rfl
          rw [run_findFrom_present eng hown] at hrun
          exact ⟨o, by rw [hpresent], hrun⟩
      | none =>
          have habsent : (σ.heap.object o).hasOwn k = false := by
            simpa [hasOwn, Heap.own?] using hown
          rw [run_findFrom_absent eng hown] at hrun
          rw [habsent]
          cases hp : (σ.heap.object o).prototype with
          | none =>
              rw [hp] at hrun
              cases hrun
          | some q =>
              rw [hp] at hrun
              exact ih hrun

/-- An accessor that is read stands as it is. -/
theorem own?_of_run_getOwn_accessor {d : Descriptor}
    (hrun : (getOwn eng p k).run σ = (.ok (some d), τ)) (ha : d.isAccessor = true) :
    σ.heap.own? p k = some d ∧ τ = σ := by
  rcases run_getOwn_cases hrun with
    ⟨hnone, -⟩ | ⟨⟨a, form⟩, hown, hd, hshown, rfl⟩ | ⟨a, c, v, ρ, -, -, hshown, -⟩
  · cases hnone
  · cases Option.some.inj hshown
    cases form with
    | bound s name => cases ha
    | _ => exact ⟨hown, rfl⟩
  · cases Option.some.inj hshown
    cases ha

theorem attributes_of_run_getOwn {shown : Descriptor}
    (hrun : (getOwn eng o k).run σ = (.ok (some shown), τ)) :
    (σ.heap.own? o k).map Descriptor.attributes = some shown.attributes := by
  rcases run_getOwn_cases hrun with
    ⟨hnone, -⟩ | ⟨d, hown, -, hshown, -⟩ | ⟨a, c, v, ρ, hown, -, hshown, -⟩
  · cases hnone
  · cases Option.some.inj hshown
    rw [hown, Option.map_some, d.attributes_shownIn]
  · cases Option.some.inj hshown
    rw [hown]
    rfl

/-- The receiver takes the value where no function is called: its property has the attributes that
it had, or is a plain new one. -/
theorem takes_of_run_setOnReceiver_reading {n : Nat} (hσ : σ.heap.IsStored)
    (hr : r.index < σ.heap.objects.size)
    (hrun : (setOnReceiver (.reading n) k v (.object r)).run σ = (.ok true, τ)) :
    ∃ (ρ : State) (a : Attributes), σ.heap.Retains ρ.heap ∧ a.writable = some true ∧
      a = ((σ.heap.own? r k).map Descriptor.attributes).getD (.ofBools true true true) ∧
      ρ.Takes r k v a τ := by
  have hget := retaining.keeps_get_reading n
  rcases run_setOnReceiver_cases hrun with
    ⟨hfalse, -⟩ | ⟨_, found, patch, ρ, ⟨⟩, hfound, hassigned, hdefine⟩
  · cases hfalse
  have hread := (retaining.keeps_getOwn hget r k).allows hσ hfound
  have hr' : r.index < ρ.heap.objects.size := Nat.lt_of_lt_of_le hr hread.step.objects_le
  obtain ⟨found', ρ', hfound', htakes⟩ := takes_of_run_define hassigned.form_eq
    (fun found' ρ' hfound' ↦ by
      have hread' := (retaining.keeps_getOwn hget r k).allows hread.good hfound'
      exact ⟨hread'.good, Nat.lt_of_lt_of_le hr' hread'.step.objects_le⟩) hdefine
  cases hassigned with
  | absent =>
      obtain ⟨-, hown, rfl⟩ | ⟨_, _, _, hnone, -⟩ | ⟨_, _, _, _, _, _, hnone, -⟩ :=
        run_getOwn_cases hfound
      · cases hfound'.symm.trans (run_getOwn_none _ hown)
        refine ⟨ρ, .ofBools true true true, .refl _, rfl, ?_, htakes⟩
        rw [hown]
        rfl
      · cases hnone
      · cases hnone
  | @present shown ha hw =>
      obtain ⟨d, hown, hd, hshown⟩ := retaining.own?_of_run_getOwn hget hσ hfound
      cases hfound'.symm.trans (run_getOwn_shown _ hown hd)
      rw [Option.elim_some, hshown, Descriptor.patched_withValue ha] at htakes
      refine ⟨ρ, shown.attributes, hread.step, eq_of_beq hw, ?_, htakes⟩
      rw [attributes_of_run_getOwn hfound, Option.getD_some]

/-! ## Setters and receivers -/

/-- The nearest property is an accessor with a setter that can be called, and all that the
assignment does is to call it, whatever calls do. -/
def CallsSetter (n : Nat) (o : ObjectRef) (k : PropertyKey) (v receiver : Value) (σ : State) :
    Prop :=
  ∃ p d f, σ.heap.Finds n o k p ∧ σ.heap.own? p k = some d ∧ d.isAccessor = true ∧
    d.setter? = some f ∧ σ.heap.isCallable f = true ∧
    ∀ call, (set { Engine.level n with call } o k v receiver).run σ =
      (call f receiver [v] >>= fun _ ↦ pure true : Action Bool).run σ

/-- The receiver `r` takes the value. -/
structure AssignsTo (n : Nat) (o : ObjectRef) (k : PropertyKey) (v : Value) (r : ObjectRef)
    (σ τ : State) : Prop where
  /-- The nearest property is no accessor. -/
  nearest : ∀ p d, σ.heap.Finds n o k p → σ.heap.own? p k = some d → d.isAccessor = false
  /-- The assignment calls nothing: it is the same whatever calls do. -/
  silent : ∀ call, (set { Engine.level n with call } o k v (.object r)).run σ = (.ok true, τ)
  /-- The value can be read back, if a variable that should have taken it could. -/
  readBack : (∀ a s name, τ.heap.own? r k = some ⟨a, .bound s name⟩ → τ.heap.IsMutable s name) →
    τ.PropertyIs r k v
  /-- Properties are consulted, then the property of the receiver takes the value, and no more. -/
  written : ∃ ρ a, σ.Consults (.level n) k ρ ∧ ρ.Takes r k v a τ
  /-- If resolvers that were started on the way called nothing either, all is as before until the
  property takes the value, and the property has the attributes that it had, or is a plain new
  one. -/
  frame : Engine.CallsNothing n (set · o k v (.object r)) σ →
    ∃ (ρ : State) (a : Attributes), σ.heap.AsBefore ρ.heap ∧ a.writable = some true ∧
      a = ((σ.heap.own? r k).map Descriptor.attributes).getD (.ofBools true true true) ∧
      ρ.Takes r k v a τ

theorem callsSetter_of_run_find {n : Nat} {d : Descriptor} {f : Value}
    (hfind : (find (.level n) o k).run σ = (.ok (some d), τ)) (hdata : d.isData = false)
    (hf : d.setter? = some f) (hcallable : τ.heap.isCallable f = true) (v receiver : Value) :
    CallsSetter n o k v receiver σ := by
  have ha : d.isAccessor = true := by
    obtain ⟨a, form⟩ := d
    cases form with
    | accessor get set => rfl
    | _ => cases hf
  obtain ⟨p, hfinds, hread⟩ := exists_finds hfind
  rw [Engine.fuel_level] at hfinds
  obtain ⟨hown, rfl⟩ := own?_of_run_getOwn_accessor hread ha
  refine ⟨p, d, f, hfinds, hown, ha, hf, hcallable, fun call ↦ ?_⟩
  have hcheck : (Action.isCallable f).run τ = (.ok true, τ) := by
    rw [← hcallable]
    rfl
  rw [set, Action.run_bind, find_withCall, hfind]
  dsimp only [Option.getD_some]
  rw [if_neg (Bool.eq_false_iff.1 hdata), hf, Option.getD_some, Action.run_bind, hcheck]
  dsimp only
  rw [if_pos rfl, Action.run_bind, Action.run_discard, Action.run_bind]
  rcases (call f receiver [v]).run τ with ⟨_ | _, _⟩ <;> rfl

theorem assignsTo_of_run_set {n : Nat} (hσ : σ.heap.IsStored)
    (hkinds : ∀ p k' d, σ.heap.own? p k' = some d → ¬d.IsMixed)
    (hr : r.index < σ.heap.objects.size) {found : Option Descriptor} {ρ : State}
    (hfind : (find (.level n) o k).run σ = (.ok found, ρ))
    (hdata : (found.getD (.plain .undefined)).isData = true)
    (hw : (found.getD (.plain .undefined)).isWritable = true)
    (hrun : (setOnReceiver (.level n) k v (.object r)).run ρ = (.ok true, τ)) :
    AssignsTo n o k v r σ τ := by
  have hset (call : Value → Value → List Value → Action Value) :
      (set { Engine.level n with call } o k v (.object r)).run σ = (.ok true, τ) := by
    rw [set, Action.run_bind, find_withCall, hfind]
    dsimp only
    rw [if_pos hdata, if_pos hw, setOnReceiver_withCall, hrun]
  have hwritten : ∃ ρ a, σ.Consults (.level n) k ρ ∧ ρ.Takes r k v a τ := by
    have hconsults : σ.Consults (.level n) k ρ := State.consults_findFrom hfind
    rcases run_setOnReceiver_cases hrun with
      ⟨hfalse, -⟩ | ⟨_, own, patch, ρ', ⟨⟩, hown, hassigned, hdefine⟩
    · cases hfalse
    have hconsults' := hconsults.trans (State.consults_getOwn hown)
    obtain ⟨own', ρ'', hown', htakes⟩ := takes_of_run_define hassigned.form_eq
      (fun found' ρ'' hfound' ↦ by
        have hstored := (hconsults'.trans (State.consults_getOwn hfound')).stored hσ
        exact ⟨hstored.1, Nat.lt_of_lt_of_le hr hstored.2⟩) hdefine
    exact ⟨ρ'', _, hconsults'.trans (State.consults_getOwn hown'), htakes⟩
  refine ⟨fun p d hfinds hown ↦ ?_, hset, fun hmutable ↦ ?_, hwritten, fun hcalls ↦ ?_⟩
  · refine Bool.eq_false_iff.2 fun ha ↦ hkinds p k d hown ⟨ha, ?_⟩
    have hread := run_findFrom_of_finds (.level n) hfinds
    have hform (c : CellRef) : d.form ≠ .lazy c := by
      intro hc
      rw [Descriptor.isAccessor, hc] at ha
      cases ha
    rw [find, Engine.fuel_level, hread, run_getOwn_shown _ hown hform] at hfind
    cases hfind
    rwa [Option.getD_some, Descriptor.isData_of_isAccessor (by rwa [d.isAccessor_shownIn]),
      d.attributes_shownIn] at hdata
  · obtain ⟨ρ, a, -, htakes⟩ := hwritten
    exact htakes.propertyIs hmutable
  · have hreading : (set (.reading n) o k v (.object r)).run σ = (.ok true, τ) :=
      hcalls.trans (hset (Engine.level n).call)
    obtain ⟨found', ρ', hfind',
      ⟨hfalse, -⟩ | ⟨-, -, hreceiver⟩ | ⟨d, f, w, -, -, -, -, -, hcall⟩⟩ :=
      run_set_cases hreading
    · cases hfalse
    · obtain ⟨hstored, hretains⟩ := (State.consults_findFrom hfind').retains hσ
      have hr' := Nat.lt_of_lt_of_le hr hretains.objects_le
      obtain ⟨ρ'', a, hretains', hw', ha, htakes⟩ :=
        takes_of_run_setOnReceiver_reading hstored hr' hreceiver
      rw [hretains.attributes hr] at ha
      exact ⟨ρ'', a, (hretains.trans hretains').asBefore, hw', ha, htakes⟩
    · rw [Engine.call_reading] at hcall
      cases hcall

end Object

end Ecma
