import Ecma.Proofs.LazyResolution

/-!
# Defining properties

A patch to a property is validated against the property that is there and then
applied to it.  What is there is described by all its fields: the patch gives
its own to some of them, the others stay, or take their defaults where the
property is new or turns from data into an accessor or back.

What is stored afterwards is a property with all its fields.  Validation and
application are first compared with their description by fields, one kind of
property against one kind of patch; then the call is followed through the state.
-/

namespace Ecma

/-! ## Properties with all their fields -/

/-- The fields that only one kind of property has. -/
inductive FieldKind where
  | data (value : Value) (isWritable : Bool)
  | accessor (get set : Value)

/-- A property with a value for every field. -/
structure PropertyFields where
  isEnumerable : Bool
  isConfigurable : Bool
  kind : FieldKind

/-- A patch to data, to an accessor or to either, with attributes that are `true`, `false` or
unspecified; a patch to an accessor does not say whether the property is writable. -/
structure Descriptor.IsPatch (d : Descriptor) : Prop where
  isOrdinary : d.IsOrdinary
  hasNoStrayBit : d.attributes.HasNoStrayBit
  writable : d.isAccessor = true → d.attributes.writable = none

/-- The patch makes data of the accessor, for it says whether the property is writable, but it
has no place for a value. -/
structure Descriptor.Bares (patch : Descriptor) (f : PropertyFields) : Prop where
  form : patch.form = .generic
  writable : patch.attributes.writable.isSome = true
  accessor : ∃ get set, f.kind = .accessor get set

namespace PropertyFields

/-- The property as it is stored.  Every field is specified, except that an accessor does not
say whether it is writable. -/
def descriptor (f : PropertyFields) : Descriptor :=
  match f.kind with
  | .data v w => .data v w f.isEnumerable f.isConfigurable
  | .accessor get set => .accessor (some get) (some set) f.isEnumerable f.isConfigurable

/-- All fields at their defaults. -/
def blank : PropertyFields := ⟨false, false, .data .undefined false⟩

/-- The fields that the patch specifies have its values.  The others stay if the kind does,
and are at their defaults if it changes. -/
def applyKind (patch : Descriptor) : FieldKind → FieldKind
  | .data v w =>
      if patch.isAccessor then
        .accessor (patch.getter?.getD .undefined) (patch.setter?.getD .undefined)
      else .data (patch.value?.getD v) (patch.attributes.writable.getD w)
  | .accessor get set =>
      if patch.isData then
        .data (patch.value?.getD .undefined) (patch.attributes.writable.getD false)
      else .accessor (patch.getter?.getD get) (patch.setter?.getD set)

def apply (f : PropertyFields) (patch : Descriptor) : PropertyFields where
  isEnumerable := patch.attributes.enumerable.getD f.isEnumerable
  isConfigurable := patch.attributes.configurable.getD f.isConfigurable
  kind := applyKind patch f.kind

/-- The patch keeps the kind, the functions of an accessor, and the value of data that is not
writable, which it does not make writable either. -/
def KeepsKind (patch : Descriptor) : FieldKind → Prop
  | .data v w => patch.isAccessor = false ∧
      (w = false → patch.attributes.writable ≠ some true ∧
        ∀ v', patch.value? = some v' → v'.sameValue v = true)
  | .accessor get set => patch.isData = false ∧
      (∀ get', patch.getter? = some get' → get'.sameValue get = true) ∧
      ∀ set', patch.setter? = some set' → set'.sameValue set = true

/-- The property may be patched: it is configurable, or the patch asks for nothing that
it must not become. -/
def Allows (f : PropertyFields) (patch : Descriptor) : Prop :=
  f.isConfigurable = true ∨
    patch.attributes.configurable ≠ some true ∧
      (∀ e, patch.attributes.enumerable = some e → e = f.isEnumerable) ∧
      KeepsKind patch f.kind

end PropertyFields

/-! ## Validation and application -/

namespace PropertyFields

variable (f : PropertyFields)

@[simp] theorem isConfigurable_descriptor : f.descriptor.isConfigurable = f.isConfigurable := by
  obtain ⟨e, c, kind⟩ := f
  cases kind <;> cases c <;> rfl

@[simp] theorem isEnumerable_descriptor : f.descriptor.isEnumerable = f.isEnumerable := by
  obtain ⟨e, c, kind⟩ := f
  cases kind <;> cases e <;> rfl

theorem isOrdinary_descriptor : f.descriptor.IsOrdinary := by
  obtain ⟨e, c, kind⟩ := f
  cases kind <;> trivial

end PropertyFields

namespace Descriptor

open PropertyFields

variable {patch : Descriptor}

theorem agrees_iff {p c : Option Value} :
    agrees p c = true ↔ ∀ v, p = some v → v.sameValue (c.getD .undefined) = true := by
  cases p with
  | none => simp [agrees]
  | some v => simp [agrees]

theorem agrees_some_iff {p : Option Value} {c : Value} :
    agrees p (some c) = true ↔ ∀ v, p = some v → v.sameValue c = true :=
  agrees_iff

/-- An accessor's patch specifies nothing of data. -/
theorem IsPatch.isData_eq_false (hpatch : patch.IsPatch) (ha : patch.isAccessor = true) :
    patch.isData = false := by
  have hwritable := hpatch.writable ha
  obtain ⟨b, change⟩ := patch
  cases change with
  | accessor get set => simpa [isData] using hwritable
  | _ => cases ha

/-- Whether the kind changes, by the kind that is there. -/
theorem IsPatch.changesKind_eq (hpatch : patch.IsPatch) (current : Descriptor) :
    current.changesKind patch = if current.isAccessor then patch.isData else patch.isAccessor := by
  unfold changesKind isGeneric
  cases ha : patch.isAccessor with
  | false => cases patch.isData <;> cases current.isAccessor <;> rfl
  | true =>
      rw [hpatch.isData_eq_false ha]
      cases current.isAccessor <;> rfl

/-- The checks are those of the fields. -/
theorem permits_descriptor_iff (hpatch : patch.IsPatch) (f : PropertyFields) :
    f.descriptor.permits patch = true ↔ f.Allows patch := by
  have hkind := hpatch.changesKind_eq f.descriptor
  obtain ⟨e, c, kind⟩ := f
  unfold permits Allows
  rw [isConfigurable_descriptor, isEnumerable_descriptor, hkind]
  cases c with
  | true => simp
  | false =>
      have henumerable : patch.attributes.enumerable.any (· != e) = false ↔
          ∀ e', patch.attributes.enumerable = some e' → e' = e := by
        cases patch.attributes.enumerable <;> simp
      dsimp only
      rw [← henumerable]
      cases kind with
      | accessor get set =>
          rw [KeepsKind, ← agrees_some_iff, ← agrees_some_iff]
          cases patch.attributes.enumerable.any (· != e) <;> cases patch.isData <;>
            simp [descriptor, isAccessor, accessor, getter?, setter?]
      | data v w =>
          rw [KeepsKind, ← agrees_some_iff]
          cases patch.attributes.enumerable.any (· != e) <;> cases patch.isAccessor <;>
            cases w <;> simp [descriptor, isAccessor, isWritable, data, value?, Attributes.ofBools]

/-- A new property has the fields of the patch and defaults. -/
theorem complete_eq_descriptor (hpatch : patch.IsPatch) :
    patch.complete = (blank.apply patch).descriptor := by
  have hbits := hpatch.hasNoStrayBit
  have henumerable := hbits.enumerable.specify_eq
  have hconfigurable := hbits.configurable.specify_eq
  obtain ⟨b, change⟩ := patch
  cases change with
  | lazy c => exact hpatch.isOrdinary.elim
  | bound scope name => exact hpatch.isOrdinary.elim
  | generic | data v =>
      simp [complete, descriptor, apply, applyKind, blank, isAccessor, value?, data,
        Attributes.ofBools, hbits.writable.specify_eq, henumerable, hconfigurable]
  | accessor get set =>
      have hwritable : b.writableBits = .unspecified :=
        hbits.writable.eq_unspecified (hpatch.writable rfl)
      simp [complete, descriptor, apply, applyKind, blank, isAccessor, getter?, setter?, accessor,
        hwritable, henumerable, hconfigurable]

/-- A patched property has the fields of the patch, and its own or defaults. -/
theorem patched_descriptor (hpatch : patch.IsPatch) (f : PropertyFields)
    (hbare : ¬patch.Bares f) :
    f.descriptor.patched patch = (f.apply patch).descriptor := by
  have hkind := hpatch.changesKind_eq f.descriptor
  obtain ⟨e, c, kind⟩ := f
  obtain ⟨b, change⟩ := patch
  unfold patched
  rw [hkind]
  cases kind with
  | accessor get set =>
      cases change with
      | lazy c => exact hpatch.isOrdinary.elim
      | bound scope name => exact hpatch.isOrdinary.elim
      | generic =>
          have hwritable : b.writable = none := by
            cases hw : b.writable with
            | none => rfl
            | some w => exact absurd ⟨rfl, by rw [hw]; rfl, get, set, rfl⟩ hbare
          simp [isAccessor, isData, descriptor, accessor, apply, applyKind, Attributes.override,
            Attribute.override_eq_self, getter?, setter?, hwritable]
      | data v =>
          simp [isAccessor, isData, descriptor, accessor, data, apply, applyKind,
            Attributes.override, Attributes.ofBools, value?]
      | accessor get' set' =>
          have hwritable : b.writable = none := hpatch.writable rfl
          simp [isAccessor, isData, descriptor, accessor, apply, applyKind, Attributes.override,
            Attribute.override_eq_self, getter?, setter?, hwritable]
  | data v w =>
      cases change with
      | lazy c => exact hpatch.isOrdinary.elim
      | bound scope name => exact hpatch.isOrdinary.elim
      | generic =>
          simp [isAccessor, descriptor, data, apply, applyKind, Attributes.override,
            Attributes.ofBools, value?]
      | data v =>
          cases v <;> simp [isAccessor, descriptor, data, apply, applyKind, Attributes.override,
            Attributes.ofBools, value?]
      | accessor get set =>
          have hwritable : b.writable = none := hpatch.writable rfl
          simp [isAccessor, descriptor, data, accessor, apply, applyKind, Attributes.override,
            Attribute.override_eq_self, Attributes.ofBools, getter?, setter?, hwritable]

/-- Such a patch makes data of an accessor with all fields but the value. -/
theorem patched_descriptor_of_bares (hpatch : patch.IsPatch) {f : PropertyFields}
    (hbare : patch.Bares f) :
    f.descriptor.patched patch = { (f.apply patch).descriptor with form := .generic } := by
  have hkind := hpatch.changesKind_eq f.descriptor
  obtain ⟨hform, hwritable, get, set, haccessor⟩ := hbare
  obtain ⟨e, c, kind⟩ := f
  obtain ⟨b, change⟩ := patch
  dsimp only at hform hwritable haccessor
  subst hform haccessor
  unfold patched
  rw [hkind]
  simp [isAccessor, isData, descriptor, accessor, data, apply, applyKind, Attributes.override,
    Attributes.ofBools, hwritable]

end Descriptor

/-! ## Storing -/

namespace Object

/-- The keys of the sort of the given one, in the order in which they were added. -/
def keysLike (data : Object) : PropertyKey → List PropertyKey
  | .string _ => data.strings.keys.map .string
  | .symbol _ => data.symbols.keys.map .symbol

theorem Valid.keysLike_store {data : Object} (h : data.Valid) (k : PropertyKey) (d : Descriptor) :
    (data.store k d).keysLike k =
      data.keysLike k ++ if (data.own? k).isSome then [] else [k] := by
  cases k with
  | string t =>
      change (data.strings.set t d).keys.map _ = data.strings.keys.map _ ++ _
      rw [h.strings.keys_set, own?]
      split <;> simp
  | symbol s =>
      change (data.symbols.set s d).keys.map _ = data.symbols.keys.map _ ++ _
      rw [h.symbols.keys_set, own?]
      split <;> simp

end Object

/-- The property is stored under the key and nothing else is done.  A new key comes after all
others of its sort, any other keeps its place. -/
structure State.Stores (o : ObjectRef) (k : PropertyKey) (d : Descriptor) (σ τ : State) :
    Prop where
  state : τ = { σ with heap := σ.heap.modifyObject o (·.store k d) }
  own : τ.heap.own? o k = some d
  others : ∀ p k', p ≠ o ∨ k.same k' = false → τ.heap.own? p k' = σ.heap.own? p k'
  order : (τ.heap.object o).keysLike k =
    (σ.heap.object o).keysLike k ++ if (σ.heap.own? o k).isSome then [] else [k]

theorem State.stores_store {σ : State} (hσ : σ.heap.IsStored) {o : ObjectRef}
    (ho : o.index < σ.heap.objects.size) (k : PropertyKey) (d : Descriptor) :
    σ.Stores o k d { σ with heap := σ.heap.modifyObject o (·.store k d) } := by
  have hvalid := (hσ o ho).valid
  have hobject := Heap.object_modifyObject_self (h := σ.heap) ho (·.store k d)
  constructor
  · rfl
  · rw [Heap.own?, hobject, hvalid.own?_store, if_pos k.same_self]
  · intro p k' hne
    by_cases hp : p = o
    · subst hp
      have hk := hne.resolve_left (fun h ↦ h rfl)
      rw [Heap.own?, hobject, hvalid.own?_store, hk]
      rfl
    · rw [Heap.own?, Heap.object_modifyObject_of_ne _ hp, Heap.own?]
  · rw [hobject, hvalid.keysLike_store]
    rfl

/-! ## Reading what is there -/

/-- What is under the key: nothing, a property that shows itself, or a lazy one with the value
that its cell has or gets. -/
inductive Heap.HasFields (h : Heap) (o : ObjectRef) (k : PropertyKey) :
    Option PropertyFields → Prop
  | absent (hown : h.own? o k = none) : HasFields h o k none
  | plain {f : PropertyFields} (hown : h.own? o k = some f.descriptor) : HasFields h o k (some f)
  | lazy {w e c : Bool} {cell : CellRef} {v : Value} (hown : h.own? o k = some (.lazy cell w e c))
      (hv : (h.cell cell).value? = some v) : HasFields h o k (some ⟨e, c, .data v w⟩)

/-- The property is lazy and its resolver has still to run. -/
def Heap.AwaitsResolver (h : Heap) (o : ObjectRef) (k : PropertyKey) : Prop :=
  ∃ a c r, h.own? o k = some ⟨a, .lazy c⟩ ∧ h.cell c = .unresolved r

namespace Lazy

variable {eng : Engine} {σ τ : State}

/-- A step of a resolver fails in no other way than for want of fuel. -/
theorem eq_outOfFuel_of_run_runStep {step : ResolverStep} {e : Failure}
    (h : (runStep eng step).run σ = (.error e, τ)) : e = .fault .outOfFuel := by
  cases step with
  | log line => cases h
  | read o k =>
      change (readApart eng o k).run σ = (.error e, τ) at h
      rw [run_readApart] at h
      dsimp only at h
      generalize (eng.get o k (.object o)).run σ.beside = r at h
      unfold report at h
      split at h
      · cases h
      · cases h
        rfl
      · cases h

theorem eq_outOfFuel_of_run_runSteps {steps : List ResolverStep} {e : Failure}
    (h : (runSteps eng steps).run σ = (.error e, τ)) : e = .fault .outOfFuel := by
  induction steps generalizing σ with
  | nil => cases h
  | cons step rest ih =>
      rw [runSteps, Action.run_bind] at h
      rcases hstep : (runStep eng step).run σ with ⟨e' | _, ρ⟩
      · rw [hstep] at h
        cases h
        exact eq_outOfFuel_of_run_runStep hstep
      · rw [hstep] at h
        exact ih h

theorem run_resolve_of_value? {c : CellRef} {v : Value} (hv : (σ.heap.cell c).value? = some v)
    (key : String) :
    (∃ τ, (resolve eng c key).run σ = (.ok v, τ)) ∨
      (∃ r, σ.heap.cell c = .unresolved r) ∧
        ∃ τ, (resolve eng c key).run σ = (.error (.fault .outOfFuel), τ) := by
  rw [run_resolve]
  cases hc : σ.heap.cell c with
  | resolved w =>
      rw [hc] at hv
      cases hv
      exact .inl ⟨σ, rfl⟩
  | resolving =>
      rw [hc] at hv
      cases hv
  | unresolved r =>
      rw [hc] at hv
      cases hv
      dsimp only
      rcases hsteps : (runSteps eng r.steps).run (σ.marking c) with ⟨e | _, τ⟩
      · obtain rfl := eq_outOfFuel_of_run_runSteps hsteps
        exact .inr ⟨⟨r, rfl⟩, τ, rfl⟩
      · exact .inl ⟨_, rfl⟩

end Lazy

namespace Object

variable {o : ObjectRef} {k : PropertyKey} {σ τ : State} {current : Option PropertyFields}

/-- What is there is read, unless the fuel of a resolver is short.  Only a lazy property
changes. -/
theorem run_getOwn_of_hasFields (eng : Engine) (h : σ.heap.HasFields o k current) :
    (∃ τ, (getOwn eng o k).run σ = (.ok (current.map PropertyFields.descriptor), τ) ∧
      ((∀ a c, σ.heap.own? o k ≠ some ⟨a, .lazy c⟩) → τ = σ)) ∨
    σ.heap.AwaitsResolver o k ∧
      ∃ τ, (getOwn eng o k).run σ = (.error (.fault .outOfFuel), τ) := by
  cases h with
  | absent hown => exact .inl ⟨σ, run_getOwn_none eng hown, fun _ ↦ rfl⟩
  | @plain f hown =>
      have hlazy : ∀ c, f.descriptor.form ≠ .lazy c := by
        intro c hform
        have hf := f.isOrdinary_descriptor
        rw [Descriptor.IsOrdinary, hform] at hf
        exact hf
      have hshown : f.descriptor.shownIn σ.heap = f.descriptor := by
        obtain ⟨e, c, kind⟩ := f
        cases kind <;> rfl
      refine .inl ⟨σ, ?_, fun _ ↦ rfl⟩
      rw [run_getOwn_shown eng hown hlazy, hshown, Option.map_some]
  | @lazy w e c cell v hown hv =>
      rw [run_getOwn_lazy_eq eng hown]
      rcases Lazy.run_resolve_of_value? hv k.display with ⟨τ, hrun⟩ | ⟨⟨r, hr⟩, τ, hrun⟩
      · rw [hrun]
        exact .inl ⟨_, rfl, fun hnot ↦ absurd hown (hnot _ cell)⟩
      · rw [hrun]
        exact .inr ⟨⟨_, cell, r, hown, hr⟩, τ, rfl⟩

/-- Where no variable takes part, the patched property is stored. -/
theorem run_storePatched_of_not_bound (patch new : Descriptor)
    (hbound : ∀ a scope name, τ.heap.own? o k ≠ some ⟨a, .bound scope name⟩) :
    (storePatched o k patch new).run τ =
      (.ok true, { τ with heap := τ.heap.modifyObject o (·.store k new) }) := by
  rw [storePatched, Action.run_bind, Action.run_heap]
  dsimp only
  split
  next a scope name hown => exact absurd hown (hbound _ _ _)
  next => rfl

end Object

/-! ## Defining -/

/-- A new property is accepted on an object that is extensible, and a patch to one that is
there if the property allows it. -/
def PropertyFields.Accepts (isExtensible : Bool) (patch : Descriptor) :
    Option PropertyFields → Prop
  | none => isExtensible = true
  | some f => f.Allows patch

/-- What it means for a call that answered `b` to have patched the fields `current`, in the
state `τ` in which they have been read.  A resolver that ran for it may have run other code;
should that have bound the property to a variable, the value goes to the variable. -/
structure State.Patches (o : ObjectRef) (k : PropertyKey) (patch : Descriptor)
    (isExtensible : Bool) (current : Option PropertyFields) (τ : State) (b : Bool) (ρ : State) :
    Prop where
  accepts : b = true ↔ PropertyFields.Accepts isExtensible patch current
  refused : b = false → ρ = τ
  /-- The patched fields are stored, every one of them. -/
  applied : b = true → (∀ a scope name, τ.heap.own? o k ≠ some ⟨a, .bound scope name⟩) →
    (∀ f, current = some f → ¬patch.Bares f) →
    τ.Stores o k ((current.getD .blank).apply patch).descriptor ρ
  /-- Only where an accessor becomes data without a place for a value, the value is left out; it
  reads as `undefined`. -/
  bared : b = true → ∀ f, current = some f → patch.Bares f →
    τ.Stores o k { (f.apply patch).descriptor with form := .generic } ρ ∧
      ∀ eng, (Object.ownValue eng o k).run ρ = (.ok .undefined, ρ)

namespace Object

variable {o : ObjectRef} {k : PropertyKey} {patch : Descriptor} {σ τ : State}

theorem exists_patches_of_absent (hτ : τ.heap.IsStored) (ho : o.index < τ.heap.objects.size)
    (hpatch : patch.IsPatch) {eng : Engine} (hread : (getOwn eng o k).run σ = (.ok none, τ)) :
    ∃ b ρ, (define eng o k patch).run σ = (.ok b, ρ) ∧
      τ.Patches o k patch (τ.heap.object o).isExtensible none b ρ := by
  rw [run_define, hread]
  dsimp only
  cases hextensible : (τ.heap.object o).isExtensible with
  | true =>
      refine ⟨true, _, rfl, by simp [PropertyFields.Accepts], nofun, fun _ _ _ ↦ ?_, nofun⟩
      rw [Descriptor.complete_eq_descriptor hpatch]
      exact State.stores_store hτ ho k _
  | false => exact ⟨false, τ, rfl, by simp [PropertyFields.Accepts], fun _ ↦ rfl, nofun, nofun⟩

/-- A stored property without a value reads as `undefined`. -/
theorem run_ownValue_of_generic (eng : Engine) {a : Attributes}
    (hown : σ.heap.own? o k = some ⟨a, .generic⟩) :
    (ownValue eng o k).run σ = (.ok .undefined, σ) := by
  have hlazy : ∀ c, (⟨a, .generic⟩ : Descriptor).form ≠ .lazy c := by rintro c ⟨⟩
  rw [ownValue, Action.run_bind, run_getOwn_shown eng hown hlazy]
  rfl

theorem exists_patches_of_present (hτ : τ.heap.IsStored) (ho : o.index < τ.heap.objects.size)
    (hpatch : patch.IsPatch) {eng : Engine} {f : PropertyFields}
    (hread : (getOwn eng o k).run σ = (.ok (some f.descriptor), τ)) (isExtensible : Bool)
    (hplain : ∀ get set, f.kind = .accessor get set →
      ∀ a scope name, τ.heap.own? o k ≠ some ⟨a, .bound scope name⟩) :
    ∃ b ρ, (define eng o k patch).run σ = (.ok b, ρ) ∧
      τ.Patches o k patch isExtensible (some f) b ρ := by
  rw [run_define, hread]
  dsimp only
  have hpermits := Descriptor.permits_descriptor_iff hpatch f
  cases hb : f.descriptor.permits patch with
  | true =>
      rw [hb] at hpermits
      let new := f.descriptor.patched patch
      let ρ := ((storePatched o k patch new).run τ).2
      have hrun : (storePatched o k patch new).run τ = (.ok true, ρ) := by
        obtain ⟨form, heap, hrun, -⟩ := run_storePatched o k patch new τ
        exact Prod.ext (by rw [hrun]) rfl
      have hstores (hbound : ∀ a scope name, τ.heap.own? o k ≠ some ⟨a, .bound scope name⟩) :
          τ.Stores o k new ρ := by
        have hstate := congrArg Prod.snd (run_storePatched_of_not_bound patch new hbound)
        change ρ = _ at hstate
        rw [hstate]
        exact State.stores_store hτ ho k new
      refine ⟨true, _, hrun, hpermits, nofun, fun _ hbound hbares ↦ ?_, fun _ g hg hbares ↦ ?_⟩
      · rw [Option.getD_some, ← Descriptor.patched_descriptor hpatch f (hbares f rfl)]
        exact hstores hbound
      · cases hg
        obtain ⟨get, set, hkind⟩ := hbares.accessor
        have hbared := hstores (hplain get set hkind)
        dsimp only [new] at hbared
        rw [Descriptor.patched_descriptor_of_bares hpatch hbares] at hbared
        exact ⟨hbared, fun eng ↦ run_ownValue_of_generic eng hbared.own⟩
  | false =>
      rw [hb] at hpermits
      exact ⟨false, τ, rfl, hpermits, fun _ ↦ rfl, nofun, nofun⟩

end Object

end Ecma
