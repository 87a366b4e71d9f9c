import Ecma.Proofs.DescriptorKinds
import Ecma.Proofs.FrozenProperties
import Ecma.Proofs.PrototypeChains

/-!
# Stored descriptors

A patch may leave out any of its fields, a stored property leaves out none: it
specifies its attributes, except that an accessor does not say whether it is
writable, and it has a value or both functions, or a place to get the value from.
Completing a patch, applying one, resolving a cell and binding a variable all keep
it so, provided that no patch is an accessor that says whether it is writable.
-/

namespace Ecma

/-! ## Whole descriptors -/

/-- What a property holds is all there. -/
def PropertyForm.IsFilled : PropertyForm → Prop
  | .generic => False
  | .data v => v.isSome = true
  | .accessor get set => get.isSome = true ∧ set.isSome = true
  | .lazy _ | .bound _ _ => True

namespace Descriptor

/-- Nothing that a stored property needs is left out, and no bit is set that does not count. -/
structure IsWhole (d : Descriptor) : Prop where
  enumerable : d.attributes.enumerable.isSome = true
  configurable : d.attributes.configurable.isSome = true
  writable : d.attributes.writable.isSome = !d.isAccessor
  hasNoStrayBit : d.attributes.HasNoStrayBit
  filled : d.form.IsFilled

/-- An accessor has neither of the bits of a writable property, and a descriptor with neither value
nor functions does not say whether it is writable. -/
def IsCoherent (d : Descriptor) : Prop :=
  match d.form with
  | .generic => d.attributes.writable = none
  | .accessor _ _ => d.attributes.writableBits = .unspecified
  | .data _ | .lazy _ | .bound _ _ => True

variable {d current patch : Descriptor}

theorem IsStandard.isCoherent (hd : d.IsStandard) : d.IsCoherent := by
  obtain ⟨a, form⟩ := d
  cases form with
  | generic => exact congrArg Attribute.read hd
  | accessor get set => exact hd
  | lazy c | bound scope name => exact hd.elim
  | data v => trivial

theorem IsCoherent.writable_eq_none (hd : d.IsCoherent) (ha : d.isAccessor = true) :
    d.attributes.writable = none := by
  obtain ⟨a, form⟩ := d
  cases form with
  | accessor get set => exact congrArg Attribute.read hd
  | _ => cases ha

theorem IsComplete.isWhole (hd : d.IsComplete) : d.IsWhole := by
  obtain ⟨a, form⟩ := d
  obtain ⟨hbits, henumerable, hconfigurable, hform⟩ := hd
  cases form with
  | generic => exact hform.elim
  | data v => exact ⟨henumerable, hconfigurable, hform.2, hbits, hform.1⟩
  | accessor get set =>
      exact ⟨henumerable, hconfigurable, congrArg Option.isSome hform.2.2, hbits, hform.1,
        hform.2.1⟩
  | lazy c => exact ⟨henumerable, hconfigurable, hform, hbits, trivial⟩
  | bound scope name =>
      exact ⟨henumerable, hconfigurable, congrArg Option.isSome hform, hbits, trivial⟩

/-- The attributes of a property with a value are good for any other place of it. -/
theorem IsWhole.withForm (hd : d.IsWhole) (ha : d.isAccessor = false) (form : PropertyForm)
    (hform : form.IsFilled) (hkind : isAccessor ⟨d.attributes, form⟩ = false) :
    IsWhole ⟨d.attributes, form⟩ :=
  ⟨hd.enumerable, hd.configurable, hd.writable.trans (by rw [ha, hkind]), hd.hasNoStrayBit, hform⟩

theorem IsWhole.resolveCell (hd : d.IsWhole) (c : CellRef) (v : Value) :
    (d.resolveCell c v).IsWhole := by
  obtain ⟨a, form⟩ := d
  cases form with
  | lazy c' =>
      unfold Descriptor.resolveCell
      dsimp only
      split
      · exact hd.withForm rfl (.data (some v)) rfl rfl
      · exact hd
  | _ => exact hd

/-- A property that stays bound to its variable, or comes apart from it, is whole. -/
theorem IsWhole.storedAs (hd : d.IsWhole) {form : PropertyForm} (hform : d.StoredAs form) :
    IsWhole ⟨d.attributes, form⟩ := by
  rcases hform with rfl | ⟨-, ha, scope, name, rfl⟩
  · exact hd
  · exact hd.withForm ha _ trivial rfl

/-- Completing a coherent descriptor makes it whole. -/
theorem IsCoherent.isWhole_complete (hd : d.IsCoherent) : d.complete.IsWhole := by
  obtain ⟨⟨w, e, c⟩, form⟩ := d
  have hvalued : Attributes.HasNoStrayBit ⟨w.specify, e.specify, c.specify⟩ :=
    ⟨fun _ ↦ rfl, fun _ ↦ rfl, fun _ ↦ rfl⟩
  cases form with
  | accessor get set =>
      obtain rfl : w = .unspecified := hd
      exact ⟨rfl, rfl, rfl, ⟨Attribute.hasNoStrayBit_unspecified, fun _ ↦ rfl, fun _ ↦ rfl⟩,
        rfl, rfl⟩
  | generic | data v => exact ⟨rfl, rfl, rfl, hvalued, rfl⟩
  | lazy c | bound scope name => exact ⟨rfl, rfl, rfl, hvalued, trivial⟩

/-! ### Patches -/

theorem isSome_or {α : Type} (x : Option α) {y : Option α} (hy : y.isSome = true) :
    (x.or y).isSome = true := by
  rw [Option.isSome_or, hy, Bool.or_true]

/-- Where the kind changes, the patch fills in all that the new kind needs. -/
theorem isFilled_patched (hcurrent : current.form.IsFilled) (hpatch : patch.IsCoherent) :
    (current.patched patch).form.IsFilled := by
  obtain ⟨a, form⟩ := current
  obtain ⟨b, change⟩ := patch
  unfold patched
  split
  next hkind =>
    cases change with
    | generic =>
        have hnone : b.writable = none := hpatch
        simp [changesKind, isGeneric, isAccessor, isData, hnone] at hkind
    | accessor get set => exact ⟨rfl, rfl⟩
    | data v => exact rfl
    | lazy c | bound scope name => trivial
  next hkind =>
    cases change with
    | accessor get' set' =>
        cases form with
        | accessor get set => exact ⟨isSome_or get' hcurrent.1, isSome_or set' hcurrent.2⟩
        | _ => exact absurd rfl hkind
    | generic => cases form <;> exact hcurrent
    | data v =>
        cases v with
        | none => cases form <;> exact hcurrent
        | some v => cases form <;> rfl
    | lazy c | bound scope name => cases form <;> trivial

/-- What is patched as an accessor does not become writable. -/
theorem writable_eq_none_of_kept (hpatch : patch.IsCoherent) (ha : current.isAccessor = true)
    (hkind : ¬current.changesKind patch = true) : patch.attributes.writable = none := by
  obtain ⟨b, change⟩ := patch
  cases change with
  | generic => exact hpatch
  | accessor get set => exact hpatch.writable_eq_none rfl
  | data v | lazy c | bound scope name => exact absurd (by rw [changesKind, ha]; rfl) hkind

/-- A coherent patch keeps a property whole. -/
theorem IsWhole.patched (hcurrent : current.IsWhole) (hpatch : patch.IsCoherent) :
    (current.patched patch).IsWhole := by
  have hbits := hcurrent.hasNoStrayBit
  refine ⟨?_, ?_, ?_, ?_, isFilled_patched hcurrent.filled hpatch⟩
  · rw [attributes_patched, Attributes.enumerable_override]
    split <;> exact isSome_or _ hcurrent.enumerable
  · rw [attributes_patched, Attributes.configurable_override]
    split <;> exact isSome_or _ hcurrent.configurable
  · rw [attributes_patched, isAccessor_patched, Attributes.writable_override]
    split
    next hkind =>
      cases ha : patch.isAccessor with
      | true => simp [hpatch.writable_eq_none ha]
      | false => exact isSome_or _ rfl
    next hkind =>
      have hwritable := hcurrent.writable
      cases ha : current.isAccessor with
      | true =>
          rw [writable_eq_none_of_kept hpatch ha hkind, Option.none_or, hwritable, ha]
      | false =>
          rw [ha] at hwritable
          exact isSome_or _ hwritable
  · rw [attributes_patched]
    refine Attributes.HasNoStrayBit.override ?_ _
    split
    · refine ⟨?_, hbits.enumerable, hbits.configurable⟩
      dsimp only
      split
      · exact Attribute.hasNoStrayBit_unspecified
      · exact Attribute.hasNoStrayBit_given false
    · exact hbits

end Descriptor

/-! ## The discipline -/

/-- Host programs that define properties by coherent patches. -/
def coherentHost : HostContract := ⟨fun _ ↦ True, Descriptor.IsCoherent⟩

/-- Every property of every object is whole. -/
def Heap.AllWhole (h : Heap) : Prop := h.AllConform Descriptor.IsWhole coherentHost

def wholeness : Discipline where
  toHostContract := coherentHost
  Good σ := σ.heap.AllWhole
  Step _ _ := True
  refl _ := trivial
  trans _ _ := trivial
  fails _ _ := trivial
  patches _ hd := hd.isCoherent

namespace wholeness

open Discipline

variable {α : Type} {eng : Engine} {σ τ : State} {o : ObjectRef} {k : PropertyKey}

theorem allWhole_of_grows {h h' : Heap} (hh : h.AllWhole) (hg : h.Grows coherentHost h') :
    h'.AllWhole :=
  Heap.AllConform.of_grows hh (fun _ hd ↦ hd.isWhole) hg

theorem base : wholeness.Base where
  quiet _ _ hobjects _ _ hσ := ⟨Heap.AllConform.of_objects hσ hobjects, trivial⟩
  grows _ _ hg _ hσ := ⟨allWhole_of_grows hσ hg, trivial⟩
  deepen _ hσ := hσ
  surface _ _ _ hτ _ := ⟨hτ, trivial⟩
  beside σ hσ := allWhole_of_grows hσ (Realm.grows_build _ σ.heap)
  resume _ _ _ hτ _ := ⟨hτ, trivial⟩
  callable _ _ _ hσ hf := Heap.AllConform.callable hσ hf

theorem allows {r : Except Failure α × State} (hr : r.2.heap.AllWhole) : wholeness.Allows σ r :=
  ⟨hr, trivial, fun _ _ ↦ trivial⟩

theorem keeps_modifyObject (o : ObjectRef) {f : Object → Object}
    (hf : ∀ data : Object, data.Conforms Descriptor.IsWhole coherentHost →
      (f data).Conforms Descriptor.IsWhole coherentHost) :
    wholeness.Keeps (Action.modifyObject o f) :=
  fun _ hσ ↦ allows (Heap.AllConform.modifyObject hσ o hf)

theorem keeps_resolve (heng : wholeness.Holds eng) (c : CellRef) (key : String) :
    wholeness.Keeps (Lazy.resolve eng c key) :=
  base.basics.keeps_resolve base.keeps_log
    (fun _ _ _ hσ ↦ allows (Heap.AllConform.of_objects hσ rfl))
    (keeps_readApart base heng) c key

theorem keeps_getOwn (heng : wholeness.Holds eng) (o : ObjectRef) (k : PropertyKey) :
    wholeness.Keeps (Object.getOwn eng o k) := by
  refine keeps_heap.bind fun h ↦ ?_
  split
  · exact keeps_pure _
  · refine (keeps_resolve heng _ _).bind fun v ↦ ?_
    refine (keeps_modifyObject o fun _ hdata ↦ ?_).bind fun _ ↦ keeps_pure _
    exact hdata.modify k fun _ hd ↦ hd.resolveCell _ v
  · exact keeps_heap.bind fun _ ↦ keeps_pure _
  · exact keeps_pure _

/-- What is read of a property is whole like the property itself. -/
theorem isWhole_of_run_getOwn {shown : Descriptor} (hσ : σ.heap.AllWhole)
    (hrun : (Object.getOwn eng o k).run σ = (.ok (some shown), τ)) : shown.IsWhole := by
  have hwhole {d : Descriptor} (hown : σ.heap.own? o k = some d) : d.IsWhole :=
    (hσ o (Heap.lt_of_own? hown)).own k d hown
  rw [Object.run_getOwn] at hrun
  split at hrun
  · cases hrun
  next a c hown =>
    split at hrun
    next v _ _ =>
      cases hrun
      exact (hwhole hown).withForm rfl (.data (some v)) rfl rfl
    next => cases hrun
  next a scope name hown =>
    cases hrun
    exact (hwhole hown).withForm rfl _ rfl rfl
  next d _ _ hown =>
    cases hrun
    exact hwhole hown

theorem keeps_define (heng : wholeness.Holds eng) (o : ObjectRef) (k : PropertyKey)
    {patch : Descriptor} (hpatch : patch.IsCoherent) :
    wholeness.Keeps (Object.define eng o k patch) := by
  intro σ hσ
  have hread := keeps_getOwn heng o k σ hσ
  rw [Object.run_define]
  rcases hrun : (Object.getOwn eng o k).run σ with ⟨e | _ | shown, τ⟩
  all_goals
    rw [hrun] at hread
    have hτ : τ.heap.AllWhole := hread.good
    dsimp only
  · exact allows hτ
  · split
    · exact allows (hτ.modifyObject o fun _ hdata ↦ hdata.store k hpatch.isWhole_complete)
    · exact allows hτ
  · split
    · obtain ⟨form, heap, hstore, hpasses, hstored, -⟩ :=
        Object.run_storePatched o k patch (shown.patched patch) τ
      have hnew := ((isWhole_of_run_getOwn hσ hrun).patched hpatch).storedAs hstored
      have hheap : heap.AllWhole := Heap.AllConform.of_objects hτ hpasses.objects
      rw [hstore]
      exact allows (hheap.modifyObject o fun _ hdata ↦ hdata.store k hnew)
    · exact allows hτ

theorem keeps_delete (o : ObjectRef) (k : PropertyKey) : wholeness.Keeps (Object.delete o k) := by
  refine keeps_heap.bind fun h ↦ ?_
  split
  · exact keeps_pure _
  · have hremove := keeps_modifyObject o fun _ hdata ↦ hdata.remove k
    exact keeps_ite (Keeps.bind hremove fun _ ↦ keeps_pure _) (keeps_pure _)

theorem keeps_setPrototype (o : ObjectRef) (prototype : Option ObjectRef) :
    wholeness.Keeps (Object.setPrototype o prototype) := by
  have hset := keeps_modifyObject o (f := fun data ↦ { data with prototype })
    fun _ hdata ↦ hdata.of_stores rfl rfl rfl
  refine keeps_heap.bind fun h ↦ keeps_ite (keeps_pure _) ?_
  exact keeps_ite (keeps_pure _) (keeps_ite (keeps_pure _) (hset.bind fun _ ↦ keeps_pure _))

theorem keeps_preventExtensions (o : ObjectRef) :
    wholeness.Keeps (Object.preventExtensions o) := by
  have hset := keeps_modifyObject o (f := fun data ↦ { data with isExtensible := false })
    fun _ hdata ↦ hdata.of_stores rfl rfl rfl
  exact hset.bind fun _ ↦ keeps_pure _

theorem tolerant : wholeness.Tolerant :=
  { base with
    getOwn := fun _ heng o k ↦ keeps_getOwn heng o k
    define := fun _ heng o k _ hpatch ↦ keeps_define heng o k hpatch
    delete := keeps_delete
    setPrototype := keeps_setPrototype
    preventExtensions := keeps_preventExtensions
    anyFailure := fun _ ↦ trivial
    anyDepth := fun _ _ hσ ↦ ⟨hσ, trivial⟩ }

end wholeness

/-! ## Sequences of steps -/

/-- Something new is made, or something is done with what is there. -/
inductive StorageStep where
  | create (op : HeapOperation)
  | createCell (r : Resolver)
  | host (step : HostStep)

namespace StorageStep

def perform (eng : Engine) : StorageStep → Action Unit
  | .create op => op.perform
  | .createCell r => discard (Action.newCell r)
  | .host step => step.perform eng

/-- New objects are as the engine makes them, and all patches are coherent. -/
def IsCoherent : StorageStep → Prop
  | .create (.newFunction f _ _) => f.Honours coherentHost
  | .create (.change _ _) => False
  | .host (.properties (.operation (.define _ _ patch))) => patch.IsCoherent
  | _ => True

/-- The state after the steps are done in turn; one that fails leaves its state to the next. -/
def runAll (eng : Engine) (steps : List StorageStep) (σ : State) : State :=
  steps.foldl (fun σ step ↦ ((step.perform eng).run σ).2) σ

/-- A step keeps all stored properties whole. -/
theorem keeps_perform (n : Nat) {step : StorageStep} (hstep : step.IsCoherent) :
    wholeness.Keeps (step.perform (.level n)) := by
  have hbase := wholeness.base
  cases step with
  | createCell r => exact (hbase.keeps_newCell r).discard
  | host step =>
      refine HostStep.keeps_perform wholeness.tolerant n fun o k patch heq ↦ ?_
      subst heq
      exact hstep
  | create op =>
      cases op with
      | newPlain =>
          exact (hbase.keeps_of_allocates fun _ ↦ Action.allocates_newPlainObject).discard
      | newObject c prototype => exact (hbase.keeps_newObject c prototype).discard
      | toObject v =>
          have hkeeps : wholeness.Keeps (Conversion.toObject v) :=
            (wholeness.tolerant.governs_level n).policy.keeps_coercion (.toObject v)
          exact hkeeps.discard
      | newFunction f name length =>
          exact (hbase.keeps_of_allocates fun _ ↦
            Function.allocates_create hstep name length).discard
      | newError kind message => exact (hbase.keeps_newError kind message).discard
      | newArguments args => exact (hbase.keeps_createUnmapped args).discard
      | newMappedArguments callee params args s =>
          exact (hbase.keeps_createMapped callee params args s).discard
      | setPrototype o prototype => exact (wholeness.keeps_setPrototype o prototype).discard
      | change o f => exact hstep.elim

/-- So do any steps, one after the other. -/
theorem allWhole_runAll (n : Nat) {steps : List StorageStep}
    (hsteps : ∀ step ∈ steps, step.IsCoherent) {σ : State} (hσ : σ.heap.AllWhole) :
    (runAll (.level n) steps σ).heap.AllWhole := by
  induction steps generalizing σ with
  | nil => exact hσ
  | cons step rest ih =>
      have hfirst := keeps_perform n (hsteps step List.mem_cons_self) σ hσ
      exact ih (fun step' h ↦ hsteps step' (List.mem_cons_of_mem _ h)) hfirst.good

end StorageStep

/-- Whatever objects are made from a new realm on, and whatever is done with their properties by
coherent patches, scripts included, each stored property specifies its attributes, except that
accessors and only they do not say whether they are writable; it is plain data with a value, an
accessor with both functions, lazy or bound, and it has no bit of an attribute that is not
specified. -/
theorem stored_descriptors_are_whole (n : Nat) (options : Options) (steps : List StorageStep)
    (hsteps : ∀ step ∈ steps, step.IsCoherent) (o : ObjectRef) (k : PropertyKey) (d : Descriptor)
    (hown : (StorageStep.runAll (.level n) steps (.initial options)).heap.own? o k = some d) :
    d.IsWhole := by
  have hinitial : (State.initial options).heap.AllWhole :=
    wholeness.allWhole_of_grows Heap.allConform_empty (Realm.grows_build _ _)
  have hwhole := StorageStep.allWhole_runAll n hsteps hinitial
  exact (hwhole o (Heap.lt_of_own? hown)).own k d hown

/-- A property bound to a variable becomes an accessor, and then plain data; the patch has the
bit of an enumerable property without saying that it is one. -/
theorem stored_descriptors_are_whole_unmapped :
    let g := (State.initial .standard).realm.globalObject
    let x := PropertyKey.ofString "x"
    let define (patch : Descriptor) : StorageStep :=
      .host (.properties (.operation (.define g x patch)))
    let patch : Descriptor := ⟨⟨.given false, ⟨true, false⟩, .unspecified⟩, .data none⟩
    let steps := [define (.bound (State.initial .standard).realm.globalScope "v" false true),
      define (.withGet .generic .null), define patch]
    let d := Descriptor.data .undefined false false true
    (∀ step ∈ steps, step.IsCoherent) ∧
      (StorageStep.runAll (.level 9) steps (.initial .standard)).heap.own? g x = some d ∧
      d.IsWhole := by
  intro g x define patch steps d
  have hsteps : ∀ step ∈ steps, step.IsCoherent := by
    refine List.forall_mem_cons.2 ⟨trivial, List.forall_mem_cons.2 ⟨rfl, ?_⟩⟩
    exact List.forall_mem_singleton.2 trivial
  have hown : (StorageStep.runAll (.level 9) steps (.initial .standard)).heap.own? g x =
      some d := by
    rfl
  exact ⟨hsteps, hown, stored_descriptors_are_whole 9 .standard steps hsteps g x d hown⟩

/-- A patch that says whether the property is writable and nothing else makes of an accessor a
property that has no value, and an accessor with the bit of a writable property keeps it, although
neither patch is an accessor that says whether it is writable. -/
theorem incoherent_patches_are_stored :
    let g := (State.initial .standard).realm.globalObject
    let x := PropertyKey.ofString "x"
    let define (patch : Descriptor) : StorageStep :=
      .host (.properties (.operation (.define g x patch)))
    let stored (patches : List Descriptor) :=
      (StorageStep.runAll (.level 9) (patches.map define) (.initial .standard)).heap.own? g x
    let accessor : Descriptor := .accessor none none true true
    let bare : Descriptor := ⟨⟨.given true, .unspecified, .unspecified⟩, .generic⟩
    let stray : Descriptor :=
      ⟨⟨⟨true, false⟩, .given true, .given true⟩, .accessor (some .null) none⟩
    (∀ patch ∈ [accessor, bare, stray], ¬patch.IsMixed) ∧
      (stored [accessor, bare]).map Descriptor.form = some .generic ∧
      (stored [stray]).map (·.attributes.writableBits) = some ⟨true, false⟩ := by
  intro g x define stored accessor bare stray
  refine ⟨?_, rfl, rfl⟩
  refine List.forall_mem_cons.2 ⟨fun h ↦ Bool.noConfusion h.2, ?_⟩
  refine List.forall_mem_cons.2 ⟨fun h ↦ Bool.noConfusion h.1, ?_⟩
  exact List.forall_mem_singleton.2 fun h ↦ Bool.noConfusion h.2

end Ecma
