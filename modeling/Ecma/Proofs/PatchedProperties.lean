import Ecma.Proofs.Evolution

/-!
# Patched properties

What a patch that is permitted makes of a property that is not configurable,
and what a read of a property gives: both are changes that such a property may
go through.
-/

namespace Ecma

/-! ## Patches to a property that is not configurable -/

namespace Descriptor

theorem IsOrdinary.ne_bound {d : Descriptor} (hd : d.IsOrdinary) (scope : ScopeRef)
    (name : String) : d.form ≠ .bound scope name := by
  intro hform
  rw [IsOrdinary, hform] at hd
  exact hd

theorem plain?_of_not_accessor {d : Descriptor} (hd : d.IsOrdinary) (ha : d.isAccessor = false) :
    d.form.plain? = some (d.value?.getD .undefined) := by
  obtain ⟨a, form⟩ := d
  match form, hd, ha with
  | .generic, _, _ | .data _, _, _ => rfl

theorem isOrdinary_patched {current patch : Descriptor} (hcurrent : current.IsOrdinary)
    (hpatch : patch.IsOrdinary) : (current.patched patch).IsOrdinary := by
  obtain ⟨a, form⟩ := current
  obtain ⟨b, change⟩ := patch
  unfold patched
  split
  · cases change <;> trivial
  · cases change with
    | generic => cases form <;> trivial
    | data v => cases v <;> cases form <;> trivial
    | accessor get set => cases form <;> trivial
    | lazy c => exact False.elim hpatch
    | bound scope name => exact False.elim hpatch

/-- A patch that changes the kind first makes the property one that is not writable, or does not
say so if it makes it an accessor; what a patch specifies is then put in. -/
theorem attributes_patched (current patch : Descriptor) :
    (current.patched patch).attributes =
      (if current.changesKind patch then
        { current.attributes with
          writableBits := if patch.isAccessor then .unspecified else .given false }
      else current.attributes).override patch.attributes := by
  obtain ⟨b, change⟩ := patch
  unfold patched
  split
  · cases change <;> rfl
  · rfl

theorem isAccessor_patched (current patch : Descriptor) :
    (current.patched patch).isAccessor =
      if current.changesKind patch then patch.isAccessor else current.isAccessor := by
  obtain ⟨a, form⟩ := current
  obtain ⟨b, change⟩ := patch
  unfold patched
  split
  · cases change <;> rfl
  next hkind =>
    cases change with
    | accessor get' set' =>
        cases form with
        | accessor get set => rfl
        | _ => exact absurd rfl hkind
    | generic => cases form <;> rfl
    | data v =>
        cases form with
        | accessor get set => exact absurd rfl hkind
        | _ => cases v <;> rfl
    | lazy c | bound scope name =>
        cases form with
        | accessor get set => exact absurd rfl hkind
        | _ => rfl

/-- A patch leaves no stray bit on a property with a value. -/
theorem IsMarked.patched {current : Descriptor} (hcurrent : current.IsMarked)
    (patch : Descriptor) : (current.patched patch).IsMarked := by
  intro ha
  rw [isAccessor_patched] at ha
  rw [attributes_patched]
  split
  next hkind =>
    rw [if_pos hkind] at ha
    rw [ha]
    exact (Attribute.hasNoStrayBit_given false).override _
  next hkind =>
    rw [if_neg hkind] at ha
    exact (hcurrent ha).override _

/-- What a patch may ask of a property that is not configurable. -/
structure Permitted (current patch : Descriptor) : Prop where
  configurable : patch.attributes.configurable ≠ some true
  enumerable : ∀ b, patch.attributes.enumerable = some b → b = current.isEnumerable
  kind : changesKind current patch = false
  getter : current.isAccessor = true → agrees patch.getter? current.getter? = true
  setter : current.isAccessor = true → agrees patch.setter? current.setter? = true
  writable : current.isAccessor = false → current.isWritable = false →
    patch.attributes.writable ≠ some true
  value : current.isAccessor = false → current.isWritable = false →
    agrees patch.value? current.value? = true

theorem permitted_of_permits {current patch : Descriptor} (hc : current.isConfigurable = false)
    (h : current.permits patch = true) : current.Permitted patch := by
  simp only [permits, hc] at h
  split at h
  · contradiction
  split at h
  · contradiction
  split at h
  · contradiction
  split at h
  · contradiction
  next hconfigurable henumerable hkind =>
    refine ⟨by simpa using hconfigurable, ?_, by simpa using hkind, ?_, ?_, ?_, ?_⟩
    · intro b hb
      simpa [hb] using henumerable
    · intro ha
      simp only [ha, if_true, Bool.and_eq_true] at h
      exact h.1
    · intro ha
      simp only [ha, if_true, Bool.and_eq_true] at h
      exact h.2
    · intro ha hw
      simp [ha, hw] at h
      exact h.1
    · intro ha hw
      simp [ha, hw] at h
      exact h.2

section Permitted

variable {current patch : Descriptor} (h : current.Permitted patch)

include h

theorem Permitted.attributes_patched :
    (current.patched patch).attributes = current.attributes.override patch.attributes := by
  simp [patched, h.kind]

theorem Permitted.isConfigurable_patched (hc : current.isConfigurable = false) :
    (current.patched patch).isConfigurable = false := by
  have hpatch := h.configurable
  simp only [isConfigurable, h.attributes_patched, Attributes.configurable_override] at hc ⊢
  cases hp : patch.attributes.configurable <;> simp_all

theorem Permitted.isEnumerable_patched :
    (current.patched patch).isEnumerable = current.isEnumerable := by
  have hpatch := h.enumerable
  simp only [isEnumerable, h.attributes_patched, Attributes.enumerable_override] at hpatch ⊢
  cases hp : patch.attributes.enumerable <;> simp_all

theorem Permitted.isWritable_patched (ha : current.isAccessor = false)
    (hw : current.isWritable = false) : (current.patched patch).isWritable = false := by
  have hpatch := h.writable ha hw
  simp only [isWritable, h.attributes_patched, Attributes.writable_override] at hw ⊢
  cases hp : patch.attributes.writable <;> simp_all

variable (hcurrent : current.IsOrdinary) (hpatch : patch.IsOrdinary)

include hcurrent hpatch

/-- An accessor stays one, with the functions that the patch gives, and other
properties have the value that the patch gives. -/
theorem Permitted.form_patched :
    (∃ get set, current.form = .accessor get set ∧ (current.patched patch).form =
      .accessor (patch.getter?.or get) (patch.setter?.or set)) ∨
    (current.isAccessor = false ∧ ((∃ v, patch.value? = some v ∧
        (current.patched patch).form = .data (some v)) ∨
      (current.patched patch).form = current.form)) := by
  have hkind := h.kind
  obtain ⟨a, form⟩ := current
  obtain ⟨b, change⟩ := patch
  cases form <;> cases change <;>
    simp_all [IsOrdinary, changesKind, isGeneric, isAccessor, isData, patched, getter?, setter?,
      value?]
  all_goals
    rename_i v
    cases v <;> simp

end Permitted

theorem sameValue_or_of_agrees {patch current : Option Value} (h : agrees patch current = true) :
    (current.getD .undefined).sameValue ((patch.or current).getD .undefined) = true := by
  cases patch with
  | none => exact Value.sameValue_refl _
  | some v => exact Value.sameValue_symm h

/-- Patching is a change that a property that is not configurable may go through. -/
theorem persists_patched (h : Heap) {current patch : Descriptor} (hcurrent : current.IsOrdinary)
    (hpatch : patch.IsOrdinary) (hc : current.isConfigurable = false)
    (hpermits : current.permits patch = true) : current.Persists h (current.patched patch) := by
  have hp := permitted_of_permits hc hpermits
  have hshape := hp.form_patched hcurrent hpatch
  refine ⟨hp.isConfigurable_patched hc, hp.isEnumerable_patched, ?_, ?_, ?_,
    hp.isWritable_patched, ?_⟩
  · rcases hshape with ⟨get, set, hform, hform'⟩ | ⟨ha, ⟨v, -, hform'⟩ | hform'⟩
    · simp [isAccessor, hform, hform']
    · rw [ha]
      simp [isAccessor, hform']
    · simp [isAccessor, hform']
  · intro ha
    rcases hshape with ⟨get, set, hform, hform'⟩ | ⟨ha', -⟩
    · have hagrees := hp.getter ha
      simp only [getter?, hform, hform'] at hagrees ⊢
      exact sameValue_or_of_agrees hagrees
    · simp [ha] at ha'
  · intro ha
    rcases hshape with ⟨get, set, hform, hform'⟩ | ⟨ha', -⟩
    · have hagrees := hp.setter ha
      simp only [setter?, hform, hform'] at hagrees ⊢
      exact sameValue_or_of_agrees hagrees
    · simp [ha] at ha'
  · intro ha hw
    rcases hshape with ⟨get, set, hform, -⟩ | ⟨-, ⟨v, hv, hform'⟩ | hform'⟩
    · simp [isAccessor, hform] at ha
    · have hagrees := hp.value ha hw
      rw [hv] at hagrees
      have hplain := h.shown?_of_plain? (plain?_of_not_accessor hcurrent ha)
      refine .inr ⟨_, v, hplain, ?_, Value.sameValue_symm hagrees⟩
      rw [hform']
      rfl
    · exact .inl hform'

/-! ## What a read of a property gives -/

/-- Reading the property `d` gives `shown`, with what cells hold by then. -/
structure ShownAs (h : Heap) (d shown : Descriptor) : Prop where
  ordinary : shown.IsOrdinary
  attributes : shown.attributes = d.attributes
  accessor : shown.isAccessor = d.isAccessor
  getter : shown.getter? = d.getter?
  setter : shown.setter? = d.setter?
  value : d.isAccessor = false → (∀ scope name, d.form ≠ .bound scope name) →
    h.shown? d.form = some (shown.value?.getD .undefined)

/-- A property shows itself unless it is lazy or bound. -/
theorem shownAs_self (h : Heap) {d : Descriptor} (hd : d.IsOrdinary) : d.ShownAs h d where
  ordinary := hd
  attributes := rfl
  accessor := rfl
  getter := rfl
  setter := rfl
  value ha _ := h.shown?_of_plain? (plain?_of_not_accessor hd ha)

theorem shownAs_lazy {h : Heap} {c : CellRef} {v : Value} (hc : h.cell c = .resolved v)
    (a : Attributes) : ShownAs h ⟨a, .lazy c⟩ ⟨a, .data (some v)⟩ where
  ordinary := trivial
  attributes := rfl
  accessor := rfl
  getter := rfl
  setter := rfl
  value _ _ := Heap.shown?_lazy_eq_some.2 hc

theorem shownAs_bound (h : Heap) (a : Attributes) (scope : ScopeRef) (name : String) (v : Value) :
    ShownAs h ⟨a, .bound scope name⟩ ⟨a, .data (some v)⟩ where
  ordinary := trivial
  attributes := rfl
  accessor := rfl
  getter := rfl
  setter := rfl
  value _ hbound := absurd rfl (hbound scope name)

theorem ShownAs.later {h h' : Heap} {d shown : Descriptor} (hs : d.ShownAs h shown)
    (hm : h.ShowsMore h') : d.ShownAs h' shown :=
  ⟨hs.ordinary, hs.attributes, hs.accessor, hs.getter, hs.setter,
    fun ha hbound ↦ hm _ _ (hs.value ha hbound)⟩

/-- Putting what is shown in place of the property changes nothing that must stay. -/
theorem ShownAs.persists {h : Heap} {d shown : Descriptor} (hs : d.ShownAs h shown)
    (hd : ∀ scope name, d.form = .bound scope name → d.isWritable = true)
    (hc : d.isConfigurable = false) : d.Persists h shown where
  configurable := by rw [isConfigurable, hs.attributes]; exact hc
  enumerable := by rw [isEnumerable, hs.attributes]; rfl
  accessor := hs.accessor
  getter _ := by rw [hs.getter]; exact Value.sameValue_refl _
  setter _ := by rw [hs.setter]; exact Value.sameValue_refl _
  writable _ hw := by rw [isWritable, hs.attributes]; exact hw
  value ha hw := by
    have hbound : ∀ scope name, d.form ≠ .bound scope name := by
      intro scope name hform
      rw [hd scope name hform] at hw
      contradiction
    have hplain := plain?_of_not_accessor hs.ordinary (hs.accessor.trans ha)
    exact .inr ⟨_, _, hs.value ha hbound, hplain, Value.sameValue_refl _⟩

/-- What a patched property may be stored as: itself, or bound to a variable as
long as it is data with the bit of a writable one. -/
def StoredAs (d : Descriptor) (form : PropertyForm) : Prop :=
  form = d.form ∨ d.attributes.writableBits.value = true ∧ d.isAccessor = false ∧
    ∃ scope name, form = .bound scope name

theorem StoredAs.persists (h : Heap) {d : Descriptor} {form : PropertyForm}
    (hform : d.StoredAs form) (hd : d.IsSettled) (hc : d.isConfigurable = false) :
    d.Persists h ⟨d.attributes, form⟩ := by
  rcases hform with rfl | ⟨hbit, ha, scope, name, rfl⟩
  · exact persists_refl h hc
  · have hw := hd.marked.isWritable ha hbit
    refine ⟨hc, rfl, by simp [isAccessor] at ha ⊢; exact ha, ?_, ?_, ?_, ?_⟩
    · simp [ha]
    · simp [ha]
    · simp [hw]
    · simp [hw]

theorem StoredAs.isSettled {d : Descriptor} {form : PropertyForm} (hd : d.IsSettled)
    (hform : d.StoredAs form) : IsSettled ⟨d.attributes, form⟩ := by
  rcases hform with rfl | ⟨hbit, ha, scope, name, rfl⟩
  · exact hd
  · exact ⟨fun _ ↦ hd.marked ha, fun _ _ _ ↦ hd.marked.isWritable ha hbit⟩

theorem persists_resolveCell {h : Heap} {c : CellRef} {v : Value} (hc : h.cell c = .resolved v)
    {d : Descriptor} (hd : d.isConfigurable = false) : d.Persists h (d.resolveCell c v) := by
  obtain ⟨a, form⟩ := d
  unfold resolveCell
  split
  next c' hform =>
    cases hform
    split
    next heq =>
      subst heq
      exact (shownAs_lazy hc a).persists nofun hd
    next => exact persists_refl h hd
  next => exact persists_refl h hd

theorem IsSettled.resolveCell {d : Descriptor} (hd : d.IsSettled) (c : CellRef) (v : Value) :
    (d.resolveCell c v).IsSettled := by
  unfold Descriptor.resolveCell
  split
  next c' hform =>
    split
    · exact ⟨fun _ ↦ hd.marked (by simp [isAccessor, hform]), by rintro _ _ ⟨⟩⟩
    · exact hd
  · exact hd

/-- What is shown of a property has its attributes, and is bound to no variable. -/
theorem ShownAs.isSettled {h : Heap} {d shown : Descriptor} (hs : d.ShownAs h shown)
    (hd : d.IsSettled) : shown.IsSettled := by
  constructor
  · rw [Descriptor.IsMarked, hs.accessor, hs.attributes]
    exact hd.marked
  · exact fun scope name hform ↦ absurd hform (hs.ordinary.ne_bound scope name)

theorem IsSettled.patched {current patch : Descriptor} (hcurrent : current.IsSettled)
    (hform : ∀ scope name, (current.patched patch).form ≠ .bound scope name) :
    (current.patched patch).IsSettled :=
  ⟨hcurrent.marked.patched patch, fun scope name h ↦ absurd h (hform scope name)⟩

theorem isSettled_complete {d : Descriptor} (hd : ∀ scope name, d.form ≠ .bound scope name) :
    d.complete.IsSettled := by
  obtain ⟨a, form⟩ := d
  cases form with
  | bound scope name => exact absurd rfl (hd scope name)
  | accessor get set => exact ⟨by rintro ⟨⟩, by rintro _ _ ⟨⟩⟩
  | _ => exact ⟨fun _ _ ↦ rfl, by rintro _ _ ⟨⟩⟩

/-! ## Properties that are not lazy -/

/-- The property as it is read, if it is not lazy. -/
def shownIn (h : Heap) (d : Descriptor) : Descriptor :=
  match d.form with
  | .bound scope name => ⟨d.attributes, .data (some (h.boundValue scope name))⟩
  | _ => d

section ShownIn

variable (h : Heap) (d : Descriptor)

@[simp] theorem attributes_shownIn : (d.shownIn h).attributes = d.attributes := by
  unfold shownIn
  split <;> rfl

@[simp] theorem isAccessor_shownIn : (d.shownIn h).isAccessor = d.isAccessor := by
  obtain ⟨a, form⟩ := d
  cases form <;> rfl

@[simp] theorem isWritable_shownIn : (d.shownIn h).isWritable = d.isWritable := by
  simp [isWritable]

@[simp] theorem isEnumerable_shownIn : (d.shownIn h).isEnumerable = d.isEnumerable := by
  simp [isEnumerable]

@[simp] theorem isConfigurable_shownIn : (d.shownIn h).isConfigurable = d.isConfigurable := by
  simp [isConfigurable]

end ShownIn

theorem isData_of_isWritable {d : Descriptor} (hw : d.isWritable = true) : d.isData = true := by
  obtain ⟨a, form⟩ := d
  have hsome : a.writable = some true := by simpa [isWritable] using hw
  cases form <;> simp [isData, hsome]

/-! ### Patches that give a value -/

section WithValue

variable {d : Descriptor} (ha : d.isAccessor = false)

include ha

theorem changesKind_withValue (v : Value) : d.changesKind (generic.withValue v) = false := by
  have hpatch : (generic.withValue v).isAccessor = false := rfl
  simp [changesKind, hpatch, ha]

theorem permits_withValue (hw : d.isWritable = true) (v : Value) :
    d.permits (generic.withValue v) = true := by
  have hattributes : (generic.withValue v).attributes = .unspecified := rfl
  simp [permits, hattributes, Attributes.unspecified, changesKind_withValue ha, ha, hw]

theorem patched_withValue (v : Value) :
    d.patched (generic.withValue v) = ⟨d.attributes, .data (some v)⟩ := by
  have hattributes : (generic.withValue v).attributes = .unspecified := rfl
  simp only [patched, changesKind_withValue ha, hattributes, Attributes.override_unspecified]
  cases d.form <;> rfl

end WithValue

/-- A patch that specifies everything leaves nothing of what was there. -/
theorem patched_data (d : Descriptor) (v : Value) (w e c : Bool) :
    d.patched (.data v w e c) = .data v w e c := by
  obtain ⟨a, form⟩ := d
  unfold patched
  split
  · rfl
  · cases form <;> rfl

end Descriptor

end Ecma
