import Ecma.Proofs.StoreRefinement
import Ecma.State.Heap

/-!
# Own properties after a change

What an object holds under a key after a property was stored, changed in place
or removed, and what a heap holds after one of its objects was changed.
-/

namespace Ecma

/-! ## Keys -/

namespace PropertyKey

/-- Whether two keys name the same property. -/
def same : PropertyKey → PropertyKey → Bool
  | .string t, .string t' => t == t'
  | .symbol s, .symbol s' => s == s'
  | _, _ => false

@[simp] theorem same_self (k : PropertyKey) : k.same k = true := by
  cases k <;> simp [same]

theorem same_string_iff {t t' : Text} : (string t).same (string t') = true ↔ t = t' := by
  simp [same]

end PropertyKey

/-! ## Objects -/

namespace Object

/-- Both stores of the object are built by the operations of stores. -/
structure Valid (o : Object) : Prop where
  strings : o.strings.Valid
  symbols : o.symbols.Valid

theorem valid_new (c : ObjectClass) (prototype : Option ObjectRef) (cutover : Nat) :
    (new c prototype cutover).Valid :=
  ⟨PropertyStore.valid_empty cutover, PropertyStore.valid_empty cutover⟩

@[simp] theorem own?_new (c : ObjectClass) (prototype : Option ObjectRef) (cutover : Nat)
    (k : PropertyKey) : (new c prototype cutover).own? k = none := by
  cases k <;> rfl

theorem own?_congr {k k' : PropertyKey} (h : k.same k' = true) (o : Object) :
    o.own? k = o.own? k' := by
  match k, k', h with
  | .string _, .string _, h => exact PropertyStore.get?_congr h o.strings
  | .symbol _, .symbol _, h => exact PropertyStore.get?_congr h o.symbols

section Changes

variable {o : Object} (h : o.Valid) (k k' : PropertyKey)

include h

theorem Valid.store (d : Descriptor) : (o.store k d).Valid := by
  cases k with
  | string t => exact ⟨h.strings.set t d, h.symbols⟩
  | symbol s => exact ⟨h.strings, h.symbols.set s d⟩

theorem Valid.modify (f : Descriptor → Descriptor) : (o.modify k f).Valid := by
  cases k with
  | string t => exact ⟨h.strings.modify t f, h.symbols⟩
  | symbol s => exact ⟨h.strings, h.symbols.modify s f⟩

theorem Valid.remove : (o.remove k).Valid := by
  cases k with
  | string t => exact ⟨h.strings.remove t, h.symbols⟩
  | symbol s => exact ⟨h.strings, h.symbols.remove s⟩

theorem Valid.own?_store (d : Descriptor) :
    (o.store k d).own? k' = if k.same k' then some d else o.own? k' := by
  match k, k' with
  | .string t, .string t' => exact h.strings.get?_set t t' d
  | .symbol s, .symbol s' => exact h.symbols.get?_set s s' d
  | .string _, .symbol _ | .symbol _, .string _ => rfl

theorem Valid.own?_modify (f : Descriptor → Descriptor) :
    (o.modify k f).own? k' = if k.same k' then (o.own? k').map f else o.own? k' := by
  match k, k' with
  | .string t, .string t' => exact h.strings.get?_modify t t' f
  | .symbol s, .symbol s' => exact h.symbols.get?_modify s s' f
  | .string _, .symbol _ | .symbol _, .string _ => rfl

theorem Valid.ownKeys_modify (f : Descriptor → Descriptor) :
    (o.modify k f).ownKeys = o.ownKeys := by
  cases k with
  | string t => simp [ownKeys, ownTexts, Object.modify, h.strings.keys_modify]
  | symbol s => simp [ownKeys, ownTexts, Object.modify, h.symbols.keys_modify]

theorem Valid.own?_remove :
    (o.remove k).own? k' = if k.same k' then none else o.own? k' := by
  match k, k' with
  | .string t, .string t' => exact h.strings.get?_remove t t'
  | .symbol s, .symbol s' => exact h.symbols.get?_remove s s'
  | .string _, .symbol _ | .symbol _, .string _ => rfl

end Changes

@[simp] theorem isExtensible_store (o : Object) (k : PropertyKey) (d : Descriptor) :
    (o.store k d).isExtensible = o.isExtensible := by
  cases k <;> rfl

@[simp] theorem prototype_store (o : Object) (k : PropertyKey) (d : Descriptor) :
    (o.store k d).prototype = o.prototype := by
  cases k <;> rfl

@[simp] theorem objectClass_store (o : Object) (k : PropertyKey) (d : Descriptor) :
    (o.store k d).objectClass = o.objectClass := by
  cases k <;> rfl

@[simp] theorem callable_store (o : Object) (k : PropertyKey) (d : Descriptor) :
    (o.store k d).callable = o.callable := by
  cases k <;> rfl

@[simp] theorem isExtensible_modify (o : Object) (k : PropertyKey) (f : Descriptor → Descriptor) :
    (o.modify k f).isExtensible = o.isExtensible := by
  cases k <;> rfl

@[simp] theorem prototype_modify (o : Object) (k : PropertyKey) (f : Descriptor → Descriptor) :
    (o.modify k f).prototype = o.prototype := by
  cases k <;> rfl

@[simp] theorem callable_modify (o : Object) (k : PropertyKey) (f : Descriptor → Descriptor) :
    (o.modify k f).callable = o.callable := by
  cases k <;> rfl

@[simp] theorem isExtensible_remove (o : Object) (k : PropertyKey) :
    (o.remove k).isExtensible = o.isExtensible := by
  cases k <;> rfl

@[simp] theorem prototype_remove (o : Object) (k : PropertyKey) :
    (o.remove k).prototype = o.prototype := by
  cases k <;> rfl

@[simp] theorem callable_remove (o : Object) (k : PropertyKey) :
    (o.remove k).callable = o.callable := by
  cases k <;> rfl

end Object

end Ecma
