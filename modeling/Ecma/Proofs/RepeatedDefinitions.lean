import Ecma.Host.Library
import Ecma.Proofs.Assignments

/-!
# Defining a property twice

A property that has taken a patch takes it again and is the same: each check
passes because the property already is what the patch asks for, and storing it
leaves the very state.  What reading a property shows is such a patch too.
-/

namespace Ecma

/-! ## Patches that change nothing -/

namespace Descriptor

variable {current patch : Descriptor}

/-- The property already is what the patch asks for. -/
structure Meets (current patch : Descriptor) : Prop where
  writable : ∀ b, patch.attributes.writable = some b → current.attributes.writable = some b
  enumerable : ∀ b, patch.attributes.enumerable = some b → current.attributes.enumerable = some b
  configurable : ∀ b, patch.attributes.configurable = some b →
    current.attributes.configurable = some b
  kind : current.changesKind patch = false
  getter : ∀ v, patch.getter? = some v → current.getter? = some v
  setter : ∀ v, patch.setter? = some v → current.setter? = some v
  value : ∀ v, patch.value? = some v → current.value? = some v

theorem or_eq_right {α : Type} {p c : Option α} (h : ∀ b, p = some b → c = some b) :
    p.or c = c := by
  cases p with
  | none => rfl
  | some b => exact (h b rfl).symm

theorem agrees_of_forall {p c : Option Value} (h : ∀ v, p = some v → c = some v) :
    agrees p c = true := by
  rw [agrees_iff]
  intro v hv
  rw [h v hv, Option.getD_some]
  exact v.sameValue_refl

namespace Meets

/-- It need not be configurable or writable to take the patch. -/
theorem permits (h : current.Meets patch) : current.permits patch = true := by
  unfold Descriptor.permits
  split
  · rfl
  next hconfigurable =>
    have hpatch : (patch.attributes.configurable == some true) = false :=
      beq_false_of_ne fun hc ↦ hconfigurable (beq_iff_eq.2 (h.configurable true hc))
    have henumerable : patch.attributes.enumerable.any (· != current.isEnumerable) = false := by
      cases he : patch.attributes.enumerable with
      | none => rfl
      | some e =>
          rw [isEnumerable, h.enumerable e he]
          cases e <;> rfl
    rw [hpatch, henumerable, h.kind, agrees_of_forall h.getter, agrees_of_forall h.setter,
      agrees_of_forall h.value]
    simp only [Bool.false_eq_true, if_false, Bool.and_self, Bool.and_true]
    split
    · rfl
    split
    · rfl
    next hw => exact bne_iff_ne.2 fun hpatch ↦ hw (beq_iff_eq.2 (h.writable true hpatch))

theorem override_eq (h : current.Meets patch) :
    current.attributes.override patch.attributes = current.attributes := by
  simp only [Attributes.override, Attribute.override_eq_left h.writable,
    Attribute.override_eq_left h.enumerable, Attribute.override_eq_left h.configurable]

theorem isAccessor_eq_false (h : current.Meets patch) (ha : current.isAccessor = false) :
    patch.isAccessor = false := by
  have hkind := h.kind
  rw [changesKind, isGeneric, ha] at hkind
  cases hpatch : patch.isAccessor with
  | false => rfl
  | true =>
      rw [hpatch] at hkind
      cases hkind

/-- And it stays what it is. -/
theorem patched (h : current.Meets patch) (hpatch : patch.IsOrdinary) :
    current.patched patch = current := by
  have hattributes := h.override_eq
  obtain ⟨a, form⟩ := current
  obtain ⟨b, change⟩ := patch
  rw [Descriptor.patched, h.kind, if_neg Bool.false_ne_true]
  dsimp only at hattributes
  rw [hattributes]
  congr 1
  cases change with
  | generic => cases form <;> rfl
  | data v =>
      cases v with
      | none => cases form <;> rfl
      | some w =>
          have hvalue : value? ⟨a, form⟩ = some w := h.value w rfl
          cases form with
          | data u =>
              cases hvalue
              rfl
          | _ => cases hvalue
  | accessor get' set' =>
      cases form with
      | accessor get set =>
          have hget : get'.or get = get := or_eq_right h.getter
          have hset : set'.or set = set := or_eq_right h.setter
          dsimp only
          rw [hget, hset]
      | _ => cases h.kind
  | lazy c => exact hpatch.elim
  | bound scope name => exact hpatch.elim

end Meets

/-- The value of data that is writable does not matter. -/
theorem permits_congr_value {a : Attributes} (hw : a.writable = some true) (v w : Option Value)
    (patch : Descriptor) : permits ⟨a, .data v⟩ patch = permits ⟨a, .data w⟩ patch := by
  simp [permits, isConfigurable, isEnumerable, isWritable, changesKind, isAccessor, hw]

theorem meets_self (d : Descriptor) : d.Meets d where
  writable _ h := h
  enumerable _ h := h
  configurable _ h := h
  kind := by simp [changesKind]
  getter _ h := h
  setter _ h := h
  value _ h := h

theorem form_of_value? {d : Descriptor} {v : Value} (h : d.value? = some v) :
    d.form = .data (some v) := by
  obtain ⟨a, form⟩ := d
  cases form <;> cases h
  rfl

/-- What the patch does not specify is as it asks for in any case. -/
theorem specifies_of_eq_none {α : Type} {p c : Option α} (hp : p = none) (v : α) (hv : p = some v) :
    c = some v := by
  rw [hp] at hv
  cases hv

theorem specify_of_eq_some {b : Bool} {p : Attribute} (h : p.read = some b) :
    p.specify.read = some b := by
  rw [Attribute.read_eq_some.1 h]
  rfl

/-- A new property is what the patch that makes it asks for. -/
theorem meets_complete (hpatch : patch.IsOrdinary) : patch.complete.Meets patch := by
  have hkind : patch.complete.changesKind patch = false := by
    simp [changesKind, isAccessor_complete]
  obtain ⟨b, change⟩ := patch
  cases change with
  | generic =>
      exact ⟨fun _ ↦ specify_of_eq_some, fun _ ↦ specify_of_eq_some, fun _ ↦ specify_of_eq_some,
        hkind, specifies_of_eq_none rfl, specifies_of_eq_none rfl, specifies_of_eq_none rfl⟩
  | data v =>
      refine ⟨fun _ ↦ specify_of_eq_some, fun _ ↦ specify_of_eq_some, fun _ ↦ specify_of_eq_some,
        hkind, specifies_of_eq_none rfl, specifies_of_eq_none rfl, ?_⟩
      rintro w ⟨⟩
      rfl
  | accessor get set =>
      refine ⟨fun _ h ↦ h, fun _ ↦ specify_of_eq_some, fun _ ↦ specify_of_eq_some, hkind, ?_, ?_,
        specifies_of_eq_none rfl⟩
      · rintro f ⟨⟩
        rfl
      · rintro f ⟨⟩
        rfl
  | lazy c => exact hpatch.elim
  | bound scope name => exact hpatch.elim

theorem isOrdinary_complete (hpatch : patch.IsOrdinary) : patch.complete.IsOrdinary := by
  obtain ⟨b, change⟩ := patch
  cases change with
  | lazy c => exact hpatch.elim
  | bound scope name => exact hpatch.elim
  | _ => trivial

/-- The attributes of a patch take precedence, whatever becomes of the others. -/
theorem exists_attributes_patched (current patch : Descriptor) :
    ∃ a : Attributes, (current.patched patch).attributes = a.override patch.attributes := by
  unfold patched
  split
  · cases patch.form <;> exact ⟨_, rfl⟩
  · exact ⟨_, rfl⟩

/-- A patch to an accessor leaves an accessor with the functions that it has. -/
theorem form_patched_of_accessor {get set : Option Value}
    (hpatch : patch.form = .accessor get set) (current : Descriptor) :
    ∃ get' set', (current.patched patch).form = .accessor get' set' ∧
      (∀ f, get = some f → get' = some f) ∧ ∀ f, set = some f → set' = some f := by
  obtain ⟨a, form⟩ := current
  obtain ⟨b, change⟩ := patch
  cases hpatch
  unfold patched
  split
  · refine ⟨_, _, rfl, ?_, ?_⟩
    · rintro f rfl
      rfl
    · rintro f rfl
      rfl
  next hkept =>
    cases form with
    | accessor get₀ set₀ =>
        refine ⟨_, _, rfl, ?_, ?_⟩
        · rintro f rfl
          rfl
        · rintro f rfl
          rfl
    | _ => exact absurd rfl hkept

/-- A patch to data leaves data. -/
theorem isAccessor_patched_of_data (hpatch : patch.IsOrdinary) (ha : patch.isAccessor = false)
    (hgeneric : patch.isGeneric = false) : (current.patched patch).isAccessor = false := by
  unfold patched
  split
  · obtain ⟨b, change⟩ := patch
    cases change with
    | accessor get set => cases ha
    | lazy c => exact hpatch.elim
    | bound scope name => exact hpatch.elim
    | _ => rfl
  next hkept =>
    have hcurrent : current.isAccessor = false := by simpa [changesKind, ha, hgeneric] using hkept
    obtain ⟨a, form⟩ := current
    obtain ⟨b, change⟩ := patch
    cases form with
    | accessor get set => cases hcurrent
    | _ =>
        cases change with
        | accessor get set => cases ha
        | data v => cases v <;> rfl
        | _ => rfl

/-- A patched property is what the patch asked for. -/
theorem meets_patched (hpatch : patch.IsOrdinary) : (current.patched patch).Meets patch := by
  obtain ⟨a, hattributes⟩ := exists_attributes_patched current patch
  have hwritable (b : Bool) (hb : patch.attributes.writable = some b) :
      (current.patched patch).attributes.writable = some b := by simp [hattributes, hb]
  have henumerable (b : Bool) (hb : patch.attributes.enumerable = some b) :
      (current.patched patch).attributes.enumerable = some b := by simp [hattributes, hb]
  have hconfigurable (b : Bool) (hb : patch.attributes.configurable = some b) :
      (current.patched patch).attributes.configurable = some b := by simp [hattributes, hb]
  cases hform : patch.form with
  | accessor get set =>
      have haccessor : patch.isAccessor = true := by rw [isAccessor, hform]
      obtain ⟨get', set', hnew, hget, hset⟩ := form_patched_of_accessor hform current
      have haccessor' : (current.patched patch).isAccessor = true := by rw [isAccessor, hnew]
      refine ⟨hwritable, henumerable, hconfigurable, ?_, fun f hf ↦ ?_, fun f hf ↦ ?_, ?_⟩
      · simp [changesKind, haccessor, haccessor']
      · rw [getter?, hform] at hf
        rw [getter?, hnew]
        exact hget f hf
      · rw [setter?, hform] at hf
        rw [setter?, hnew]
        exact hset f hf
      · exact specifies_of_eq_none (by rw [value?, hform])
  | generic | data =>
      have haccessor : patch.isAccessor = false := by rw [isAccessor, hform]
      refine ⟨hwritable, henumerable, hconfigurable, ?_, ?_, ?_, fun v hv ↦ ?_⟩
      · rw [changesKind]
        cases hgeneric : patch.isGeneric with
        | true => rfl
        | false =>
            rw [haccessor, isAccessor_patched_of_data hpatch haccessor hgeneric]
            rfl
      · exact specifies_of_eq_none (by rw [getter?, hform])
      · exact specifies_of_eq_none (by rw [setter?, hform])
      · rw [value?, form_patched_of_data (form_of_value? hv)]
  | lazy c =>
      rw [IsOrdinary, hform] at hpatch
      exact hpatch.elim
  | bound scope name =>
      rw [IsOrdinary, hform] at hpatch
      exact hpatch.elim

end Descriptor

/-! ## Stores that have the property already -/

section Stores

open Std Std.DHashMap.Internal

/-- A bucket that has the entry. -/
theorem replaceBucket_eq_self {α β : Type} [BEq α] {k : α} {v : β} (l : AssocList α fun _ ↦ β)
    (hk : l.getKey? k = some k) (hv : l.get? k = some v) :
    l.contains k = true ∧ l.replace k v = l := by
  induction l with
  | nil => cases hk
  | cons k' v' rest ih =>
      rw [AssocList.getKey?] at hk
      rw [AssocList.get?] at hv
      rw [AssocList.contains, AssocList.replace]
      cases h : k' == k with
      | true =>
          rw [h] at hk hv
          cases hk
          cases hv
          exact ⟨rfl, rfl⟩
      | false =>
          rw [h] at hk hv
          obtain ⟨hmem, hrest⟩ := ih hk hv
          exact ⟨by rw [hmem]; rfl, by rw [hrest]; rfl⟩

/-- A table that has the entry: the very same table, not only one with the same entries. -/
theorem insert_eq_self {α β : Type} [BEq α] [Hashable α] {m : HashMap α β} {k : α} {v : β}
    (hk : m.getKey? k = some k) (hv : m[k]? = some v) : m.insert k v = m := by
  obtain ⟨⟨⟨size, buckets⟩, hm⟩⟩ := m
  change AssocList.getKey? k _ = some k at hk
  change AssocList.get? k _ = some v at hv
  obtain ⟨hmem, hrest⟩ := replaceBucket_eq_self _ hk hv
  unfold HashMap.insert DHashMap.insert Raw₀.insert
  congr 2
  dsimp only
  rw [if_pos hmem]
  dsimp only
  congr 1
  rw [hrest]
  simp

end Stores

namespace PropertyStore

variable {κ : Type} [BEq κ] [Hashable κ] {p : PropertyStore κ} {k : κ} {d : Descriptor}

/-- If the store is a table, then it has the key as it is given.  Symbols are known by their number,
and the table might have one with another description. -/
def KeepsKey (p : PropertyStore κ) (k : κ) : Prop :=
  match p.storage with
  | .list _ => True
  | .hashed map _ => map.getKey? k = some k

theorem keepsKey_of_lawful [LawfulBEq κ] (hget : p.get? k = some d) : p.KeepsKey k := by
  obtain ⟨cutover, entries | ⟨map, order⟩⟩ := p
  · trivial
  · have hentry : map[k]? = some d := hget
    exact Std.HashMap.getKey?_eq_some (Std.HashMap.mem_iff_isSome_getElem?.2 (by rw [hentry]; rfl))

theorem keepsKey_set [EquivBEq κ] [LawfulHashable κ] (p : PropertyStore κ) (k : κ)
    (d : Descriptor) : (p.set k d).KeepsKey k := by
  obtain ⟨cutover, entries | ⟨map, order⟩⟩ := p
  · unfold set append overwrite
    split
    · trivial
    · dsimp only
      split
      · exact Std.HashMap.getKey?_insert_self
      · trivial
  · unfold set append overwrite
    split
    · exact Std.HashMap.getKey?_insert_self
    · exact Std.HashMap.getKey?_insert_self

omit [Hashable κ] in
theorem replace_eq_self {entries : List (κ × Descriptor)} (hfind : find? k entries = some d) :
    replace k d entries = entries := by
  induction entries with
  | nil => rfl
  | cons e rest ih =>
      rw [find?] at hfind
      rw [replace]
      split at hfind
      next h =>
        cases hfind
        rw [if_pos h]
      next h => rw [if_neg h, ih hfind]

theorem set_eq_self (hk : p.KeepsKey k) (hget : p.get? k = some d) : p.set k d = p := by
  have hmem : p.contains k = true := by rw [contains, hget]; rfl
  rw [set, if_pos hmem]
  obtain ⟨cutover, entries | ⟨map, order⟩⟩ := p
  · rw [overwrite, replace_eq_self hget]
  · rw [overwrite, insert_eq_self hk hget]

end PropertyStore

namespace Object

variable {data : Object} {k : PropertyKey} {d : Descriptor}

def KeepsKey (data : Object) : PropertyKey → Prop
  | .string t => data.strings.KeepsKey t
  | .symbol s => data.symbols.KeepsKey s

theorem keepsKey_store (data : Object) (k : PropertyKey) (d : Descriptor) :
    (data.store k d).KeepsKey k := by
  cases k with
  | string t => exact PropertyStore.keepsKey_set _ t d
  | symbol s => exact PropertyStore.keepsKey_set _ s d

theorem store_eq_self (hk : data.KeepsKey k) (hown : data.own? k = some d) :
    data.store k d = data := by
  cases k with
  | string t => rw [store, PropertyStore.set_eq_self hk hown]
  | symbol s => rw [store, PropertyStore.set_eq_self hk hown]

end Object

theorem Heap.modifyObject_store_eq_self {h : Heap} {o : ObjectRef} {k : PropertyKey}
    {d : Descriptor} (hk : (h.object o).KeepsKey k) (hown : h.own? o k = some d) :
    h.modifyObject o (·.store k d) = h := by
  have ho : o.index < h.objects.size := lt_of_own? hown
  have hobject : h.objects[o.index] = h.object o := by simp [object, ho]
  have hsame : h.objects[o.index].store k d = h.objects[o.index] := by
    rw [hobject]
    exact Object.store_eq_self hk hown
  unfold modifyObject
  congr 1
  refine Array.ext (by simp) fun i hi hi' ↦ ?_
  rw [Array.getElem_modify]
  split
  next hio =>
    subst hio
    exact hsame
  next => rfl

/-! ## States that look the same -/

/-- The properties are the same and in the same order; of the rest nothing has changed. -/
structure Object.SameAs (data data' : Object) : Prop where
  own : ∀ k, data'.own? k = data.own? k
  keys : data'.ownKeys = data.ownKeys
  rest : data' = { data with strings := data'.strings, symbols := data'.symbols }

theorem Object.SameAs.refl (data : Object) : data.SameAs data := ⟨fun _ ↦ rfl, rfl, rfl⟩

/-- A property is stored where it is already. -/
theorem Object.Valid.sameAs_store {data : Object} (h : data.Valid) {k : PropertyKey}
    {d : Descriptor} (hown : data.own? k = some d) : data.SameAs (data.store k d) where
  own k' := by
    rw [h.own?_store]
    split
    next hk => rw [← own?_congr hk data, hown]
    next => rfl
  keys := by
    cases k with
    | string t =>
        have hkeys : (data.strings.set t d).keys = data.strings.keys := by
          rw [own?] at hown
          rw [h.strings.keys_set, hown]
          rfl
        simp [ownKeys, ownTexts, Object.store, hkeys]
    | symbol s =>
        have hkeys : (data.symbols.set s d).keys = data.symbols.keys := by
          rw [own?] at hown
          rw [h.symbols.keys_set, hown]
          rfl
        simp [ownKeys, ownTexts, Object.store, hkeys]
  rest := by cases k <;> rfl

/-- No object, variable or cell has changed, nor anything else. -/
structure State.SameAs (σ τ : State) : Prop where
  size : τ.heap.objects.size = σ.heap.objects.size
  object : ∀ o, (σ.heap.object o).SameAs (τ.heap.object o)
  scopes : τ.heap.scopes = σ.heap.scopes
  cells : τ.heap.cells = σ.heap.cells
  rest : τ = { σ with heap := τ.heap }

namespace State

variable {σ τ : State} {o : ObjectRef} {k : PropertyKey} {d : Descriptor}

theorem sameAs_store (hσ : σ.heap.IsStored) (hown : σ.heap.own? o k = some d) :
    σ.SameAs { σ with heap := σ.heap.modifyObject o (·.store k d) } where
  size := by simp [Heap.modifyObject]
  object p := by
    have ho := Heap.lt_of_own? hown
    by_cases hp : p = o
    · rw [hp, Heap.object_modifyObject_self ho]
      exact (hσ o ho).valid.sameAs_store hown
    · rw [Heap.object_modifyObject_of_ne _ hp]
      exact .refl _
  scopes := rfl
  cells := rfl
  rest := rfl

end State

/-- The value that resolving a cell gives is the one that it had to give. -/
theorem Lazy.value?_of_run_resolve {eng : Engine} {c : CellRef} {key : String} {v : Value}
    {σ τ : State} (hrun : (resolve eng c key).run σ = (.ok v, τ)) :
    (σ.heap.cell c).value? = some v := by
  rw [run_resolve] at hrun
  cases hc : σ.heap.cell c with
  | resolved w =>
      rw [hc] at hrun
      cases hrun
      rfl
  | resolving =>
      rw [hc] at hrun
      cases hrun
  | unresolved r =>
      rw [hc] at hrun
      dsimp only at hrun
      split at hrun
      · cases hrun
        rfl
      · cases hrun

theorem Object.exists_value?_of_run_getOwn {eng : Engine} {o : ObjectRef} {k : PropertyKey}
    {a : Attributes} {c : CellRef} {found : Option Descriptor} {σ τ : State}
    (hown : σ.heap.own? o k = some ⟨a, .lazy c⟩)
    (hrun : (getOwn eng o k).run σ = (.ok found, τ)) :
    ∃ v, (σ.heap.cell c).value? = some v ∧ found = some ⟨a, .data (some v)⟩ := by
  rw [run_getOwn_lazy_eq eng hown] at hrun
  rcases hresolve : (Lazy.resolve eng c k.display).run σ with ⟨e | v, ρ⟩
  · rw [hresolve] at hrun
    cases hrun
  · rw [hresolve] at hrun
    cases hrun
    exact ⟨v, Lazy.value?_of_run_resolve hresolve, rfl⟩

/-- What is read is the same, if it can be read. -/
theorem State.SameAs.getOwn_eq {σ τ σ' τ' : State} (h : σ.SameAs τ) {eng eng' : Engine}
    {o : ObjectRef} {k : PropertyKey} {found found' : Option Descriptor}
    (hrun : (Object.getOwn eng o k).run σ = (.ok found, σ'))
    (hrun' : (Object.getOwn eng' o k).run τ = (.ok found', τ')) : found' = found := by
  have hown : τ.heap.own? o k = σ.heap.own? o k := (h.object o).own k
  cases hd : σ.heap.own? o k with
  | none =>
      cases hrun.symm.trans (Object.run_getOwn_none eng hd)
      cases hrun'.symm.trans (Object.run_getOwn_none eng' (hown.trans hd))
      rfl
  | some d =>
      obtain ⟨a, form⟩ := d
      by_cases hlazy : ∃ c, form = .lazy c
      · obtain ⟨c, rfl⟩ := hlazy
        have hcell : τ.heap.cell c = σ.heap.cell c := by simp [Heap.cell, h.cells]
        obtain ⟨v, hv, rfl⟩ := Object.exists_value?_of_run_getOwn hd hrun
        obtain ⟨v', hv', rfl⟩ := Object.exists_value?_of_run_getOwn (hown.trans hd) hrun'
        rw [hcell] at hv'
        cases hv.symm.trans hv'
        rfl
      · have hform (c : CellRef) : form ≠ .lazy c := fun hc ↦ hlazy ⟨c, hc⟩
        have hshown :
            Descriptor.shownIn τ.heap ⟨a, form⟩ = Descriptor.shownIn σ.heap ⟨a, form⟩ := by
          cases form with
          | bound s name => simp [Descriptor.shownIn, Heap.boundValue, Heap.scope, h.scopes]
          | _ => rfl
        cases hrun.symm.trans (Object.run_getOwn_shown eng hd hform)
        cases hrun'.symm.trans (Object.run_getOwn_shown eng' (hown.trans hd) hform)
        rw [hshown]

/-! ## Variables that have the value already -/

theorem Bindings.write_eq_self {b : Bindings} {name : String} {x : Binding} {v : Value}
    (hx : b.find? name = some x) (hv : x.value = some v) : b.write name v = b := by
  obtain ⟨entries⟩ := b
  simp only [write, find?] at hx ⊢
  congr 1
  induction entries with
  | nil => rfl
  | cons e rest ih =>
      obtain ⟨n, y⟩ := e
      by_cases hn : n = name
      · subst hn
        rw [List.lookup_cons_self] at hx
        cases hx
        simp [writeEntries, ← hv]
      · rw [List.lookup_cons, beq_false_of_ne (Ne.symm hn)] at hx
        rw [writeEntries, beq_false_of_ne hn, if_neg Bool.false_ne_true, ih hx]

/-- A variable that cannot be assigned stays as it is anyway. -/
theorem Bindings.store_eq_self {b : Bindings} {name : String} {v : Value}
    (h : ∀ x, b.find? name = some x → x.isMutable = true → x.value = some v) :
    b.store name v = b := by
  unfold store
  split
  next x hx =>
    split
    next hmutable => exact write_eq_self hx (h x hx hmutable)
    next => rfl
  next => rfl

theorem Heap.modifyScope_eq_self {h : Heap} {s : ScopeRef} {f : Scope → Scope}
    (hf : f (h.scope s) = h.scope s) : h.modifyScope s f = h :=
  calc
    h.modifyScope s f = h.modifyScope s id := modifyScope_congr hf
    _ = h := by
      unfold modifyScope
      congr 1
      exact Array.ext (by simp) fun i hi hi' ↦ by simp [Array.getElem_modify]

theorem Heap.storeBound_eq_self {h : Heap} {s : ScopeRef} {name : String} {v : Value}
    (hx : ∀ x, h.bindingAt s name = some x → x.isMutable = true → x.value = some v) :
    h.storeBound s name v = h := by
  refine modifyScope_eq_self ?_
  cases hb : (h.scope s).record.bindings? with
  | none => rfl
  | some b =>
      have hstore : b.store name v = b := by
        refine Bindings.store_eq_self fun x hfind ↦ hx x ?_
        rw [bindingAt, hb]
        exact hfind
      have hrecord : (h.scope s).record.withBindings b = (h.scope s).record := by
        cases hr : (h.scope s).record with
        | object o isWith => rfl
        | _ =>
            rw [hr] at hb
            cases hb
            rfl
      dsimp only
      rw [hstore, hrecord]

/-! ## Defining again -/

/-- The property has what the patch asks for, itself or in the variable that it is bound to. -/
inductive Heap.HasTaken (h : Heap) (o : ObjectRef) (k : PropertyKey) (patch : Descriptor) : Prop
  | own {d : Descriptor} (hown : h.own? o k = some d) (hd : d.IsOrdinary) (hmeets : d.Meets patch)
  | variable {a : Attributes} {s : ScopeRef} {name : String} {v : Value}
      (hown : h.own? o k = some ⟨a, .bound s name⟩) (hw : a.writable = some true)
      (hmeets : Descriptor.Meets ⟨a, .data (some v)⟩ patch)
      (hvalue : patch.value?.isSome = true → h.storeBound s name v = h)

namespace Object

variable {eng : Engine} {o : ObjectRef} {k : PropertyKey} {patch new : Descriptor} {σ τ : State}

/-- Nothing is stored that is not there. -/
theorem exists_run_define_of_hasTaken (htaken : σ.heap.HasTaken o k patch)
    (hpatch : patch.IsOrdinary) (eng : Engine) :
    ∃ d, σ.heap.own? o k = some d ∧ (define eng o k patch).run σ =
      (.ok true, { σ with heap := σ.heap.modifyObject o (·.store k d) }) := by
  cases htaken with
  | @own d hown hd hmeets =>
      have hlazy (c : CellRef) : d.form ≠ .lazy c := by
        intro hc
        rw [Descriptor.IsOrdinary, hc] at hd
        exact hd
      have hbound (a : Attributes) (s : ScopeRef) (name : String) :
          σ.heap.own? o k ≠ some ⟨a, .bound s name⟩ := by
        intro hc
        cases hown.symm.trans hc
        exact hd
      have hshown : d.shownIn σ.heap = d := by
        obtain ⟨a, form⟩ := d
        cases form with
        | bound s name => exact hd.elim
        | _ => rfl
      refine ⟨d, hown, ?_⟩
      rw [run_define, run_getOwn_shown eng hown hlazy, hshown]
      dsimp only
      rw [if_pos hmeets.permits, run_storePatched_of_not_bound _ _ hbound, hmeets.patched hpatch]
  | @«variable» a s name v hown hw hmeets hvalue =>
      have hattributes : a.override patch.attributes = a := hmeets.override_eq
      -- The variable may have another value by now if the patch has none.
      have hpermits :
          Descriptor.permits ⟨a, .data (some (σ.heap.boundValue s name))⟩ patch = true := by
        rw [Descriptor.permits_congr_value hw _ (some v)]
        exact hmeets.permits
      have hheap : (if patch.value?.isSome then
          σ.heap.storeBound s name (patch.value?.getD (σ.heap.boundValue s name)) else σ.heap) =
          σ.heap := by
        cases hgiven : patch.value? with
        | none => rfl
        | some w =>
            cases Option.some.inj (hmeets.value w hgiven)
            exact hvalue (by rw [hgiven]; rfl)
      refine ⟨_, hown, ?_⟩
      rw [run_define_data eng hown hpatch (hmeets.isAccessor_eq_false rfl) hpermits]
      dsimp only
      rw [hheap, hattributes, Attribute.read_eq_some.1 hw]
      rfl

/-- A bound property that becomes an accessor is bound no more. -/
theorem run_storePatched_of_not_data {a : Attributes} {s : ScopeRef} {name : String}
    (hown : σ.heap.own? o k = some ⟨a, .bound s name⟩) (patch : Descriptor)
    (hnew : ∀ v, new.form ≠ .data (some v)) :
    (storePatched o k patch new).run σ =
      (.ok true, { σ with heap := σ.heap.modifyObject o (·.store k new) }) := by
  have hrebind : rebind s name patch new = pure new.form := by
    rw [rebind]
    split
    next v hv => exact absurd hv (hnew v)
    next => rfl
  rw [storePatched, Action.run_bind, Action.run_heap]
  dsimp only
  rw [hown]
  dsimp only
  rw [hrebind]
  rfl

/-- What has been stored: the patched property itself, or one that is bound to the variable that
has its value. -/
theorem hasTaken_of_run_storePatched (hσ : σ.heap.IsStored) (ho : o.index < σ.heap.objects.size)
    (hnew : new.IsOrdinary) (hmarked : new.IsMarked) (hmeets : new.Meets patch)
    (hrun : (storePatched o k patch new).run σ = (.ok true, τ)) :
    τ.heap.HasTaken o k patch ∧ (τ.heap.object o).KeepsKey k := by
  have hstored {h : Heap} (hobjects : h.objects = σ.heap.objects) (d : Descriptor) :
      (h.modifyObject o (·.store k d)).own? o k = some d ∧
        ((h.modifyObject o (·.store k d)).object o).KeepsKey k := by
    have hh : h.IsStored := Heap.AllConform.of_objects hσ hobjects
    have ho' : o.index < h.objects.size := hobjects ▸ ho
    constructor
    · rw [Heap.own?_store ho' (hh o ho').valid, if_pos (PropertyKey.same_self k)]
    · rw [Heap.object_modifyObject_self ho']
      exact keepsKey_store _ k d
  have hitself (h : (storePatched o k patch new).run σ =
      (.ok true, { σ with heap := σ.heap.modifyObject o (·.store k new) })) :
      τ.heap.HasTaken o k patch ∧ (τ.heap.object o).KeepsKey k := by
    cases hrun.symm.trans h
    obtain ⟨hown', hk⟩ := hstored rfl new
    exact ⟨.own hown' hnew hmeets, hk⟩
  by_cases hbound : ∃ a s name, σ.heap.own? o k = some ⟨a, .bound s name⟩
  · obtain ⟨a, s, name, hown⟩ := hbound
    by_cases hform : ∃ v, new.form = .data (some v)
    · obtain ⟨v, hform⟩ := hform
      rw [run_storePatched_of_bound hown patch hform] at hrun
      cases hrun
      generalize hheap :
        (if patch.value?.isSome then σ.heap.storeBound s name v else σ.heap) = h
      have hobjects : h.objects = σ.heap.objects := by
        rw [← hheap]
        split <;> rfl
      cases hbit : new.attributes.writableBits.value with
      | false =>
          obtain ⟨hown', hk⟩ := hstored hobjects new
          exact ⟨.own hown' hnew hmeets, hk⟩
      | true =>
          obtain ⟨hown', hk⟩ := hstored hobjects ⟨new.attributes, .bound s name⟩
          have hdata : new = ⟨new.attributes, .data (some v)⟩ := by rw [← hform]
          have hw := hmarked.isWritable (by rw [hdata]; rfl) hbit
          refine ⟨.variable hown' (beq_iff_eq.1 hw) (hdata ▸ hmeets) fun hvalue ↦ ?_, hk⟩
          rw [hvalue, if_pos rfl] at hheap
          refine Heap.storeBound_eq_self fun x hx hmutable ↦ ?_
          change h.bindingAt s name = some x at hx
          rw [← hheap] at hx
          exact Heap.value_of_bindingAt_storeBound hx hmutable
    · exact hitself (run_storePatched_of_not_data hown patch fun v hv ↦ hform ⟨v, hv⟩)
  · exact hitself (run_storePatched_of_not_bound patch new fun a s name h ↦ hbound ⟨a, s, name, h⟩)

theorem isOrdinary_of_run_getOwn {shown : Descriptor}
    (hrun : (getOwn eng o k).run σ = (.ok (some shown), τ)) : shown.IsOrdinary := by
  rcases run_getOwn_cases hrun with
    ⟨hnone, -⟩ | ⟨⟨a, form⟩, -, hlazy, hshown, -⟩ | ⟨a, c, v, ρ, -, -, hshown, -⟩
  · cases hnone
  · cases Option.some.inj hshown
    cases form with
    | lazy c => exact absurd rfl (hlazy c)
    | _ => trivial
  · cases Option.some.inj hshown
    trivial

theorem hasTaken_of_run_define (hpatch : patch.IsOrdinary)
    (hmarked : ∀ d, σ.heap.own? o k = some d → d.IsMarked)
    (hread : ∀ found ρ, (getOwn eng o k).run σ = (.ok found, ρ) →
      ρ.heap.IsStored ∧ o.index < ρ.heap.objects.size)
    (hrun : (define eng o k patch).run σ = (.ok true, τ)) :
    τ.heap.HasTaken o k patch ∧ (τ.heap.object o).KeepsKey k := by
  rw [run_define] at hrun
  rcases hfound : (getOwn eng o k).run σ with ⟨e | _ | shown, ρ⟩
  · rw [hfound] at hrun
    cases hrun
  · obtain ⟨hρ, ho⟩ := hread _ _ hfound
    rw [hfound] at hrun
    dsimp only at hrun
    split at hrun
    · cases hrun
      have hown := (State.stores_store hρ ho k patch.complete).own
      refine ⟨.own hown (Descriptor.isOrdinary_complete hpatch)
        (Descriptor.meets_complete hpatch), ?_⟩
      rw [Heap.object_modifyObject_self ho]
      exact keepsKey_store _ k _
    · cases hrun
  · obtain ⟨hρ, ho⟩ := hread _ _ hfound
    rw [hfound] at hrun
    dsimp only at hrun
    split at hrun
    · exact hasTaken_of_run_storePatched hρ ho
        (Descriptor.isOrdinary_patched (isOrdinary_of_run_getOwn hfound) hpatch)
        ((isMarked_of_run_getOwn hmarked hfound).patched patch)
        (Descriptor.meets_patched hpatch) hrun
    · cases hrun

/-- What is read can be defined, unless the property has gone while it was read. -/
theorem hasTaken_of_run_getOwn {shown : Descriptor} (hσ : σ.heap.IsStored)
    (hrun : (getOwn eng o k).run σ = (.ok (some shown), τ))
    (hbound : ∀ a s name, σ.heap.own? o k = some ⟨a, .bound s name⟩ →
      a.writable = some true ∧ ∃ x v, σ.heap.bindingAt s name = some x ∧ x.value = some v)
    (hlazy : σ.heap.AwaitsResolver o k → τ.heap.own? o k = some shown) :
    τ.heap.HasTaken o k shown := by
  rcases run_getOwn_cases hrun with
    ⟨hnone, -⟩ | ⟨⟨a, form⟩, hown, hform, hshown, rfl⟩ | ⟨a, c, v, ρ, hown, hresolve, hshown, rfl⟩
  · cases hnone
  · cases Option.some.inj hshown
    cases form with
    | bound s name =>
        obtain ⟨hw, x, v, hx, hv⟩ := hbound a s name hown
        have hvalue : τ.heap.boundValue s name = v := by
          rw [Heap.boundValue_eq, hx]
          simp [hv]
        refine .variable hown hw (Descriptor.meets_self _) fun _ ↦ ?_
        refine Heap.storeBound_eq_self fun y hy _ ↦ ?_
        cases hx.symm.trans hy
        rw [hv, hvalue]
    | lazy c => exact absurd rfl (hform c)
    | _ => exact .own hown trivial (Descriptor.meets_self _)
  · cases Option.some.inj hshown
    refine .own (d := ⟨a, .data (some v)⟩) ?_ trivial (Descriptor.meets_self _)
    cases hc : σ.heap.cell c with
    | unresolved r => exact hlazy ⟨a, c, r, hown, hc⟩
    | resolving =>
        rw [Lazy.run_resolve, hc] at hresolve
        cases hresolve
    | resolved w =>
        rw [Lazy.run_resolve, hc] at hresolve
        cases hresolve
        have ho := Heap.lt_of_own? hown
        exact Heap.own?_memoize ho (hσ o ho).valid hown v

end Object

/-- Where the resolver calls nothing, the property has become what was read. -/
theorem retaining.own?_of_awaitsResolver {n : ℕ} {o : ObjectRef} {k : PropertyKey} {σ τ : State}
    {shown : Descriptor} (hσ : σ.heap.IsStored) (hlazy : σ.heap.AwaitsResolver o k)
    (hcalls : Engine.CallsNothing n (Object.getOwn · o k) σ)
    (hrun : (Object.getOwn (.level n) o k).run σ = (.ok (some shown), τ)) :
    τ.heap.own? o k = some shown := by
  have hrun' : (Object.getOwn (.reading n) o k).run σ = (.ok (some shown), τ) := hcalls.trans hrun
  have hget := keeps_get_reading n
  obtain ⟨a, c, r, hown, -⟩ := hlazy
  obtain ⟨d, hown', hform, rfl⟩ := own?_of_run_getOwn hget hσ hrun'
  have hread := (keeps_getOwn hget o k).allows hσ hrun'
  rcases hread.step.own o (Heap.lt_of_own? hown) k with hsame | ⟨a', c', v, -, -, hvalue⟩
  · cases (hown'.symm.trans hsame).trans hown
    exact absurd rfl (hform c)
  · cases hown'.symm.trans hvalue
    exact hvalue

end Ecma
