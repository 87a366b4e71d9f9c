import Ecma.Proofs.CallScopes

/-!
# Reading and writing bound properties

What a read, a patch and a deletion do to a property that is bound to a variable,
and to the variable; and that the variables are left alone where the property is
not bound.
-/

namespace Ecma

/-! ## Properties after a change -/

namespace Heap

variable {h : Heap} {o : ObjectRef} {k : PropertyKey} {scope : ScopeRef} {name : String}

theorem boundTo?_eq_some :
    h.boundTo? o k = some (scope, name) ↔ ∃ a, h.own? o k = some ⟨a, .bound scope name⟩ := by
  rw [boundTo?, Object.boundTo?, Option.bind_eq_some_iff]
  constructor
  · rintro ⟨⟨a, form⟩, hown, hform⟩
    cases PropertyForm.boundTo?_eq_some.1 hform
    exact ⟨a, hown⟩
  · rintro ⟨a, hown⟩
    exact ⟨_, hown, rfl⟩

theorem boundTo?_of_own? {d : Descriptor} (hown : h.own? o k = some d) :
    h.boundTo? o k = d.form.boundTo? :=
  Object.boundTo?_of_own? hown

theorem own?_store (ho : o.index < h.objects.size) (hvalid : (h.object o).Valid)
    (k k' : PropertyKey) (d : Descriptor) :
    (h.modifyObject o (·.store k d)).own? o k' = if k.same k' then some d else h.own? o k' := by
  rw [own?, object_modifyObject_self ho, hvalid.own?_store]
  rfl

theorem own?_remove (ho : o.index < h.objects.size) (hvalid : (h.object o).Valid)
    (k k' : PropertyKey) :
    (h.modifyObject o (·.remove k)).own? o k' = if k.same k' then none else h.own? o k' := by
  rw [own?, object_modifyObject_self ho, hvalid.own?_remove]
  rfl

/-- The properties of the object under other keys are the same. -/
def SameElsewhere (o : ObjectRef) (k : PropertyKey) (h h' : Heap) : Prop :=
  ∀ k', k.same k' = false → h'.own? o k' = h.own? o k'

/-- The variables are the same too. -/
def ChangesAt (o : ObjectRef) (k : PropertyKey) (h h' : Heap) : Prop :=
  h'.scopes = h.scopes ∧ h.SameElsewhere o k h'

theorem changesAt_refl (o : ObjectRef) (k : PropertyKey) (h : Heap) : h.ChangesAt o k h :=
  ⟨rfl, fun _ _ ↦ rfl⟩

theorem sameElsewhere_store (ho : o.index < h.objects.size) (hvalid : (h.object o).Valid)
    (k : PropertyKey) (d : Descriptor) :
    h.SameElsewhere o k (h.modifyObject o (·.store k d)) := by
  intro k' hk'
  rw [own?_store ho hvalid, hk', if_neg Bool.false_ne_true]

theorem sameElsewhere_remove (ho : o.index < h.objects.size) (hvalid : (h.object o).Valid)
    (k : PropertyKey) : h.SameElsewhere o k (h.modifyObject o (·.remove k)) := by
  intro k' hk'
  rw [own?_remove ho hvalid, hk', if_neg Bool.false_ne_true]

end Heap

/-! ## Patches to a bound property -/

namespace Descriptor

variable {a : Attributes} {v : Value} {patch : Descriptor}

/-- What a bound property becomes: it is shown as data with the variable's value. -/
theorem patched_shown (hpatch : patch.IsOrdinary) (ha : patch.isAccessor = false) :
    patched ⟨a, .data (some v)⟩ patch =
      ⟨a.override patch.attributes, .data (some (patch.value?.getD v))⟩ := by
  have hkind : changesKind ⟨a, .data (some v)⟩ patch = false := by
    rw [changesKind, ha]
    simp [isAccessor]
  rw [patched, hkind]
  obtain ⟨b, form⟩ := patch
  cases form with
  | generic => rfl
  | data w => cases w <;> rfl
  | accessor get set => cases ha
  | lazy c => exact hpatch.elim
  | bound scope name => exact hpatch.elim

theorem isAccessor_patched_shown (ha : patch.isAccessor = true) :
    (patched ⟨a, .data (some v)⟩ patch).isAccessor = true := by
  obtain ⟨b, form⟩ := patch
  cases form with
  | accessor get set => rfl
  | _ => cases ha

theorem value?_of_isAccessor (ha : patch.isAccessor = true) : patch.value? = none := by
  obtain ⟨b, form⟩ := patch
  cases form with
  | accessor get set => rfl
  | _ => cases ha

end Descriptor

namespace Object

/-- What becomes of a property that was bound to a variable with the value `v`: it is
an accessor, or is read-only with the value that it had or was given, or is still
bound. -/
def Patched (o : ObjectRef) (k : PropertyKey) (x : ScopeRef × String) (v : Value)
    (patch : Descriptor) (h : Heap) : Prop :=
  if patch.isAccessor then ∃ d, h.own? o k = some d ∧ d.isAccessor = true
  else if patch.attributes.writable = some false then
    ∃ d, h.own? o k = some d ∧ d.isWritable = false ∧ d.value? = some (patch.value?.getD v)
  else h.boundTo? o k = some x

theorem patched_of_isAccessor {h : Heap} {o : ObjectRef} {k : PropertyKey}
    {x : ScopeRef × String} {v : Value} {patch d : Descriptor} (ha : patch.isAccessor = true)
    (hown : h.own? o k = some d) (hd : d.isAccessor = true) : Patched o k x v patch h := by
  rw [Patched, if_pos ha]
  exact ⟨d, hown, hd⟩

theorem patched_of_own? {h : Heap} {o : ObjectRef} {k : PropertyKey} {a : Attributes}
    {scope : ScopeRef} {name : String} {v : Value} {patch : Descriptor}
    (ha : patch.isAccessor = false) (hw : a.writable = some true)
    (hown : h.own? o k = some ⟨a.override patch.attributes,
      if (a.override patch.attributes).writableBits.value then .bound scope name
      else .data (some (patch.value?.getD v))⟩) :
    Patched o k (scope, name) v patch h := by
  have hbits : (a.override patch.attributes).writableBits =
      .given (patch.attributes.writable.getD true) := by
    simp [Attributes.override, Attribute.read_eq_some.1 hw]
  rw [hbits] at hown
  rw [Patched, ha, if_neg Bool.false_ne_true]
  split
  next hfalse =>
    rw [hfalse] at hown
    exact ⟨_, hown, by simp [Descriptor.isWritable, hfalse], rfl⟩
  next hkept =>
    have hwritable : patch.attributes.writable.getD true = true := by
      cases hpatch : patch.attributes.writable with
      | none => rfl
      | some w => cases w <;> simp_all
    rw [hwritable] at hown
    exact Heap.boundTo?_eq_some.2 ⟨_, hown⟩

variable (eng : Engine) {o : ObjectRef} {k : PropertyKey} {σ : State} {a : Attributes}
  {scope : ScopeRef} {name : String}

theorem run_define_bound (hown : σ.heap.own? o k = some ⟨a, .bound scope name⟩)
    (patch : Descriptor) :
    (define eng o k patch).run σ =
      (let current : Descriptor := ⟨a, .data (some (σ.heap.boundValue scope name))⟩
       if current.permits patch then
         (do
           let form ← rebind scope name patch (current.patched patch)
           Action.store o k ⟨(current.patched patch).attributes, form⟩
           return true : Action Bool).run σ
       else (.ok false, σ)) := by
  rw [run_define, run_getOwn_shown eng hown nofun]
  dsimp only [Descriptor.shownIn]
  split
  · rw [storePatched, Action.run_bind, Action.run_heap]
    dsimp only
    rw [hown]
  · rfl

theorem run_define_data (hown : σ.heap.own? o k = some ⟨a, .bound scope name⟩)
    {patch : Descriptor} (hpatch : patch.IsOrdinary) (ha : patch.isAccessor = false)
    (hpermits : Descriptor.permits ⟨a, .data (some (σ.heap.boundValue scope name))⟩ patch = true) :
    (define eng o k patch).run σ =
      (let value := patch.value?.getD (σ.heap.boundValue scope name)
       let new : Descriptor := ⟨a.override patch.attributes, .data (some value)⟩
       let form := if new.attributes.writableBits.value then .bound scope name else new.form
       let heap := if patch.value?.isSome then σ.heap.storeBound scope name value else σ.heap
       (.ok true, { σ with heap := heap.modifyObject o (·.store k ⟨new.attributes, form⟩) })) := by
  rw [run_define_bound eng hown]
  dsimp only
  rw [if_pos hpermits, Descriptor.patched_shown hpatch ha, rebind]
  cases patch.value? <;> rfl

theorem run_define_accessor (hown : σ.heap.own? o k = some ⟨a, .bound scope name⟩)
    {patch : Descriptor} (ha : patch.isAccessor = true)
    (hpermits : Descriptor.permits ⟨a, .data (some (σ.heap.boundValue scope name))⟩ patch = true) :
    ∃ d, d.isAccessor = true ∧ (define eng o k patch).run σ =
      (.ok true, { σ with heap := σ.heap.modifyObject o (·.store k d) }) := by
  have hnew := Descriptor.isAccessor_patched_shown (a := a) (v := σ.heap.boundValue scope name) ha
  rw [run_define_bound eng hown]
  dsimp only
  rw [if_pos hpermits]
  generalize Descriptor.patched _ patch = new at hnew
  obtain ⟨b, form⟩ := new
  cases form with
  | accessor get set => exact ⟨_, rfl, rfl⟩
  | _ => cases hnew

theorem run_get_bound (hown : σ.heap.own? o k = some ⟨a, .bound scope name⟩) (n : Nat)
    (receiver : Value) :
    (get (.level (n + 1)) o k receiver).run σ = (.ok (σ.heap.boundValue scope name), σ) := by
  rw [get, Action.run_bind, run_find_shown _ hown nofun, Engine.fuel_level,
    if_neg (Nat.succ_ne_zero n)]
  rfl

end Object

/-! ## Values of variables and properties -/

namespace State

/-- Reading the variable gives the value and changes nothing. -/
def VariableIs (σ : State) (s : ScopeRef) (name : String) (v : Value) : Prop :=
  ∀ eng strict, (Scope.get eng s name strict).run σ = (.ok v, σ)

/-- Reading the property gives the value and changes nothing. -/
def PropertyIs (σ : State) (o : ObjectRef) (k : PropertyKey) (v : Value) : Prop :=
  ∀ n receiver, (Object.get (.level (n + 1)) o k receiver).run σ = (.ok v, σ)

/-- The variable has the value, and the others of the names have the values that they
had. -/
def Assigns (names : List String) (s : ScopeRef) (name : String) (v : Value) (σ τ : State) : Prop :=
  τ.VariableIs s name v ∧
    ∀ other ∈ names, other ≠ name → ∀ w, σ.VariableIs s other w → τ.VariableIs s other w

variable {σ τ : State} {s : ScopeRef} {name : String} {v : Value} {names : List String}

theorem variableIs_iff (hs : σ.heap.IsVariable s name) :
    σ.VariableIs s name v ↔ v = σ.heap.boundValue s name := by
  constructor
  · intro hv
    have hrun := hv (.level 0) false
    rw [Scope.run_get _ hs] at hrun
    cases hrun
    rfl
  · rintro rfl eng strict
    exact Scope.run_get eng hs strict

theorem assigns_of_scopes (hscopes : τ.heap.scopes = σ.heap.scopes)
    (hnames : ∀ name ∈ names, σ.heap.IsVariable s name) (hname : name ∈ names)
    (hv : σ.VariableIs s name v) : Assigns names s name v σ τ := by
  have hvalue (name : String) : τ.heap.boundValue s name = σ.heap.boundValue s name := by
    simp [Heap.boundValue, Heap.scope, hscopes]
  have hkept (name : String) (hname : name ∈ names) (w : Value) (hw : σ.VariableIs s name w) :
      τ.VariableIs s name w := by
    have hs := hnames name hname
    rw [variableIs_iff (hs.evolves (.of_scopes hscopes)), hvalue]
    exact (variableIs_iff hs).1 hw
  exact ⟨hkept name hname v hv, fun other hother _ ↦ hkept other hother⟩

theorem assigns_storeBound (hscopes : τ.heap.scopes = (σ.heap.storeBound s name v).scopes)
    (hnames : ∀ name ∈ names, σ.heap.IsVariable s name) (hname : name ∈ names) :
    Assigns names s name v σ τ := by
  let σ' : State := { σ with heap := σ.heap.storeBound s name v }
  have hnames' (other : String) (hother : other ∈ names) : σ'.heap.IsVariable s other :=
    (hnames other hother).evolves (.storeBound σ.heap s name v)
  have hvalue : σ'.VariableIs s name v := by
    rw [variableIs_iff (hnames' name hname)]
    exact (Heap.boundValue_storeBound_self (hnames name hname) v).symm
  obtain ⟨hname', hothers⟩ := assigns_of_scopes (σ := σ') hscopes hnames' hname hvalue
  refine ⟨hname', fun other hother hne w hw ↦ hothers other hother hne w ?_⟩
  rw [variableIs_iff (hnames' other hother)]
  rw [variableIs_iff (hnames other hother)] at hw
  exact hw.trans (Heap.boundValue_storeBound_of_ne (hnames name hname) hne v).symm

end State

/-! ## Properties that are not bound -/

/-- No property under the key, of the object or a prototype of it, has to be resolved. -/
def Heap.IsResolved (h : Heap) (o : ObjectRef) (k : PropertyKey) : Prop :=
  ∀ n, ∀ p ∈ h.chainFrom n (some o), ∀ d, h.own? p k = some d → ∀ c, d.form ≠ .lazy c

theorem Heap.IsResolved.own {h : Heap} {o : ObjectRef} {k : PropertyKey} (hk : h.IsResolved o k)
    {d : Descriptor} (hd : h.own? o k = some d) (c : CellRef) : d.form ≠ .lazy c :=
  hk 1 o List.mem_cons_self d hd c

namespace Object

variable (eng : Engine) {o : ObjectRef} {k : PropertyKey} {σ : State}

section Apart

variable (ho : o.index < σ.heap.objects.size) (hvalid : (σ.heap.object o).Valid)
  (hk : σ.heap.boundTo? o k = none)
  (hlazy : ∀ d, σ.heap.own? o k = some d → ∀ c, d.form ≠ .lazy c)

include ho hvalid hk hlazy

/-- Defining such a property leaves all variables alone. -/
theorem changesAt_run_define (patch : Descriptor) :
    σ.heap.ChangesAt o k ((define eng o k patch).run σ).2.heap := by
  have hstore (d : Descriptor) : σ.heap.ChangesAt o k (σ.heap.modifyObject o (·.store k d)) :=
    ⟨rfl, Heap.sameElsewhere_store ho hvalid k d⟩
  rw [run_define]
  cases hown : σ.heap.own? o k with
  | none =>
      rw [run_getOwn_none eng hown]
      dsimp only
      split
      · exact hstore _
      · exact Heap.changesAt_refl _ _ _
  | some d =>
      rw [run_getOwn_shown eng hown (hlazy d hown)]
      dsimp only
      split
      · rw [storePatched, Action.run_bind, Action.run_heap]
        dsimp only
        rw [hown]
        split
        next scope name hbound =>
          cases hbound
          rw [Heap.boundTo?_of_own? hown] at hk
          cases hk
        next => exact hstore _
      · exact Heap.changesAt_refl _ _ _

theorem changesAt_run_setOnReceiver (v : Value) :
    σ.heap.ChangesAt o k ((setOnReceiver eng k v (.object o)).run σ).2.heap := by
  rw [setOnReceiver, Action.run_bind]
  cases hown : σ.heap.own? o k with
  | none =>
      rw [run_getOwn_none eng hown]
      exact changesAt_run_define eng ho hvalid hk hlazy _
  | some d =>
      rw [run_getOwn_shown eng hown (hlazy d hown)]
      dsimp only
      split
      · exact Heap.changesAt_refl _ _ _
      · exact changesAt_run_define eng ho hvalid hk hlazy _

end Apart

/-- Looking up a property that is resolved runs no code. -/
theorem run_findFrom_resolved (hk : σ.heap.IsResolved o k) (n : Nat) :
    ∃ r, (findFrom eng k n o).run σ = (r, σ) := by
  induction n generalizing o with
  | zero => exact ⟨_, rfl⟩
  | succ n ih =>
      rw [findFrom, Action.run_bind]
      cases hown : σ.heap.own? o k with
      | some d =>
          rw [run_getOwn_shown eng hown (hk.own hown)]
          exact ⟨_, rfl⟩
      | none =>
          rw [run_getOwn_none eng hown]
          dsimp only
          rw [Action.run_bind, Action.run_object]
          dsimp only
          cases hprototype : (σ.heap.object o).prototype with
          | none => exact ⟨_, rfl⟩
          | some p =>
              refine ih fun m q hq ↦ hk (m + 1) q ?_
              rw [Heap.chainFrom, hprototype]
              exact List.mem_cons_of_mem _ hq

theorem exists_setter {h : Heap} {found : Option Descriptor}
    (hsetter : h.isCallable ((found.getD (.plain .undefined)).setter?.getD .undefined) = true) :
    ∃ d setter, found = some d ∧ d.setter? = some setter := by
  cases found with
  | none => cases hsetter
  | some d =>
      rw [Option.getD_some] at hsetter
      cases hd : d.setter? with
      | none =>
          rw [hd] at hsetter
          cases hsetter
      | some setter => exact ⟨d, setter, rfl, hd⟩

/-- Writing such a property leaves all variables alone, except for what a setter does. -/
theorem changesAt_run_set (ho : o.index < σ.heap.objects.size) (hvalid : (σ.heap.object o).Valid)
    (hk : σ.heap.boundTo? o k = none) (hresolved : σ.heap.IsResolved o k) {v : Value}
    {r : Except Failure Bool} {τ : State}
    (hrun : (set eng o k v (.object o)).run σ = (r, τ)) :
    σ.heap.ChangesAt o k τ.heap ∨
      ∃ d setter r', (find eng o k).run σ = (.ok (some d), σ) ∧ d.setter? = some setter ∧
        (eng.call setter (.object o) [v]).run σ = (r', τ) := by
  obtain ⟨found, hfind⟩ := run_findFrom_resolved eng hresolved eng.fuel
  change (find eng o k).run σ = (found, σ) at hfind
  rw [set, Action.run_bind, hfind] at hrun
  cases found with
  | error e =>
      cases hrun
      exact .inl (Heap.changesAt_refl _ _ _)
  | ok found =>
      dsimp only at hrun
      split at hrun
      · split at hrun
        · have hchange :=
            changesAt_run_setOnReceiver eng ho hvalid hk (fun _ ↦ hresolved.own) v
          rw [hrun] at hchange
          exact .inl hchange
        · cases hrun
          exact .inl (Heap.changesAt_refl _ _ _)
      · have hcallable (f : Value) :
            (Action.isCallable f).run σ = (.ok (σ.heap.isCallable f), σ) := rfl
        rw [Action.run_bind, hcallable] at hrun
        dsimp only at hrun
        split at hrun
        next hsetter =>
          obtain ⟨d, setter, rfl, hd⟩ := exists_setter hsetter
          rw [Option.getD_some, hd, Option.getD_some, Action.run_bind, Action.run_discard] at hrun
          rcases hcall : (eng.call setter (.object o) [v]).run σ with ⟨r', τ'⟩
          have hτ : τ' = τ := by
            rw [hcall] at hrun
            cases r' <;> exact congrArg Prod.snd hrun
          exact .inr ⟨d, setter, r', hfind, hd, hτ ▸ hcall⟩
        next =>
          cases hrun
          exact .inl (Heap.changesAt_refl _ _ _)

end Object

end Ecma
