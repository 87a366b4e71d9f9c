import Ecma.Object.Access
import Ecma.Proofs.PatchedProperties

/-!
# Runs of the operations on own properties

What reading, defining and deleting an own property and resolving a cell do to a
state, branch by branch.
-/

namespace Ecma

namespace Action

theorem run_bind_eq_ok {α β : Type} {m : Action α} {f : α → Action β} {σ τ : State} {b : β}
    (h : (m >>= f).run σ = (.ok b, τ)) :
    ∃ a σ₁, m.run σ = (.ok a, σ₁) ∧ (f a).run σ₁ = (.ok b, τ) := by
  rw [run_bind] at h
  rcases hm : m.run σ with ⟨e | a, σ₁⟩
  · rw [hm] at h
    cases h
  · rw [hm] at h
    exact ⟨a, σ₁, rfl, h⟩

theorem run_bind_congr {α β : Type} {m : Action α} {f g : α → Action β} {σ : State}
    (h : ∀ a τ, m.run σ = (.ok a, τ) → (f a).run τ = (g a).run τ) :
    (m >>= f).run σ = (m >>= g).run σ := by
  rw [run_bind, run_bind]
  rcases hm : m.run σ with ⟨e | a, τ⟩
  · rfl
  · exact h a τ hm

theorem run_discard {α : Type} (m : Action α) (σ : State) :
    (discard m).run σ = ((m.run σ).1.map fun _ ↦ (), (m.run σ).2) := by
  change ((fun _ ↦ ()) <$> m).run σ = _
  rw [← bind_pure_comp, run_bind]
  rcases m.run σ with ⟨_ | _, _⟩ <;> rfl

@[simp] theorem run_heap (σ : State) : heap.run σ = (.ok σ.heap, σ) := rfl

@[simp] theorem run_object (o : ObjectRef) (σ : State) :
    (object o).run σ = (.ok (σ.heap.object o), σ) := rfl

end Action

/-- What has a property is in the heap. -/
theorem Heap.lt_of_own? {h : Heap} {o : ObjectRef} {k : PropertyKey} {d : Descriptor}
    (hown : h.own? o k = some d) : o.index < h.objects.size := by
  refine Nat.lt_of_not_le fun hle ↦ ?_
  have hnone : h.own? o k = none := by
    simp only [own?, object, Array.getD_eq_getD_getElem?, Array.getElem?_eq_none hle]
    cases k <;> rfl
  rw [hnone] at hown
  cases hown

/-- The state in which the resolver of a cell runs. -/
def State.marking (σ : State) (c : CellRef) : State :=
  { σ with heap := σ.heap.setCell c .resolving }

theorem Lazy.run_resolve (eng : Engine) (c : CellRef) (key : String) (σ : State) :
    (Lazy.resolve eng c key).run σ =
      match σ.heap.cell c with
      | .resolved v => (.ok v, σ)
      | .resolving => (.error (.fault (.lazyReentrancy key)), σ)
      | .unresolved r =>
        match (Lazy.runSteps eng r.steps).run (σ.marking c) with
        | (.ok _, τ) => (.ok r.value, { τ with heap := τ.heap.setCell c (.resolved r.value) })
        | (.error e, τ) => (.error e, τ) := by
  have hread : (Lazy.resolve eng c key).run σ = (match σ.heap.cell c with
      | .resolved v => return v
      | .resolving => Action.fault (.lazyReentrancy key)
      | .unresolved r => do
        Action.modifyHeap (·.setCell c .resolving)
        Lazy.runSteps eng r.steps
        Action.modifyHeap (·.setCell c (.resolved r.value))
        return r.value : Action Value).run σ := rfl
  rw [hread]
  cases σ.heap.cell c with
  | resolved v => rfl
  | resolving => rfl
  | unresolved r =>
      simp only [Action.run_bind, Action.run_modifyHeap, State.marking]
      rcases (Lazy.runSteps eng r.steps).run _ with ⟨_ | _, _⟩ <;> rfl

theorem Object.run_getOwn (eng : Engine) (o : ObjectRef) (k : PropertyKey) (σ : State) :
    (Object.getOwn eng o k).run σ =
      match σ.heap.own? o k with
      | none => (.ok none, σ)
      | some ⟨a, .lazy c⟩ =>
        match (Lazy.resolve eng c k.display).run σ with
        | (.ok v, τ) => (.ok (some ⟨a, .data (some v)⟩),
            { τ with heap := τ.heap.modifyObject o (Object.memoize k c v) })
        | (.error e, τ) => (.error e, τ)
      | some ⟨a, .bound scope name⟩ =>
        (.ok (some ⟨a, .data (some (σ.heap.boundValue scope name))⟩), σ)
      | some d => (.ok (some d), σ) := by
  have hread : (Object.getOwn eng o k).run σ = (match σ.heap.own? o k with
      | none => return none
      | some ⟨a, .lazy c⟩ => do
        let v ← Lazy.resolve eng c k.display
        Action.modifyObject o (Object.memoize k c v)
        return some ⟨a, .data (some v)⟩
      | some ⟨a, .bound scope name⟩ => do
        return some ⟨a, .data (some ((← Action.heap).boundValue scope name))⟩
      | some d => return some d : Action (Option Descriptor)).run σ := rfl
  rw [hread]
  split
  · rfl
  · rw [Action.run_bind]
    rcases (Lazy.resolve eng _ k.display).run σ with ⟨_ | _, _⟩ <;> rfl
  · rfl
  · rfl

/-- What is read of a property has its attributes. -/
theorem Object.isMarked_of_run_getOwn {eng : Engine} {o : ObjectRef} {k : PropertyKey}
    {σ τ : State} {shown : Descriptor} (hσ : ∀ d, σ.heap.own? o k = some d → d.IsMarked)
    (hrun : (Object.getOwn eng o k).run σ = (.ok (some shown), τ)) : shown.IsMarked := by
  rw [run_getOwn] at hrun
  split at hrun
  · cases hrun
  next a c hown =>
    split at hrun
    · cases hrun
      exact fun _ ↦ hσ ⟨a, .lazy c⟩ hown rfl
    · cases hrun
  next a scope name hown =>
    cases hrun
    exact fun _ ↦ hσ ⟨a, .bound scope name⟩ hown rfl
  next hown =>
    cases hrun
    exact hσ _ hown

/-- Reading a property that is not lazy changes nothing. -/
theorem Object.run_getOwn_shown (eng : Engine) {o : ObjectRef} {k : PropertyKey} {d : Descriptor}
    {σ : State} (hown : σ.heap.own? o k = some d) (hd : ∀ c, d.form ≠ .lazy c) :
    (Object.getOwn eng o k).run σ = (.ok (some (d.shownIn σ.heap)), σ) := by
  obtain ⟨a, form⟩ := d
  rw [run_getOwn, hown]
  cases form with
  | lazy c => exact absurd rfl (hd c)
  | _ => rfl

theorem Object.run_getOwn_none (eng : Engine) {o : ObjectRef} {k : PropertyKey} {σ : State}
    (hown : σ.heap.own? o k = none) : (Object.getOwn eng o k).run σ = (.ok none, σ) := by
  rw [run_getOwn, hown]

/-- Reading a property that is there shows it or fails. -/
theorem Object.run_getOwn_present (eng : Engine) {o : ObjectRef} {k : PropertyKey} {d : Descriptor}
    {σ : State} (hown : σ.heap.own? o k = some d) :
    ∃ (r : Except Failure Descriptor) (τ : State),
      (Object.getOwn eng o k).run σ = (r.map some, τ) := by
  rw [run_getOwn, hown]
  obtain ⟨a, form⟩ := d
  cases form with
  | lazy c =>
      dsimp only
      rcases (Lazy.resolve eng c k.display).run σ with ⟨e | v, τ⟩
      · exact ⟨.error e, τ, rfl⟩
      · exact ⟨.ok ⟨a, .data (some v)⟩, _, rfl⟩
  | bound scope name => exact ⟨.ok _, σ, rfl⟩
  | generic => exact ⟨.ok _, σ, rfl⟩
  | data v => exact ⟨.ok _, σ, rfl⟩
  | accessor get set => exact ⟨.ok _, σ, rfl⟩

/-- Looking up a key ends where a property is. -/
theorem Object.run_findFrom_present (eng : Engine) {o : ObjectRef} {k : PropertyKey}
    {d : Descriptor} {σ : State} (hown : σ.heap.own? o k = some d) (n : Nat) :
    (Object.findFrom eng k (n + 1) o).run σ = (Object.getOwn eng o k).run σ := by
  obtain ⟨r, τ, hrun⟩ := run_getOwn_present eng hown
  rw [Object.findFrom, Action.run_bind, hrun]
  cases r <;> rfl

/-- Where there is none, it goes on with the prototype. -/
theorem Object.run_findFrom_absent (eng : Engine) {o : ObjectRef} {k : PropertyKey} {σ : State}
    (hown : σ.heap.own? o k = none) (n : Nat) :
    (Object.findFrom eng k (n + 1) o).run σ =
      match (σ.heap.object o).prototype with
      | some p => (Object.findFrom eng k n p).run σ
      | none => (.ok none, σ) := by
  rw [Object.findFrom, Action.run_bind, run_getOwn_none eng hown]
  dsimp only
  rw [Action.run_bind, Action.run_object]
  dsimp only
  cases (σ.heap.object o).prototype <;> rfl

theorem Object.run_find_shown (eng : Engine) {o : ObjectRef} {k : PropertyKey} {d : Descriptor}
    {σ : State} (hown : σ.heap.own? o k = some d) (hd : ∀ c, d.form ≠ .lazy c) :
    (Object.find eng o k).run σ =
      if eng.fuel = 0 then (.error (.fault .outOfFuel), σ)
      else (.ok (some (d.shownIn σ.heap)), σ) := by
  unfold Object.find
  cases eng.fuel with
  | zero => rfl
  | succ n =>
      rw [Object.findFrom, Action.run_bind, run_getOwn_shown eng hown hd]
      rfl

/-- An own property that can be assigned takes the value itself. -/
theorem Object.run_set_shown (eng : Engine) {o : ObjectRef} {k : PropertyKey} {d : Descriptor}
    {σ : State} (hown : σ.heap.own? o k = some d) (hd : ∀ c, d.form ≠ .lazy c)
    (ha : d.isAccessor = false) (hw : d.isWritable = true) (v : Value) :
    (Object.set eng o k v (.object o)).run σ =
      if eng.fuel = 0 then (.error (.fault .outOfFuel), σ)
      else (Object.define eng o k (Descriptor.generic.withValue v)).run σ := by
  have hw' : (d.shownIn σ.heap).isWritable = true := by rw [d.isWritable_shownIn, hw]
  have ha' : (d.shownIn σ.heap).isAccessor = false := by rw [d.isAccessor_shownIn, ha]
  rw [Object.set, Action.run_bind, run_find_shown eng hown hd]
  by_cases hfuel : eng.fuel = 0
  · rw [if_pos hfuel, if_pos hfuel]
  · rw [if_neg hfuel, if_neg hfuel]
    dsimp only [Option.getD_some]
    rw [if_pos (Descriptor.isData_of_isWritable hw'), if_pos hw', Object.setOnReceiver,
      Action.run_bind, run_getOwn_shown eng hown hd]
    dsimp only
    rw [ha', hw']
    rfl

/-- What a patch to the property under a key does to the variables: if the property is
bound to one and the patch has a value, the variable gets a value. -/
inductive Heap.PassesOn (o : ObjectRef) (k : PropertyKey) (patch : Descriptor) (h : Heap) :
    Heap → Prop
  | nothing : PassesOn o k patch h h
  | value {a : Attributes} {scope : ScopeRef} {name : String}
      (hown : h.own? o k = some ⟨a, .bound scope name⟩) (hpatch : patch.value?.isSome) (v : Value) :
      PassesOn o k patch h (h.storeBound scope name v)

theorem Heap.PassesOn.objects {o : ObjectRef} {k : PropertyKey} {patch : Descriptor} {h h' : Heap}
    (hp : h.PassesOn o k patch h') : h'.objects = h.objects := by
  cases hp <;> rfl

theorem Heap.PassesOn.cells {o : ObjectRef} {k : PropertyKey} {patch : Descriptor} {h h' : Heap}
    (hp : h.PassesOn o k patch h') : h'.cells = h.cells := by
  cases hp <;> rfl

/-- A value goes to the variable and nothing else changes. -/
theorem Object.run_rebind {o : ObjectRef} {k : PropertyKey} {a : Attributes} {scope : ScopeRef}
    {name : String} {σ : State} (hown : σ.heap.own? o k = some ⟨a, .bound scope name⟩)
    (patch new : Descriptor) :
    ∃ form heap, (Object.rebind scope name patch new).run σ = (.ok form, { σ with heap }) ∧
      σ.heap.PassesOn o k patch heap ∧ new.StoredAs form ∧
      (form = new.form ∨ form = .bound scope name) := by
  unfold Object.rebind
  split
  next v hform =>
    have hstored : new.StoredAs
        (if new.attributes.writableBits.value then .bound scope name else new.form) := by
      split
      next hbit => exact .inr ⟨hbit, by simp [Descriptor.isAccessor, hform], scope, name, rfl⟩
      next => exact .inl rfl
    have hbound (b : Bool) : (if b then .bound scope name else new.form) = new.form ∨
        (if b then .bound scope name else new.form) = .bound scope name := by
      cases b
      · exact .inl rfl
      · exact .inr rfl
    dsimp only
    split
    next hpatch => exact ⟨_, _, rfl, .value hown hpatch v, hstored, hbound _⟩
    next => exact ⟨_, _, rfl, .nothing, hstored, hbound _⟩
  next form _ => exact ⟨_, _, rfl, .nothing, .inl rfl, .inl rfl⟩

/-- The last part of defining a property that is there. -/
def Object.storePatched (o : ObjectRef) (k : PropertyKey) (patch new : Descriptor) :
    Action Bool := do
  let form ← match (← Action.heap).own? o k with
    | some ⟨_, .bound scope name⟩ => Object.rebind scope name patch new
    | _ => pure new.form
  Action.store o k ⟨new.attributes, form⟩
  return true

/-- A property is defined once it has been read, in the state that reading it leaves. -/
theorem Object.run_define (eng : Engine) (o : ObjectRef) (k : PropertyKey) (patch : Descriptor)
    (σ : State) :
    (Object.define eng o k patch).run σ =
      match (Object.getOwn eng o k).run σ with
      | (.error e, τ) => (.error e, τ)
      | (.ok none, τ) =>
        if (τ.heap.object o).isExtensible then
          (.ok true, { τ with heap := τ.heap.modifyObject o (·.store k patch.complete) })
        else (.ok false, τ)
      | (.ok (some shown), τ) =>
        if shown.permits patch then
          (Object.storePatched o k patch (shown.patched patch)).run τ
        else (.ok false, τ) := by
  rw [Object.define, Action.run_bind]
  rcases (Object.getOwn eng o k).run σ with ⟨e | _ | shown, τ⟩
  · rfl
  · dsimp only
    rw [Action.run_bind, Action.run_object]
    dsimp only
    split <;> rfl
  · dsimp only
    split <;> rfl

/-- A patched property is stored in one of the forms that it may be stored in, and
is bound only to the variable that it was bound to. -/
theorem Object.run_storePatched (o : ObjectRef) (k : PropertyKey) (patch new : Descriptor)
    (σ : State) :
    ∃ (form : PropertyForm) (heap : Heap), (Object.storePatched o k patch new).run σ =
        (.ok true, { σ with heap := heap.modifyObject o (·.store k ⟨new.attributes, form⟩) }) ∧
      σ.heap.PassesOn o k patch heap ∧ new.StoredAs form ∧
      (form = new.form ∨ ∃ d, σ.heap.own? o k = some d ∧ form = d.form) := by
  rw [Object.storePatched, Action.run_bind, Action.run_heap]
  dsimp only
  split
  next scope name hown =>
    obtain ⟨form, heap, hrun, hpasses, hstored, hform⟩ := run_rebind hown patch new
    refine ⟨form, heap, ?_, hpasses, hstored, ?_⟩
    · rw [Action.run_bind, hrun]
      rfl
    · rcases hform with hform | hform
      · exact .inl hform
      · exact .inr ⟨_, hown, hform⟩
  next => exact ⟨_, σ.heap, rfl, .nothing, .inl rfl, .inl rfl⟩

theorem Object.run_delete (o : ObjectRef) (k : PropertyKey) (σ : State) :
    (Object.delete o k).run σ =
      match σ.heap.own? o k with
      | none => (.ok true, σ)
      | some d =>
        if d.isConfigurable then
          (.ok true, { σ with heap := σ.heap.modifyObject o (·.remove k) })
        else (.ok false, σ) := by
  rw [Object.delete, Action.run_bind, Action.run_heap]
  dsimp only
  cases σ.heap.own? o k with
  | none => rfl
  | some d =>
      dsimp only
      split <;> rfl

end Ecma
