import Ecma.Engine.Level
import Ecma.Proofs.OwnProperties

/-!
# Disciplines

A discipline says which states are good, how a state may change, and which
failures may come up.  An action keeps it when, from a good state, it reaches a
good state by a change that is allowed, however it ends.  Actions that are put
together from such actions are of the kind themselves; what remains to be shown
for a discipline is what the few changes of the state that all operations are
made of do.
-/

namespace Ecma

/-! ## Host programs -/

/-- A patch that neither makes a property lazy nor binds it to a variable. -/
def Descriptor.IsOrdinary (d : Descriptor) : Prop :=
  match d.form with
  | .generic | .data _ | .accessor _ _ => True
  | .lazy _ | .bound _ _ => False

/-- A patch as the engine makes them: an ordinary one, and of those only one with a value says
whether the property is writable. -/
def Descriptor.IsStandard (d : Descriptor) : Prop :=
  match d.form with
  | .generic | .accessor _ _ => d.attributes.writableBits = .unspecified
  | .data _ => True
  | .lazy _ | .bound _ _ => False

theorem Descriptor.IsStandard.isOrdinary {d : Descriptor} (hd : d.IsStandard) : d.IsOrdinary := by
  obtain ⟨a, form⟩ := d
  cases form with
  | lazy c => exact hd
  | bound scope name => exact hd
  | _ => trivial

/-- What programs of the host may do: how they may fail, and by which patches
they may define properties. -/
structure HostContract where
  Fails : Failure → Prop
  Patches : Descriptor → Prop

/-- The host may do anything. -/
def anyHost : HostContract := ⟨fun _ ↦ True, fun _ ↦ True⟩

def Request.Honours (H : HostContract) : Request → Prop
  | .define _ _ d => H.Patches d
  | _ => True

/-- The program keeps to the contract as long as the replies do. -/
def HostProgram.Honours {α : Type} (H : HostContract) : HostProgram α → Prop
  | .done result => ∀ e, result = .error e → H.Fails e
  | .perform request next => request.Honours H ∧
      ∀ reply, (∀ e, reply = .error e → H.Fails e) → (next reply).Honours H

/-- Every program keeps to a contract that allows everything. -/
theorem HostProgram.honours_of_forall {α : Type} {H : HostContract} (hfails : ∀ e, H.Fails e)
    (hpatches : ∀ d, H.Patches d) (program : HostProgram α) : program.Honours H := by
  induction program with
  | done result => exact fun e _ ↦ hfails e
  | perform request next ih =>
      refine ⟨?_, fun reply _ ↦ ih reply⟩
      cases request with
      | define o k d => exact hpatches d
      | _ => trivial

/-- If a callable belongs to the host, its programs keep to the contract. -/
def Callable.Honours (H : HostContract) : Callable → Prop
  | .closure _ _ _ => True
  | .native _ _ run => ∀ this args, (run this args).Honours H

/-! ## The notion -/

structure Discipline extends HostContract where
  /-- The states in good order. -/
  Good : State → Prop
  /-- How a state may change. -/
  Step : State → State → Prop
  refl : ∀ σ, Step σ σ
  trans : ∀ {σ₁ σ₂ σ₃}, Step σ₁ σ₂ → Step σ₂ σ₃ → Step σ₁ σ₃
  /-- A jump out of a script comes up at its end only: no operation fails with it. -/
  fails : ∀ e, e ≠ .fault (.invariant .escapedScript) → Fails e
  /-- The engine itself defines properties by standard patches. -/
  patches : ∀ d : Descriptor, d.IsStandard → Patches d

/-! ## Objects in good order -/

/-- The value bit is not set unless the attribute is specified. -/
def Attribute.HasNoStrayBit (a : Attribute) : Prop := a.value = true → a.isSpecified = true

namespace Attribute

theorem hasNoStrayBit_given (b : Bool) : (given b).HasNoStrayBit := fun _ ↦ rfl

theorem hasNoStrayBit_unspecified : unspecified.HasNoStrayBit := Bool.noConfusion

theorem HasNoStrayBit.eq_unspecified {a : Attribute} (ha : a.HasNoStrayBit)
    (hread : a.read = none) : a = unspecified := by
  obtain ⟨_ | _, _ | _⟩ := a
  · rfl
  · cases hread
  · cases ha rfl
  · cases hread

/-- An attribute without a stray bit becomes `false` when it counts as specified. -/
theorem HasNoStrayBit.specify_eq {a : Attribute} (ha : a.HasNoStrayBit) :
    a.specify = given (a.read.getD false) := by
  obtain ⟨_ | _, _ | _⟩ := a
  · rfl
  · rfl
  · cases ha rfl
  · rfl

theorem HasNoStrayBit.override {a : Attribute} (ha : a.HasNoStrayBit) (patch : Attribute) :
    (a.override patch).HasNoStrayBit := by
  unfold Attribute.override
  split
  next hpatch => exact fun _ ↦ hpatch
  next => exact ha

end Attribute

structure Attributes.HasNoStrayBit (a : Attributes) : Prop where
  writable : a.writableBits.HasNoStrayBit
  enumerable : a.enumerableBits.HasNoStrayBit
  configurable : a.configurableBits.HasNoStrayBit

theorem Attributes.HasNoStrayBit.override {a : Attributes} (ha : a.HasNoStrayBit)
    (patch : Attributes) : (a.override patch).HasNoStrayBit :=
  ⟨ha.writable.override _, ha.enumerable.override _, ha.configurable.override _⟩

namespace Descriptor

/-- Unless it is an accessor, the property has the bit of a writable one only if that is
specified. -/
def IsMarked (d : Descriptor) : Prop :=
  d.isAccessor = false → d.attributes.writableBits.HasNoStrayBit

theorem IsMarked.isWritable {d : Descriptor} (hd : d.IsMarked) (ha : d.isAccessor = false)
    (hbit : d.attributes.writableBits.value = true) : d.isWritable = true := by
  simp [Descriptor.isWritable, Attributes.writable, Attribute.read, hd ha hbit, hbit]

/-- Where a property is bound to a variable, it is writable. -/
structure IsSettled (d : Descriptor) : Prop where
  marked : d.IsMarked
  bound : ∀ scope name, d.form = .bound scope name → d.isWritable = true

/-- A property as the engine stores it: nothing is left unspecified, except that
an accessor says nothing about being writable. -/
def IsComplete (d : Descriptor) : Prop :=
  d.attributes.HasNoStrayBit ∧ d.attributes.enumerable.isSome ∧
    d.attributes.configurable.isSome ∧
    match d.form with
    | .generic => False
    | .data v => v.isSome ∧ d.attributes.writable.isSome
    | .accessor get set => get.isSome ∧ set.isSome ∧ d.attributes.writable = none
    | .lazy _ => d.attributes.writable.isSome
    | .bound _ _ => d.attributes.writable = some true

theorem IsComplete.isSettled {d : Descriptor} (h : d.IsComplete) : d.IsSettled := by
  obtain ⟨hbits, -, -, hwritable⟩ := h
  refine ⟨fun _ ↦ hbits.writable, fun scope name hform ↦ ?_⟩
  rw [hform] at hwritable
  simp [isWritable, hwritable]

theorem isComplete_data (v : Value) (w e c : Bool) : (data v w e c).IsComplete :=
  ⟨⟨fun _ ↦ rfl, fun _ ↦ rfl, fun _ ↦ rfl⟩, rfl, rfl, rfl, rfl⟩

theorem isComplete_accessor (get set : Option Value) (e c : Bool) :
    (accessor get set e c).IsComplete :=
  ⟨⟨Attribute.hasNoStrayBit_unspecified, fun _ ↦ rfl, fun _ ↦ rfl⟩, rfl, rfl, rfl, rfl, rfl⟩

theorem isComplete_lazy (cell : CellRef) (w e c : Bool) : (lazy cell w e c).IsComplete :=
  ⟨⟨fun _ ↦ rfl, fun _ ↦ rfl, fun _ ↦ rfl⟩, rfl, rfl, rfl⟩

theorem isComplete_bound (scope : ScopeRef) (name : String) (e c : Bool) :
    (bound scope name e c).IsComplete :=
  ⟨⟨fun _ ↦ rfl, fun _ ↦ rfl, fun _ ↦ rfl⟩, rfl, rfl, rfl⟩

end Descriptor

namespace Object

/-- The stores are built by operations, every property is as `Fits` says, and a
function of the host keeps to the contract. -/
structure Conforms (Fits : Descriptor → Prop) (H : HostContract) (o : Object) : Prop where
  valid : o.Valid
  own : ∀ k d, o.own? k = some d → Fits d
  callable : ∀ f, o.callable = some f → f.Honours H

variable {Fits : Descriptor → Prop} {H : HostContract} {o : Object}

theorem conforms_new (c : ObjectClass) (prototype : Option ObjectRef) (cutover : Nat) :
    (new c prototype cutover).Conforms Fits H := by
  refine ⟨valid_new c prototype cutover, ?_, nofun⟩
  intro k d hd
  simp at hd

theorem Conforms.mono {Fits' : Descriptor → Prop} (h : o.Conforms Fits H)
    (hFits : ∀ d, Fits d → Fits' d) : o.Conforms Fits' H :=
  ⟨h.valid, fun k d hd ↦ hFits d (h.own k d hd), h.callable⟩

theorem Conforms.store (h : o.Conforms Fits H) (k : PropertyKey) {d : Descriptor}
    (hd : Fits d) : (o.store k d).Conforms Fits H := by
  refine ⟨h.valid.store k d, ?_, ?_⟩
  · intro k' d' hd'
    rw [h.valid.own?_store] at hd'
    split at hd'
    · cases hd'
      exact hd
    · exact h.own k' d' hd'
  · intro f hf
    rw [callable_store] at hf
    exact h.callable f hf

theorem Conforms.modify (h : o.Conforms Fits H) (k : PropertyKey)
    {f : Descriptor → Descriptor} (hf : ∀ d, Fits d → Fits (f d)) :
    (o.modify k f).Conforms Fits H := by
  refine ⟨h.valid.modify k f, ?_, ?_⟩
  · intro k' d' hd'
    rw [h.valid.own?_modify] at hd'
    split at hd'
    · obtain ⟨d, hd, rfl⟩ := Option.map_eq_some_iff.1 hd'
      exact hf d (h.own k' d hd)
    · exact h.own k' d' hd'
  · intro f' hf'
    rw [callable_modify] at hf'
    exact h.callable f' hf'

theorem Conforms.remove (h : o.Conforms Fits H) (k : PropertyKey) :
    (o.remove k).Conforms Fits H := by
  refine ⟨h.valid.remove k, ?_, ?_⟩
  · intro k' d' hd'
    rw [h.valid.own?_remove] at hd'
    split at hd'
    · cases hd'
    · exact h.own k' d' hd'
  · intro f hf
    rw [callable_remove] at hf
    exact h.callable f hf

theorem Conforms.withCallable (h : o.Conforms Fits H) {f : Callable}
    (hf : f.Honours H) : { o with callable := some f }.Conforms Fits H := by
  refine ⟨⟨h.valid.strings, h.valid.symbols⟩, ?_, ?_⟩
  · intro k d hd
    exact h.own k d hd
  · intro f' hf'
    cases hf'
    exact hf

theorem own?_of_stores {o' : Object} (hstrings : o'.strings = o.strings)
    (hsymbols : o'.symbols = o.symbols) (k : PropertyKey) : o'.own? k = o.own? k := by
  cases k with
  | string t => rw [own?, hstrings, own?]
  | symbol s => rw [own?, hsymbols, own?]

/-- An object with the same properties that calls the same. -/
theorem Conforms.of_stores {o' : Object} (h : o.Conforms Fits H)
    (hstrings : o'.strings = o.strings) (hsymbols : o'.symbols = o.symbols)
    (hcallable : o'.callable = o.callable) : o'.Conforms Fits H := by
  refine ⟨⟨hstrings ▸ h.valid.strings, hsymbols ▸ h.valid.symbols⟩, fun k d hd ↦ ?_, ?_⟩
  · exact h.own k d ((own?_of_stores hstrings hsymbols k).symm.trans hd)
  · exact hcallable ▸ h.callable

theorem Conforms.withPrimitive (h : o.Conforms Fits H) (v : Value) :
    { o with primitive := some v }.Conforms Fits H :=
  h.of_stores rfl rfl rfl

end Object

/-! ## Growing heaps -/

namespace Heap

/-- The heap has new objects, complete ones, and new cells, unresolved ones, and
is otherwise as it was; scopes are not looked at. -/
structure Grows (H : HostContract) (h h' : Heap) : Prop where
  objects_le : h.objects.size ≤ h'.objects.size
  object_eq : ∀ o : ObjectRef, o.index < h.objects.size → h'.object o = h.object o
  object_new : ∀ o : ObjectRef, h.objects.size ≤ o.index → o.index < h'.objects.size →
    (h'.object o).Conforms Descriptor.IsComplete H
  cells_le : h.cells.size ≤ h'.cells.size
  cell_eq : ∀ c : CellRef, c.index < h.cells.size → h'.cell c = h.cell c
  cell_new : ∀ c : CellRef, h.cells.size ≤ c.index → c.index < h'.cells.size →
    ∃ r, h'.cell c = .unresolved r

variable {H : HostContract} {h₀ h : Heap}

theorem grows_refl (h : Heap) : h.Grows H h where
  objects_le := Nat.le_refl _
  object_eq _ _ := rfl
  object_new _ hle hlt := absurd hlt (by omega)
  cells_le := Nat.le_refl _
  cell_eq _ _ := rfl
  cell_new _ hle hlt := absurd hlt (by omega)

theorem eq_addObject_of_le {o : ObjectRef} {data : Object} (hle : h.objects.size ≤ o.index)
    (hlt : o.index < (h.addObject data).2.objects.size) : o = (h.addObject data).1 := by
  simp only [Heap.addObject, Array.size_push] at hlt ⊢
  cases o
  congr
  exact Nat.le_antisymm (Nat.le_of_lt_succ hlt) hle

theorem Grows.addObject (hg : h₀.Grows H h) {data : Object}
    (hdata : data.Conforms Descriptor.IsComplete H) :
    h₀.Grows H (h.addObject data).2 where
  objects_le := by
    have := hg.objects_le
    simp only [Heap.addObject, Array.size_push]
    omega
  object_eq o ho := by
    rw [object_addObject_of_lt (Nat.lt_of_lt_of_le ho hg.objects_le)]
    exact hg.object_eq o ho
  object_new o hle hlt := by
    by_cases ho : o.index < h.objects.size
    · rw [object_addObject_of_lt ho]
      exact hg.object_new o hle ho
    · rw [eq_addObject_of_le (Nat.le_of_not_lt ho) hlt, object_addObject_self]
      exact hdata
  cells_le := hg.cells_le
  cell_eq := hg.cell_eq
  cell_new := hg.cell_new

/-- An object that is new may still be changed. -/
theorem Grows.modifyObject (hg : h₀.Grows H h) {o : ObjectRef}
    (ho : h₀.objects.size ≤ o.index) {f : Object → Object}
    (hf : ∀ data : Object, data.Conforms Descriptor.IsComplete H →
      (f data).Conforms Descriptor.IsComplete H) :
    h₀.Grows H (h.modifyObject o f) where
  objects_le := by simpa [Heap.modifyObject] using hg.objects_le
  object_eq p hp := by
    have hne : p ≠ o := by
      rintro rfl
      omega
    rw [object_modifyObject_of_ne h hne]
    exact hg.object_eq p hp
  object_new p hle hlt := by
    have hlt' : p.index < h.objects.size := by simpa [Heap.modifyObject] using hlt
    by_cases hpo : p = o
    · rw [hpo, object_modifyObject_self (hpo ▸ hlt')]
      exact hf _ (hg.object_new o ho (hpo ▸ hlt'))
    · rw [object_modifyObject_of_ne h hpo]
      exact hg.object_new p hle hlt'
  cells_le := hg.cells_le
  cell_eq := hg.cell_eq
  cell_new := hg.cell_new

theorem Grows.trans {h₁ h₂ : Heap} (hg : h₀.Grows H h₁) (hg' : h₁.Grows H h₂) :
    h₀.Grows H h₂ where
  objects_le := Nat.le_trans hg.objects_le hg'.objects_le
  object_eq o ho := by
    rw [hg'.object_eq o (Nat.lt_of_lt_of_le ho hg.objects_le)]
    exact hg.object_eq o ho
  object_new o hle hlt := by
    by_cases ho : o.index < h₁.objects.size
    · rw [hg'.object_eq o ho]
      exact hg.object_new o hle ho
    · exact hg'.object_new o (Nat.le_of_not_lt ho) hlt
  cells_le := Nat.le_trans hg.cells_le hg'.cells_le
  cell_eq c hc := by
    rw [hg'.cell_eq c (Nat.lt_of_lt_of_le hc hg.cells_le)]
    exact hg.cell_eq c hc
  cell_new c hle hlt := by
    by_cases hc : c.index < h₁.cells.size
    · rw [hg'.cell_eq c hc]
      exact hg.cell_new c hle hc
    · exact hg'.cell_new c (Nat.le_of_not_lt hc) hlt

theorem Grows.addScope (hg : h₀.Grows H h) (data : Scope) :
    h₀.Grows H (h.addScope data).2 :=
  ⟨hg.objects_le, hg.object_eq, hg.object_new, hg.cells_le, hg.cell_eq, hg.cell_new⟩

theorem Grows.addCell (hg : h₀.Grows H h) (r : Resolver) :
    h₀.Grows H (h.addCell (.unresolved r)).2 where
  objects_le := hg.objects_le
  object_eq := hg.object_eq
  object_new := hg.object_new
  cells_le := by
    have := hg.cells_le
    simp only [Heap.addCell, Array.size_push]
    omega
  cell_eq c hc := by
    rw [← hg.cell_eq c hc]
    have hlt : c.index < h.cells.size := Nat.lt_of_lt_of_le hc hg.cells_le
    simp [Heap.addCell, cell, Array.getElem?_push, Nat.ne_of_lt hlt]
  cell_new c hle hlt := by
    simp only [Heap.addCell, Array.size_push] at hlt
    by_cases hc : c.index = h.cells.size
    · exact ⟨r, by simp [Heap.addCell, cell, hc]⟩
    · obtain ⟨r', hr'⟩ := hg.cell_new c hle (by omega)
      refine ⟨r', ?_⟩
      rw [← hr']
      simp [Heap.addCell, cell, Array.getElem?_push, hc]

/-! ## Heaps in good order -/

/-- Every object of the heap conforms. -/
def AllConform (Fits : Descriptor → Prop) (H : HostContract) (h : Heap) : Prop :=
  ∀ o : ObjectRef, o.index < h.objects.size → (h.object o).Conforms Fits H

theorem allConform_empty {Fits : Descriptor → Prop} : empty.AllConform Fits H :=
  fun _ ho ↦ absurd ho (Nat.not_lt_zero _)

namespace AllConform

variable {Fits : Descriptor → Prop} {h' : Heap} (hh : h.AllConform Fits H)

include hh

theorem of_objects (hobjects : h'.objects = h.objects) : h'.AllConform Fits H := by
  intro o ho
  have hobject : h'.object o = h.object o := by simp [object, hobjects]
  rw [hobject]
  exact hh o (hobjects ▸ ho)

theorem of_grows (hFits : ∀ d : Descriptor, d.IsComplete → Fits d) (hg : h.Grows H h') :
    h'.AllConform Fits H := by
  intro o ho
  by_cases hlt : o.index < h.objects.size
  · rw [hg.object_eq o hlt]
    exact hh o hlt
  · exact (hg.object_new o (Nat.le_of_not_lt hlt) ho).mono hFits

theorem addObject {data : Object} (hdata : data.Conforms Fits H) :
    (h.addObject data).2.AllConform Fits H := by
  intro o ho
  by_cases hlt : o.index < h.objects.size
  · rw [object_addObject_of_lt hlt]
    exact hh o hlt
  · rw [eq_addObject_of_le (Nat.le_of_not_lt hlt) ho, object_addObject_self]
    exact hdata

theorem modifyObject (o : ObjectRef) {f : Object → Object}
    (hf : ∀ data : Object, data.Conforms Fits H → (f data).Conforms Fits H) :
    (h.modifyObject o f).AllConform Fits H := by
  intro p hp
  have hp' : p.index < h.objects.size := by simpa [Heap.modifyObject] using hp
  by_cases hpo : p = o
  · rw [hpo, object_modifyObject_self (hpo ▸ hp')]
    exact hf _ (hh o (hpo ▸ hp'))
  · rw [object_modifyObject_of_ne h hpo]
    exact hh p hp'

theorem callable {o : ObjectRef} {f : Callable} (hf : (h.object o).callable = some f) :
    f.Honours H := by
  by_cases ho : o.index < h.objects.size
  · exact (hh o ho).callable f hf
  · simp [object, Array.getElem?_eq_none (Nat.le_of_not_lt ho)] at hf
    cases hf

end AllConform

end Heap

namespace Discipline

/-! ## Actions that keep a discipline -/

/-- What a discipline asks of an outcome. -/
structure Allows (D : Discipline) {α : Type} (σ : State) (r : Except Failure α × State) :
    Prop where
  good : D.Good r.2
  step : D.Step σ r.2
  fails : ∀ e, r.1 = .error e → D.Fails e

def Keeps (D : Discipline) {α : Type} (m : Action α) : Prop :=
  ∀ σ, D.Good σ → D.Allows σ (m.run σ)

/-- An execution keeps a discipline when it does as part of an action. -/
def Executes (D : Discipline) {α : Type} (m : Execution α) : Prop :=
  D.Keeps (Action.ofExecution m)

/-- What holds of a discipline under the changes of the state that do not touch
the properties of an object. -/
structure Base (D : Discipline) : Prop where
  /-- Scopes, the log and the like may change. -/
  quiet : ∀ σ σ', σ'.heap.objects = σ.heap.objects → σ'.heap.cells = σ.heap.cells →
    σ'.callDepth = σ.callDepth → D.Good σ → D.Good σ' ∧ D.Step σ σ'
  grows : ∀ σ σ', σ.heap.Grows D.toHostContract σ'.heap → σ'.callDepth = σ.callDepth → D.Good σ →
    D.Good σ' ∧ D.Step σ σ'
  /-- A call counts itself while it runs. -/
  deepen : ∀ σ, D.Good σ → D.Good { σ with callDepth := σ.callDepth + 1 }
  surface : ∀ σ τ, D.Good σ → D.Good τ → D.Step { σ with callDepth := σ.callDepth + 1 } τ →
    D.Good { τ with callDepth := τ.callDepth - 1 } ∧
      D.Step σ { τ with callDepth := τ.callDepth - 1 }
  /-- A resolver reads through an interpreter of its own. -/
  beside : ∀ σ, D.Good σ → D.Good σ.beside
  resume : ∀ σ τ, D.Good σ → D.Good τ → D.Step σ.beside τ →
    D.Good (σ.resume τ) ∧ D.Step σ (σ.resume τ)
  callable : ∀ σ o f, D.Good σ → (σ.heap.object o).callable = some f → f.Honours D.toHostContract

/-- The operations of an engine keep the discipline. -/
structure Holds (D : Discipline) (eng : Engine) : Prop where
  call : ∀ f this args, D.Keeps (eng.call f this args)
  get : ∀ o k receiver, D.Keeps (eng.get o k receiver)
  eval : ∀ e s, D.Keeps (eng.eval e s)
  exec : ∀ stmt s labels, D.Executes (eng.exec stmt s labels)

/-- What holds of a discipline under all changes of the state: those of `Base`
and the operations on the properties of one object. -/
structure Lawful (D : Discipline) : Prop extends D.Base where
  getOwn : ∀ eng, D.Holds eng → ∀ o k, D.Keeps (Object.getOwn eng o k)
  define : ∀ eng, D.Holds eng → ∀ o k patch, D.Patches patch →
    D.Keeps (Object.define eng o k patch)
  delete : ∀ o k, D.Keeps (Object.delete o k)
  setPrototype : ∀ o prototype, D.Keeps (Object.setPrototype o prototype)
  preventExtensions : ∀ o, D.Keeps (Object.preventExtensions o)

/-- An engine whose operations keep a lawful discipline. -/
structure Governs (D : Discipline) (eng : Engine) : Prop extends D.Lawful, D.Holds eng

/-! ## Putting actions together -/

section Combinators

variable {D : Discipline} {α β : Type}

theorem allows_ok {σ : State} (hσ : D.Good σ) (a : α) : D.Allows σ (.ok a, σ) :=
  ⟨hσ, D.refl σ, fun _ h ↦ nomatch h⟩

/-- A change before. -/
theorem Allows.after {σ τ : State} {r : Except Failure α × State} (h : D.Allows τ r)
    (hstep : D.Step σ τ) : D.Allows σ r :=
  ⟨h.good, D.trans hstep h.step, h.fails⟩

/-- An action that leaves the state alone and does not fail. -/
theorem keeps_of_run_eq {m : Action α} (f : State → α) (h : ∀ σ, m.run σ = (.ok (f σ), σ)) :
    D.Keeps m := by
  intro σ hσ
  rw [h]
  exact allows_ok hσ _

theorem keeps_pure (a : α) : D.Keeps (pure a) := fun _ hσ ↦ allows_ok hσ a

theorem keeps_throw {e : Failure} (he : D.Fails e) : D.Keeps (throw e : Action α) := by
  intro σ hσ
  refine ⟨hσ, D.refl σ, ?_⟩
  intro e' h
  cases h
  exact he

theorem keeps_throw_thrown (v : Value) : D.Keeps (throw (.thrown v) : Action α) :=
  keeps_throw (D.fails _ nofun)

theorem keeps_fault {f : Fault} (hf : f ≠ .invariant .escapedScript) :
    D.Keeps (Action.fault f : Action α) :=
  keeps_throw (D.fails _ fun h ↦ hf (Failure.fault.inj h))

theorem Keeps.bind {m : Action α} {f : α → Action β} (hm : D.Keeps m)
    (hf : ∀ a, D.Keeps (f a)) : D.Keeps (m >>= f) := by
  intro σ hσ
  have hfirst := hm σ hσ
  rw [Action.run_bind]
  rcases hrun : m.run σ with ⟨e | a, σ₁⟩
  · rw [hrun] at hfirst
    refine ⟨hfirst.good, hfirst.step, ?_⟩
    intro e' h
    cases h
    exact hfirst.fails e rfl
  · rw [hrun] at hfirst
    exact (hf a σ₁ hfirst.good).after hfirst.step

theorem Keeps.allows {m : Action α} (hm : D.Keeps m) {σ τ : State} (hσ : D.Good σ)
    {r : Except Failure α} (hrun : m.run σ = (r, τ)) : D.Allows σ (r, τ) :=
  hrun ▸ hm σ hσ

theorem Keeps.map {m : Action α} (hm : D.Keeps m) (f : α → β) : D.Keeps (f <$> m) := by
  rw [← bind_pure_comp]
  exact hm.bind fun a ↦ keeps_pure (f a)

theorem Keeps.discard {m : Action α} (hm : D.Keeps m) : D.Keeps (discard m) := hm.map _

/-- An action whose failure is caught and looked at. -/
theorem Keeps.attempt_bind {m : Action α} {f : Except Failure α → Action β} (hm : D.Keeps m)
    (hf : ∀ r, (∀ e, r = .error e → D.Fails e) → D.Keeps (f r)) :
    D.Keeps (Action.attempt m >>= f) := by
  intro σ hσ
  have hfirst := hm σ hσ
  exact (hf _ hfirst.fails _ hfirst.good).after hfirst.step

theorem keeps_set_bind {f : State → State} {m : State → Action α}
    (hf : ∀ σ, D.Good σ → D.Good (f σ) ∧ D.Step σ (f σ)) (hm : ∀ σ, D.Keeps (m σ)) :
    D.Keeps (do
      let σ ← get
      set (f σ)
      m σ) := by
  intro σ hσ
  obtain ⟨hgood, hstep⟩ := hf σ hσ
  exact (hm σ (f σ) hgood).after hstep

theorem keeps_ofExcept {r : Except Failure α} (hr : ∀ e, r = .error e → D.Fails e) :
    D.Keeps (Action.ofExcept r) :=
  fun σ hσ ↦ ⟨hσ, D.refl σ, hr⟩

theorem keeps_ite {c : Prop} [Decidable c] {m m' : Action α} (hm : D.Keeps m) (hm' : D.Keeps m') :
    D.Keeps (if c then m else m') := by
  split
  · exact hm
  · exact hm'

end Combinators

end Discipline

end Ecma
