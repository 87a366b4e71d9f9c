import Ecma.Proofs.PropertyPatches

/-!
# Kinds of descriptors

A descriptor is made in one of six ways and then edited, one field at a time.
It describes data, an accessor, or neither.  An edit that turns it into data or
into an accessor takes back what it was before, with one exception: an accessor
that is told whether it is writable stays an accessor and counts as data too.
Assigning to a property stored from such a descriptor does not reach its setter.
-/

namespace Ecma

/-! ## Chains of edits -/

/-- The ways to make a descriptor. -/
inductive DescriptorStart where
  | generic
  | data (v : Value) (writable enumerable configurable : Bool)
  | plain (v : Value)
  | accessor (get set : Option Value) (enumerable configurable : Bool)
  | lazy (cell : CellRef) (writable enumerable configurable : Bool)
  | bound (scope : ScopeRef) (name : String) (enumerable configurable : Bool)

/-- The ways to change one. -/
inductive DescriptorEdit where
  | value (v : Value)
  | writable (b : Bool)
  | enumerable (b : Bool)
  | configurable (b : Bool)
  | get (v : Value)
  | set (v : Value)

def DescriptorStart.descriptor : DescriptorStart → Descriptor
  | generic => .generic
  | data v w e c => .data v w e c
  | plain v => .plain v
  | accessor get set e c => .accessor get set e c
  | lazy cell w e c => .lazy cell w e c
  | bound scope name e c => .bound scope name e c

namespace DescriptorEdit

def apply (d : Descriptor) : DescriptorEdit → Descriptor
  | value v => d.withValue v
  | writable b => d.withWritable b
  | enumerable b => d.withEnumerable b
  | configurable b => d.withConfigurable b
  | get v => d.withGet v
  | set v => d.withSet v

/-- The edit sets an attribute and leaves alone what the property holds. -/
def IsAttribute : DescriptorEdit → Prop
  | writable _ | enumerable _ | configurable _ => True
  | value _ | get _ | set _ => False

end DescriptorEdit

def DescriptorStart.build (start : DescriptorStart) (edits : List DescriptorEdit) : Descriptor :=
  edits.foldl DescriptorEdit.apply start.descriptor

/-- An accessor is told whether it is writable, and after that only attributes are set. -/
def DescriptorStart.LeavesWritableAccessor (start : DescriptorStart) (edits : List DescriptorEdit) :
    Prop :=
  ∃ before b after, edits = before ++ .writable b :: after ∧
    (start.build before).isAccessor = true ∧ ∀ e ∈ after, e.IsAttribute

/-! ## One kind or two -/

namespace Descriptor

variable {d : Descriptor}

/-- Exactly one of the three kinds is the descriptor's. -/
def HasOneKind (d : Descriptor) : Prop := [d.isData, d.isAccessor, d.isGeneric].count true = 1

/-- An accessor that says whether it is writable. -/
def IsMixed (d : Descriptor) : Prop := d.isAccessor = true ∧ d.attributes.writable.isSome = true

theorem isData_of_isAccessor (ha : d.isAccessor = true) :
    d.isData = d.attributes.writable.isSome := by
  obtain ⟨a, form⟩ := d
  cases form with
  | accessor get set => rfl
  | _ => cases ha

theorem hasOneKind_iff : d.HasOneKind ↔ ¬d.IsMixed := by
  unfold HasOneKind IsMixed isGeneric
  cases ha : d.isAccessor with
  | false => cases d.isData <;> simp
  | true =>
      rw [isData_of_isAccessor ha]
      cases d.attributes.writable.isSome <;> simp

theorem not_isMixed_descriptor (start : DescriptorStart) : ¬start.descriptor.IsMixed := by
  rintro ⟨ha, hw⟩
  cases start with
  | accessor get set e c => cases hw
  | _ => cases ha

/-- What one edit leaves mixed was mixed before and got an attribute, or it is an accessor that
has just been told whether it is writable. -/
theorem isMixed_apply (d : Descriptor) (e : DescriptorEdit) :
    (e.apply d).IsMixed ↔
      d.IsMixed ∧ e.IsAttribute ∨ d.isAccessor = true ∧ ∃ b, e = .writable b := by
  obtain ⟨a, form⟩ := d
  cases e with
  | value v =>
      simp [DescriptorEdit.apply, DescriptorEdit.IsAttribute, withValue, IsMixed, isAccessor]
  | writable b =>
      have happly : (withWritable ⟨a, form⟩ b).IsMixed ↔ isAccessor ⟨a, form⟩ = true := by
        cases form <;> simp [withWritable, IsMixed, isAccessor]
      rw [DescriptorEdit.apply, happly]
      exact ⟨fun ha ↦ .inr ⟨ha, b, rfl⟩, fun h ↦ h.elim (·.1.1) (·.1)⟩
  | enumerable b =>
      simp [DescriptorEdit.apply, DescriptorEdit.IsAttribute, withEnumerable, IsMixed, isAccessor]
  | configurable b =>
      simp [DescriptorEdit.apply, DescriptorEdit.IsAttribute, withConfigurable, IsMixed, isAccessor]
  | get v => simp [DescriptorEdit.apply, DescriptorEdit.IsAttribute, withGet, IsMixed]
  | set v => simp [DescriptorEdit.apply, DescriptorEdit.IsAttribute, withSet, IsMixed]

theorem isMixed_foldl_apply (d : Descriptor) (edits : List DescriptorEdit) :
    (edits.foldl DescriptorEdit.apply d).IsMixed ↔
      (d.IsMixed ∧ ∀ e ∈ edits, e.IsAttribute) ∨
        ∃ before b after, edits = before ++ .writable b :: after ∧
          (before.foldl DescriptorEdit.apply d).isAccessor = true ∧ ∀ e ∈ after, e.IsAttribute := by
  induction edits generalizing d with
  | nil => simp
  | cons e rest ih =>
      rw [List.foldl_cons, ih, isMixed_apply]
      constructor
      · rintro (⟨⟨hd, he⟩ | ⟨ha, b, rfl⟩, hrest⟩ | ⟨before, b, after, rfl, ha, hafter⟩)
        · exact .inl ⟨hd, List.forall_mem_cons.2 ⟨he, hrest⟩⟩
        · exact .inr ⟨[], b, rest, rfl, ha, hrest⟩
        · exact .inr ⟨e :: before, b, after, rfl, ha, hafter⟩
      · rintro (⟨hd, hall⟩ | ⟨before, b, after, heq, ha, hafter⟩)
        · obtain ⟨he, hrest⟩ := List.forall_mem_cons.1 hall
          exact .inl ⟨.inl ⟨hd, he⟩, hrest⟩
        · cases before with
          | nil =>
              obtain ⟨rfl, rfl⟩ := List.cons.inj heq
              exact .inl ⟨.inr ⟨ha, b, rfl⟩, hafter⟩
          | cons e' before =>
              obtain ⟨rfl, rfl⟩ := List.cons.inj heq
              exact .inr ⟨before, b, after, rfl, ha, hafter⟩

theorem isMixed_build (start : DescriptorStart) (edits : List DescriptorEdit) :
    (start.build edits).IsMixed ↔ start.LeavesWritableAccessor edits := by
  refine (isMixed_foldl_apply start.descriptor edits).trans ⟨fun h ↦ ?_, .inr⟩
  exact h.resolve_left fun hstart ↦ not_isMixed_descriptor start hstart.1

theorem isAccessor_complete (d : Descriptor) : d.complete.isAccessor = d.isAccessor := by
  obtain ⟨a, form⟩ := d
  cases form <;> rfl

theorem writable_complete (ha : d.isAccessor = true) :
    d.complete.attributes.writable = d.attributes.writable := by
  obtain ⟨a, form⟩ := d
  cases form with
  | accessor get set => rfl
  | _ => cases ha

theorem setter?_complete {f : Value} (hf : d.setter? = some f) : d.complete.setter? = some f := by
  obtain ⟨a, form⟩ := d
  cases form with
  | accessor get set =>
      obtain rfl : set = some f := hf
      rfl
  | _ => cases hf

end Descriptor

/-! ## Assigning to an accessor -/

namespace Object

variable {o : ObjectRef} {k : PropertyKey} {d : Descriptor} {σ : State}

theorem run_find_accessor (eng : Engine) (hfuel : eng.fuel ≠ 0) (hown : σ.heap.own? o k = some d)
    (ha : d.isAccessor = true) : (find eng o k).run σ = (.ok (some d), σ) := by
  obtain ⟨a, form⟩ := d
  cases form with
  | accessor get set => rw [run_find_shown eng hown nofun, if_neg hfuel]; rfl
  | _ => cases ha

/-- The setter of an accessor that is no data is called, and what it returns is dropped. -/
theorem run_set_setter (eng : Engine) (hfuel : eng.fuel ≠ 0) (hown : σ.heap.own? o k = some d)
    (ha : d.isAccessor = true) (hd : ¬d.IsMixed) {f : Value} (hf : d.setter? = some f)
    (hcallable : σ.heap.isCallable f = true) (v receiver : Value) :
    (set eng o k v receiver).run σ =
      (eng.call f receiver [v] >>= fun _ ↦ pure true : Action Bool).run σ := by
  have hdata : d.isData = false := by
    rw [Descriptor.isData_of_isAccessor ha]
    exact Bool.eq_false_iff.2 fun hw ↦ hd ⟨ha, hw⟩
  have hcheck : (Action.isCallable f).run σ = (.ok true, σ) := by rw [← hcallable]; rfl
  rw [set, Action.run_bind, run_find_accessor eng hfuel hown ha]
  dsimp only [Option.getD_some]
  rw [if_neg (Bool.eq_false_iff.1 hdata), hf, Option.getD_some, Action.run_bind, hcheck]
  dsimp only
  rw [if_pos rfl, Action.run_bind, Action.run_discard, Action.run_bind]
  rcases (eng.call f receiver [v]).run σ with ⟨_ | _, _⟩ <;> rfl

/-- One that counts as data refuses the value. -/
theorem run_set_mixed (eng : Engine) (hfuel : eng.fuel ≠ 0) (hown : σ.heap.own? o k = some d)
    (hd : d.IsMixed) (v : Value) : (set eng o k v (.object o)).run σ = (.ok false, σ) := by
  obtain ⟨ha, hw⟩ := hd
  have hdata : d.isData = true := by rw [Descriptor.isData_of_isAccessor ha, hw]
  have hform : ∀ c, d.form ≠ .lazy c := by
    intro c hc
    rw [Descriptor.isAccessor, hc] at ha
    cases ha
  rw [set, Action.run_bind, run_find_accessor eng hfuel hown ha]
  dsimp only [Option.getD_some]
  rw [if_pos hdata]
  split
  · rw [setOnReceiver, Action.run_bind, run_getOwn_shown eng hown hform]
    dsimp only
    rw [d.isAccessor_shownIn, ha]
    rfl
  · rfl

/-- A new property of an object that can be extended is stored with its fields completed. -/
theorem run_define_new (eng : Engine) (hown : σ.heap.own? o k = none)
    (hextensible : (σ.heap.object o).isExtensible = true) (patch : Descriptor) :
    (define eng o k patch).run σ =
      (.ok true, { σ with heap := σ.heap.modifyObject o (·.store k patch.complete) }) := by
  rw [run_define, run_getOwn_none eng hown]
  dsimp only
  rw [if_pos hextensible]

end Object

/-- Storing a property makes nothing callable and takes this from nothing. -/
theorem Heap.isCallable_store {h : Heap} {o : ObjectRef} (ho : o.index < h.objects.size)
    (k : PropertyKey) (d : Descriptor) (f : Value) :
    (h.modifyObject o (·.store k d)).isCallable f = h.isCallable f := by
  cases f with
  | object p =>
      simp only [isCallable, Object.isCallable]
      by_cases hp : p = o
      · rw [hp, object_modifyObject_self ho, Object.callable_store]
      · rw [object_modifyObject_of_ne h hp]
  | _ => rfl

/-- However a descriptor is made and edited, it has exactly one kind unless it is left an accessor
that has been told whether it is writable.  With one kind, an accessor with a setter that can be
called may be defined as a new property of an extensible object, and for as long as it stays there
an assignment calls the setter. -/
theorem descriptor_kinds_are_exclusive (start : DescriptorStart) (edits : List DescriptorEdit) :
    ((start.build edits).HasOneKind ↔ ¬start.LeavesWritableAccessor edits) ∧
    ∀ (eng : Engine) (σ : State) (o : ObjectRef) (k : PropertyKey) (f : Value),
      (start.build edits).HasOneKind → (start.build edits).isAccessor = true →
      (start.build edits).setter? = some f → σ.heap.isCallable f = true →
      σ.heap.IsStored → o.index < σ.heap.objects.size → σ.heap.own? o k = none →
      (σ.heap.object o).isExtensible = true →
      ∃ ρ, (Object.define eng o k (start.build edits)).run σ = (.ok true, ρ) ∧
        σ.Stores o k (start.build edits).complete ρ ∧ ρ.heap.isCallable f = true ∧
        ∀ (later : State), later.heap.own? o k = ρ.heap.own? o k →
          later.heap.isCallable f = true → ∀ (eng' : Engine) (v receiver : Value), eng'.fuel ≠ 0 →
            (Object.set eng' o k v receiver).run later =
              (eng'.call f receiver [v] >>= fun _ ↦ pure true : Action Bool).run later := by
  refine ⟨Descriptor.hasOneKind_iff.trans (not_congr (Descriptor.isMixed_build start edits)), ?_⟩
  intro eng σ o k f hone ha hf hcallable hσ ho hown hextensible
  have hstores := State.stores_store hσ ho k (start.build edits).complete
  refine ⟨_, Object.run_define_new eng hown hextensible _, hstores, ?_, ?_⟩
  · rw [Heap.isCallable_store ho, hcallable]
  · intro later hlater hcallable' eng' v receiver hfuel
    have hmixed : ¬(start.build edits).complete.IsMixed := by
      rw [Descriptor.IsMixed, Descriptor.isAccessor_complete, Descriptor.writable_complete ha]
      exact Descriptor.hasOneKind_iff.1 hone
    exact Object.run_set_setter eng' hfuel (hlater.trans hstores.own)
      ((Descriptor.isAccessor_complete _).trans ha) hmixed (Descriptor.setter?_complete hf)
      hcallable' v receiver

/-- The prototype of functions as the setter of a new property, made an accessor and then data and
then an accessor again. -/
theorem descriptor_kinds_are_exclusive_edited :
    let σ := State.initial .standard
    let g := σ.realm.globalObject
    let f : Value := .object σ.realm.functionPrototype
    let edits : List DescriptorEdit :=
      [.set f, .writable true, .value f, .set f, .enumerable true]
    (DescriptorStart.generic.build edits).HasOneKind ∧
      ∃ ρ, (Object.define (.level 9) g (.ofString "x")
          (DescriptorStart.generic.build edits)).run σ = (.ok true, ρ) ∧
        ∀ v, (Object.set (.level 9) g (.ofString "x") v (.object g)).run ρ =
          (do
            let _ ← Function.call (.level 8) f (.object g) [v]
            return true : Action Bool).run ρ := by
  intro σ g f edits
  have hσ : σ.heap.IsStored :=
    Heap.AllConform.of_grows Heap.allConform_empty (fun _ _ ↦ trivial) (Realm.grows_build _ _)
  have hone : (DescriptorStart.generic.build edits).HasOneKind := rfl
  obtain ⟨ρ, hrun, -, hcallable, hset⟩ :=
    (descriptor_kinds_are_exclusive .generic edits).2 (.level 9) σ g (.ofString "x") f hone rfl rfl
      rfl hσ (by decide) (by decide) rfl
  exact ⟨hone, ρ, hrun, fun v ↦ hset ρ rfl hcallable (.level 9) v (.object g) (by decide)⟩

/-- A setter that is told to be writable makes the descriptor data and an accessor at once; the
property is defined, and an assignment to it is refused without a call of the setter. -/
theorem writable_accessor_has_two_kinds :
    let σ := State.initial .standard
    let g := σ.realm.globalObject
    let f : Value := .object σ.realm.functionPrototype
    let d := DescriptorStart.generic.build [.set f, .writable true]
    d.isData = true ∧ d.isAccessor = true ∧ d.setter? = some f ∧ σ.heap.isCallable f = true ∧
      ¬d.HasOneKind ∧
      ∃ ρ, (Object.define (.level 9) g (.ofString "x") d).run σ = (.ok true, ρ) ∧
        (Object.set (.level 9) g (.ofString "x") .null (.object g)).run ρ = (.ok false, ρ) ∧
        (Function.call (.level 8) f (.object g) [.null] >>= fun _ ↦ pure true : Action Bool).run ρ ≠
          (.ok false, ρ) := by
  intro σ g f d
  have hσ : σ.heap.IsStored :=
    Heap.AllConform.of_grows Heap.allConform_empty (fun _ _ ↦ trivial) (Realm.grows_build _ _)
  have hmixed : d.IsMixed := ⟨rfl, rfl⟩
  have ho : g.index < σ.heap.objects.size := by decide
  have hstores := State.stores_store hσ ho (.ofString "x") d.complete
  refine ⟨rfl, rfl, rfl, rfl, fun hone ↦ Descriptor.hasOneKind_iff.1 hone hmixed, _,
    Object.run_define_new _ (by decide) rfl d, ?_, ?_⟩
  · exact Object.run_set_mixed _ (by decide) hstores.own ⟨rfl, rfl⟩ .null
  · rw [Action.run_bind]
    rcases (Function.call (.level 8) f (.object g) [.null]).run _ with ⟨e | a, τ⟩
    · nofun
    · nofun

end Ecma
