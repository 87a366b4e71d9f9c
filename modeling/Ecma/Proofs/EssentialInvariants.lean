import Ecma.Proofs.Discipline.Engine
import Ecma.Proofs.OwnPropertyRuns

/-!
# The essential invariants of objects

Whatever operations are done on objects, one after another, an object that is
not extensible stays so and gains nothing, and a property that is not
configurable keeps what it must keep.  Accessors run scripts and resolvers read
other properties on the way, so the argument is about all that an engine does:
the evolution of heaps is a discipline, and only what touches the properties of
an object needs a proof of its own.
-/

namespace Ecma

/-! ## Changes of one object -/

namespace Object.Evolves

variable {h : Heap} {o₀ o : Object} {k : PropertyKey}

/-- Storing a property, seen from before other changes. -/
theorem store (hev : o₀.Evolves h o) (hvalid : o.Valid) {d : Descriptor}
    (hold : o₀.isExtensible = false → o₀.own? k ≠ none)
    (hd : ∀ d₀, o₀.own? k = some d₀ → d₀.isConfigurable = false → d₀.Persists h d) :
    o₀.Evolves h (o.store k d) where
  extensible hx := by simpa using hev.extensible hx
  prototype hx := by simpa using hev.prototype hx
  absent hx k' hk' := by
    rw [hvalid.own?_store]
    split
    next hsame =>
      rw [own?_congr hsame] at hold
      exact absurd hk' (hold hx)
    next => exact hev.absent hx k' hk'
  own k' d₀ hd₀ hc := by
    rw [hvalid.own?_store]
    split
    next hsame =>
      rw [← own?_congr hsame] at hd₀
      exact ⟨d, rfl, hd d₀ hd₀ hc⟩
    next => exact hev.own k' d₀ hd₀ hc

theorem modify (hvalid : o.Valid) {f : Descriptor → Descriptor}
    (hf : ∀ d : Descriptor, d.isConfigurable = false → d.Persists h (f d)) :
    o.Evolves h (o.modify k f) where
  extensible hx := by simpa using hx
  prototype _ := by simp
  absent _ k' hk' := by
    rw [hvalid.own?_modify, hk']
    split <;> rfl
  own k' d hd hc := by
    rw [hvalid.own?_modify, hd]
    split
    · exact ⟨f d, rfl, hf d hc⟩
    · exact ⟨d, rfl, Descriptor.persists_refl h hc⟩

theorem remove (hvalid : o.Valid) (hk : ∀ d, o.own? k = some d → d.isConfigurable = true) :
    o.Evolves h (o.remove k) where
  extensible hx := by simpa using hx
  prototype _ := by simp
  absent _ k' hk' := by
    rw [hvalid.own?_remove, hk']
    split <;> rfl
  own k' d hd hc := by
    rw [hvalid.own?_remove]
    split
    next hsame =>
      rw [← own?_congr hsame] at hd
      simp [hk d hd] at hc
    next => exact ⟨d, hd, Descriptor.persists_refl h hc⟩

end Object.Evolves

/-! ## The discipline -/

/-- Host programs that define properties by ordinary patches. -/
def ordinaryHost : HostContract := ⟨fun _ ↦ True, Descriptor.IsOrdinary⟩

namespace Heap

/-- The objects are built by operations, bound properties are writable, and the
functions of the host are ordinary. -/
def IsRegular (h : Heap) : Prop :=
  ∀ o : ObjectRef, o.index < h.objects.size →
    (h.object o).Conforms Descriptor.IsSettled ordinaryHost

theorem IsRegular.of_eq {h h' : Heap} (hh : h.IsRegular) (hobjects : h'.objects = h.objects) :
    h'.IsRegular :=
  AllConform.of_objects hh hobjects

theorem isRegular_empty : Heap.empty.IsRegular := allConform_empty

theorem IsRegular.of_grows {h h' : Heap} (hh : h.IsRegular)
    (hg : h.Grows ordinaryHost h') : h'.IsRegular :=
  AllConform.of_grows hh (fun _ hd ↦ hd.isSettled) hg

theorem IsRegular.modifyObject {h : Heap} (hh : h.IsRegular) (o : ObjectRef) {f : Object → Object}
    (hf : ∀ data : Object, data.Conforms Descriptor.IsSettled ordinaryHost →
      (f data).Conforms Descriptor.IsSettled ordinaryHost) : (h.modifyObject o f).IsRegular :=
  AllConform.modifyObject hh o hf

end Heap

/-- Regular heaps that evolve; anything may fail. -/
def evolution : Discipline where
  toHostContract := ordinaryHost
  Good σ := σ.heap.IsRegular
  Step σ σ' := σ.heap.Evolves σ'.heap
  refl σ := σ.heap.evolves_refl
  trans h h' := h.trans h'
  fails _ _ := trivial
  patches _ hd := hd.isOrdinary

namespace evolution

theorem base : evolution.Base where
  quiet _ _ hobjects hcells _ hσ :=
    ⟨Heap.IsRegular.of_eq hσ hobjects, Heap.evolves_of_eq hobjects hcells⟩
  grows _ _ hg _ hσ := ⟨Heap.IsRegular.of_grows hσ hg, hg.evolves⟩
  deepen _ hσ := hσ
  surface _ _ _ hτ hstep := ⟨hτ, hstep⟩
  beside σ hσ := Heap.IsRegular.of_grows hσ (Realm.grows_build _ σ.heap)
  resume σ τ _ hτ hstep := by
    have hbuild : σ.heap.Grows ordinaryHost σ.beside.heap := Realm.grows_build _ σ.heap
    exact ⟨hτ, hbuild.evolves.trans hstep⟩
  callable _ _ _ hσ hf := Heap.AllConform.callable hσ hf

/-! ## Reading own properties -/

theorem keeps_memoize {o : ObjectRef} {k : PropertyKey} {c : CellRef} {v : Value} {σ : State}
    (hσ : σ.heap.IsRegular) (hc : σ.heap.cell c = .resolved v) :
    (σ.heap.modifyObject o (Object.memoize k c v)).IsRegular ∧
      σ.heap.Evolves (σ.heap.modifyObject o (Object.memoize k c v)) := by
  constructor
  · exact hσ.modifyObject o fun _ hdata ↦ hdata.modify k fun _ hd ↦ hd.resolveCell c v
  · refine σ.heap.evolves_refl.modifyObject o fun ho ↦ ?_
    exact Object.Evolves.modify (hσ o ho).valid fun _ hd ↦ Descriptor.persists_resolveCell hc hd

section Reading

variable {eng : Engine} (heng : evolution.Holds eng)

include heng

theorem keeps_resolve (c : CellRef) (key : String) : evolution.Keeps (Lazy.resolve eng c key) := by
  intro σ hσ
  rw [Lazy.run_resolve]
  split
  · exact Discipline.allows_ok hσ _
  · exact ⟨hσ, σ.heap.evolves_refl, fun _ _ ↦ trivial⟩
  next r hc =>
    have hmark : σ.heap.Evolves (σ.marking c).heap := Heap.evolves_setCell_resolving hc
    have hsteps := Discipline.keeps_runSteps base heng r.steps (σ.marking c) hσ
    split
    next τ hrun =>
      rw [hrun] at hsteps
      exact ⟨hsteps.good, Heap.Evolves.setCell_resolved hc hsteps.step, fun _ _ ↦ trivial⟩
    next e τ hrun =>
      rw [hrun] at hsteps
      exact ⟨hsteps.good, hmark.trans hsteps.step, fun _ _ ↦ trivial⟩

/-- A cell that yields a value is there, and holds the value from then on. -/
theorem cell_of_run_resolve {c : CellRef} {key : String} {σ σ' : State} {v : Value}
    (hσ : σ.heap.IsRegular) (hrun : (Lazy.resolve eng c key).run σ = (.ok v, σ')) :
    c.index < σ.heap.cells.size ∧ σ'.heap.cell c = .resolved v := by
  rw [Lazy.run_resolve] at hrun
  split at hrun
  next hc =>
    cases hrun
    exact ⟨Heap.lt_of_cell_ne_resolving (by simp [hc]), hc⟩
  next => cases hrun
  next r hc =>
    have hlt : c.index < σ.heap.cells.size := Heap.lt_of_cell_ne_resolving (by simp [hc])
    have hsteps := Discipline.keeps_runSteps base heng r.steps (σ.marking c) hσ
    split at hrun
    next τ hrun' =>
      rw [hrun'] at hsteps
      have hsize : σ.heap.cells.size ≤ τ.heap.cells.size := by
        simpa [State.marking] using hsteps.step.cells.size_le
      cases hrun
      exact ⟨hlt, Heap.cell_setCell_self (Nat.lt_of_lt_of_le hlt hsize) _⟩
    next => cases hrun

theorem keeps_getOwn (o : ObjectRef) (k : PropertyKey) :
    evolution.Keeps (Object.getOwn eng o k) := by
  intro σ hσ
  rw [Object.run_getOwn]
  split
  · exact Discipline.allows_ok hσ _
  next a c hown =>
    have hresolve := keeps_resolve heng c k.display σ hσ
    split
    next v τ hrun =>
      rw [hrun] at hresolve
      obtain ⟨hgood, hstep⟩ := keeps_memoize hresolve.good (cell_of_run_resolve heng hσ hrun).2
      exact ⟨hgood, hresolve.step.trans hstep, fun _ _ ↦ trivial⟩
    next e τ hrun =>
      rw [hrun] at hresolve
      exact ⟨hresolve.good, hresolve.step, fun _ _ ↦ trivial⟩
  · exact Discipline.allows_ok hσ _
  · exact Discipline.allows_ok hσ _

/-- What reading an own property gives. -/
theorem shownAs_of_run_getOwn {o : ObjectRef} {k : PropertyKey} {σ σ' : State}
    {found : Option Descriptor} (hσ : σ.heap.IsRegular)
    (hrun : (Object.getOwn eng o k).run σ = (.ok found, σ')) :
    (σ.heap.own? o k = none ∧ found = none ∧ σ' = σ) ∨
      ∃ d shown, σ.heap.own? o k = some d ∧ found = some shown ∧ d.ShownAs σ'.heap shown ∧
        ∀ c, d.form = .lazy c → c.index < σ.heap.cells.size := by
  rw [Object.run_getOwn] at hrun
  split at hrun
  next hown =>
    cases hrun
    exact .inl ⟨hown, rfl, rfl⟩
  next a c hown =>
    split at hrun
    next v τ hresolve =>
      obtain ⟨hlt, hc⟩ := cell_of_run_resolve heng hσ hresolve
      have hc' : (τ.heap.modifyObject o (Object.memoize k c v)).cell c = .resolved v := hc
      cases hrun
      refine .inr ⟨_, _, hown, rfl, Descriptor.shownAs_lazy hc' a, ?_⟩
      intro c' hform
      cases hform
      exact hlt
    next => cases hrun
  next a scope name hown =>
    cases hrun
    exact .inr ⟨_, _, hown, rfl, Descriptor.shownAs_bound _ a scope name _, nofun⟩
  next d hlazy hbound hown =>
    cases hrun
    have hordinary : d.IsOrdinary := by
      obtain ⟨a, form⟩ := d
      cases form with
      | lazy c => exact hlazy a c rfl
      | bound scope name => exact hbound a scope name rfl
      | _ => trivial
    refine .inr ⟨d, d, hown, rfl, Descriptor.shownAs_self _ hordinary, ?_⟩
    intro c hform
    rw [Descriptor.IsOrdinary, hform] at hordinary
    exact hordinary.elim

end Reading

/-! ## Changing own properties -/

/-- Storing what a permitted patch makes of a property.  The property is looked
at from before it was read: a resolver may have changed it since. -/
theorem keeps_store_patched {o : ObjectRef} {k : PropertyKey} {d shown patch : Descriptor}
    {form : PropertyForm} {h h' : Heap} (hh : h.IsRegular) (hh' : h'.IsRegular)
    (hev : h.Evolves h') (hown : h.own? o k = some d) (hshown : d.ShownAs h' shown)
    (hpatch : patch.IsOrdinary) (hpermits : shown.permits patch = true)
    (hform : (shown.patched patch).StoredAs form) :
    (h'.modifyObject o (·.store k ⟨(shown.patched patch).attributes, form⟩)).IsRegular ∧
      h.Evolves (h'.modifyObject o (·.store k ⟨(shown.patched patch).attributes, form⟩)) := by
  have hd : d.IsSettled := (hh o (Heap.lt_of_own? hown)).own k d hown
  have hnew := (hshown.isSettled hd).patched
    (Descriptor.isOrdinary_patched hshown.ordinary hpatch).ne_bound
  constructor
  · exact hh'.modifyObject o fun _ hdata ↦ hdata.store k (hform.isSettled hnew)
  · refine hev.modifyObject o fun ho ↦ ?_
    have hvalid := (hh' o (Nat.lt_of_lt_of_le ho hev.objects_le)).valid
    refine (hev.object o ho).store hvalid (fun _ hnone ↦ ?_) ?_
    · rw [Heap.own?, hnone] at hown
      cases hown
    · intro d₀ hd₀ hc
      have heq : d₀ = d := Option.some.inj (hd₀.symm.trans hown)
      subst heq
      have hshows : h'.ShowsMore h' := fun _ _ hv ↦ hv
      have hread := hshown.persists hd.bound hc
      have hpatched := Descriptor.persists_patched h' hshown.ordinary hpatch
        hread.configurable hpermits
      have hstored := hform.persists h' hnew hpatched.configurable
      exact (hread.trans hshows hpatched).trans hshows hstored

/-- A new property needs an object that is extensible. -/
theorem keeps_store_new {o : ObjectRef} {k : PropertyKey} {d : Descriptor} {h : Heap}
    (hh : h.IsRegular) (hown : h.own? o k = none) (hx : (h.object o).isExtensible = true)
    (hd : d.IsSettled) :
    (h.modifyObject o (·.store k d)).IsRegular ∧ h.Evolves (h.modifyObject o (·.store k d)) := by
  constructor
  · exact hh.modifyObject o fun _ hdata ↦ hdata.store k hd
  · refine h.evolves_refl.modifyObject o fun ho ↦ ?_
    refine (Object.evolves_refl h _).store (hh o ho).valid ?_ ?_
    · simp [hx]
    · intro d₀ hd₀
      rw [Heap.own?, hd₀] at hown
      cases hown

theorem keeps_define {eng : Engine} (heng : evolution.Holds eng) (o : ObjectRef) (k : PropertyKey)
    {patch : Descriptor} (hpatch : patch.IsOrdinary) :
    evolution.Keeps (Object.define eng o k patch) := by
  intro σ hσ
  have hread := keeps_getOwn heng o k σ hσ
  rw [Object.run_define]
  rcases hrun : (Object.getOwn eng o k).run σ with ⟨e | found, τ⟩
  · rw [hrun] at hread
    exact ⟨hread.good, hread.step, fun _ _ ↦ trivial⟩
  rw [hrun] at hread
  rcases shownAs_of_run_getOwn heng hσ hrun with ⟨hown, rfl, rfl⟩ |
    ⟨d, shown, hown, rfl, hshown, -⟩
  · dsimp only
    split
    next hx =>
      obtain ⟨hgood, hstep⟩ := keeps_store_new hσ hown hx
        (Descriptor.isSettled_complete hpatch.ne_bound)
      exact ⟨hgood, hstep, fun _ _ ↦ trivial⟩
    next => exact Discipline.allows_ok hσ _
  · dsimp only
    split
    next hpermits =>
      obtain ⟨form, heap, hstore, hpasses, hstored, -⟩ :=
        Object.run_storePatched o k patch (shown.patched patch) τ
      have hquiet := Heap.evolves_of_eq hpasses.objects hpasses.cells
      have hshown' := hshown.later hquiet.cells.showsMore
      obtain ⟨hgood, hstep⟩ := keeps_store_patched hσ (hread.good.of_eq hpasses.objects)
        (hread.step.trans hquiet) hown hshown' hpatch hpermits hstored
      rw [hstore]
      exact ⟨hgood, hstep, fun _ _ ↦ trivial⟩
    next => exact ⟨hread.good, hread.step, fun _ _ ↦ trivial⟩

theorem keeps_delete (o : ObjectRef) (k : PropertyKey) : evolution.Keeps (Object.delete o k) := by
  intro σ hσ
  rw [Object.run_delete]
  split
  next => exact Discipline.allows_ok hσ _
  next d hown =>
    split
    next hc =>
      have hgood : (σ.heap.modifyObject o (·.remove k)).IsRegular :=
        hσ.modifyObject o fun _ hdata ↦ hdata.remove k
      have hstep : σ.heap.Evolves (σ.heap.modifyObject o (·.remove k)) := by
        refine σ.heap.evolves_refl.modifyObject o fun ho ↦ ?_
        apply Object.Evolves.remove (hσ o ho).valid
        intro d' hd'
        have heq : d' = d := Option.some.inj (hd'.symm.trans hown)
        exact heq ▸ hc
      exact ⟨hgood, hstep, fun _ _ ↦ trivial⟩
    next => exact Discipline.allows_ok hσ _

/-! ## Prototype and extensibility -/

theorem keeps_setPrototype (o : ObjectRef) (prototype : Option ObjectRef) :
    evolution.Keeps (Object.setPrototype o prototype) := by
  intro σ hσ
  rw [Object.setPrototype, Action.run_bind, Action.run_heap]
  dsimp only
  split
  · exact Discipline.allows_ok hσ _
  split
  · exact Discipline.allows_ok hσ _
  next hx =>
    split
    · exact Discipline.allows_ok hσ _
    · have hgood : (σ.heap.modifyObject o fun data ↦ { data with prototype }).IsRegular :=
        hσ.modifyObject o fun _ hdata ↦
          ⟨⟨hdata.valid.strings, hdata.valid.symbols⟩, hdata.own, hdata.callable⟩
      have hstep : σ.heap.Evolves (σ.heap.modifyObject o fun data ↦ { data with prototype }) := by
        refine σ.heap.evolves_refl.modifyObject o fun _ ↦ ?_
        have hself := Object.evolves_refl σ.heap (σ.heap.object o)
        exact ⟨hself.extensible, fun hx' ↦ absurd hx' (by simpa using hx), hself.absent, hself.own⟩
      exact ⟨hgood, hstep, fun _ _ ↦ trivial⟩

theorem keeps_preventExtensions (o : ObjectRef) :
    evolution.Keeps (Object.preventExtensions o) := by
  intro σ hσ
  have hgood : (σ.heap.modifyObject o fun data ↦ { data with isExtensible := false }).IsRegular :=
    hσ.modifyObject o fun _ hdata ↦
      ⟨⟨hdata.valid.strings, hdata.valid.symbols⟩, hdata.own, hdata.callable⟩
  have hstep : σ.heap.Evolves
      (σ.heap.modifyObject o fun data ↦ { data with isExtensible := false }) := by
    refine σ.heap.evolves_refl.modifyObject o fun _ ↦ ?_
    have hself := Object.evolves_refl σ.heap (σ.heap.object o)
    exact ⟨fun _ ↦ rfl, hself.prototype, hself.absent, hself.own⟩
  exact ⟨hgood, hstep, fun _ _ ↦ trivial⟩

theorem lawful : evolution.Lawful :=
  { base with
    getOwn := fun _ heng o k ↦ keeps_getOwn heng o k
    define := fun _ heng o k _ hpatch ↦ keeps_define heng o k hpatch
    delete := keeps_delete
    setPrototype := keeps_setPrototype
    preventExtensions := keeps_preventExtensions }

/-! ## Values read at two moments -/

section Reads

variable {eng eng' : Engine} (heng : evolution.Holds eng) (heng' : evolution.Holds eng')
  {σ σ' τ τ' : State} (hσ : σ.heap.IsRegular) (hσ' : σ'.heap.IsRegular)
  {o : ObjectRef} {k : PropertyKey} {d : Descriptor}

include heng hσ

/-- A property that has a value of its own is found where it stands. -/
theorem run_getOwn_of_run_get {receiver v : Value} (hown : σ.heap.own? o k = some d)
    (ha : d.isAccessor = false) (hrun : (Object.get eng o k receiver).run σ = (.ok v, τ)) :
    ∃ shown, (Object.getOwn eng o k).run σ = (.ok (some shown), τ) ∧
      v = shown.value?.getD .undefined := by
  unfold Object.get Object.find at hrun
  rw [Action.run_bind] at hrun
  cases hfuel : eng.fuel with
  | zero => simp [hfuel, Object.findFrom] at hrun
  | succ n =>
      rw [hfuel, Object.findFrom, Action.run_bind] at hrun
      rcases hread : (Object.getOwn eng o k).run σ with ⟨e | found, τ₁⟩
      · rw [hread] at hrun
        cases hrun
      · rw [hread] at hrun
        rcases shownAs_of_run_getOwn heng hσ hread with ⟨hnone, -, -⟩ |
          ⟨d', shown, hown', rfl, hshown, -⟩
        · rw [hown] at hnone
          cases hnone
        · have heq : d' = d := Option.some.inj (hown'.symm.trans hown)
          have haccessor : shown.isAccessor = false := by rw [hshown.accessor, heq, ha]
          change Action.run (if shown.isAccessor = true then _ else _) τ₁ = _ at hrun
          rw [if_neg (by simp [haccessor])] at hrun
          cases hrun
          exact ⟨shown, rfl, rfl⟩

include heng' hσ'

/-- A property that is neither configurable nor writable reads the same for ever. -/
theorem sameValue_of_run_getOwn {shown shown' : Descriptor} (hev : σ.heap.Evolves σ'.heap)
    (ho : o.index < σ.heap.objects.size) (hown : σ.heap.own? o k = some d)
    (hc : d.isConfigurable = false) (ha : d.isAccessor = false) (hw : d.isWritable = false)
    (hrun : (Object.getOwn eng o k).run σ = (.ok (some shown), τ))
    (hrun' : (Object.getOwn eng' o k).run σ' = (.ok (some shown'), τ')) :
    (shown.value?.getD .undefined).sameValue (shown'.value?.getD .undefined) = true := by
  obtain ⟨d', hown', hpersists⟩ := (hev.object o ho).own k d hown hc
  have ho' := Nat.lt_of_lt_of_le ho hev.objects_le
  have hbound {h : Heap} {d : Descriptor} (hh : h.IsRegular) (ho : o.index < h.objects.size)
      (hown : h.own? o k = some d) (hw : d.isWritable = false) (scope : ScopeRef)
      (name : String) : d.form ≠ .bound scope name := by
    intro hform
    rw [((hh o ho).own k d hown).bound scope name hform] at hw
    cases hw
  have hread := keeps_getOwn heng o k σ hσ
  have hread' := keeps_getOwn heng' o k σ' hσ'
  rw [hrun] at hread
  rw [hrun'] at hread'
  rcases shownAs_of_run_getOwn heng hσ hrun with ⟨hnone, -, -⟩ | ⟨e, w, he, hfound, hshown, hlazy⟩
  · rw [hown] at hnone
    cases hnone
  rcases shownAs_of_run_getOwn heng' hσ' hrun' with ⟨hnone, -, -⟩ |
    ⟨e', w', he', hfound', hshown', -⟩
  · rw [Heap.own?, hown'] at hnone
    cases hnone
  cases hfound
  cases hfound'
  cases Option.some.inj (he.symm.trans hown)
  cases Option.some.inj (he'.symm.trans hown')
  have hv := hshown.value ha (hbound hσ ho hown hw)
  have hv' := hshown'.value (hpersists.accessor.trans ha)
    (hbound hσ' ho' hown' (hpersists.writable ha hw))
  rcases hpersists.value ha hw with hform | ⟨u, w, hu, hplain, hsame⟩
  · rw [hform] at hv'
    have heq := Heap.shown?_unique hread.step.cells (hev.cells.trans hread'.step.cells) hlazy hv hv'
    rw [heq]
    exact Value.sameValue_refl _
  · have heq := Heap.shown?_unique hread.step.cells hev.cells hlazy hv hu
    have heq' := Option.some.inj ((τ'.heap.shown?_of_plain? hplain).symm.trans hv')
    rw [heq, ← heq']
    exact hsame

end Reads

end evolution

/-! ## Sequences of operations -/

inductive ObjectOperation where
  | define (o : ObjectRef) (k : PropertyKey) (patch : Descriptor)
  | createData (o : ObjectRef) (k : PropertyKey) (v : Value)
  | set (o : ObjectRef) (k : PropertyKey) (v receiver : Value)
  | delete (o : ObjectRef) (k : PropertyKey)
  | getOwn (o : ObjectRef) (k : PropertyKey)
  | get (o : ObjectRef) (k : PropertyKey) (receiver : Value)
  | setPrototype (o : ObjectRef) (prototype : Option ObjectRef)
  | preventExtensions (o : ObjectRef)

namespace ObjectOperation

def perform (eng : Engine) : ObjectOperation → Action Unit
  | .define o k patch => discard (Object.define eng o k patch)
  | .createData o k v => discard (Object.createData eng o k v)
  | .set o k v receiver => discard (Object.set eng o k v receiver)
  | .delete o k => discard (Object.delete o k)
  | .getOwn o k => discard (Object.getOwn eng o k)
  | .get o k receiver => discard (Object.get eng o k receiver)
  | .setPrototype o prototype => discard (Object.setPrototype o prototype)
  | .preventExtensions o => discard (Object.preventExtensions o)

/-- Properties are defined by ordinary patches only. -/
def IsOrdinary : ObjectOperation → Prop
  | .define _ _ patch => patch.IsOrdinary
  | _ => True

/-- The state after the operations are done in turn.  One that fails leaves its
state to the next. -/
def runAll (eng : Engine) (ops : List ObjectOperation) (σ : State) : State :=
  ops.foldl (fun σ op ↦ ((op.perform eng).run σ).2) σ

theorem runAll_append (eng : Engine) (before after : List ObjectOperation) (σ : State) :
    runAll eng (before ++ after) σ = runAll eng after (runAll eng before σ) :=
  List.foldl_append

section Keeps

variable {D : Discipline} {eng : Engine} (hG : D.Governs eng)
  (hpatches : ∀ d : Descriptor, d.IsOrdinary → D.Patches d)

include hG hpatches

theorem keeps_perform {op : ObjectOperation} (hop : op.IsOrdinary) : D.Keeps (op.perform eng) := by
  cases op with
  | define o k patch => exact (hG.keeps_define o k (hpatches patch hop)).discard
  | createData o k v => exact (hG.keeps_createData o k v).discard
  | set o k v receiver => exact (hG.keeps_set o k v receiver).discard
  | delete o k => exact (hG.delete o k).discard
  | getOwn o k => exact (hG.keeps_getOwn o k).discard
  | get o k receiver => exact (hG.keeps_get o k receiver).discard
  | setPrototype o prototype => exact (hG.setPrototype o prototype).discard
  | preventExtensions o => exact (hG.preventExtensions o).discard

theorem keeps_runAll {ops : List ObjectOperation} (hops : ∀ op ∈ ops, op.IsOrdinary) {σ : State}
    (hσ : D.Good σ) :
    D.Good (runAll eng ops σ) ∧ D.Step σ (runAll eng ops σ) := by
  induction ops generalizing σ with
  | nil => exact ⟨hσ, D.refl σ⟩
  | cons op rest ih =>
      have hfirst := keeps_perform hG hpatches (hops op List.mem_cons_self) σ hσ
      have hrest : ∀ op ∈ rest, op.IsOrdinary := fun op h ↦ hops op (List.mem_cons_of_mem _ h)
      obtain ⟨hgood, hstep⟩ := ih hrest hfirst.good
      exact ⟨hgood, D.trans hfirst.step hstep⟩

end Keeps

end ObjectOperation

/-- What holds of an object at two moments of a run. -/
structure EssentialInvariants (o : ObjectRef) (σ σ' : State) : Prop where
  /-- An object that is not extensible stays so, keeps its prototype and gains no key. -/
  extensible : (σ.heap.object o).isExtensible = false →
    (σ'.heap.object o).isExtensible = false ∧
      (σ'.heap.object o).prototype = (σ.heap.object o).prototype ∧
      ∀ k, (σ'.heap.object o).hasOwn k = true → (σ.heap.object o).hasOwn k = true
  /-- A property that is not configurable stays, as it is and of its kind. -/
  configurable : ∀ k d, σ.heap.own? o k = some d → d.isConfigurable = false →
    ∃ d', σ'.heap.own? o k = some d' ∧ d'.isConfigurable = false ∧
      d'.isEnumerable = d.isEnumerable ∧ d'.isAccessor = d.isAccessor
  /-- If it is an accessor, it keeps its functions. -/
  accessor : ∀ k d d', σ.heap.own? o k = some d → σ'.heap.own? o k = some d' →
    d.isConfigurable = false → d.isAccessor = true →
    (d.getter?.getD .undefined).sameValue (d'.getter?.getD .undefined) = true ∧
      (d.setter?.getD .undefined).sameValue (d'.setter?.getD .undefined) = true
  /-- If it is not writable, it does not become so. -/
  writable : ∀ k d d', σ.heap.own? o k = some d → σ'.heap.own? o k = some d' →
    d.isConfigurable = false → d.isAccessor = false → d.isWritable = false →
    d'.isWritable = false
  /-- And what is read of it is always the same. -/
  shown : ∀ k d, σ.heap.own? o k = some d → d.isConfigurable = false → d.isAccessor = false →
    d.isWritable = false → ∀ m n shown shown' τ τ',
    (Object.getOwn (.level m) o k).run σ = (.ok (some shown), τ) →
    (Object.getOwn (.level n) o k).run σ' = (.ok (some shown'), τ') →
    (shown.value?.getD .undefined).sameValue (shown'.value?.getD .undefined) = true
  value : ∀ k d, σ.heap.own? o k = some d → d.isConfigurable = false → d.isAccessor = false →
    d.isWritable = false → ∀ m n receiver receiver' v v' τ τ',
    (Object.get (.level m) o k receiver).run σ = (.ok v, τ) →
    (Object.get (.level n) o k receiver').run σ' = (.ok v', τ') → v.sameValue v' = true

theorem essentialInvariants_of_evolves {σ σ' : State} (hσ : σ.heap.IsRegular)
    (hσ' : σ'.heap.IsRegular) (hev : σ.heap.Evolves σ'.heap) {o : ObjectRef}
    (ho : o.index < σ.heap.objects.size) : EssentialInvariants o σ σ' := by
  have hobject := hev.object o ho
  have hholds (n : Nat) : evolution.Holds (.level n) := (evolution.lawful.governs_level n).toHolds
  have hpersists {k : PropertyKey} {d d' : Descriptor} (hown : σ.heap.own? o k = some d)
      (hown' : σ'.heap.own? o k = some d') (hc : d.isConfigurable = false) :
      d.Persists σ'.heap d' := by
    obtain ⟨e, he, hp⟩ := hobject.own k d hown hc
    cases Option.some.inj (he.symm.trans hown')
    exact hp
  refine ⟨?_, ?_, ?_, ?_, ?_, ?_⟩
  · intro hx
    refine ⟨hobject.extensible hx, hobject.prototype hx, ?_⟩
    intro k hk
    cases hown : (σ.heap.object o).own? k with
    | none => simp [Object.hasOwn, hobject.absent hx k hown] at hk
    | some d => simp [Object.hasOwn, hown]
  · intro k d hown hc
    obtain ⟨d', hown', hp⟩ := hobject.own k d hown hc
    exact ⟨d', hown', hp.configurable, hp.enumerable, hp.accessor⟩
  · intro k d d' hown hown' hc ha
    exact ⟨(hpersists hown hown' hc).getter ha, (hpersists hown hown' hc).setter ha⟩
  · intro k d d' hown hown' hc ha hw
    exact (hpersists hown hown' hc).writable ha hw
  · intro k d hown hc ha hw m n shown shown' τ τ' hrun hrun'
    exact evolution.sameValue_of_run_getOwn (hholds m) (hholds n) hσ hσ' hev ho hown hc ha hw
      hrun hrun'
  · intro k d hown hc ha hw m n receiver receiver' v v' τ τ' hrun hrun'
    obtain ⟨d', hown', hp⟩ := hobject.own k d hown hc
    obtain ⟨shown, hread, rfl⟩ := evolution.run_getOwn_of_run_get (hholds m) hσ hown ha hrun
    obtain ⟨shown', hread', rfl⟩ :=
      evolution.run_getOwn_of_run_get (hholds n) hσ' hown' (hp.accessor.trans ha) hrun'
    exact evolution.sameValue_of_run_getOwn (hholds m) (hholds n) hσ hσ' hev ho hown hc ha hw
      hread hread'

/-- Between any two moments of a sequence of operations, every object keeps what
it must keep, whatever scripts the operations run on the way. -/
theorem essentialInvariants_runAll (n : Nat) (before after : List ObjectOperation) (σ : State)
    (hσ : σ.heap.IsRegular) (hops : ∀ op ∈ before ++ after, op.IsOrdinary) (o : ObjectRef)
    (ho : o.index < (ObjectOperation.runAll (.level n) before σ).heap.objects.size) :
    EssentialInvariants o (ObjectOperation.runAll (.level n) before σ)
      (ObjectOperation.runAll (.level n) (before ++ after) σ) := by
  have hG := evolution.lawful.governs_level n
  obtain ⟨hgood, -⟩ := ObjectOperation.keeps_runAll hG (fun _ hd ↦ hd)
    (fun op hop ↦ hops op (List.mem_append_left _ hop)) hσ
  obtain ⟨hgood', hstep⟩ := ObjectOperation.keeps_runAll hG (fun _ hd ↦ hd)
    (fun op hop ↦ hops op (List.mem_append_right _ hop)) hgood
  rw [ObjectOperation.runAll_append]
  exact essentialInvariants_of_evolves hgood hgood' hstep ho

/-- A property of the global object is frozen, and is then assigned, redefined and
deleted. -/
theorem essentialInvariants_runAll_frozen :
    let x : PropertyKey := .ofString "x"
    let g : ObjectRef := (State.initial .standard).realm.globalObject
    let before : List ObjectOperation :=
      [.define g x (.data (.ofInt32 1) false true false), .preventExtensions g]
    let after : List ObjectOperation :=
      [.define g x (Descriptor.generic.withWritable true), .set g x (.ofInt32 2) (.object g),
        .delete g x, .createData g (.ofString "y") .null, .setPrototype g none, .getOwn g x]
    let σ := State.initial .standard
    σ.heap.IsRegular ∧ (∀ op ∈ before ++ after, op.IsOrdinary) ∧
      g.index < (ObjectOperation.runAll (.level 9) before σ).heap.objects.size ∧
      EssentialInvariants g (ObjectOperation.runAll (.level 9) before σ)
        (ObjectOperation.runAll (.level 9) (before ++ after) σ) := by
  intro x g before after σ
  have hσ : σ.heap.IsRegular :=
    Heap.isRegular_empty.of_grows (Realm.grows_build _ _)
  have hops : ∀ op ∈ before ++ after, op.IsOrdinary := by
    simp [before, after, ObjectOperation.IsOrdinary, Descriptor.IsOrdinary, Descriptor.data,
      Descriptor.generic, Descriptor.withWritable]
  have hstep := (ObjectOperation.keeps_runAll (evolution.lawful.governs_level 9) (fun _ hd ↦ hd)
    (fun op hop ↦ hops op (List.mem_append_left after hop)) hσ).2
  have ho : g.index < (ObjectOperation.runAll (.level 9) before σ).heap.objects.size :=
    Nat.lt_of_lt_of_le (by decide) hstep.objects_le
  exact ⟨hσ, hops, ho, essentialInvariants_runAll 9 before after σ hσ hops g ho⟩

end Ecma
