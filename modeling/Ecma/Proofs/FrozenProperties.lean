import Ecma.Proofs.DeadZones
import Ecma.Proofs.PropertyPatches

/-!
# Frozen properties

A property that is neither configurable nor writable is frozen: what is read of
it is to stay the same for ever.  An ordinary patch with another value is
refused.  A patch that leaves the value to a resolver or to a variable has no
value to compare; it is refused for its attributes only, and once it is accepted
the property reads as the resolver or the variable has it.
-/

namespace Ecma

/-! ## What the host does to regular heaps -/

theorem evolution.tolerant : evolution.Tolerant :=
  { evolution.lawful with
    anyFailure := fun _ ↦ trivial
    anyDepth := fun σ _ hσ ↦ ⟨hσ, σ.heap.evolves_refl⟩ }

namespace HostStep

/-- Properties are defined by ordinary patches only. -/
def IsOrdinary : HostStep → Prop
  | .properties (.operation op) => op.IsOrdinary
  | _ => True

theorem evolves_perform (n : Nat) {step : HostStep} (hstep : step.IsOrdinary) :
    evolution.Keeps (step.perform (.level n)) := by
  refine keeps_perform evolution.tolerant n fun o k patch heq ↦ ?_
  subst heq
  exact hstep

theorem evolves_runAll (n : Nat) {steps : List HostStep} (hsteps : ∀ step ∈ steps, step.IsOrdinary)
    {σ : State} (hσ : σ.heap.IsRegular) :
    (runAll (.level n) steps σ).heap.IsRegular ∧
      σ.heap.Evolves (runAll (.level n) steps σ).heap := by
  induction steps generalizing σ with
  | nil => exact ⟨hσ, σ.heap.evolves_refl⟩
  | cons step rest ih =>
      have hfirst := evolves_perform n (hsteps step List.mem_cons_self) σ hσ
      obtain ⟨hgood, hstep⟩ :=
        ih (fun step' h ↦ hsteps step' (List.mem_cons_of_mem _ h)) hfirst.good
      exact ⟨hgood, hfirst.step.trans hstep⟩

end HostStep

/-- The host comes from the one state to the other by ordinary steps. -/
def State.Reaches (σ τ : State) : Prop :=
  ∃ n steps, (∀ step ∈ steps, HostStep.IsOrdinary step) ∧ τ = HostStep.runAll (.level n) steps σ

theorem State.Reaches.evolves {σ τ : State} (hτ : σ.Reaches τ) (hσ : σ.heap.IsRegular) :
    τ.heap.IsRegular ∧ σ.heap.Evolves τ.heap := by
  obtain ⟨n, steps, hsteps, rfl⟩ := hτ
  exact HostStep.evolves_runAll n hsteps hσ

/-! ## Frozen properties -/

/-- A data property that is neither configurable nor writable. -/
structure Descriptor.IsFrozen (d : Descriptor) : Prop where
  accessor : d.isAccessor = false
  configurable : d.isConfigurable = false
  writable : d.isWritable = false

namespace Heap

variable {h h' : Heap} {o : ObjectRef} {k : PropertyKey} {d : Descriptor} {u v : Value}

theorem IsRegular.isStored (hh : h.IsRegular) : h.IsStored := by
  intro o ho
  refine ⟨(hh o ho).valid, fun _ _ _ ↦ trivial, fun f _ ↦ ?_⟩
  cases f with
  | closure f s strict => trivial
  | native name arity run =>
      exact fun _ _ ↦ HostProgram.honours_of_forall (fun _ ↦ trivial) (fun _ ↦ trivial) _

theorem IsRegular.not_bound (hh : h.IsRegular) (hown : h.own? o k = some d)
    (hd : d.isWritable = false) (scope : ScopeRef) (name : String) :
    d.form ≠ .bound scope name := by
  intro hform
  rw [((hh o (lt_of_own? hown)).own k d hown).bound scope name hform] at hd
  cases hd

/-- The value that a property has or is to get from its resolver. -/
def due? (h : Heap) : PropertyForm → Option Value
  | .lazy c => (h.cell c).value?
  | form => form.plain?

theorem due?_of_plain? {form : PropertyForm} (hv : form.plain? = some v) :
    h.due? form = some v := by
  cases form with
  | lazy c => cases hv
  | _ => exact hv

theorem due?_of_shown? {form : PropertyForm} (hv : h.shown? form = some v) :
    h.due? form = some v := by
  cases form with
  | lazy c => rw [due?, shown?_lazy_eq_some.1 hv, LazyCell.value?]
  | _ => exact hv

/-- What is due later was due all along. -/
theorem CellsEvolve.due?_eq (hev : h.CellsEvolve h') {form : PropertyForm}
    (hform : ∀ c, form = .lazy c → c.index < h.cells.size) (hu : h'.due? form = some u) :
    h.due? form = some u := by
  cases form with
  | lazy c => exact hev.value?_eq (hform c rfl) hu
  | _ => exact hu

theorem lt_of_due? {form : PropertyForm} (hv : h.due? form = some v) (c : CellRef)
    (hform : form = .lazy c) : c.index < h.cells.size := by
  subst hform
  refine lt_of_cell_ne_resolving fun hc ↦ ?_
  rw [due?, hc] at hv
  cases hv

theorem CellsEvolve.due?_unique (hev : h.CellsEvolve h') {form : PropertyForm}
    (hv : h.due? form = some v) (hu : h'.due? form = some u) : v = u :=
  Option.some.inj (hv.symm.trans (hev.due?_eq (lt_of_due? hv) hu))

/-- A frozen property stays frozen; what is due of it is the same from the first moment on, and
once its value is stored with it, it stays so. -/
theorem Evolves.frozen (hev : h.Evolves h') (hown : h.own? o k = some d) (hd : d.IsFrozen) :
    ∃ d', h'.own? o k = some d' ∧ d'.IsFrozen ∧ d'.isEnumerable = d.isEnumerable ∧
      (∀ v u, h.due? d.form = some v → h'.due? d'.form = some u → v.sameValue u = true) ∧
      (d'.form = d.form ∨ ∃ u, d'.form.plain? = some u) := by
  obtain ⟨d', hown', hp⟩ := (hev.object o (lt_of_own? hown)).own k d hown hd.configurable
  refine ⟨d', hown', ⟨hp.accessor.trans hd.accessor, hp.configurable,
    hp.writable hd.accessor hd.writable⟩, hp.enumerable, fun v u hv hu ↦ ?_, ?_⟩
  · rcases hp.value hd.accessor hd.writable with hform | ⟨v', w, hv', hw, hsame⟩
    · rw [hform] at hu
      rw [hev.cells.due?_unique hv hu]
      exact Value.sameValue_refl u
    · cases hev.cells.due?_unique hv (due?_of_shown? hv')
      cases Option.some.inj ((due?_of_plain? hw).symm.trans hu)
      exact hsame
  · exact (hp.value hd.accessor hd.writable).imp_right fun ⟨_, w, _, hw, _⟩ ↦ ⟨w, hw⟩

end Heap

/-! ## Reading them -/

namespace Object

variable {n : Nat} {o : ObjectRef} {k : PropertyKey} {d shown : Descriptor} {σ τ : State}
  {v : Value} {m : Action Value}

/-- A read of a property that is neither lazy nor an accessor changes nothing. -/
theorem ReadsSlot.run_shown (hm : ReadsSlot n o k σ.heap m) (hown : σ.heap.own? o k = some d)
    (ha : d.isAccessor = false) (hd : ∀ c, d.form ≠ .lazy c) :
    m.run σ = (.ok ((d.shownIn σ.heap).value?.getD .undefined), σ) := by
  cases hm with
  | own =>
      rw [ownValue, Action.run_bind, run_getOwn_shown _ hown hd]
      rfl
  | get p receiver hfinds =>
      rw [Object.get, find, Action.run_bind, Engine.fuel_level, run_findFrom_of_finds _ hfinds,
        run_getOwn_shown _ hown hd]
      dsimp only
      rw [if_neg (by simp [ha])]
      rfl

theorem ReadsSlot.run_plain (hm : ReadsSlot n o k σ.heap m) (hown : σ.heap.own? o k = some d)
    (hv : d.form.plain? = some v) : m.run σ = (.ok v, σ) := by
  obtain ⟨a, form⟩ := d
  have hshown := hm.run_shown hown
  cases form with
  | generic | data =>
      rw [hshown rfl nofun]
      cases hv
      rfl
  | _ => cases hv

/-- What a read of a property that is not bound gives is what is due of it. -/
theorem ReadsSlot.due? (hm : ReadsSlot n o k σ.heap m) (hown : σ.heap.own? o k = some d)
    (ha : d.isAccessor = false) (hbound : ∀ scope name, d.form ≠ .bound scope name)
    (hrun : m.run σ = (.ok v, τ)) : σ.heap.due? d.form = some v := by
  obtain ⟨a, form⟩ := d
  cases form with
  | lazy c => exact hm.value hown hrun
  | generic | data =>
      rw [hm.run_shown hown ha nofun] at hrun
      cases hrun
      rfl
  | accessor get set => cases ha
  | bound scope name => exact absurd rfl (hbound scope name)

/-- A lazy property that has been read is no longer the same lazy one. -/
theorem not_lazy_of_run_getOwn (hσ : σ.heap.IsRegular) {c : CellRef} (hd : d.form = .lazy c)
    (hown : σ.heap.own? o k = some d)
    (hread : (getOwn (.level n) o k).run σ = (.ok (some shown), τ)) (a : Attributes) :
    τ.heap.own? o k ≠ some ⟨a, .lazy c⟩ := by
  have heng := (evolution.lawful.governs_level n).toHolds
  obtain ⟨a₀, form⟩ := d
  subst hd
  rw [run_getOwn_lazy_eq _ hown] at hread
  rcases hresolve : (Lazy.resolve (.level n) c k.display).run σ with ⟨e | v, ρ⟩
  · rw [hresolve] at hread
    cases hread
  rw [hresolve] at hread
  cases hread
  have hρ := (evolution.keeps_resolve heng c k.display).allows hσ hresolve
  have ho : o.index < ρ.heap.objects.size :=
    Nat.lt_of_lt_of_le (Heap.lt_of_own? hown) hρ.step.objects_le
  have hvalid := (hρ.good o ho).valid
  intro hlazy
  rcases Heap.own?_memoize_cases ho hvalid k c v k with hsame | ⟨_, -, hvalue⟩
  · rw [Heap.own?_memoize ho hvalid (hsame.symm.trans hlazy) v] at hlazy
    cases hlazy
  · cases hvalue.symm.trans hlazy

/-- A frozen property that has been read has its value stored with it. -/
theorem exists_plain_of_run_getOwn (hσ : σ.heap.IsRegular) (hshown : shown.IsFrozen)
    (hread : (getOwn (.level n) o k).run σ = (.ok (some shown), τ)) :
    τ.heap.IsRegular ∧ ∃ d v, τ.heap.own? o k = some d ∧ d.IsFrozen ∧ d.form.plain? = some v ∧
      (shown.value?.getD .undefined).sameValue v = true := by
  have heng := (evolution.lawful.governs_level n).toHolds
  have hkeeps := (evolution.keeps_getOwn heng o k).allows hσ hread
  refine ⟨hkeeps.good, ?_⟩
  rcases evolution.shownAs_of_run_getOwn heng hσ hread with ⟨-, hnone, -⟩ |
    ⟨d, _, hown, hsome, hshows, hlazy⟩
  · cases hnone
  cases hsome
  have hd : d.IsFrozen := by
    refine ⟨hshows.accessor ▸ hshown.accessor, ?_, ?_⟩
    · rw [Descriptor.isConfigurable, ← hshows.attributes]
      exact hshown.configurable
    · rw [Descriptor.isWritable, ← hshows.attributes]
      exact hshown.writable
  have hdue : σ.heap.due? d.form = some (shown.value?.getD .undefined) := by
    have hvalue := hshows.value hd.accessor (hσ.not_bound hown hd.writable)
    exact hkeeps.step.cells.due?_eq hlazy (Heap.due?_of_shown? hvalue)
  obtain ⟨d', hown', hd', -, hsame, hform⟩ := hkeeps.step.frozen hown hd
  have hplain : ∃ v, d'.form.plain? = some v := by
    refine hform.elim (fun hform ↦ ?_) id
    obtain ⟨a', form'⟩ := d'
    cases form' with
    | lazy c => exact absurd hown' (not_lazy_of_run_getOwn hσ hform.symm hown hread a')
    | accessor get set => cases hd'.accessor
    | bound scope name => exact absurd rfl (hkeeps.good.not_bound hown' hd'.writable scope name)
    | generic | data => exact ⟨_, rfl⟩
  obtain ⟨v, hv⟩ := hplain
  exact ⟨d', v, hown', hd', hv, hsame _ _ hdue (Heap.due?_of_plain? hv)⟩

end Object

/-! ## Patches without a value of their own -/

namespace Descriptor

variable {current patch : Descriptor}

theorem isAccessor_of_not_isOrdinary (hpatch : ¬patch.IsOrdinary) : patch.isAccessor = false := by
  obtain ⟨b, form⟩ := patch
  cases form with
  | accessor get set => exact absurd trivial hpatch
  | _ => rfl

theorem IsFrozen.changesKind_eq (hcurrent : current.IsFrozen) (hpatch : ¬patch.IsOrdinary) :
    current.changesKind patch = false := by
  rw [changesKind, isAccessor_of_not_isOrdinary hpatch, hcurrent.accessor]
  exact Bool.and_false _

/-- Only the attributes of such a patch are looked at. -/
theorem IsFrozen.permits_iff (hcurrent : current.IsFrozen) (hpatch : ¬patch.IsOrdinary) :
    current.permits patch = true ↔ patch.attributes.configurable ≠ some true ∧
      (∀ e, patch.attributes.enumerable = some e → e = current.isEnumerable) ∧
      patch.attributes.writable ≠ some true := by
  have hvalue : patch.value? = none := by
    obtain ⟨b, form⟩ := patch
    cases form with
    | data v => exact absurd trivial hpatch
    | _ => rfl
  simp only [permits, hcurrent.configurable, hcurrent.accessor, hcurrent.writable,
    hcurrent.changesKind_eq hpatch, hvalue, agrees]
  cases patch.attributes.enumerable <;> simp

theorem IsFrozen.patched_eq (hcurrent : current.IsFrozen) (hpatch : ¬patch.IsOrdinary) :
    current.patched patch = ⟨current.attributes.override patch.attributes, patch.form⟩ := by
  rw [patched, hcurrent.changesKind_eq hpatch]
  obtain ⟨b, form⟩ := patch
  cases form with
  | lazy c => cases current.form <;> rfl
  | bound scope name => cases current.form <;> rfl
  | _ => exact absurd trivial hpatch

/-- The attributes of a patch that is accepted keep the property frozen. -/
theorem IsFrozen.patched (hcurrent : current.IsFrozen) (hpatch : ¬patch.IsOrdinary)
    (hpermits : current.permits patch = true) : (current.patched patch).IsFrozen := by
  obtain ⟨hc, -, hw⟩ := (hcurrent.permits_iff hpatch).1 hpermits
  have hconfigurable := hcurrent.configurable
  have hwritable := hcurrent.writable
  rw [hcurrent.patched_eq hpatch]
  refine ⟨isAccessor_of_not_isOrdinary hpatch, ?_, ?_⟩
  · simp only [isConfigurable, Attributes.configurable_override] at hconfigurable ⊢
    cases hb : patch.attributes.configurable with
    | none => exact hconfigurable
    | some b => simpa [hb] using hc
  · simp only [isWritable, Attributes.writable_override] at hwritable ⊢
    cases hb : patch.attributes.writable with
    | none => exact hwritable
    | some b => simpa [hb] using hw

end Descriptor

/-- What comes of defining a frozen property by a patch that leaves its value to a resolver or
to a variable.  The property has been read as `shown`, in the state `σ`; the call answered `b`
and left the state `ρ`. -/
structure FrozenContract (o : ObjectRef) (k : PropertyKey) (patch shown : Descriptor) (σ : State)
    (b : Bool) (ρ : State) : Prop where
  /-- The patch is accepted if its attributes ask for nothing new. -/
  accepted : b = true ↔ patch.attributes.configurable ≠ some true ∧
    (∀ e, patch.attributes.enumerable = some e → e = shown.isEnumerable) ∧
    patch.attributes.writable ≠ some true
  /-- If it is refused, nothing has changed, and every read gives the same value for ever. -/
  refused : b = false → ρ = σ ∧ ∀ τ, σ.Reaches τ → ∀ n m, Object.ReadsSlot n o k τ.heap m →
    ∃ u, m.run τ = (.ok u, τ) ∧ (shown.value?.getD .undefined).sameValue u = true
  /-- If a lazy patch is accepted, every read that comes to an end gives the value of the
  resolver for ever. -/
  resolved : b = true → ∀ c w, patch.form = .lazy c → (σ.heap.cell c).value? = some w →
    ∀ τ, ρ.Reaches τ → ∀ n m, Object.ReadsSlot n o k τ.heap m →
      (∀ u τ', m.run τ = (.ok u, τ') → w.sameValue u = true) ∧
      ∀ depth, τ.heap.ResolversReadPlainly depth → τ.heap.cells.size + depth ≤ n →
        τ.heap.cell c ≠ .resolving → ∃ u τ', m.run τ = (.ok u, τ')
  /-- If a bound one is, every read gives the value of the variable for as long as the property
  is left so. -/
  bound : b = true → ∀ scope name, patch.form = .bound scope name →
    ∀ τ : State, τ.heap.own? o k = ρ.heap.own? o k → ∀ n m, Object.ReadsSlot n o k τ.heap m →
      m.run τ = (.ok (τ.heap.boundValue scope name), τ)

namespace Object

variable {o : ObjectRef} {k : PropertyKey} {d shown : Descriptor} {σ τ ρ : State} {v w : Value}

/-- A frozen property whose value is stored with it is read without more ado. -/
theorem run_read_of_reaches (hσ : σ.heap.IsRegular) (hown : σ.heap.own? o k = some d)
    (hd : d.IsFrozen) (hv : d.form.plain? = some v) (hτ : σ.Reaches τ) {n : Nat} {m : Action Value}
    (hm : ReadsSlot n o k τ.heap m) : ∃ u, m.run τ = (.ok u, τ) ∧ v.sameValue u = true := by
  obtain ⟨-, hev⟩ := hτ.evolves hσ
  obtain ⟨d', hown', -, -, hsame, hform⟩ := hev.frozen hown hd
  obtain ⟨u, hu⟩ : ∃ u, d'.form.plain? = some u :=
    hform.elim (fun hform ↦ ⟨v, hform ▸ hv⟩) id
  exact ⟨u, hm.run_plain hown' hu, hsame v u (Heap.due?_of_plain? hv) (Heap.due?_of_plain? hu)⟩

/-- A frozen lazy property gives the value of its resolver. -/
theorem read_lazy_of_reaches (hσ : σ.heap.IsRegular) {a : Attributes} {c : CellRef}
    (hown : σ.heap.own? o k = some ⟨a, .lazy c⟩) (hd : Descriptor.IsFrozen ⟨a, .lazy c⟩)
    (hw : (σ.heap.cell c).value? = some w) (hτ : σ.Reaches τ) {n : Nat} {m : Action Value}
    (hm : ReadsSlot n o k τ.heap m) :
    (∀ u τ', m.run τ = (.ok u, τ') → w.sameValue u = true) ∧
      ∀ depth, τ.heap.ResolversReadPlainly depth → τ.heap.cells.size + depth ≤ n →
        τ.heap.cell c ≠ .resolving → ∃ u τ', m.run τ = (.ok u, τ') := by
  obtain ⟨hregular, hev⟩ := hτ.evolves hσ
  obtain ⟨⟨a', form⟩, hown', hd', -, hsame, hform⟩ := hev.frozen hown hd
  constructor
  · intro u τ' hrun
    have hbound := hregular.not_bound hown' hd'.writable
    exact hsame w u hw (hm.due? hown' hd'.accessor hbound hrun)
  · intro depth hreads hn hc
    rcases hform with rfl | ⟨u, hu⟩
    · obtain ⟨ρ, -, -, ⟨u, -, -, -, hrun⟩ | ⟨hresolving, -⟩ | ⟨-, hshort⟩⟩ :=
        run_getOwn_lazy (Engine.readsAlong_level depth n) (hregular.isStored.isPlain hreads) hown'
      · exact ⟨u, ρ, hm.run_eq_of_getOwn hown' hrun⟩
      · exact absurd hresolving hc
      · rw [Engine.fuel_level, List.length_map, List.length_range] at hshort
        exact absurd hshort (Nat.not_lt_of_le hn)
    · exact ⟨u, τ, hm.run_plain hown' hu⟩

end Object

/-- A patch that leaves the value of a frozen property to a resolver or to a variable is refused,
and then the property reads the same for ever, unless its attributes ask for nothing new: then it
is accepted, and the property reads as the resolver or the variable has it. -/
theorem frozen_property_under_indirect_patch (n : Nat) (o : ObjectRef) (k : PropertyKey)
    (patch shown : Descriptor) (σ σ₀ : State) (hσ : σ.heap.IsRegular)
    (hread : (Object.getOwn (.level n) o k).run σ = (.ok (some shown), σ₀))
    (hshown : shown.IsFrozen) (hpatch : ¬patch.IsOrdinary) :
    ∃ b ρ, (Object.define (.level n) o k patch).run σ = (.ok b, ρ) ∧
      FrozenContract o k patch shown σ₀ b ρ := by
  obtain ⟨hσ₀, d, v, hown, hd, hv, hsame⟩ := Object.exists_plain_of_run_getOwn hσ hshown hread
  have ho := Heap.lt_of_own? hown
  have hpermits := hshown.permits_iff hpatch
  rw [Object.run_define, hread]
  dsimp only
  cases hb : shown.permits patch with
  | false =>
      rw [hb] at hpermits
      refine ⟨false, σ₀, rfl, hpermits, fun _ ↦ ⟨rfl, ?_⟩, nofun, nofun⟩
      intro τ hτ n m hm
      obtain ⟨u, hrun, hu⟩ := Object.run_read_of_reaches hσ₀ hown hd hv hτ hm
      exact ⟨u, hrun, Value.sameValue_trans hsame hu⟩
  | true =>
      have hfrozen := hshown.patched hpatch hb
      have hmarked : shown.IsMarked := Object.isMarked_of_run_getOwn
        (fun d hown ↦ ((hσ o (Heap.lt_of_own? hown)).own k d hown).marked) hread
      have hbound (a : Attributes) (scope : ScopeRef) (name : String) :
          σ₀.heap.own? o k ≠ some ⟨a, .bound scope name⟩ := by
        intro hown'
        cases hown.symm.trans hown'
        exact hσ₀.not_bound hown hd.writable scope name rfl
      have hstores := State.stores_store hσ₀.isStored ho k (shown.patched patch)
      rw [hb] at hpermits
      rw [if_pos rfl, Object.run_storePatched_of_not_bound patch _ hbound]
      have hnew := hmarked.patched patch
      rw [hshown.patched_eq hpatch] at hfrozen hstores hnew ⊢
      refine ⟨true, _, rfl, hpermits, nofun, fun _ c w hform hw τ hτ n m hm ↦ ?_,
        fun _ scope name hform τ hτ n m hm ↦ ?_⟩
      · obtain ⟨b, form⟩ := patch
        subst hform
        have hregular : (σ₀.heap.modifyObject o (·.store k
            ⟨shown.attributes.override b, .lazy c⟩)).IsRegular :=
          hσ₀.modifyObject o fun _ hdata ↦ hdata.store k ⟨hnew, by rintro _ _ ⟨⟩⟩
        exact Object.read_lazy_of_reaches hregular hstores.own hfrozen hw hτ hm
      · obtain ⟨b, form⟩ := patch
        subst hform
        rw [hm.run_shown (hτ.trans hstores.own) rfl nofun]
        rfl

/-- A lazy patch is refused if it makes a frozen property writable, and accepted if not. -/
theorem frozen_property_under_indirect_patch_lazy :
    let base := State.initial .standard
    let g := base.realm.globalObject
    let x : PropertyKey := .ofString "x"
    let d := Descriptor.data (.ofInt32 1) false true false
    let made := base.heap.addCell (.unresolved ⟨[.log "start"], .ofInt32 2⟩)
    let σ : State := { base with heap := made.2.modifyObject g (·.store x d) }
    σ.heap.IsRegular ∧ d.IsFrozen ∧
      (Object.getOwn (.level 9) g x).run σ = (.ok (some d), σ) ∧
      (∃ ρ, (Object.define (.level 9) g x (.lazy made.1 true true false)).run σ = (.ok false, ρ) ∧
        FrozenContract g x (.lazy made.1 true true false) d σ false ρ) ∧
      ∃ ρ, (Object.define (.level 9) g x (.lazy made.1 false true false)).run σ = (.ok true, ρ) ∧
        FrozenContract g x (.lazy made.1 false true false) d σ true ρ := by
  intro base g x d made σ
  have hmade : made.2.IsRegular :=
    Heap.isRegular_empty.of_grows ((Realm.grows_build _ _).addCell _)
  have hσ : σ.heap.IsRegular := hmade.modifyObject g fun _ hdata ↦
    hdata.store x (Descriptor.isComplete_data _ false true false).isSettled
  have hd : d.IsFrozen := ⟨rfl, rfl, rfl⟩
  have hown : σ.heap.own? g x = some d :=
    (State.stores_store (σ := { base with heap := made.2 }) hmade.isStored (by decide) x d).own
  have hread : (Object.getOwn (.level 9) g x).run σ = (.ok (some d), σ) :=
    Object.run_getOwn_shown _ hown nofun
  have hdefine (writable : Bool) := frozen_property_under_indirect_patch 9 g x
    (.lazy made.1 writable true false) d σ σ hσ hread hd id
  refine ⟨hσ, hd, hread, ?_, ?_⟩
  · obtain ⟨b, ρ, hrun, hcontract⟩ := hdefine true
    obtain rfl : b = false := Bool.eq_false_iff.2 fun hb ↦ (hcontract.accepted.1 hb).2.2 rfl
    exact ⟨ρ, hrun, hcontract⟩
  · obtain ⟨b, ρ, hrun, hcontract⟩ := hdefine false
    obtain rfl : b = true :=
      hcontract.accepted.2 ⟨nofun, fun _ he ↦ (Option.some.inj he).symm, nofun⟩
    exact ⟨ρ, hrun, hcontract⟩

/-- A frozen property that reads as false reads as true after a lazy patch, and after a bound one
as soon as the variable is set. -/
theorem indirect_patch_changes_frozen_value :
    let base := State.initial .standard
    let g := base.realm.globalObject
    let x : PropertyKey := .ofString "x"
    let d := Descriptor.data (.boolean false) false true false
    let cell := base.heap.addCell (.unresolved ⟨[], .boolean true⟩)
    let scope := cell.2.addScope ⟨.declarative (Bindings.empty.insert "v"
      ⟨some (.boolean false), true, true, false⟩) none, none, false⟩
    let σ : State := { base with heap := scope.2.modifyObject g (·.store x d) }
    let lazy : HostStep := .properties (.operation (.define g x (.lazy cell.1 false true false)))
    let bound : HostStep := .properties (.operation
      (.define g x ((Descriptor.bound scope.1 "v" true false).withWritable false)))
    let read (steps : List HostStep) :=
      ((Object.get (.level 9) g x (.object g)).run (HostStep.runAll (.level 9) steps σ)).1
    read [] = .ok (.boolean false) ∧ read [lazy] = .ok (.boolean true) ∧
      read [bound] = .ok (.boolean false) ∧
      read [bound, .scope scope.1 (.set "v" (.boolean true) true)] = .ok (.boolean true) ∧
      (Value.boolean false).sameValue (.boolean true) = false := by
  intro base g x d cell scope σ lazy bound read
  refine ⟨rfl, rfl, rfl, rfl, rfl⟩

end Ecma
