import Ecma.Engine.Level
import Ecma.Proofs.Policy.Basic

/-!
# How scopes evolve

A variable that cannot be deleted stays: nothing that the engine does removes
it, makes a constant of it or takes its value back.  So a name that has been
declared in a scope is there when it is initialised, whatever has run in
between.
-/

namespace Ecma

/-! ## Variables -/

/-- How a variable that cannot be deleted may change. -/
structure Binding.Evolves (x x' : Binding) : Prop where
  canDelete : x'.canDelete = x.canDelete
  isMutable : x'.isMutable = x.isMutable
  value : x.value.isSome → x'.value.isSome

theorem Binding.evolves_refl (x : Binding) : x.Evolves x := ⟨rfl, rfl, id⟩

/-- Every variable that cannot be deleted is still there. -/
def Bindings.Evolves (b b' : Bindings) : Prop :=
  ∀ name x, b.find? name = some x → x.canDelete = false →
    ∃ x', b'.find? name = some x' ∧ x.Evolves x'

namespace Bindings

variable {b b' b'' : Bindings} {name : String}

theorem evolves_refl (b : Bindings) : b.Evolves b :=
  fun _ x hx _ ↦ ⟨x, hx, x.evolves_refl⟩

theorem Evolves.trans (h : b.Evolves b') (h' : b'.Evolves b'') : b.Evolves b'' := by
  intro name x hx hdelete
  obtain ⟨x', hx', hev⟩ := h name x hx hdelete
  obtain ⟨x'', hx'', hev'⟩ := h' name x' hx' (hev.canDelete.trans hdelete)
  exact ⟨x'', hx'', hev'.canDelete.trans hev.canDelete, hev'.isMutable.trans hev.isMutable,
    hev'.value ∘ hev.value⟩

theorem evolves_insert (h : b.contains name = false) (binding : Binding) :
    b.Evolves (b.insert name binding) := by
  intro other x hx _
  have hne : other ≠ name := by
    rintro rfl
    simp [contains, hx] at h
  exact ⟨x, (b.find?_insert_of_ne hne binding).trans hx, x.evolves_refl⟩

theorem evolves_write (b : Bindings) (name : String) (v : Value) : b.Evolves (b.write name v) := by
  intro other x hx _
  by_cases hne : other = name
  · subst hne
    have hwrite : (b.write other v).find? other = some { x with value := some v } := by
      rw [find?_write_self, hx]
      rfl
    exact ⟨_, hwrite, rfl, rfl, fun _ ↦ rfl⟩
  · exact ⟨x, (b.find?_write_of_ne hne v).trans hx, x.evolves_refl⟩

theorem find?_erase_of_ne (b : Bindings) {other : String} (h : other ≠ name) :
    (b.erase name).find? other = b.find? other := by
  obtain ⟨entries⟩ := b
  simp only [erase, find?]
  induction entries with
  | nil => rfl
  | cons e rest ih =>
      obtain ⟨n, x⟩ := e
      by_cases hn : n = name
      · subst hn
        simp [List.lookup_cons, beq_false_of_ne h, ih]
      · simp [List.lookup_cons, hn, ih]

theorem find?_erase_self (b : Bindings) (name : String) : (b.erase name).find? name = none := by
  rw [find?, erase, List.lookup_eq_none_iff]
  intro e he
  have hne : e.1 ≠ name := by simpa using (List.mem_filter.1 he).2
  exact bne_iff_ne.2 hne.symm

theorem evolves_delete (b : Bindings) (name : String) : b.Evolves (b.delete name).2 := by
  unfold delete
  split
  · exact b.evolves_refl
  next x hx =>
    split
    next hdelete =>
      intro other y hy hkeep
      have hne : other ≠ name := by
        rintro rfl
        rw [hx] at hy
        cases hy
        rw [hdelete] at hkeep
        cases hkeep
      exact ⟨y, (b.find?_erase_of_ne hne).trans hy, y.evolves_refl⟩
    · exact b.evolves_refl

theorem evolves_store (b : Bindings) (name : String) (v : Value) : b.Evolves (b.store name v) := by
  unfold store
  split
  · split
    · exact b.evolves_write name v
    · exact b.evolves_refl
  · exact b.evolves_refl

/-! ### Operations that may be refused -/

theorem create_eq_ok {binding : Binding} (h : b.create name binding = .ok b') :
    b.contains name = false ∧ b' = b.insert name binding := by
  unfold create at h
  split at h
  next => cases h
  next habsent => exact ⟨by simpa using habsent, (Except.ok.inj h).symm⟩

theorem create_ne_neverCreated (b : Bindings) (name : String) (binding : Binding) :
    b.create name binding ≠ .error .neverCreated := by
  unfold create
  split <;> nofun

theorem evolves_create {binding : Binding} (h : b.create name binding = .ok b') :
    b.Evolves b' := by
  obtain ⟨habsent, rfl⟩ := create_eq_ok h
  exact evolves_insert habsent binding

theorem initialise_eq_ok {v : Value} (h : b.initialise name v = .ok b') :
    b' = b.write name v := by
  unfold initialise at h
  split at h
  · exact (Except.ok.inj h).symm
  · cases h

theorem evolves_initialise {v : Value} (h : b.initialise name v = .ok b') : b.Evolves b' := by
  rw [initialise_eq_ok h]
  exact b.evolves_write name v

/-- In sloppy code an assignment may create the variable. -/
theorem set_absent (h : b.find? name = none) (v : Value) :
    b.set name v false =
      .ok ((b.insert name ⟨none, true, true, false⟩).write name v) := by
  simp [set, h, createMutable, create, initialise, contains, Except.bind]

theorem evolves_set {v : Value} {strict : Bool} (h : b.set name v strict = .ok b') :
    b.Evolves b' := by
  cases hfind : b.find? name with
  | none =>
      cases strict with
      | true => simp [set, hfind] at h
      | false =>
          rw [set_absent hfind] at h
          cases h
          have habsent : b.contains name = false := by simp [contains, hfind]
          exact (evolves_insert habsent _).trans (evolves_write _ name v)
  | some x =>
      simp only [set, hfind] at h
      split at h
      · cases h
      · split at h
        · cases h
          exact b.evolves_write name v
        · split at h
          · cases h
          · cases h
            exact b.evolves_refl

theorem set_ne_neverCreated (b : Bindings) (name : String) (v : Value) (strict : Bool) :
    b.set name v strict ≠ .error .neverCreated := by
  cases hfind : b.find? name with
  | none =>
      cases strict with
      | true => simp [set, hfind]
      | false =>
          rw [set_absent hfind]
          nofun
  | some x =>
      simp only [set, hfind]
      split
      · nofun
      · split
        · nofun
        · split <;> nofun

end Bindings

/-! ## Scopes -/

@[simp] theorem Action.run_scope (s : ScopeRef) (σ : State) :
    (Action.scope s).run σ = (.ok (σ.heap.scope s), σ) := rfl

theorem ScopeRecord.bindings?_withBindings {r : ScopeRecord} {b : Bindings}
    (hb : r.bindings? = some b) (b' : Bindings) : (r.withBindings b').bindings? = some b' := by
  cases r with
  | declarative _ _ => rfl
  | object _ _ => cases hb
  | «global» _ _ _ => rfl

/-- A scope stays inside the same one, and a declarative scope declarative.  If it holds
variables itself it goes on to, and they evolve. -/
structure Scope.Evolves (s s' : Scope) : Prop where
  outer : s'.outer = s.outer
  declarative : ∀ b this, s.record = .declarative b this → ∃ b', s'.record = .declarative b' this
  bindings : ∀ b, s.record.bindings? = some b → ∃ b', s'.record.bindings? = some b' ∧ b.Evolves b'

theorem Scope.evolves_of_record {s s' : Scope} (houter : s'.outer = s.outer)
    (hrecord : s'.record = s.record) : s.Evolves s' where
  outer := houter
  declarative b _ h := ⟨b, hrecord.trans h⟩
  bindings b hb := ⟨b, hrecord ▸ hb, b.evolves_refl⟩

theorem Scope.evolves_refl (s : Scope) : s.Evolves s := evolves_of_record rfl rfl

theorem Scope.evolves_withBindings {s : Scope} {b b' : Bindings}
    (hb : s.record.bindings? = some b) (h : b.Evolves b') :
    s.Evolves { s with record := s.record.withBindings b' } := by
  refine ⟨rfl, fun b₁ this hrecord ↦ ⟨b', by simp only [hrecord]; rfl⟩, fun b₁ hb₁ ↦ ?_⟩
  cases Option.some.inj (hb.symm.trans hb₁)
  exact ⟨b', ScopeRecord.bindings?_withBindings hb b', h⟩

namespace Heap

/-- The variable `name` of a scope that holds variables itself. -/
def bindingAt (h : Heap) (s : ScopeRef) (name : String) : Option Binding :=
  (h.scope s).record.bindings?.bind (·.find? name)

structure ScopesEvolve (h h' : Heap) : Prop where
  size_le : h.scopes.size ≤ h'.scopes.size
  scope : ∀ s : ScopeRef, s.index < h.scopes.size → (h.scope s).Evolves (h'.scope s)

namespace ScopesEvolve

variable {h h' h'' : Heap}

theorem of_scopes (hscopes : h'.scopes = h.scopes) : h.ScopesEvolve h' where
  size_le := by rw [hscopes]
  scope s _ := by
    have hscope : h'.scope s = h.scope s := by simp [Heap.scope, hscopes]
    rw [hscope]
    exact Scope.evolves_refl _

theorem trans (hev : h.ScopesEvolve h') (hev' : h'.ScopesEvolve h'') : h.ScopesEvolve h'' where
  size_le := Nat.le_trans hev.size_le hev'.size_le
  scope s hs := by
    have hfirst := hev.scope s hs
    have hnext := hev'.scope s (Nat.lt_of_lt_of_le hs hev.size_le)
    refine ⟨hnext.outer.trans hfirst.outer, fun b this hrecord ↦ ?_, fun b hb ↦ ?_⟩
    · obtain ⟨b', hrecord'⟩ := hfirst.declarative b this hrecord
      exact hnext.declarative b' this hrecord'
    obtain ⟨b', hb', hevolves⟩ := hfirst.bindings b hb
    obtain ⟨b'', hb'', hevolves'⟩ := hnext.bindings b' hb'
    exact ⟨b'', hb'', hevolves.trans hevolves'⟩

theorem addScope (h : Heap) (data : Scope) : h.ScopesEvolve (h.addScope data).2 where
  size_le := by simp [Heap.addScope]
  scope s hs := by
    rw [scope_addScope_of_lt hs]
    exact Scope.evolves_refl _

theorem build (cutover : Nat) (h : Heap) : h.ScopesEvolve (Realm.build cutover h).2 := by
  unfold Realm.build
  refine trans ?_ (addScope _ _)
  exact of_scopes rfl

theorem modifyScope {s : ScopeRef} {f : Scope → Scope} (hf : (h.scope s).Evolves (f (h.scope s))) :
    h.ScopesEvolve (h.modifyScope s f) where
  size_le := by simp [Heap.modifyScope]
  scope t ht := by
    by_cases hts : t = s
    · subst hts
      rw [scope_modifyScope_self ht]
      exact hf
    · rw [scope_modifyScope_of_ne h hts]
      exact Scope.evolves_refl _

theorem storeBound (h : Heap) (s : ScopeRef) (name : String) (v : Value) :
    h.ScopesEvolve (h.storeBound s name v) := by
  refine modifyScope ?_
  split
  next b hb => exact Scope.evolves_withBindings hb (b.evolves_store name v)
  next => exact Scope.evolves_refl _

end ScopesEvolve

/-! ## Facts -/

/-- The scope is there and holds variables itself. -/
def IsHolder (h : Heap) (s : ScopeRef) : Prop :=
  s.index < h.scopes.size ∧ ∃ b, (h.scope s).record.bindings? = some b

/-- The scope is there and holds the variable itself, for good. -/
def Declares (h : Heap) (s : ScopeRef) (name : String) : Prop :=
  s.index < h.scopes.size ∧ ∃ b, (h.scope s).record.bindings? = some b ∧
    ∃ x, b.find? name = some x ∧ x.canDelete = false

variable {h h' : Heap} {s : ScopeRef} {name : String}

theorem IsHolder.evolves (hs : h.IsHolder s) (hev : h.ScopesEvolve h') : h'.IsHolder s := by
  obtain ⟨hs, b, hb⟩ := hs
  obtain ⟨b', hb', -⟩ := (hev.scope s hs).bindings b hb
  exact ⟨Nat.lt_of_lt_of_le hs hev.size_le, b', hb'⟩

theorem Declares.evolves (hs : h.Declares s name) (hev : h.ScopesEvolve h') :
    h'.Declares s name := by
  obtain ⟨hs, b, hb, x, hx, hdelete⟩ := hs
  obtain ⟨b', hb', hevolves⟩ := (hev.scope s hs).bindings b hb
  obtain ⟨x', hx', hx⟩ := hevolves name x hx hdelete
  exact ⟨Nat.lt_of_lt_of_le hs hev.size_le, b', hb', x', hx', hx.canDelete.trans hdelete⟩

theorem declares_modifyScope {b b' : Bindings} {x : Binding} (hs : s.index < h.scopes.size)
    (hb : (h.scope s).record.bindings? = some b) (hx : b'.find? name = some x)
    (hdelete : x.canDelete = false) :
    (h.modifyScope s fun scope ↦
      { scope with record := scope.record.withBindings b' }).Declares s name := by
  refine ⟨by simpa [modifyScope] using hs, b', ?_, x, hx, hdelete⟩
  rw [scope_modifyScope_self hs]
  exact ScopeRecord.bindings?_withBindings hb b'

end Heap

def Fact.HoldsIn (h : Heap) : Fact → Prop
  | .holder s => h.IsHolder s
  | .declared s name => h.Declares s name

theorem Fact.HoldsIn.evolves {fact : Fact} {h h' : Heap} (hfact : fact.HoldsIn h)
    (hev : h.ScopesEvolve h') : fact.HoldsIn h' := by
  cases fact with
  | holder s => exact Heap.IsHolder.evolves hfact hev
  | declared s name => exact Heap.Declares.evolves hfact hev

end Ecma
