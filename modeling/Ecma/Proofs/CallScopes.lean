import Ecma.Proofs.FadingBindings
import Ecma.Proofs.ScopeEvolution

/-!
# The scope of a call

What is in the scope of a call when its body starts: every parameter has a value
and can be assigned, and `arguments` is the object that was made for it.  The
names are declared in a scope that has variables of its own, so all that happens
to objects meanwhile is that new ones are made.
-/

namespace Ecma

/-! ## Variables -/

namespace Bindings

variable {b b' : Bindings} {name other : String}

/-- The variable is there for good, and has been declared by no `const`. -/
def IsDeclared (b : Bindings) (name : String) : Prop :=
  ∃ x, b.find? name = some x ∧ x.canDelete = false ∧ x.isMutable = true

/-- Besides, it has a value. -/
def IsVariable (b : Bindings) (name : String) : Prop :=
  ∃ x, b.find? name = some x ∧ x.canDelete = false ∧ x.isMutable = true ∧ x.value.isSome

theorem IsDeclared.evolves (h : b.IsDeclared name) (hev : b.Evolves b') : b'.IsDeclared name := by
  obtain ⟨x, hx, hdelete, hmutable⟩ := h
  obtain ⟨x', hx', hxx'⟩ := hev name x hx hdelete
  exact ⟨x', hx', hxx'.canDelete.trans hdelete, hxx'.isMutable.trans hmutable⟩

theorem IsVariable.evolves (h : b.IsVariable name) (hev : b.Evolves b') : b'.IsVariable name := by
  obtain ⟨x, hx, hdelete, hmutable, hvalue⟩ := h
  obtain ⟨x', hx', hxx'⟩ := hev name x hx hdelete
  exact ⟨x', hx', hxx'.canDelete.trans hdelete, hxx'.isMutable.trans hmutable, hxx'.value hvalue⟩

theorem isDeclared_insert (b : Bindings) (name : String) :
    (b.insert name ⟨none, false, true, false⟩).IsDeclared name :=
  ⟨_, b.find?_insert_self name _, rfl, rfl⟩

theorem IsDeclared.write (h : b.IsDeclared name) (v : Value) :
    (b.write name v).IsVariable name := by
  obtain ⟨x, hx, hdelete, hmutable⟩ := h
  have hwrite : (b.write name v).find? name = some { x with value := some v } := by
    rw [find?_write_self, hx]
    rfl
  exact ⟨_, hwrite, hdelete, hmutable, rfl⟩

theorem get_of_value? {v : Value} (h : b.value? name = some v) : b.get name = .ok v := by
  obtain ⟨⟨value, _, _, _⟩, hx, rfl⟩ := Option.bind_eq_some_iff.1 h
  rw [get, hx]

theorem contains_of_value? {v : Value} (h : b.value? name = some v) : b.contains name = true := by
  obtain ⟨x, hx, -⟩ := Option.bind_eq_some_iff.1 h
  rw [contains, hx]
  rfl

namespace IsVariable

variable (h : b.IsVariable name)

include h

theorem value?_isSome : (b.value? name).isSome := by
  obtain ⟨x, hx, -, -, hvalue⟩ := h
  rw [value?, hx]
  exact hvalue

theorem contains : b.contains name = true := by
  obtain ⟨v, hv⟩ := Option.isSome_iff_exists.1 h.value?_isSome
  exact contains_of_value? hv

theorem store_eq (v : Value) : b.store name v = b.write name v := by
  obtain ⟨x, hx, -, hmutable, -⟩ := h
  simp [store, hx, hmutable]

/-- Assigning to it is what a bound property does. -/
theorem set (v : Value) (strict : Bool) : b.set name v strict = .ok (b.store name v) := by
  rw [h.store_eq]
  obtain ⟨x, hx, -, hmutable, hvalue⟩ := h
  obtain ⟨w, hw⟩ := Option.isSome_iff_exists.1 hvalue
  simp [Bindings.set, hx, hw, hmutable]

theorem value?_store (v : Value) : (b.store name v).value? name = some v := by
  rw [h.store_eq]
  obtain ⟨x, hx, -⟩ := h
  simp [value?, find?_write_self, hx]

end IsVariable

theorem value?_store_of_ne (b : Bindings) (h : other ≠ name) (v : Value) :
    (b.store name v).value? other = b.value? other := by
  unfold store
  split
  · split
    · rw [value?, find?_write_of_ne b h, value?]
    · rfl
  · rfl

end Bindings

namespace Heap

variable {h h' : Heap} {s s' : ScopeRef} {name other : String}

/-- The scope is there and holds a variable that has a value and can be assigned,
for good. -/
def IsVariable (h : Heap) (s : ScopeRef) (name : String) : Prop :=
  s.index < h.scopes.size ∧ ∃ b, (h.scope s).record.bindings? = some b ∧ b.IsVariable name

theorem IsVariable.evolves (hs : h.IsVariable s name) (hev : h.ScopesEvolve h') :
    h'.IsVariable s name := by
  obtain ⟨hs, b, hb, hname⟩ := hs
  obtain ⟨b', hb', hbb'⟩ := (hev.scope s hs).bindings b hb
  exact ⟨Nat.lt_of_lt_of_le hs hev.size_le, b', hb', hname.evolves hbb'⟩

/-- The value of a variable that the scope holds itself, once it has one. -/
def valueAt (h : Heap) (s : ScopeRef) (name : String) : Option Value :=
  (h.scope s).record.bindings?.bind (·.value? name)

theorem IsVariable.valueAt_eq (hs : h.IsVariable s name) :
    h.valueAt s name = some (h.boundValue s name) := by
  obtain ⟨-, b, hb, hname⟩ := hs
  obtain ⟨v, hv⟩ := Option.isSome_iff_exists.1 hname.value?_isSome
  rw [boundValue, valueAt, hb, Option.bind_some, hv]
  rfl

theorem modifyScope_congr {f g : Scope → Scope} (hfg : f (h.scope s) = g (h.scope s)) :
    h.modifyScope s f = h.modifyScope s g := by
  unfold modifyScope
  congr 1
  refine Array.ext (by simp) fun i hi hi' ↦ ?_
  have hlt : i < h.scopes.size := by simpa using hi
  rw [Array.getElem_modify, Array.getElem_modify]
  split
  next heq =>
    subst heq
    simpa [scope, hlt] using hfg
  next => rfl

theorem storeBound_eq {b : Bindings} (hb : (h.scope s).record.bindings? = some b) (v : Value) :
    h.storeBound s name v = h.modifyScope s fun scope ↦
      { scope with record := scope.record.withBindings (b.store name v) } :=
  modifyScope_congr (by rw [hb])

theorem boundValue_storeBound_self (hs : h.IsVariable s name) (v : Value) :
    (h.storeBound s name v).boundValue s name = v := by
  obtain ⟨hs, b, hb, hname⟩ := hs
  rw [storeBound_eq hb, boundValue, scope_modifyScope_self hs,
    ScopeRecord.bindings?_withBindings hb, Option.bind_some, hname.value?_store]
  rfl

theorem boundValue_storeBound_of_ne (hs : h.IsVariable s name) (hne : other ≠ name) (v : Value) :
    (h.storeBound s name v).boundValue s other = h.boundValue s other := by
  obtain ⟨hs, b, hb, -⟩ := hs
  rw [storeBound_eq hb, boundValue, scope_modifyScope_self hs,
    ScopeRecord.bindings?_withBindings hb, boundValue, hb, Option.bind_some, Option.bind_some,
    b.value?_store_of_ne hne]

end Heap

namespace Scope

variable {σ : State} {s : ScopeRef} {name : String}

/-- Reading a variable of the scope's own that has a value runs nothing. -/
theorem run_get_of_valueAt (eng : Engine) {v : Value} (hv : σ.heap.valueAt s name = some v)
    (strict : Bool) : (Scope.get eng s name strict).run σ = (.ok v, σ) := by
  obtain ⟨b, hb, hv⟩ := Option.bind_eq_some_iff.1 hv
  have hread : (readBindings b name).run σ = (.ok v, σ) := by
    rw [readBindings, Bindings.get_of_value? hv]
    rfl
  rw [Scope.get, Action.run_bind, Action.run_scope]
  dsimp only
  cases hrecord : (σ.heap.scope s).record with
  | declarative b' this =>
      rw [hrecord] at hb
      cases hb
      exact hread
  | object o isWith =>
      rw [hrecord] at hb
      cases hb
  | «global» o b' names =>
      rw [hrecord] at hb
      cases hb
      dsimp only
      rw [if_pos (Bindings.contains_of_value? hv)]
      exact hread

theorem run_get (eng : Engine) (hs : σ.heap.IsVariable s name) (strict : Bool) :
    (Scope.get eng s name strict).run σ = (.ok (σ.heap.boundValue s name), σ) :=
  run_get_of_valueAt eng hs.valueAt_eq strict

/-- Assigning to a variable does what writing through a bound property does. -/
theorem run_set (eng : Engine) (hs : σ.heap.IsVariable s name) (v : Value) (strict : Bool) :
    (Scope.set eng s name v strict).run σ =
      (.ok (), { σ with heap := σ.heap.storeBound s name v }) := by
  obtain ⟨-, b, hb, hname⟩ := hs
  have hwrite : (update s b (·.set name v strict)).run σ =
      (.ok (), { σ with heap := σ.heap.storeBound s name v }) := by
    rw [update, hname.set, Heap.storeBound_eq hb]
    rfl
  have hcontains : b.contains name = true := by
    obtain ⟨x, hx, -⟩ := hname
    simp [Bindings.contains, hx]
  rw [Scope.set, Action.run_bind, Action.run_scope]
  dsimp only
  cases hrecord : (σ.heap.scope s).record with
  | declarative b' this =>
      rw [hrecord] at hb
      cases hb
      exact hwrite
  | object o isWith =>
      rw [hrecord] at hb
      cases hb
  | «global» o b' names =>
      rw [hrecord] at hb
      cases hb
      dsimp only
      rw [if_pos hcontains]
      exact hwrite

end Scope

/-! ## Declaring names -/

namespace Bindings

variable {b b' b'' : Bindings} {name x : String}

/-- Nothing is taken back, and a variable `x` keeps its value. -/
def Spares (x : String) (b b' : Bindings) : Prop :=
  b.Evolves b' ∧ (b.IsVariable x → b'.value? x = b.value? x)

theorem spares_refl (x : String) (b : Bindings) : b.Spares x b := ⟨b.evolves_refl, fun _ ↦ rfl⟩

theorem Spares.trans (h : b.Spares x b') (h' : b'.Spares x b'') : b.Spares x b'' :=
  ⟨h.1.trans h'.1, fun hx ↦ (h'.2 (hx.evolves h.1)).trans (h.2 hx)⟩

/-- A name that is declared is not the name of a variable. -/
theorem ne_of_create {binding : Binding} (h : b.create name binding = .ok b')
    (hx : b.IsVariable x) : x ≠ name := by
  obtain ⟨habsent, -⟩ := create_eq_ok h
  obtain ⟨y, hy, -⟩ := hx
  rintro rfl
  simp [contains, hy] at habsent

theorem spares_create {binding : Binding} (h : b.create name binding = .ok b') (x : String) :
    b.Spares x b' := by
  refine ⟨evolves_create h, fun hx ↦ ?_⟩
  rw [(create_eq_ok h).2, value?, find?_insert_of_ne b (ne_of_create h hx), value?]

theorem spares_write (b : Bindings) (hne : name ≠ x) (v : Value) : b.Spares x (b.write name v) := by
  refine ⟨b.evolves_write name v, fun _ ↦ ?_⟩
  rw [value?, find?_write_of_ne b hne.symm, value?]

theorem spares_set {v : Value} {strict : Bool} (hne : name ≠ x) (h : b.set name v strict = .ok b') :
    b.Spares x b' := by
  refine ⟨evolves_set h, fun _ ↦ ?_⟩
  cases hfind : b.find? name with
  | none =>
      cases strict with
      | true => simp [set, hfind] at h
      | false =>
          rw [set_absent hfind] at h
          cases h
          rw [value?, find?_write_of_ne _ hne.symm, find?_insert_of_ne b hne.symm, value?]
  | some binding =>
      simp only [set, hfind] at h
      split at h
      · cases h
      · split at h
        · cases h
          rw [value?, find?_write_of_ne b hne.symm, value?]
        · split at h
          · cases h
          · cases h
            rfl

theorem spares_declare {v : Value} (h : b.createMutable name false = .ok b')
    (h' : b'.initialise name v = .ok b'') (x : String) : b.Spares x b'' := by
  rw [initialise_eq_ok h']
  have hspares := spares_create h x
  refine ⟨hspares.1.trans (b'.evolves_write name v), fun hx ↦ ?_⟩
  rw [value?, find?_write_of_ne b' (ne_of_create h hx), ← hspares.2 hx, value?]

theorem IsDeclared.set {v : Value} {strict : Bool} (hname : b.IsDeclared name)
    (h : b.set name v strict = .ok b') : b'.IsVariable name := by
  obtain ⟨y, hy, hdelete, hmutable⟩ := hname
  simp only [Bindings.set, hy, hmutable] at h
  split at h
  · cases h
  · cases h
    exact IsDeclared.write ⟨y, hy, hdelete, hmutable⟩ v

end Bindings

namespace Heap

/-- The scope is there, and its variables are its own. -/
def IsDeclarative (h : Heap) (s : ScopeRef) (b : Bindings) : Prop :=
  s.index < h.scopes.size ∧ ∃ this, (h.scope s).record = .declarative b this

theorem IsDeclarative.of_scopes {h h' : Heap} {s : ScopeRef} {b : Bindings}
    (hs : h.IsDeclarative s b) (hscopes : h'.scopes = h.scopes) : h'.IsDeclarative s b := by
  have hscope : h'.scope s = h.scope s := by simp [scope, hscopes]
  obtain ⟨hlt, this, hrecord⟩ := hs
  exact ⟨hscopes ▸ hlt, this, by rw [hscope, hrecord]⟩

theorem IsDeclarative.evolves {h h' : Heap} {s : ScopeRef} {b : Bindings}
    (hs : h.IsDeclarative s b) (hev : h.ScopesEvolve h') :
    ∃ b', h'.IsDeclarative s b' ∧ b.Evolves b' := by
  obtain ⟨hlt, this, hrecord⟩ := hs
  have hscope := hev.scope s hlt
  obtain ⟨b', hrecord'⟩ := hscope.declarative b this hrecord
  obtain ⟨b'', hb'', hbb'⟩ := hscope.bindings b (by rw [hrecord]; rfl)
  rw [hrecord'] at hb''
  cases hb''
  exact ⟨b', ⟨Nat.lt_of_lt_of_le hlt hev.size_le, this, hrecord'⟩, hbb'⟩

theorem IsDeclarative.isVariable {h : Heap} {s : ScopeRef} {b : Bindings} {name : String}
    (hs : h.IsDeclarative s b) (hname : b.IsVariable name) : h.IsVariable s name := by
  obtain ⟨hlt, this, hrecord⟩ := hs
  exact ⟨hlt, b, by rw [hrecord]; rfl, hname⟩

end Heap

namespace Action

variable {α β : Type} {s : ScopeRef} {R R' R'' : Bindings → Bindings → Prop}

/-- Where it succeeds, the action changes the variables of a scope that are its own
as `R` says; besides, it only makes new objects. -/
def Updates (s : ScopeRef) (R : Bindings → Bindings → Prop) (m : Action α) : Prop :=
  ∀ σ b a τ, σ.heap.IsDeclarative s b → m.run σ = (.ok a, τ) →
    σ.heap.Grows unboundHost τ.heap ∧ ∃ b', τ.heap.IsDeclarative s b' ∧ R b b'

theorem updates_pure (hR : ∀ b, R b b) (a : α) : Updates s R (pure a) := by
  intro σ b a τ hs hrun
  cases hrun
  exact ⟨σ.heap.grows_refl, b, hs, hR b⟩

theorem Updates.bind {m : Action α} {f : α → Action β} (hm : Updates s R m)
    (hf : ∀ a, Updates s R' (f a)) (hR : ∀ b b' b'', R b b' → R' b' b'' → R'' b b'') :
    Updates s R'' (m >>= f) := by
  intro σ b c τ hs hrun
  obtain ⟨a, σ₁, hfirst, hnext⟩ := run_bind_eq_ok hrun
  obtain ⟨hgrows, b', hs', hbb'⟩ := hm σ b a σ₁ hs hfirst
  obtain ⟨hgrows', b'', hs'', hb'b''⟩ := hf a σ₁ b' c τ hs' hnext
  exact ⟨hgrows.trans hgrows', b'', hs'', hR b b' b'' hbb' hb'b''⟩

theorem Updates.mono {m : Action α} (hm : Updates s R m) (hR : ∀ b b', R b b' → R' b b') :
    Updates s R' m := by
  intro σ b a τ hs hrun
  obtain ⟨hgrows, b', hs', hbb'⟩ := hm σ b a τ hs hrun
  exact ⟨hgrows, b', hs', hR b b' hbb'⟩

theorem updates_of_update {m : Action Unit} {f : Bindings → Except BindingError Bindings}
    (hm : ∀ (σ : State) b this, (σ.heap.scope s).record = .declarative b this →
      m.run σ = (Scope.update s b f).run σ) : Updates s (fun b b' ↦ f b = .ok b') m := by
  rintro σ b a τ ⟨hlt, this, hrecord⟩ hrun
  rw [hm σ b this hrecord, Scope.update] at hrun
  split at hrun
  next b' hb' =>
    cases hrun
    refine ⟨⟨Nat.le_refl _, fun _ _ ↦ rfl, fun o hle hlt ↦ ?_, Nat.le_refl _, fun _ _ ↦ rfl,
      fun c hle hlt ↦ ?_⟩, b', ⟨by simpa [Heap.modifyScope] using hlt, this, ?_⟩, hb'⟩
    · exact absurd hlt (Nat.not_lt_of_le hle)
    · exact absurd hlt (Nat.not_lt_of_le hle)
    · rw [Heap.scope_modifyScope_self hlt, hrecord]
      rfl
  next e _ =>
    cases e with
    | script e => cases hrun
    | neverCreated => cases hrun

variable (eng : Engine) (name : String)

theorem updates_createMutable :
    Updates s (fun b b' ↦ b.createMutable name false = .ok b')
      (Scope.createMutable eng s name false) := by
  refine updates_of_update fun σ b this hrecord ↦ ?_
  rw [Scope.createMutable, run_bind, run_scope]
  dsimp only
  rw [hrecord]

theorem updates_createImmutable (strict : Bool) :
    Updates s (fun b b' ↦ b.createImmutable name strict = .ok b')
      (Scope.createImmutable s name strict) := by
  refine updates_of_update fun σ b this hrecord ↦ ?_
  rw [Scope.createImmutable, run_bind, run_scope]
  dsimp only
  rw [hrecord]

theorem updates_initialise (v : Value) :
    Updates s (fun b b' ↦ b.initialise name v = .ok b') (Scope.initialise eng s name v) := by
  refine updates_of_update fun σ b this hrecord ↦ ?_
  rw [Scope.initialise, run_bind, run_scope]
  dsimp only
  rw [hrecord]

theorem updates_set (v : Value) (strict : Bool) :
    Updates s (fun b b' ↦ b.set name v strict = .ok b') (Scope.set eng s name v strict) := by
  refine updates_of_update fun σ b this hrecord ↦ ?_
  rw [Scope.set, run_bind, run_scope]
  dsimp only
  rw [hrecord]

end Action

namespace Function

open Ecma.Action

variable {s : ScopeRef} (eng : Engine)

theorem updates_createAll (names : List String) :
    Updates s (fun b b' ↦ b.Evolves b' ∧ ∀ name ∈ names, b'.IsDeclared name)
      (createAll eng s names) := by
  induction names with
  | nil => exact updates_pure (fun b ↦ ⟨b.evolves_refl, nofun⟩) ()
  | cons name rest ih =>
      refine (updates_createMutable eng name).bind (fun _ ↦ ih) fun b b' b'' hcreate hrest ↦ ?_
      obtain ⟨hev, hdeclared⟩ := hrest
      refine ⟨(Bindings.evolves_create hcreate).trans hev, fun other hother ↦ ?_⟩
      rcases List.mem_cons.1 hother with rfl | hother
      · rw [(Bindings.create_eq_ok hcreate).2] at hev
        exact (b.isDeclared_insert other).evolves hev
      · exact hdeclared other hother

theorem updates_bindParams {x : String} (strict : Bool) (bound : List String) {names : List String}
    (hx : x ∉ names) (args : List Value) :
    Updates s (fun b b' ↦ b.Spares x b' ∧ ∀ name ∈ names, b.IsDeclared name → b'.IsVariable name)
      (bindParams eng s strict bound names args) := by
  induction names generalizing bound args with
  | nil => exact updates_pure (fun b ↦ ⟨b.spares_refl x, nofun⟩) ()
  | cons name rest ih =>
      have hne : name ≠ x := fun heq ↦ hx (heq ▸ List.mem_cons_self)
      have hrest : x ∉ rest := fun hmem ↦ hx (List.mem_cons_of_mem _ hmem)
      have hfirst {m : Action Unit} (hm : Updates s (fun b b' ↦ b.Spares x b' ∧
          (b.IsDeclared name → b'.IsVariable name)) m) :
          Updates s (fun b b' ↦ b.Spares x b' ∧
              ∀ other ∈ name :: rest, b.IsDeclared other → b'.IsVariable other)
            (m >>= fun _ ↦ bindParams eng s strict (name :: bound) rest args.tail) := by
        refine hm.bind (fun _ ↦ ih _ hrest _) ?_
        rintro b b' b'' ⟨hspares, hname⟩ ⟨hspares', hnames⟩
        refine ⟨hspares.trans hspares', fun other hother hdeclared ↦ ?_⟩
        rcases List.mem_cons.1 hother with rfl | hother
        · exact (hname hdeclared).evolves hspares'.1
        · exact hnames other hother (hdeclared.evolves hspares.1)
      unfold bindParams
      dsimp only
      split
      · refine hfirst ((updates_set eng name _ strict).mono fun b b' h ↦ ⟨?_, ?_⟩)
        · exact Bindings.spares_set hne h
        · exact fun hdeclared ↦ hdeclared.set h
      · refine hfirst ((updates_initialise eng name _).mono fun b b' h ↦ ?_)
        rw [Bindings.initialise_eq_ok h]
        exact ⟨b.spares_write hne _, fun hdeclared ↦ hdeclared.write _⟩

variable {x : String}

theorem updates_createInitialised (name : String) (v : Value) {m : Action Unit}
    (hm : Updates s (Bindings.Spares x) m) : Updates s (Bindings.Spares x) (do
      Scope.createMutable eng s name false
      Scope.initialise eng s name v
      m) := by
  have hrest : Updates s (fun b c ↦ ∃ b', b.initialise name v = .ok b' ∧ b'.Spares x c)
      (do Scope.initialise eng s name v; m) :=
    (updates_initialise eng name v).bind (fun _ ↦ hm) fun b b' c h h' ↦ ⟨b', h, h'⟩
  refine (updates_createMutable eng name).bind (fun _ ↦ hrest) ?_
  rintro a b c hcreate ⟨b', hinitialise, hspares⟩
  exact (Bindings.spares_declare hcreate hinitialise x).trans hspares

theorem updates_createVars (names : List String) :
    Updates s (Bindings.Spares x) (createVars eng s names) := by
  induction names with
  | nil => exact updates_pure (Bindings.spares_refl x) ()
  | cons name rest ih => exact updates_createInitialised eng name _ ih

theorem updates_createLexical (names : List LexicalName) :
    Updates s (Bindings.Spares x) (createLexical eng s names) := by
  induction names with
  | nil => exact updates_pure (Bindings.spares_refl x) ()
  | cons l rest ih =>
      have hspares {b b' b'' : Bindings} {binding : Binding}
          (hcreate : b.create l.name binding = .ok b') (hrest : b'.Spares x b'') :
          b.Spares x b'' :=
        (Bindings.spares_create hcreate x).trans hrest
      unfold createLexical
      dsimp only
      split
      · exact (updates_createImmutable l.name true).bind (fun _ ↦ ih) fun _ _ _ ↦ hspares
      · exact (updates_createMutable eng l.name).bind (fun _ ↦ ih) fun _ _ _ ↦ hspares

theorem scopes_run_create (f : Callable) (name : String) (length : Nat) (σ : State) :
    ((create f name length).run σ).2.heap.scopes = σ.heap.scopes := by
  unfold create
  cases f.isConstructor <;> rfl

theorem updates_instantiate (f : FunctionNode) (scope : ScopeRef) (name : Option String) :
    Updates s (fun b b' ↦ b' = b) (instantiate f scope name) := by
  intro σ b a τ hs hrun
  obtain ⟨_, _, hrun', hgrows, -⟩ := allocates_instantiate (H := unboundHost) f scope name σ
    σ.heap.grows_refl
  cases hrun.symm.trans hrun'
  obtain ⟨_, _, hscope, hcreate⟩ := run_bind_eq_ok hrun
  cases hscope
  obtain ⟨o, _, hcreate, hpure⟩ := run_bind_eq_ok hcreate
  cases hpure
  have hscopes := scopes_run_create
    (.closure f scope ((σ.heap.scope scope).isStrict || Tree.isStrict f.body))
    ((name.or f.name?).getD "") f.params.length σ
  rw [hcreate] at hscopes
  exact ⟨hgrows, b, hs.of_scopes hscopes, rfl⟩

theorem updates_createFunctions (seen : List String) {fs : List FunctionNode}
    (hfs : ∀ f ∈ fs, f.name? ≠ some x) :
    Updates s (Bindings.Spares x) (createFunctions eng s seen fs) := by
  induction fs generalizing seen with
  | nil => exact updates_pure (Bindings.spares_refl x) ()
  | cons f rest ih =>
      have ih (seen : List String) := ih seen fun f hf ↦ hfs f (List.mem_cons_of_mem _ hf)
      unfold createFunctions
      split
      · exact ih seen
      next name hname =>
        have hne : name ≠ x := by
          rintro rfl
          exact hfs f List.mem_cons_self hname
        have hrest (closure : Value) : Updates s (Bindings.Spares x)
            (if seen.contains name then do
              Scope.set eng s name closure false
              createFunctions eng s (name :: seen) rest
            else do
              Scope.createMutable eng s name false
              Scope.initialise eng s name closure
              createFunctions eng s (name :: seen) rest) := by
          split
          · exact (updates_set eng name closure false).bind (fun _ ↦ ih _) fun _ _ _ h h' ↦
              (Bindings.spares_set hne h).trans h'
          · exact updates_createInitialised eng name closure (ih _)
        exact (updates_instantiate f s none).bind hrest fun _ _ _ h h' ↦ h ▸ h'

end Function

/-! ## The arguments object -/

namespace Arguments

/-- The arguments object of a sloppy call as it is made. -/
def mappedData (prototype : ObjectRef) (cutover : Nat) (callee : ObjectRef) (params : List String)
    (args : List Value) (s : ScopeRef) : Object :=
  (storeMapped s (mapped params args.length) (baseData prototype cutover args)).store
    (.ofString "callee") (.hidden (.object callee))

theorem run_createMapped (callee : ObjectRef) (params : List String) (args : List Value)
    (s : ScopeRef) (σ : State) :
    ∃ o heap, (createMapped callee params args s).run σ = (.ok o, { σ with heap }) ∧
      σ.heap.Grows unboundHost heap ∧ heap.scopes = σ.heap.scopes ∧
      o.index < heap.objects.size ∧ heap.object o =
        mappedData σ.realm.objectPrototype σ.options.cutover callee params args s := by
  let base := baseData σ.realm.objectPrototype σ.options.cutover args
  let made := σ.heap.addObject base
  let heap := (made.2.modifyObject made.1 (storeMapped s (mapped params args.length))).modifyObject
    made.1 (·.store (.ofString "callee") (.hidden (.object callee)))
  have hrun : (createMapped callee params args s).run σ = (.ok made.1, { σ with heap }) := rfl
  obtain ⟨_, _, hrun', hgrows, -⟩ :=
    allocates_createMapped (H := unboundHost) callee params args s σ σ.heap.grows_refl
  cases hrun.symm.trans hrun'
  have hlt : made.1.index < made.2.objects.size := by simp [made, Heap.addObject]
  refine ⟨made.1, heap, hrun, hgrows, rfl, by simpa [heap, Heap.modifyObject] using hlt, ?_⟩
  rw [Heap.object_modifyObject_self (by simpa [Heap.modifyObject] using hlt),
    Heap.object_modifyObject_self hlt, Heap.object_addObject_self]
  rfl

end Arguments

namespace Function

open Ecma.Action

/-- The arguments object is made, and `arguments` gets it as its value. -/
theorem creates_arguments (eng : Engine) {callee : ObjectRef} {f : FunctionNode} {s : ScopeRef}
    {args : List Value} {b : Bindings} {σ τ : State} (hs : σ.heap.IsDeclarative s b)
    (hrun : (createArguments eng callee f s false args).run σ = (.ok (), τ)) :
    ∃ ao prototype cutover b', σ.heap.Grows unboundHost τ.heap ∧
      ao.index < τ.heap.objects.size ∧
      τ.heap.object ao = Arguments.mappedData prototype cutover callee f.params args s ∧
      τ.heap.IsDeclarative s b' ∧ b.Evolves b' ∧ b'.IsVariable argumentsName ∧
      b'.value? argumentsName = some (.object ao) := by
  obtain ⟨ao, heap, hcreate, hgrows, hscopes, hlt, hobject⟩ :=
    Arguments.run_createMapped callee f.params args s σ
  simp only [createArguments, Bool.false_eq_true, if_false] at hrun
  rw [run_bind, hcreate] at hrun
  dsimp only at hrun
  obtain ⟨_, σ₁, hname, hvalue⟩ := run_bind_eq_ok hrun
  obtain ⟨hgrows₁, b₁, hs₁, hb₁⟩ :=
    updates_createMutable eng argumentsName _ _ _ _ (hs.of_scopes hscopes) hname
  obtain ⟨hgrows₂, b₂, hs₂, hb₂⟩ :=
    updates_initialise eng argumentsName (.object ao) _ _ _ _ hs₁ hvalue
  have hgrows' : heap.Grows unboundHost τ.heap := hgrows₁.trans hgrows₂
  have hdeclared : b₁.IsDeclared argumentsName := by
    rw [(Bindings.create_eq_ok hb₁).2]
    exact b.isDeclared_insert argumentsName
  refine ⟨ao, _, _, b₂, hgrows.trans hgrows', Nat.lt_of_lt_of_le hlt hgrows'.objects_le,
    (hgrows'.object_eq ao hlt).trans hobject, hs₂,
    (Bindings.evolves_create hb₁).trans (Bindings.evolves_initialise hb₂), ?_, ?_⟩
  · rw [Bindings.initialise_eq_ok hb₂]
    exact hdeclared.write _
  · obtain ⟨x, hx, -⟩ := hdeclared
    rw [Bindings.initialise_eq_ok hb₂, Bindings.value?, Bindings.find?_write_self, hx]
    rfl

/-- What is left to do once the arguments object is there. -/
theorem updates_rest (eng : Engine) {s : ScopeRef} (strict : Bool) {params : List String}
    {x : String} (hparams : x ∉ params) (args : List Value) (vars seen : List String)
    (lexical : List LexicalName) {fs : List FunctionNode} (hfs : ∀ f ∈ fs, f.name? ≠ some x) :
    Updates s (fun b b' ↦ b.Spares x b' ∧ ∀ name ∈ params, b.IsDeclared name → b'.IsVariable name)
      (do
        bindParams eng s strict [] params args
        createVars eng s vars
        createLexical eng s lexical
        createFunctions eng s seen fs) := by
  have hrest : Updates s (Bindings.Spares x) (do
      createVars eng s vars
      createLexical eng s lexical
      createFunctions eng s seen fs) := by
    refine (updates_createVars eng vars).bind (fun _ ↦ ?_) fun _ _ _ h h' ↦ h.trans h'
    exact (updates_createLexical eng lexical).bind (fun _ ↦ updates_createFunctions eng seen hfs)
      fun _ _ _ h h' ↦ h.trans h'
  refine (updates_bindParams eng strict [] hparams args).bind (fun _ ↦ hrest) ?_
  rintro b b' b'' ⟨hspares, hvariable⟩ hspares'
  exact ⟨hspares.trans hspares', fun name hname hdeclared ↦
    (hvariable name hname hdeclared).evolves hspares'.1⟩

/-- What a sloppy call that makes an arguments object finds when its body starts. -/
theorem declares_arguments (eng : Engine) {callee : ObjectRef} {f : FunctionNode} {s : ScopeRef}
    {args : List Value} {this : Option Value} {outer : Option ScopeRef} {σ σ₁ : State}
    (hs : s.index < σ.heap.scopes.size)
    (hscope : σ.heap.scope s = ⟨.declarative .empty this, outer, false⟩)
    (harguments : needsArguments f (.analyze f.body) = true)
    (hrun : (declare eng callee f s args).run σ = (.ok (), σ₁)) :
    ∃ ao prototype cutover, σ.heap.Grows unboundHost σ₁.heap ∧
      ao.index < σ₁.heap.objects.size ∧
      σ₁.heap.object ao = Arguments.mappedData prototype cutover callee f.params args s ∧
      (∀ name ∈ argumentsName :: f.params, σ₁.heap.IsVariable s name) ∧
      σ₁.heap.boundValue s argumentsName = .object ao := by
  have hneeds := harguments
  simp only [needsArguments, Bool.and_eq_true, Bool.not_eq_true', List.contains_eq_mem,
    decide_eq_false_iff_not] at hneeds
  obtain ⟨⟨⟨-, hparams⟩, hnames⟩, -⟩ := hneeds
  have hfunctions : ∀ g ∈ (Declarations.analyze f.body).functions, g.name? ≠ some argumentsName :=
    fun g hg hname ↦ hnames (List.mem_filterMap.2 ⟨g, hg, hname⟩)
  have hempty : σ.heap.IsDeclarative s .empty := ⟨hs, this, by rw [hscope]⟩
  rw [declare, run_bind, run_scope, hscope] at hrun
  dsimp only at hrun
  -- The parameters are declared, then the object is made, and the rest spares its name.
  obtain ⟨_, σ₂, hall, hrun⟩ := run_bind_eq_ok hrun
  obtain ⟨hgrows₂, b₂, hs₂, -, hdeclared⟩ := updates_createAll eng _ σ _ _ _ hempty hall
  rw [if_pos harguments] at hrun
  obtain ⟨_, σ₃, hmade, hrun⟩ := run_bind_eq_ok hrun
  obtain ⟨ao, prototype, cutover, b₃, hgrows₃, hlt, hobject, hs₃, hev, hvariable, hvalue⟩ :=
    creates_arguments eng hs₂ hmade
  obtain ⟨hgrows₁, b₁, hs₁, hspares, hparameters⟩ :=
    updates_rest eng false hparams args _ _ _ hfunctions σ₃ b₃ _ _ hs₃ hrun
  refine ⟨ao, prototype, cutover, (hgrows₂.trans hgrows₃).trans hgrows₁,
    Nat.lt_of_lt_of_le hlt hgrows₁.objects_le, (hgrows₁.object_eq ao hlt).trans hobject, ?_, ?_⟩
  · intro name hname
    refine hs₁.isVariable ?_
    rcases List.mem_cons.1 hname with rfl | hname
    · exact hvariable.evolves hspares.1
    · have hfresh : name ∈ fresh [] f.params := mem_fresh.2 ⟨hname, List.not_mem_nil⟩
      exact hparameters name hname ((hdeclared name hfresh).evolves hev)
  · obtain ⟨-, this, hrecord⟩ := hs₁
    have hkept := (hspares.2 hvariable).trans hvalue
    rw [Heap.boundValue, hrecord]
    simp [ScopeRecord.bindings?, hkept]

end Function

end Ecma
