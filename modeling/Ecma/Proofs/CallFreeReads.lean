import Ecma.Proofs.PropertyPatches

/-!
# Reading without calls

Looking for a property may resolve a cell, and the resolver may read an accessor,
whose getter may do anything.  As long as no function is called, nothing comes of
reading but values in the place of lazy properties.  Whether a function is called
shows when the same is done by an engine that gives up at the first call.
-/

namespace Ecma

/-! ## An engine that calls nothing -/

namespace Engine

/-- Reads properties, those that a resolver asks for among them, and gives up at the first
call. -/
def reading : Nat → Engine
  | 0 => exhausted
  | n + 1 => { exhausted with fuel := n + 1, get := Object.get (reading n) }

@[simp] theorem fuel_reading (n : Nat) : (reading n).fuel = n := by
  cases n <;> rfl

theorem call_reading (n : Nat) : (reading n).call = fun _ _ _ ↦ Action.fault .outOfFuel := by
  cases n <;> rfl

/-- At the level `n` no function is called: the operation comes to the same end where none can
be. -/
def CallsNothing {α : Type} (n : Nat) (m : Engine → Action α) (σ : State) : Prop :=
  (m (.reading n)).run σ = (m (.level n)).run σ

end Engine

/-! ## Reading one property -/

/-- What an action that succeeds comes to, with the state that it leaves. -/
theorem Action.run_eq_of_toOption {α : Type} {m : Action α} {σ : State} {a : α}
    (h : (m.run σ).1.toOption = some a) : m.run σ = (.ok a, (m.run σ).2) := by
  rcases hrun : m.run σ with ⟨e | b, τ⟩
  · rw [hrun] at h
    cases h
  · rw [hrun] at h
    cases h
    rfl

/-- What a read that succeeds has found: nothing, a property that shows itself, or a lazy one, whose
cell it has resolved. -/
theorem Object.run_getOwn_cases {eng : Engine} {o : ObjectRef} {k : PropertyKey} {σ τ : State}
    {found : Option Descriptor} (hrun : (getOwn eng o k).run σ = (.ok found, τ)) :
    (found = none ∧ σ.heap.own? o k = none ∧ τ = σ) ∨
    (∃ d, σ.heap.own? o k = some d ∧ (∀ c, d.form ≠ .lazy c) ∧
      found = some (d.shownIn σ.heap) ∧ τ = σ) ∨
    ∃ a c v ρ, σ.heap.own? o k = some ⟨a, .lazy c⟩ ∧
      (Lazy.resolve eng c k.display).run σ = (.ok v, ρ) ∧ found = some ⟨a, .data (some v)⟩ ∧
      τ = { ρ with heap := ρ.heap.modifyObject o (memoize k c v) } := by
  cases hown : σ.heap.own? o k with
  | none =>
      cases hrun.symm.trans (run_getOwn_none eng hown)
      exact .inl ⟨rfl, rfl, rfl⟩
  | some d =>
      obtain ⟨a, form⟩ := d
      by_cases hlazy : ∃ c, form = .lazy c
      · obtain ⟨c, rfl⟩ := hlazy
        rw [run_getOwn_lazy_eq eng hown] at hrun
        rcases hresolve : (Lazy.resolve eng c k.display).run σ with ⟨e | v, ρ⟩
        · rw [hresolve] at hrun
          cases hrun
        · rw [hresolve] at hrun
          cases hrun
          exact .inr (.inr ⟨a, c, v, ρ, rfl, hresolve, rfl, rfl⟩)
      · have hform (c : CellRef) : form ≠ .lazy c := fun h ↦ hlazy ⟨c, h⟩
        cases hrun.symm.trans (run_getOwn_shown eng hown hform)
        exact .inr (.inl ⟨_, rfl, hform, rfl, rfl⟩)

/-! ## What does not depend on calls -/

section WithCall

variable (eng : Engine) (call : Value → Value → List Value → Action Value)

theorem Lazy.runSteps_withCall (steps : List ResolverStep) :
    runSteps { eng with call } steps = runSteps eng steps := by
  induction steps with
  | nil => rfl
  | cons step rest ih =>
      rw [runSteps, runSteps, ih]
      cases step <;> rfl

theorem Object.getOwn_withCall (o : ObjectRef) (k : PropertyKey) :
    getOwn { eng with call } o k = getOwn eng o k := by
  simp only [getOwn, Lazy.resolve, Lazy.runSteps_withCall]

theorem Object.findFrom_withCall (k : PropertyKey) (n : Nat) (o : ObjectRef) :
    findFrom { eng with call } k n o = findFrom eng k n o := by
  induction n generalizing o with
  | zero => rfl
  | succ n ih => simp only [findFrom, getOwn_withCall, ih]

theorem Object.find_withCall (o : ObjectRef) (k : PropertyKey) :
    find { eng with call } o k = find eng o k :=
  findFrom_withCall eng call k eng.fuel o

theorem Object.define_withCall (o : ObjectRef) (k : PropertyKey) (patch : Descriptor) :
    define { eng with call } o k patch = define eng o k patch := by
  simp only [define, getOwn_withCall]

theorem Object.setOnReceiver_withCall (k : PropertyKey) (v receiver : Value) :
    setOnReceiver { eng with call } k v receiver = setOnReceiver eng k v receiver := by
  cases receiver with
  | object r => simp only [setOnReceiver, getOwn_withCall, createData, define_withCall]
  | _ => rfl

end WithCall

/-! ## Where nothing is called -/

/-- Unless the first action runs out of fuel, the second one does the same. -/
def Action.Follows {α : Type} (m m' : Action α) : Prop :=
  ∀ σ r τ, m.run σ = (r, τ) → r ≠ .error (.fault .outOfFuel) → m'.run σ = (r, τ)

namespace Action.Follows

variable {α β : Type} {m m' : Action α}

theorem refl (m : Action α) : m.Follows m := fun _ _ _ hrun _ ↦ hrun

theorem fault_outOfFuel (m : Action α) : (fault .outOfFuel).Follows m := by
  intro σ r τ hrun hr
  cases hrun
  exact absurd rfl hr

theorem bind {f f' : α → Action β} (hm : m.Follows m') (hf : ∀ a, (f a).Follows (f' a)) :
    (m >>= f).Follows (m' >>= f') := by
  intro σ r τ hrun hr
  rw [run_bind] at hrun ⊢
  rcases hfirst : m.run σ with ⟨e | a, ρ⟩
  · rw [hfirst] at hrun
    cases hrun
    have he : Except.error e ≠ (.error (.fault .outOfFuel) : Except Failure α) :=
      fun h ↦ hr (congrArg _ (Except.error.inj h))
    rw [hm σ _ _ hfirst he]
  · rw [hfirst] at hrun
    rw [hm σ _ ρ hfirst nofun]
    exact hf a ρ r τ hrun hr

theorem discard (hm : m.Follows m') : (discard m).Follows (discard m') := by
  change ((fun _ ↦ ()) <$> m).Follows ((fun _ ↦ ()) <$> m')
  rw [← bind_pure_comp, ← bind_pure_comp]
  exact hm.bind fun _ ↦ .refl _

end Action.Follows

section Follows

open Ecma.Action

variable {eng eng' : Engine} (hfuel : eng.fuel = eng'.fuel)
  (hget : ∀ o k receiver, (eng.get o k receiver).Follows (eng'.get o k receiver))

include hget

/-- What another interpreter runs out of is not taken for an outcome. -/
theorem Lazy.follows_readApart (o : ObjectRef) (k : PropertyKey) :
    (readApart eng o k).Follows (readApart eng' o k) := by
  intro σ r τ hrun hr
  rw [run_readApart] at hrun ⊢
  rcases hread : (eng.get o k (.object o)).run σ.beside with ⟨result, inner⟩
  by_cases hresult : result = .error (.fault .outOfFuel)
  · subst hresult
    rw [hread] at hrun
    cases hrun
    exact absurd rfl hr
  · rw [hget o k (.object o) σ.beside result inner hread hresult, ← hread]
    exact hrun

theorem Lazy.follows_resolve (c : CellRef) (key : String) :
    (resolve eng c key).Follows (resolve eng' c key) := by
  have hsteps (steps : List ResolverStep) : (runSteps eng steps).Follows (runSteps eng' steps) := by
    induction steps with
    | nil => exact .refl _
    | cons step rest ih =>
        cases step with
        | log line => exact .bind (.refl _) fun _ ↦ ih
        | read o k => exact .bind (follows_readApart hget o k) fun _ ↦ ih
  refine .bind (.refl _) fun h ↦ ?_
  split
  · exact .refl _
  · exact .refl _
  · exact .bind (.refl _) fun _ ↦ .bind (hsteps _) fun _ ↦ .refl _

theorem Object.follows_getOwn (o : ObjectRef) (k : PropertyKey) :
    (getOwn eng o k).Follows (getOwn eng' o k) := by
  refine .bind (.refl _) fun h ↦ ?_
  split
  · exact .refl _
  · exact .bind (Lazy.follows_resolve hget _ _) fun _ ↦ .refl _
  · exact .refl _
  · exact .refl _

theorem Object.follows_findFrom (k : PropertyKey) (n : Nat) (o : ObjectRef) :
    (findFrom eng k n o).Follows (findFrom eng' k n o) := by
  induction n generalizing o with
  | zero => exact .refl _
  | succ n ih =>
      refine .bind (follows_getOwn hget o k) fun found ↦ ?_
      split
      · exact .refl _
      · refine .bind (.refl _) fun data ↦ ?_
        split
        · exact ih _
        · exact .refl _

theorem Object.follows_define (o : ObjectRef) (k : PropertyKey) (patch : Descriptor) :
    (define eng o k patch).Follows (define eng' o k patch) :=
  .bind (follows_getOwn hget o k) fun _ ↦ .refl _

theorem Object.follows_setOnReceiver (k : PropertyKey) (v receiver : Value) :
    (setOnReceiver eng k v receiver).Follows (setOnReceiver eng' k v receiver) := by
  cases receiver with
  | object r =>
      refine .bind (follows_getOwn hget r k) fun found ↦ ?_
      split
      · split
        · exact .refl _
        · exact follows_define hget _ _ _
      · exact follows_define hget _ _ _
  | _ => exact .refl _

variable (hcall : ∀ f this args, (eng.call f this args).Follows (eng'.call f this args))

include hfuel hcall

theorem Object.follows_get (o : ObjectRef) (k : PropertyKey) (receiver : Value) :
    (get eng o k receiver).Follows (get eng' o k receiver) := by
  unfold get find
  rw [hfuel]
  refine .bind (follows_findFrom hget k _ o) fun found ↦ ?_
  split
  · exact .refl _
  · split
    · dsimp only
      split
      · exact .refl _
      · exact hcall _ _ _
    · exact .refl _

theorem Object.follows_set (o : ObjectRef) (k : PropertyKey) (v receiver : Value) :
    (set eng o k v receiver).Follows (set eng' o k v receiver) := by
  unfold set find
  rw [hfuel]
  refine .bind (follows_findFrom hget k _ o) fun found ↦ ?_
  dsimp only
  split
  · split
    · exact follows_setOnReceiver hget k v receiver
    · exact .refl _
  · refine .bind (.refl _) fun callable ↦ ?_
    split
    · exact .bind (hcall _ _ _).discard fun _ ↦ .refl _
    · exact .refl _

end Follows

namespace Engine

/-- An engine that can call does what one does that cannot, as far as that comes. -/
theorem follows_get_reading (n : Nat) (o : ObjectRef) (k : PropertyKey) (receiver : Value) :
    ((reading n).get o k receiver).Follows ((level n).get o k receiver) := by
  induction n generalizing o k receiver with
  | zero => exact .refl _
  | succ n ih =>
      refine Object.follows_get (by simp) ih (fun f this args ↦ ?_) o k receiver
      rw [call_reading]
      exact .fault_outOfFuel _

theorem follows_set_reading (n : Nat) (o : ObjectRef) (k : PropertyKey) (v receiver : Value) :
    (Object.set (reading n) o k v receiver).Follows (Object.set (level n) o k v receiver) := by
  refine Object.follows_set (by simp) (follows_get_reading n) (fun f this args ↦ ?_) o k v receiver
  rw [call_reading]
  exact .fault_outOfFuel _

/-- It is enough that the engine that cannot call comes to an end. -/
theorem callsNothing_of_follows {α : Type} {n : Nat} {m : Engine → Action α} {σ : State}
    (hm : (m (reading n)).Follows (m (level n)))
    (hend : ((m (reading n)).run σ).1 ≠ .error (.fault .outOfFuel)) : CallsNothing n m σ := by
  rcases hrun : (m (reading n)).run σ with ⟨r, τ⟩
  rw [hrun] at hend
  rw [CallsNothing, hrun, hm σ r τ hrun hend]

/-- Such as with a result. -/
theorem callsNothing_of_isSome {α : Type} {n : Nat} {m : Engine → Action α} {σ : State}
    (hm : (m (reading n)).Follows (m (level n)))
    (hok : ((m (reading n)).run σ).1.toOption.isSome = true) : CallsNothing n m σ := by
  refine callsNothing_of_follows hm fun hend ↦ ?_
  rw [hend] at hok
  cases hok

end Engine

/-! ## Heaps that are as before -/

namespace Heap

variable {h h' h'' : Heap} {o : ObjectRef} {k : PropertyKey} {c : CellRef} {v : Value}

/-- All objects and variables are as before, except that lazy properties may have become data
with the value of their cell. -/
structure AsBefore (h h' : Heap) : Prop where
  prototype : ∀ o : ObjectRef, o.index < h.objects.size →
    (h'.object o).prototype = (h.object o).prototype
  extensible : ∀ o : ObjectRef, o.index < h.objects.size →
    (h'.object o).isExtensible = (h.object o).isExtensible
  keys : ∀ o : ObjectRef, o.index < h.objects.size → (h'.object o).ownKeys = (h.object o).ownKeys
  own : ∀ o : ObjectRef, o.index < h.objects.size → ∀ k, h'.own? o k = h.own? o k ∨
    ∃ a c v, h.own? o k = some ⟨a, .lazy c⟩ ∧ (h.cell c).value? = some v ∧
      h'.own? o k = some ⟨a, .data (some v)⟩
  scope : ∀ s : ScopeRef, s.index < h.scopes.size → h'.scope s = h.scope s

/-- While resolvers run, with what they make of the cells; no scope that is new has a variable. -/
structure Retains (h h' : Heap) : Prop extends h.Settles h' where
  extensible : ∀ o : ObjectRef, o.index < h.objects.size →
    (h'.object o).isExtensible = (h.object o).isExtensible
  boundValue : ∀ s name, h'.boundValue s name = h.boundValue s name

theorem boundValue_build (cutover : Nat) (h : Heap) (s : ScopeRef) (name : String) :
    (Realm.build cutover h).2.boundValue s name = h.boundValue s name := by
  obtain ⟨data, hscopes, hdata⟩ : ∃ data : Scope, (Realm.build cutover h).2.scopes =
      h.scopes.push data ∧ data.record.bindings? = some .empty := ⟨_, rfl, rfl⟩
  rw [Heap.boundValue, Heap.boundValue, scope, scope, hscopes]
  rcases Nat.lt_trichotomy s.index h.scopes.size with hlt | heq | hgt
  · simp [Array.getElem?_push, Nat.ne_of_lt hlt]
  · have hold : h.scopes[s.index]? = none := by simp [heq]
    simp only [Array.getD_eq_getD_getElem?, Array.getElem?_push, heq, if_true, Option.getD_some,
      hdata]
    rw [← heq, hold]
    rfl
  · simp [Array.getElem?_push, Nat.ne_of_gt hgt]

namespace Retains

theorem refl (h : Heap) : h.Retains h := ⟨h.settles_refl, fun _ _ ↦ rfl, fun _ _ ↦ rfl⟩

theorem trans (hr : h.Retains h') (hr' : h'.Retains h'') : h.Retains h'' :=
  ⟨hr.toSettles.trans hr'.toSettles, fun o ho ↦
    (hr'.extensible o (Nat.lt_of_lt_of_le ho hr.objects_le)).trans (hr.extensible o ho),
    fun s name ↦ (hr'.boundValue s name).trans (hr.boundValue s name)⟩

theorem build (cutover : Nat) (h : Heap) : h.Retains (Realm.build cutover h).2 := by
  have hg : h.Grows anyHost (Realm.build cutover h).2 := Realm.grows_build cutover h
  exact ⟨.build cutover h, fun o ho ↦ congrArg Object.isExtensible (hg.object_eq o ho),
    h.boundValue_build cutover⟩

/-- A new error is all that is new. -/
theorem of_gainsError {kind : ErrorKind} (hg : h.GainsError kind h')
    (hle : h.objects.size ≤ h'.objects.size) : h.Retains h' where
  size := by rw [hg.cells]
  cells := ⟨by rw [hg.cells], fun c _ ↦ by
    rw [cell, cell, hg.cells]
    exact .same _⟩
  objects_le := hle
  prototype o ho := by rw [hg.object_eq o ho]
  keys o ho := by rw [hg.object_eq o ho]
  own o ho k := .inl (by rw [own?, own?, hg.object_eq o ho])
  scopes_le := by rw [hg.scopes]
  scope s _ := by rw [Heap.scope, Heap.scope, hg.scopes]
  extensible o ho := by rw [hg.object_eq o ho]
  boundValue s name := by rw [Heap.boundValue, Heap.boundValue, Heap.scope, Heap.scope, hg.scopes]

theorem of_memoize (hh : h.IsStored) (ho : o.index < h.objects.size) (k : PropertyKey)
    (hc : h.cell c = .resolved v) : h.Retains (h.modifyObject o (Object.memoize k c v)) := by
  refine ⟨.of_memoize hh ho k hc, fun p _ ↦ ?_, fun _ _ ↦ rfl⟩
  by_cases hpo : p = o
  · rw [hpo, object_modifyObject_self ho]
    exact Object.isExtensible_modify _ _ _
  · rw [object_modifyObject_of_ne h hpo]

/-- The value that a property has got is the one that its cell had to give. -/
theorem asBefore (hr : h.Retains h') : h.AsBefore h' where
  prototype := hr.prototype
  extensible := hr.extensible
  keys := hr.keys
  own o ho k := by
    rcases hr.own o ho k with hsame | ⟨a, c, v, hlazy, hc, hvalue⟩
    · exact .inl hsame
    · have hlt : c.index < h.cells.size := hr.size ▸ lt_of_cell_ne_resolving (by simp [hc])
      exact .inr ⟨a, c, v, hlazy, hr.cells.value?_eq hlt (by rw [hc]; rfl), hvalue⟩
  scope := hr.scope

end Retains

end Heap

/-! ## Actions that only read -/

/-- Nothing changes but what reading does where no function is called. -/
def retaining : Discipline where
  toHostContract := anyHost
  Good σ := σ.heap.IsStored
  Step σ σ' := σ.heap.Retains σ'.heap
  refl σ := .refl σ.heap
  trans := Heap.Retains.trans
  fails _ _ := trivial
  patches _ _ := trivial

namespace retaining

open Discipline

variable {eng : Engine} (heng : ∀ o k receiver, retaining.Keeps (eng.get o k receiver))

theorem keeps_log (line : String) : retaining.Keeps (Action.log line) :=
  fun σ hσ ↦ ⟨hσ, .refl σ.heap, nofun⟩

include heng

theorem keeps_readApart (o : ObjectRef) (k : PropertyKey) :
    retaining.Keeps (Lazy.readApart eng o k) := by
  unfold Lazy.readApart
  dsimp only
  refine keeps_set_bind (fun σ hσ ↦ ?_) fun σ ↦ ?_
  · have hinner := heng o k (.object o) σ.beside
      (Heap.AllConform.of_grows hσ (fun _ _ ↦ trivial) (Realm.grows_build _ σ.heap))
    exact ⟨hinner.good, (Heap.Retains.build _ σ.heap).trans hinner.step⟩
  · split
    · exact keeps_log _
    · exact keeps_fault nofun
    · exact keeps_log _

theorem keeps_runSteps (steps : List ResolverStep) : retaining.Keeps (Lazy.runSteps eng steps) := by
  induction steps with
  | nil => exact keeps_pure ()
  | cons step rest ih =>
      cases step with
      | log line => exact (keeps_log line).bind fun _ ↦ ih
      | read o k => exact (keeps_readApart heng o k).bind fun _ ↦ ih

/-- A cell that is resolved holds the value from then on. -/
theorem allows_resolve (c : CellRef) (key : String) {σ τ : State} (hσ : σ.heap.IsStored)
    {r : Except Failure Value} (hrun : (Lazy.resolve eng c key).run σ = (r, τ)) :
    retaining.Allows σ (r, τ) ∧ ∀ v, r = .ok v → τ.heap.cell c = .resolved v := by
  rw [Lazy.run_resolve] at hrun
  cases hc : σ.heap.cell c with
  | resolved v =>
      rw [hc] at hrun
      cases hrun
      refine ⟨allows_ok hσ v, fun w hw ↦ ?_⟩
      cases hw
      exact hc
  | resolving =>
      rw [hc] at hrun
      cases hrun
      exact ⟨⟨hσ, .refl σ.heap, fun _ _ ↦ trivial⟩, nofun⟩
  | unresolved r =>
      have hmarking : σ.heap.Retains (σ.marking c).heap :=
        ⟨.of_marking hc, fun _ _ ↦ rfl, fun _ _ ↦ rfl⟩
      rw [hc] at hrun
      dsimp only at hrun
      have hsteps := keeps_runSteps heng r.steps (σ.marking c) hσ
      rcases hrest : (Lazy.runSteps eng r.steps).run (σ.marking c) with ⟨e | _, ρ⟩
      · rw [hrest] at hsteps hrun
        cases hrun
        exact ⟨⟨hsteps.good, hmarking.trans hsteps.step, fun _ _ ↦ trivial⟩, nofun⟩
      · rw [hrest] at hsteps hrun
        cases hrun
        have hstep : (σ.heap.setCell c .resolving).Retains ρ.heap := hsteps.step
        refine ⟨⟨hsteps.good,
          ⟨hstep.setCell_resolved hc, hstep.extensible, hstep.boundValue⟩, nofun⟩, ?_⟩
        rintro _ ⟨⟩
        exact Heap.cell_setCell_self (hstep.cells.cell_of_marked hc).1 _

theorem keeps_getOwn (o : ObjectRef) (k : PropertyKey) :
    retaining.Keeps (Object.getOwn eng o k) := by
  intro σ hσ
  rw [Object.run_getOwn]
  split
  next => exact allows_ok hσ _
  next a c hown =>
    rcases hrun : (Lazy.resolve eng c k.display).run σ with ⟨e | v, τ⟩
    · obtain ⟨hread, -⟩ := allows_resolve heng c k.display hσ hrun
      exact ⟨hread.good, hread.step, fun _ _ ↦ trivial⟩
    · obtain ⟨hread, hcell⟩ := allows_resolve heng c k.display hσ hrun
      have ho : o.index < τ.heap.objects.size :=
        Nat.lt_of_lt_of_le (Heap.lt_of_own? hown) hread.step.objects_le
      refine ⟨?_, hread.step.trans (.of_memoize hread.good ho k (hcell v rfl)), nofun⟩
      exact Heap.AllConform.modifyObject hread.good o fun _ hdata ↦ hdata.modify k fun _ _ ↦ trivial
  next => exact allows_ok hσ _
  next => exact allows_ok hσ _

/-- A property that has been read is not lazy any more. -/
theorem own?_of_run_getOwn {o : ObjectRef} {k : PropertyKey} {σ τ : State} {shown : Descriptor}
    (hσ : σ.heap.IsStored) (hrun : (Object.getOwn eng o k).run σ = (.ok (some shown), τ)) :
    ∃ d, τ.heap.own? o k = some d ∧ (∀ c, d.form ≠ .lazy c) ∧ d.shownIn τ.heap = shown := by
  rcases Object.run_getOwn_cases hrun with
    ⟨hnone, -⟩ | ⟨d, hown, hd, hshown, rfl⟩ | ⟨a, c, v, ρ, hown, hresolve, hshown, rfl⟩
  · cases hnone
  · exact ⟨d, hown, hd, (Option.some.inj hshown).symm⟩
  · cases Option.some.inj hshown
    obtain ⟨hread, hcell⟩ := allows_resolve heng c k.display hσ hresolve
    have ho := Heap.lt_of_own? hown
    have ho' : o.index < ρ.heap.objects.size := Nat.lt_of_lt_of_le ho hread.step.objects_le
    have hvalid := (hread.good o ho').valid
    refine ⟨⟨a, .data (some v)⟩, ?_, nofun, rfl⟩
    -- Nothing but the value of the cell can have taken its place meanwhile.
    rcases hread.step.own o ho k with hsame | ⟨a', c', v', hlazy, hc', hvalue⟩
    · exact Heap.own?_memoize ho' hvalid (hsame.trans hown) v
    · cases Option.some.inj (hown.symm.trans hlazy)
      cases LazyCell.resolved.inj ((hcell v rfl).symm.trans hc')
      rcases Heap.own?_memoize_cases ho' hvalid k c v k with hsame | ⟨_, hlazy', -⟩
      · exact hsame.trans hvalue
      · rw [hvalue] at hlazy'
        cases hlazy'

theorem keeps_findFrom (k : PropertyKey) (n : Nat) (o : ObjectRef) :
    retaining.Keeps (Object.findFrom eng k n o) := by
  induction n generalizing o with
  | zero => exact keeps_fault nofun
  | succ n ih =>
      refine (keeps_getOwn heng o k).bind fun found ↦ ?_
      split
      · exact keeps_pure _
      · refine (keeps_of_run_eq _ (Action.run_object o)).bind fun data ↦ ?_
        split
        · exact ih _
        · exact keeps_pure _

/-- Of all calls it is the getter's that matters. -/
theorem keeps_get (hcall : ∀ f this args, retaining.Keeps (eng.call f this args)) (o : ObjectRef)
    (k : PropertyKey) (receiver : Value) : retaining.Keeps (Object.get eng o k receiver) := by
  refine (keeps_findFrom heng k eng.fuel o).bind fun found ↦ ?_
  split
  · exact keeps_pure _
  · exact keeps_ite (keeps_ite (keeps_pure _) (hcall _ _ _)) (keeps_pure _)

omit heng in
theorem keeps_get_reading (n : Nat) (o : ObjectRef) (k : PropertyKey) (receiver : Value) :
    retaining.Keeps ((Engine.reading n).get o k receiver) := by
  induction n generalizing o k receiver with
  | zero => exact keeps_fault nofun
  | succ n ih =>
      refine keeps_get ih (fun f this args ↦ ?_) o k receiver
      rw [Engine.call_reading]
      exact keeps_fault nofun

end retaining

/-! ## Resolvers that come to their end -/

namespace Heap

variable {h h' h'' : Heap} {c : CellRef}

/-- No resolver runs that did not run before. -/
structure Concludes (h h' : Heap) : Prop where
  size_le : h.cells.size ≤ h'.cells.size
  cell : ∀ c, h'.cell c = .resolving → h.cell c = .resolving

theorem concludes_of_cells (hcells : h'.cells = h.cells) : h.Concludes h' where
  size_le := by rw [hcells]
  cell c hc := by
    rw [Heap.cell, hcells] at hc
    exact hc

theorem Concludes.trans (hc : h.Concludes h') (hc' : h'.Concludes h'') : h.Concludes h'' :=
  ⟨Nat.le_trans hc.size_le hc'.size_le, fun c hcell ↦ hc.cell c (hc'.cell c hcell)⟩

/-- The one resolver that was started meanwhile has given its value. -/
theorem Concludes.setCell_resolved {r : Resolver} (hc : h.cell c = .unresolved r)
    (hend : (h.setCell c .resolving).Concludes h') (v : Value) :
    h.Concludes (h'.setCell c (.resolved v)) := by
  have hlt := lt_of_cell_ne_resolving (h := h) (c := c) (by simp [hc])
  have hsize : h.cells.size ≤ h'.cells.size := by simpa using hend.size_le
  refine ⟨by simpa using hsize, fun c' hc' ↦ ?_⟩
  by_cases hne : c' = c
  · subst hne
    rw [cell_setCell_self (Nat.lt_of_lt_of_le hlt hsize)] at hc'
    cases hc'
  · rw [cell_setCell_of_ne h' hne] at hc'
    rw [← cell_setCell_of_ne h hne .resolving]
    exact hend.cell c' hc'

/-- What comes of reading where no function is called: besides, every cell has the value that it
had, or had to give. -/
structure Memoises (h h' : Heap) : Prop extends h.Retains h' where
  values : ∀ c, (h'.cell c).value? = (h.cell c).value?

theorem Retains.memoises (hr : h.Retains h') (hc : h.Concludes h') : h.Memoises h' := by
  refine ⟨hr, fun c ↦ ?_⟩
  cases hcell : h'.cell c with
  | resolving => rw [hc.cell c hcell]
  | unresolved r => rw [hr.unresolved hcell]
  | resolved v =>
      have hlt : c.index < h.cells.size := hr.size ▸ lt_of_cell_ne_resolving (by simp [hcell])
      exact (hr.cells.value?_eq hlt (by rw [hcell]; rfl)).symm

end Heap

/-- Unless the fuel runs out, the resolvers that the action starts come to their end. -/
def Action.Concludes {α : Type} (m : Action α) : Prop :=
  ∀ σ, (m.run σ).1 ≠ .error (.fault .outOfFuel) → σ.heap.Concludes (m.run σ).2.heap

namespace Action.Concludes

variable {α β : Type}

theorem of_cells {m : Action α} (hm : ∀ σ, (m.run σ).2.heap.cells = σ.heap.cells) : m.Concludes :=
  fun σ _ ↦ Heap.concludes_of_cells (hm σ)

theorem pure (a : α) : (pure a : Action α).Concludes := of_cells fun _ ↦ rfl

theorem bind {m : Action α} {f : α → Action β} (hm : m.Concludes) (hf : ∀ a, (f a).Concludes) :
    (m >>= f).Concludes := by
  intro σ hne
  rw [run_bind] at hne ⊢
  have hfirst := hm σ
  rcases hrun : m.run σ with ⟨e | a, τ⟩
  · rw [hrun] at hfirst hne
    exact hfirst fun h ↦ hne (congrArg Except.error (Except.error.inj h))
  · rw [hrun] at hfirst hne
    exact (hfirst nofun).trans (hf a τ hne)

theorem ite {c : Prop} [Decidable c] {m m' : Action α} (hm : m.Concludes) (hm' : m'.Concludes) :
    (if c then m else m').Concludes := by
  split
  · exact hm
  · exact hm'

end Action.Concludes

section Concluding

variable {eng : Engine} (heng : ∀ o k receiver, (eng.get o k receiver).Concludes)

include heng

theorem Lazy.concludes_readApart (o : ObjectRef) (k : PropertyKey) :
    (readApart eng o k).Concludes := by
  intro σ hne
  have hinner := heng o k (.object o) σ.beside
  rw [run_readApart] at hne ⊢
  rcases hrun : (eng.get o k (.object o)).run σ.beside with ⟨r, τ⟩
  rw [hrun] at hinner hne
  have hbuild : σ.heap.Concludes σ.beside.heap := Heap.concludes_of_cells rfl
  dsimp only [report] at hne ⊢
  split at hne
  · exact hbuild.trans (hinner nofun)
  · exact absurd rfl hne
  next hfuel => exact hbuild.trans (hinner fun h ↦ hfuel (Except.error.inj h))

theorem Lazy.concludes_runSteps (steps : List ResolverStep) : (runSteps eng steps).Concludes := by
  induction steps with
  | nil => exact .pure ()
  | cons step rest ih =>
      refine .bind ?_ fun _ ↦ ih
      cases step with
      | log line => exact .of_cells fun _ ↦ rfl
      | read o k => exact concludes_readApart heng o k

theorem Lazy.concludes_resolve (c : CellRef) (key : String) : (resolve eng c key).Concludes := by
  intro σ hne
  rw [run_resolve] at hne ⊢
  cases hc : σ.heap.cell c with
  | resolved v => exact Heap.concludes_of_cells rfl
  | resolving => exact Heap.concludes_of_cells rfl
  | unresolved r =>
      rw [hc] at hne
      dsimp only at hne ⊢
      have hsteps := concludes_runSteps heng r.steps (σ.marking c)
      rcases hrun : (runSteps eng r.steps).run (σ.marking c) with ⟨e | _, τ⟩
      · rw [hrun] at hne
        exact absurd (congrArg Except.error (eq_outOfFuel_of_run_runSteps hrun)) hne
      · rw [hrun] at hsteps
        exact (hsteps nofun).setCell_resolved hc r.value

theorem Object.concludes_getOwn (o : ObjectRef) (k : PropertyKey) : (getOwn eng o k).Concludes := by
  refine .bind (.of_cells fun _ ↦ rfl) fun h ↦ ?_
  split
  · exact .pure _
  · refine .bind (Lazy.concludes_resolve heng _ _) fun v ↦ ?_
    exact .bind (.of_cells fun _ ↦ rfl) fun _ ↦ .pure _
  · exact .bind (.of_cells fun _ ↦ rfl) fun _ ↦ .pure _
  · exact .pure _

theorem Object.concludes_findFrom (k : PropertyKey) (n : Nat) (o : ObjectRef) :
    (findFrom eng k n o).Concludes := by
  induction n generalizing o with
  | zero => exact .of_cells fun _ ↦ rfl
  | succ n ih =>
      refine .bind (concludes_getOwn heng o k) fun found ↦ ?_
      split
      · exact .pure _
      · refine .bind (.of_cells fun _ ↦ rfl) fun data ↦ ?_
        split
        · exact ih _
        · exact .pure _

omit heng in
theorem Engine.concludes_get_reading (n : Nat) (o : ObjectRef) (k : PropertyKey)
    (receiver : Value) : ((reading n).get o k receiver).Concludes := by
  induction n generalizing o k receiver with
  | zero => exact .of_cells fun _ ↦ rfl
  | succ n ih =>
      refine .bind (Object.concludes_findFrom ih k _ o) fun found ↦ ?_
      split
      · exact .pure _
      · refine .ite (.ite (.pure _) ?_) (.pure _)
        rw [call_reading]
        exact .of_cells fun _ ↦ rfl

end Concluding

/-! ## Actions that only read -/

/-- The action changes nothing but what reading does, and lets the resolvers that it starts come to
their end. -/
structure Action.OnlyReads {α : Type} (m : Action α) : Prop where
  keeps : retaining.Keeps m
  concludes : m.Concludes

namespace Action.OnlyReads

open Discipline

variable {α β : Type} {m : Action α}

theorem memoises (hm : m.OnlyReads) {σ τ : State} {r : Except Failure α}
    (hσ : σ.heap.IsStored) (hrun : m.run σ = (r, τ)) (hr : r ≠ .error (.fault .outOfFuel)) :
    τ.heap.IsStored ∧ σ.heap.Memoises τ.heap := by
  have hread := hm.keeps.allows hσ hrun
  have hend := hm.concludes σ
  rw [hrun] at hend
  exact ⟨hread.good, Heap.Retains.memoises hread.step (hend hr)⟩

/-- An action that leaves the state alone and does not fail. -/
theorem of_run_eq (f : State → α) (h : ∀ σ, m.run σ = (.ok (f σ), σ)) : m.OnlyReads :=
  ⟨keeps_of_run_eq f h, .of_cells fun σ ↦ by rw [h]⟩

theorem pure (a : α) : (pure a : Action α).OnlyReads := of_run_eq (fun _ ↦ a) fun _ ↦ rfl

theorem bind {f : α → Action β} (hm : m.OnlyReads) (hf : ∀ a, (f a).OnlyReads) :
    (m >>= f).OnlyReads :=
  ⟨hm.keeps.bind fun a ↦ (hf a).keeps, hm.concludes.bind fun a ↦ (hf a).concludes⟩

theorem ite {c : Prop} [Decidable c] {m' : Action α} (hm : m.OnlyReads) (hm' : m'.OnlyReads) :
    (if c then m else m').OnlyReads := by
  split
  · exact hm
  · exact hm'

theorem scope (s : ScopeRef) : (Action.scope s).OnlyReads :=
  of_run_eq (fun σ ↦ σ.heap.scope s) fun _ ↦ rfl

theorem object (o : ObjectRef) : (Action.object o).OnlyReads :=
  of_run_eq (fun σ ↦ σ.heap.object o) fun _ ↦ rfl

theorem throwNew (e : ScriptError) : (Action.throwNew e : Action α).OnlyReads := by
  refine ⟨fun σ hσ ↦ ?_, .of_cells fun _ ↦ rfl⟩
  have hstored := storing.base.keeps_raise (α := α) e.kind e.message σ hσ
  obtain ⟨heap, hgains, hrun⟩ := Action.throws_raise (α := α) e.kind e.message σ
  change retaining.Allows σ ((Action.raise e.kind e.message : Action α).run σ)
  rw [hrun] at hstored ⊢
  exact ⟨hstored.good, .of_gainsError hgains hstored.step, fun _ _ ↦ trivial⟩

theorem getOwn (n : Nat) (o : ObjectRef) (k : PropertyKey) :
    (Object.getOwn (.reading n) o k).OnlyReads :=
  ⟨retaining.keeps_getOwn (retaining.keeps_get_reading n) o k,
    Object.concludes_getOwn (Engine.concludes_get_reading n) o k⟩

end Action.OnlyReads

/-! ## Consulting properties -/

/-- The second state comes from the first by reading own properties under the key, one after the
other. -/
def State.Consults (eng : Engine) (k : PropertyKey) : State → State → Prop :=
  Relation.ReflTransGen fun σ τ ↦ ∃ o found, (Object.getOwn eng o k).run σ = (.ok found, τ)

namespace State

variable {eng : Engine} {k : PropertyKey} {o : ObjectRef} {σ ρ τ : State}
  {found : Option Descriptor}

theorem consults_getOwn (hrun : (Object.getOwn eng o k).run σ = (.ok found, τ)) :
    σ.Consults eng k τ :=
  .single ⟨o, found, hrun⟩

theorem Consults.trans (h : σ.Consults eng k ρ) (h' : ρ.Consults eng k τ) : σ.Consults eng k τ :=
  Relation.ReflTransGen.trans h h'

/-- What is looked up is looked for on one object after the other. -/
theorem consults_findFrom {n : Nat} (hrun : (Object.findFrom eng k n o).run σ = (.ok found, τ)) :
    σ.Consults eng k τ := by
  induction n generalizing o σ with
  | zero => cases hrun
  | succ n ih =>
      obtain ⟨own, ρ, hown, hrest⟩ := Action.run_bind_eq_ok hrun
      refine (consults_getOwn hown).trans ?_
      cases own with
      | some d =>
          cases hrest
          exact .refl
      | none =>
          dsimp only at hrest
          rw [Action.run_bind, Action.run_object] at hrest
          dsimp only at hrest
          split at hrest
          · exact ih hrest
          · cases hrest
            exact .refl

/-- Consulting properties keeps a discipline that reading each of them keeps. -/
theorem Consults.keeps {D : Discipline} (hD : ∀ o, D.Keeps (Object.getOwn eng o k))
    (h : σ.Consults eng k τ) (hσ : D.Good σ) : D.Good τ ∧ D.Step σ τ := by
  induction h with
  | refl => exact ⟨hσ, D.refl σ⟩
  | tail _ hread ih =>
      obtain ⟨o, found, hrun⟩ := hread
      have hstep := (hD o).allows ih.1 hrun
      exact ⟨hstep.good, D.trans ih.2 hstep.step⟩

theorem Consults.stored {n : Nat} (h : σ.Consults (.level n) k τ) (hσ : σ.heap.IsStored) :
    τ.heap.IsStored ∧ σ.heap.objects.size ≤ τ.heap.objects.size :=
  have heng := (storing.lawful.governs_level n).toHolds
  Consults.keeps (fun o ↦ storing.keeps_getOwn heng o k) h hσ

/-- Where nothing is called, consulting properties changes nothing else. -/
theorem Consults.retains {n : Nat} (h : σ.Consults (.reading n) k τ) (hσ : σ.heap.IsStored) :
    τ.heap.IsStored ∧ σ.heap.Retains τ.heap :=
  Consults.keeps (fun o ↦ retaining.keeps_getOwn (retaining.keeps_get_reading n) o k) h hσ

end State

end Ecma
