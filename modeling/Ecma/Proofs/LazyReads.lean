import Ecma.Proofs.Memoisation
import Ecma.Proofs.Policy.Laws

/-!
# Resolvers that read

A resolver may read properties, lazy ones among them, and so start other
resolvers, which may read in turn.  As long as no accessor is read, nothing
comes of it but values in the place of cells: no object gains or loses a key,
and no property changes otherwise.  Each resolver that is started leaves one
cell less to resolve, so with fuel for that many nested reads every resolver
comes to its end, also one that reads its own property.
-/

namespace Ecma

namespace Heap

variable {h h' h'' : Heap} {o : ObjectRef} {k : PropertyKey} {c : CellRef} {v : Value}

/-- The stores of all objects are built by the operations of stores. -/
def IsStored (h : Heap) : Prop := h.AllConform (fun _ ↦ True) anyHost

/-! ## What reading changes -/

/-- Cells have been resolved, and some lazy properties have the value in their place;
the objects are otherwise the same, and so are the scopes. -/
structure Settles (h h' : Heap) : Prop where
  size : h'.cells.size = h.cells.size
  cells : h.CellsEvolve h'
  objects_le : h.objects.size ≤ h'.objects.size
  prototype : ∀ o : ObjectRef, o.index < h.objects.size →
    (h'.object o).prototype = (h.object o).prototype
  keys : ∀ o : ObjectRef, o.index < h.objects.size → (h'.object o).ownKeys = (h.object o).ownKeys
  own : ∀ o : ObjectRef, o.index < h.objects.size → ∀ k, h'.own? o k = h.own? o k ∨
    ∃ a c v, h.own? o k = some ⟨a, .lazy c⟩ ∧ h'.cell c = .resolved v ∧
      h'.own? o k = some ⟨a, .data (some v)⟩
  scopes_le : h.scopes.size ≤ h'.scopes.size
  scope : ∀ s : ScopeRef, s.index < h.scopes.size → h'.scope s = h.scope s

theorem settles_refl (h : Heap) : h.Settles h where
  size := rfl
  cells := h.cellsEvolve_refl
  objects_le := Nat.le_refl _
  prototype _ _ := rfl
  keys _ _ := rfl
  own _ _ _ := .inl rfl
  scopes_le := Nat.le_refl _
  scope _ _ := rfl

theorem CellsEvolve.cell_of_resolved (hev : h.CellsEvolve h') (hc : h.cell c = .resolved v) :
    h'.cell c = .resolved v := by
  have hcell := hev.cell c (lt_of_cell_ne_resolving (by simp [hc]))
  rw [hc] at hcell
  exact hcell.of_resolved

theorem CellsEvolve.unresolved (hev : h.CellsEvolve h') (hlt : c.index < h.cells.size)
    {r : Resolver} (hc : h'.cell c = .unresolved r) : h.cell c = .unresolved r := by
  have hcell := hev.cell c hlt
  rw [hc] at hcell
  generalize h.cell c = cell at hcell
  cases hcell with
  | same => rfl

namespace Settles

theorem trans (hs : h.Settles h') (hs' : h'.Settles h'') : h.Settles h'' where
  size := hs'.size.trans hs.size
  cells := hs.cells.trans hs'.cells
  objects_le := Nat.le_trans hs.objects_le hs'.objects_le
  prototype o ho :=
    (hs'.prototype o (Nat.lt_of_lt_of_le ho hs.objects_le)).trans (hs.prototype o ho)
  keys o ho := (hs'.keys o (Nat.lt_of_lt_of_le ho hs.objects_le)).trans (hs.keys o ho)
  own o ho k := by
    have ho' := Nat.lt_of_lt_of_le ho hs.objects_le
    rcases hs.own o ho k with hsame | ⟨a, c, v, hlazy, hc, hvalue⟩
    · rw [← hsame]
      exact hs'.own o ho' k
    · -- A property that has its value is not lazy any more.
      rcases hs'.own o ho' k with hsame' | ⟨_, _, _, hlazy', -, -⟩
      · exact .inr ⟨a, c, v, hlazy, hs'.cells.cell_of_resolved hc, hsame'.trans hvalue⟩
      · rw [hvalue] at hlazy'
        cases hlazy'
  scopes_le := Nat.le_trans hs.scopes_le hs'.scopes_le
  scope s hlt := (hs'.scope s (Nat.lt_of_lt_of_le hlt hs.scopes_le)).trans (hs.scope s hlt)

theorem unresolved (hs : h.Settles h') {r : Resolver} (hc : h'.cell c = .unresolved r) :
    h.cell c = .unresolved r :=
  hs.cells.unresolved (hs.size ▸ lt_of_cell_ne_resolving (by simp [hc])) hc

theorem of_marking {r : Resolver} (hc : h.cell c = .unresolved r) :
    h.Settles (h.setCell c .resolving) where
  size := by simp
  cells := cellsEvolve_setCell_resolving hc
  objects_le := Nat.le_refl _
  prototype _ _ := rfl
  keys _ _ := rfl
  own _ _ _ := .inl rfl
  scopes_le := Nat.le_refl _
  scope _ _ := rfl

/-- No property has got the value of the marked cell meanwhile. -/
theorem setCell_resolved {r : Resolver} (hc : h.cell c = .unresolved r)
    (hs : (h.setCell c .resolving).Settles h') :
    h.Settles (h'.setCell c (.resolved r.value)) where
  size := by simpa using hs.size
  cells := hs.cells.setCell_resolved hc
  objects_le := hs.objects_le
  prototype := hs.prototype
  keys := hs.keys
  own o ho k := by
    rcases hs.own o ho k with hsame | ⟨a, c', v, hlazy, hc', hvalue⟩
    · exact .inl hsame
    · have hne : c' ≠ c := by
        rintro rfl
        rw [(hs.cells.cell_of_marked hc).2] at hc'
        cases hc'
      exact .inr ⟨a, c', v, hlazy, (cell_setCell_of_ne h' hne _).trans hc', hvalue⟩
  scopes_le := hs.scopes_le
  scope := hs.scope

theorem build (cutover : Nat) (h : Heap) : h.Settles (Realm.build cutover h).2 := by
  have hg : h.Grows anyHost (Realm.build cutover h).2 := Realm.grows_build cutover h
  obtain ⟨data, hscopes⟩ := Realm.scopes_build cutover h
  exact
    { size := rfl
      cells := hg.evolves.cells
      objects_le := hg.objects_le
      prototype := fun o ho ↦ congrArg Object.prototype (hg.object_eq o ho)
      keys := fun o ho ↦ congrArg Object.ownKeys (hg.object_eq o ho)
      own := fun o ho k ↦ .inl (congrArg (Object.own? · k) (hg.object_eq o ho))
      scopes_le := by
        rw [hscopes, Array.size_push]
        exact Nat.le_succ _
      scope := fun s hs ↦ by
        simp [Heap.scope, hscopes, Array.getElem?_push, Nat.ne_of_lt hs] }

theorem of_memoize (hh : h.IsStored) (ho : o.index < h.objects.size) (k : PropertyKey)
    (hc : h.cell c = .resolved v) : h.Settles (h.modifyObject o (Object.memoize k c v)) where
  size := rfl
  cells := ⟨Nat.le_refl _, fun _ _ ↦ .same _⟩
  objects_le := by simp [modifyObject]
  prototype p _ := by
    by_cases hpo : p = o
    · rw [hpo, object_modifyObject_self ho]
      exact Object.prototype_modify _ _ _
    · rw [object_modifyObject_of_ne h hpo]
  keys p _ := by
    by_cases hpo : p = o
    · rw [hpo, object_modifyObject_self ho]
      exact (hh o ho).valid.ownKeys_modify k _
    · rw [object_modifyObject_of_ne h hpo]
  own p _ k' := by
    by_cases hpo : p = o
    · subst hpo
      rcases own?_memoize_cases ho (hh p ho).valid k c v k' with hsame | ⟨a, hlazy, hvalue⟩
      · exact .inl hsame
      · exact .inr ⟨a, c, v, hlazy, hc, hvalue⟩
    · exact .inl (by rw [own?, object_modifyObject_of_ne h hpo, own?])
  scopes_le := Nat.le_refl _
  scope _ _ := rfl

end Settles

/-! ## Plain reads -/

/-- The nearest property under the key, at most so many objects up the chain, is no
accessor, or there is none. -/
def ReadsPlainly (h : Heap) (k : PropertyKey) : Nat → ObjectRef → Prop
  | 0, _ => False
  | n + 1, o => o.index < h.objects.size ∧
    match h.own? o k with
    | some d => d.isAccessor = false
    | none => ∀ p, (h.object o).prototype = some p → ReadsPlainly h k n p

theorem readsPlainly_of_own? (n : Nat)
    (hown : (h.own? o k).map Descriptor.isAccessor = some false) : h.ReadsPlainly k (n + 1) o := by
  obtain ⟨d, hd, haccessor⟩ := Option.map_eq_some_iff.1 hown
  refine ⟨lt_of_own? hd, ?_⟩
  rw [hd]
  exact haccessor

theorem ReadsPlainly.settles {n : Nat} (ho : h.ReadsPlainly k n o) (hs : h.Settles h') :
    h'.ReadsPlainly k n o := by
  induction n generalizing o with
  | zero => exact ho
  | succ n ih =>
      obtain ⟨hlt, hread⟩ := ho
      refine ⟨Nat.lt_of_lt_of_le hlt hs.objects_le, ?_⟩
      rcases hs.own o hlt k with hsame | ⟨a, c, v, -, -, hvalue⟩
      · rw [hsame]
        cases hown : h.own? o k with
        | some d =>
            rw [hown] at hread
            exact hread
        | none =>
            rw [hown] at hread
            intro p hp
            exact ih (hread p (hs.prototype o hlt ▸ hp))
      · rw [hvalue]
        rfl

/-- The resolvers that have still to run are those of the listed cells, and they read
data and lazy properties only. -/
structure IsPlain (depth : Nat) (pending : List CellRef) (h : Heap) : Prop where
  stored : h.IsStored
  listed : ∀ c r, h.cell c = .unresolved r → c ∈ pending
  reads : ∀ c r, h.cell c = .unresolved r → ∀ o k, .read o k ∈ r.steps → h.ReadsPlainly k depth o

variable {depth : Nat} {pending : List CellRef}

theorem IsPlain.settles (hh : h.IsPlain depth pending) (hs : h.Settles h') (hstored : h'.IsStored) :
    h'.IsPlain depth pending where
  stored := hstored
  listed c r hc := hh.listed c r (hs.unresolved hc)
  reads c r hc o k hstep := (hh.reads c r (hs.unresolved hc) o k hstep).settles hs

/-- Once a resolver has been started, the others remain. -/
theorem IsPlain.marking (hh : h.IsPlain depth pending) {r : Resolver}
    (hc : h.cell c = .unresolved r) : (h.setCell c .resolving).IsPlain depth (pending.erase c) := by
  have hs : h.Settles (h.setCell c .resolving) := .of_marking hc
  have hplain := hh.settles hs hh.stored
  refine ⟨hplain.stored, fun c' r' hc' ↦ ?_, hplain.reads⟩
  have hne : c' ≠ c := by
    rintro rfl
    rw [cell_setCell_self (lt_of_cell_ne_resolving (by simp [hc]))] at hc'
    cases hc'
  exact (List.mem_erase_of_ne hne).2 (hplain.listed c' r' hc')

end Heap

/-! ## Runs of plain reads -/

/-- From a plain state the run comes to a plain one and only settles cells; if it
fails, it is as `Fails` says. -/
structure ReadsOnly {α : Type} (Fails : Failure → Prop) (σ : State)
    (r : Except Failure α × State) : Prop where
  settles : σ.heap.Settles r.2.heap
  stored : r.2.heap.IsStored
  fails : ∀ e, r.1 = .error e → Fails e

def Failure.IsShort (short : Prop) (e : Failure) : Prop := e = .fault .outOfFuel ∧ short

/-- The fuel was short, or a cell was read while its resolver ran. -/
def Failure.IsReentrancy (short : Prop) (e : Failure) : Prop :=
  (∃ key, e = .fault (.lazyReentrancy key)) ∨ e.IsShort short

/-- The engine reads plainly if it has fuel for one nested read for each resolver. -/
def Engine.ReadsAlong (depth : Nat) (eng : Engine) : Prop :=
  ∀ (pending : List CellRef) (σ : State) o k receiver, σ.heap.IsPlain depth pending →
    σ.heap.ReadsPlainly k depth o →
    ReadsOnly (Failure.IsReentrancy (eng.fuel ≤ pending.length + depth)) σ
      ((eng.get o k receiver).run σ)

namespace ReadsOnly

variable {α β : Type} {Fails : Failure → Prop} {σ τ : State}

theorem ok (hσ : σ.heap.IsStored) (a : α) : ReadsOnly Fails σ (.ok a, σ) :=
  ⟨σ.heap.settles_refl, hσ, nofun⟩

theorem error (hσ : σ.heap.IsStored) {e : Failure} (he : Fails e) :
    ReadsOnly Fails σ ((.error e, σ) : Except Failure α × State) :=
  ⟨σ.heap.settles_refl, hσ, fun _ h ↦ Except.error.inj h ▸ he⟩

theorem after {r : Except Failure α × State} (h : ReadsOnly Fails τ r)
    (hs : σ.heap.Settles τ.heap) : ReadsOnly Fails σ r :=
  ⟨hs.trans h.settles, h.stored, h.fails⟩

theorem mono {Fails' : Failure → Prop} {r : Except Failure α × State} (h : ReadsOnly Fails σ r)
    (hfails : ∀ e, Fails e → Fails' e) : ReadsOnly Fails' σ r :=
  ⟨h.settles, h.stored, fun e he ↦ hfails e (h.fails e he)⟩

theorem bind {m : Action α} {f : α → Action β} (hm : ReadsOnly Fails σ (m.run σ))
    (hf : ∀ a τ, m.run σ = (.ok a, τ) → ReadsOnly Fails τ ((f a).run τ)) :
    ReadsOnly Fails σ ((m >>= f).run σ) := by
  rw [Action.run_bind]
  rcases hrun : m.run σ with ⟨e | a, τ⟩
  · rw [hrun] at hm
    exact ⟨hm.settles, hm.stored, fun _ h ↦ hm.fails _ (congrArg _ (Except.error.inj h))⟩
  · rw [hrun] at hm
    exact (hf a τ hrun).after hm.settles

end ReadsOnly

section Reading

variable {depth : Nat} {eng : Engine} (heng : eng.ReadsAlong depth) {pending : List CellRef}
  {σ : State} (hσ : σ.heap.IsPlain depth pending)

include heng hσ

/-- A read through an interpreter beside this one; what it gave is only logged. -/
theorem Lazy.readsOnly_readApart {o : ObjectRef} {k : PropertyKey}
    (ho : σ.heap.ReadsPlainly k depth o) :
    ReadsOnly (Failure.IsShort (eng.fuel ≤ pending.length + depth)) σ
      ((readApart eng o k).run σ) := by
  have hs : σ.heap.Settles σ.beside.heap := .build _ _
  have hbeside := hσ.settles hs
    (Heap.AllConform.of_grows hσ.stored (fun _ _ ↦ trivial) (Realm.grows_build _ σ.heap))
  have hinner := heng pending σ.beside o k (.object o) hbeside (ho.settles hs)
  rw [run_readApart]
  generalize (eng.get o k (.object o)).run σ.beside = r at hinner
  obtain ⟨result, inner⟩ := r
  have hlogged (line : String) : ReadsOnly (Failure.IsShort (eng.fuel ≤ pending.length + depth)) σ
      ((Action.log line).run (σ.resume inner)) :=
    ⟨hs.trans hinner.settles, hinner.stored, nofun⟩
  dsimp only [report]
  split
  · exact hlogged _
  next hshort =>
    refine ⟨hs.trans hinner.settles, hinner.stored, fun e he ↦ ?_⟩
    cases Except.error.inj he
    refine ⟨rfl, ?_⟩
    rcases hinner.fails _ rfl with ⟨key, hkey⟩ | hshort
    · cases hkey
    · exact hshort.2
  · exact hlogged _

theorem Lazy.readsOnly_runSteps {steps : List ResolverStep}
    (hsteps : ∀ o k, .read o k ∈ steps → σ.heap.ReadsPlainly k depth o) :
    ReadsOnly (Failure.IsShort (eng.fuel ≤ pending.length + depth)) σ
      ((runSteps eng steps).run σ) := by
  induction steps generalizing σ with
  | nil => exact .ok hσ.stored ()
  | cons step rest ih =>
      rw [runSteps]
      have hstep : ReadsOnly (Failure.IsShort (eng.fuel ≤ pending.length + depth)) σ
          ((runStep eng step).run σ) := by
        cases step with
        | log line => exact ⟨σ.heap.settles_refl, hσ.stored, nofun⟩
        | read o k => exact readsOnly_readApart heng hσ (hsteps o k List.mem_cons_self)
      refine hstep.bind fun _ τ hrun ↦ ?_
      rw [hrun] at hstep
      refine ih (hσ.settles hstep.settles hstep.stored) fun o k hread ↦ ?_
      exact (hsteps o k (List.mem_cons_of_mem _ hread)).settles hstep.settles

/-- A resolver that has still to run yields its value, unless the fuel is short. -/
theorem Lazy.run_resolve_unresolved {c : CellRef} {r : Resolver}
    (hc : σ.heap.cell c = .unresolved r) (key : String) :
    ∃ τ, σ.heap.Settles τ.heap ∧ τ.heap.IsStored ∧
      ((resolve eng c key).run σ = (.ok r.value, τ) ∧ τ.heap.cell c = .resolved r.value ∨
        (resolve eng c key).run σ = (.error (.fault .outOfFuel), τ) ∧
          eng.fuel < pending.length + depth) := by
  have hsteps := readsOnly_runSteps (σ := σ.marking c) heng (hσ.marking hc) fun o k hread ↦
    (hσ.reads c r hc o k hread).settles (.of_marking hc)
  rw [run_resolve, hc]
  dsimp only
  rcases hrun : (runSteps eng r.steps).run (σ.marking c) with ⟨e | _, τ⟩
  · rw [hrun] at hsteps
    obtain ⟨rfl, hshort⟩ := hsteps.fails e rfl
    refine ⟨τ, (Heap.Settles.of_marking hc).trans hsteps.settles, hsteps.stored, .inr ⟨rfl, ?_⟩⟩
    have hmem := hσ.listed c r hc
    rw [List.length_erase_of_mem hmem] at hshort
    have hpos := List.length_pos_of_mem hmem
    omega
  · rw [hrun] at hsteps
    have hlt := (hsteps.settles.cells.cell_of_marked hc).1
    refine ⟨{ τ with heap := τ.heap.setCell c (.resolved r.value) },
      hsteps.settles.setCell_resolved hc, hsteps.stored, .inl ⟨rfl, ?_⟩⟩
    exact Heap.cell_setCell_self hlt _

/-- What comes of reading a lazy property: the value takes the place of the cell. -/
theorem Object.run_getOwn_lazy {o : ObjectRef} {k : PropertyKey} {a : Attributes} {c : CellRef}
    (hown : σ.heap.own? o k = some ⟨a, .lazy c⟩) :
    ∃ τ, σ.heap.Settles τ.heap ∧ τ.heap.IsStored ∧
      ((∃ v, (σ.heap.cell c).value? = some v ∧ τ.heap.cell c = .resolved v ∧
          τ.heap.own? o k = some ⟨a, .data (some v)⟩ ∧
          (getOwn eng o k).run σ = (.ok (some ⟨a, .data (some v)⟩), τ)) ∨
        σ.heap.cell c = .resolving ∧ τ = σ ∧
          (getOwn eng o k).run σ = (.error (.fault (.lazyReentrancy k.display)), σ) ∨
        (getOwn eng o k).run σ = (.error (.fault .outOfFuel), τ) ∧
          eng.fuel < pending.length + depth) := by
  have ho := Heap.lt_of_own? hown
  -- However the cell came to its value, the property gets it, unless it has it already.
  have hmemoize {τ : State} {v : Value} (hs : σ.heap.Settles τ.heap) (hstored : τ.heap.IsStored)
      (hc : τ.heap.cell c = .resolved v) :
      σ.heap.Settles (τ.heap.modifyObject o (memoize k c v)) ∧
        (τ.heap.modifyObject o (memoize k c v)).IsStored ∧
        (τ.heap.modifyObject o (memoize k c v)).own? o k = some ⟨a, .data (some v)⟩ := by
    have ho' := Nat.lt_of_lt_of_le ho hs.objects_le
    have hvalid := (hstored o ho').valid
    refine ⟨hs.trans (.of_memoize hstored ho' k hc), ?_, ?_⟩
    · exact Heap.AllConform.modifyObject hstored o fun _ hdata ↦ hdata.modify k fun _ _ ↦ trivial
    · rcases hs.own o ho k with hsame | ⟨a', c', v', hlazy, hc', hvalue⟩
      · exact Heap.own?_memoize ho' hvalid (hsame.trans hown) v
      · cases Option.some.inj (hown.symm.trans hlazy)
        cases LazyCell.resolved.inj (hc.symm.trans hc')
        rcases Heap.own?_memoize_cases ho' hvalid k c v k with hsame | ⟨_, hlazy', -⟩
        · exact hsame.trans hvalue
        · rw [hvalue] at hlazy'
          cases hlazy'
  rw [run_getOwn, hown]
  dsimp only
  cases hc : σ.heap.cell c with
  | resolved v =>
      obtain ⟨hs, hstored, hvalue⟩ := hmemoize σ.heap.settles_refl hσ.stored hc
      rw [Lazy.run_resolve, hc]
      exact ⟨{ σ with heap := σ.heap.modifyObject o (memoize k c v) }, hs, hstored,
        .inl ⟨v, rfl, hc, hvalue, rfl⟩⟩
  | resolving =>
      rw [Lazy.run_resolve, hc]
      exact ⟨σ, σ.heap.settles_refl, hσ.stored, .inr (.inl ⟨rfl, rfl, rfl⟩)⟩
  | unresolved r =>
      obtain ⟨τ, hs, hstored, ⟨hrun, hresolved⟩ | ⟨hrun, hshort⟩⟩ :=
        Lazy.run_resolve_unresolved heng hσ hc k.display
      · obtain ⟨hs', hstored', hvalue⟩ := hmemoize hs hstored hresolved
        rw [hrun]
        exact ⟨{ τ with heap := τ.heap.modifyObject o (memoize k c r.value) }, hs', hstored',
          .inl ⟨r.value, rfl, hresolved, hvalue, rfl⟩⟩
      · rw [hrun]
        exact ⟨τ, hs, hstored, .inr (.inr ⟨rfl, hshort⟩)⟩

theorem Object.readsOnly_getOwn (o : ObjectRef) (k : PropertyKey) :
    ReadsOnly (Failure.IsReentrancy (eng.fuel < pending.length + depth)) σ
      ((getOwn eng o k).run σ) := by
  cases hown : σ.heap.own? o k with
  | none =>
      rw [run_getOwn_none eng hown]
      exact .ok hσ.stored none
  | some d =>
      by_cases hlazy : ∃ c, d.form = .lazy c
      · obtain ⟨c, hform⟩ := hlazy
        obtain ⟨a, form⟩ := d
        cases hform
        obtain ⟨τ, hs, hstored, ⟨v, -, -, -, hrun⟩ | ⟨-, rfl, hrun⟩ | ⟨hrun, hshort⟩⟩ :=
          run_getOwn_lazy heng hσ hown
        · rw [hrun]
          exact ⟨hs, hstored, nofun⟩
        · rw [hrun]
          exact .error hσ.stored (.inl ⟨_, rfl⟩)
        · rw [hrun]
          exact ⟨hs, hstored, fun e he ↦ .inr ⟨(Except.error.inj he).symm, hshort⟩⟩
      · rw [run_getOwn_shown eng hown fun c hc ↦ hlazy ⟨c, hc⟩]
        exact .ok hσ.stored _

omit heng hσ in
theorem Object.isAccessor_of_run_getOwn {o : ObjectRef} {k : PropertyKey} {τ : State}
    {d shown : Descriptor} (hown : σ.heap.own? o k = some d) (hd : d.isAccessor = false)
    (hrun : (getOwn eng o k).run σ = (.ok (some shown), τ)) : shown.isAccessor = false := by
  rw [run_getOwn, hown] at hrun
  obtain ⟨a, form⟩ := d
  cases form with
  | lazy c =>
      dsimp only at hrun
      split at hrun
      · cases hrun
        rfl
      · cases hrun
  | bound scope name =>
      cases hrun
      rfl
  | _ =>
      cases hrun
      exact hd

omit heng hσ in
/-- A plain look-up finds a property that is no accessor, or knows that there is none,
unless there is no fuel for the way up. -/
theorem Object.run_findFrom_plain {n m : Nat} {o : ObjectRef} {k : PropertyKey}
    (ho : σ.heap.ReadsPlainly k m o) :
    (findFrom eng k n o).run σ = (.ok none, σ) ∨
      (findFrom eng k n o).run σ = (.error (.fault .outOfFuel), σ) ∧ n < m ∨
      ∃ p d, σ.heap.own? p k = some d ∧ d.isAccessor = false ∧
        (findFrom eng k n o).run σ = (getOwn eng p k).run σ := by
  induction n generalizing m o with
  | zero =>
      cases m with
      | zero => exact ho.elim
      | succ m => exact .inr (.inl ⟨rfl, Nat.zero_lt_succ m⟩)
  | succ n ih =>
      cases m with
      | zero => exact ho.elim
      | succ m =>
          obtain ⟨-, hread⟩ := ho
          cases hown : σ.heap.own? o k with
          | none =>
              rw [hown] at hread
              rw [run_findFrom_absent eng hown]
              cases hp : (σ.heap.object o).prototype with
              | none => exact .inl rfl
              | some p =>
                  rcases ih (hread p hp) with hnone | ⟨hshort, hlt⟩ | hfound
                  · exact .inl hnone
                  · exact .inr (.inl ⟨hshort, Nat.succ_lt_succ hlt⟩)
                  · exact .inr (.inr hfound)
          | some d =>
              rw [hown] at hread
              exact .inr (.inr ⟨o, d, hown, hread, run_findFrom_present eng hown n⟩)

theorem Object.readsOnly_get {o : ObjectRef} {k : PropertyKey}
    (ho : σ.heap.ReadsPlainly k depth o) (receiver : Value) :
    ReadsOnly (Failure.IsReentrancy (eng.fuel < pending.length + depth)) σ
      ((get eng o k receiver).run σ) := by
  unfold get find
  rw [Action.run_bind]
  rcases run_findFrom_plain ho with hnone | ⟨hshort, hlt⟩ | ⟨p, d, hown, hd, hfound⟩
  · rw [hnone]
    exact .ok hσ.stored _
  · rw [hshort]
    exact .error hσ.stored (.inr ⟨rfl, Nat.lt_add_left _ hlt⟩)
  · rw [hfound]
    have hread := readsOnly_getOwn heng hσ p k
    obtain ⟨r, τ, hrun⟩ := run_getOwn_present eng hown
    rw [hrun] at hread ⊢
    cases r with
    | error e =>
        exact ⟨hread.settles, hread.stored,
          fun _ h ↦ hread.fails _ (congrArg _ (Except.error.inj h))⟩
    | ok shown =>
        have hshown : shown.isAccessor = false := isAccessor_of_run_getOwn hown hd hrun
        dsimp only [Except.map]
        rw [if_neg (by simp [hshown])]
        exact ⟨hread.settles, hread.stored, nofun⟩

theorem ForIn.readsOnly_search (o : ObjectRef) (visited texts : List Text) :
    ReadsOnly (fun _ ↦ True) σ ((search eng o visited texts).run σ) := by
  induction texts generalizing σ visited with
  | nil => exact .ok hσ.stored _
  | cons t rest ih =>
      rw [search]
      split
      · exact ih hσ visited
      · have hread := (Object.readsOnly_getOwn heng hσ o (.string t)).mono fun _ _ ↦ trivial
        refine hread.bind fun found τ hrun ↦ ?_
        rw [hrun] at hread
        have hτ := hσ.settles hread.settles hread.stored
        cases found with
        | none => exact ih hτ visited
        | some d =>
            dsimp only
            split
            · exact .ok hτ.stored _
            · exact ih hτ _

theorem ForIn.readsOnly_nextFrom (m : Nat) (it : ForIn) :
    ReadsOnly (fun _ ↦ True) σ ((nextFrom eng m it).run σ) := by
  induction m generalizing σ it with
  | zero => exact .error hσ.stored trivial
  | succ m ih =>
      rw [nextFrom]
      split
      · exact .ok hσ.stored _
      next o _ =>
        extract_lets rest
        have hrest (remaining : List Text) :
            ReadsOnly (fun _ ↦ True) σ ((rest remaining).run σ) := by
          have hsearch := readsOnly_search heng hσ o it.visited remaining
          refine hsearch.bind fun found τ hrun ↦ ?_
          rw [hrun] at hsearch
          have hτ := hσ.settles hsearch.settles hsearch.stored
          cases found with
          | key t remaining visited => exact .ok hτ.stored _
          | exhausted visited => exact ih hτ _
        split
        · exact hrest _
        · exact hrest _

end Reading

/-- Every engine reads plainly, as far as its fuel goes. -/
theorem Engine.readsAlong_level (depth n : Nat) : (level n).ReadsAlong depth := by
  induction n with
  | zero =>
      intro pending σ o k receiver hσ _
      exact .error hσ.stored (.inr ⟨rfl, Nat.zero_le _⟩)
  | succ n ih =>
      intro pending σ o k receiver hσ ho
      rw [get_level_succ, fuel_level]
      have hread := Object.readsOnly_get ih hσ ho receiver
      rwa [fuel_level] at hread

end Ecma
