import Ecma.Proofs.EssentialInvariants
import Ecma.Proofs.LazyReads
import Ecma.Proofs.ResolverStarts

/-!
# Lazy properties resolve once

Objects may share lazy cells, and any operations on properties may follow one
another.  A resolver is started at most once, and all that is ever read of its
cell is its value; a read of the cell while the resolver runs is a fault, which
does not keep the resolver from yielding its value.  A property that has been
read is plain data.
-/

namespace Ecma

/-! ## Well-stored heaps -/

/-- Stores stay built by operations of stores, whatever is done, and objects stay. -/
def storing : Discipline where
  toHostContract := anyHost
  Good σ := σ.heap.IsStored
  Step σ σ' := σ.heap.objects.size ≤ σ'.heap.objects.size
  refl _ := Nat.le_refl _
  trans := Nat.le_trans
  fails _ _ := trivial
  patches _ _ := trivial

namespace storing

theorem allows {α : Type} {σ : State} {r : Except Failure α × State} (hr : r.2.heap.IsStored)
    (hle : σ.heap.objects.size ≤ r.2.heap.objects.size) : storing.Allows σ r :=
  ⟨hr, hle, fun _ _ ↦ trivial⟩

/-- One object is changed, after what was done before. -/
theorem allows_modifyObject {α : Type} {σ τ : State} {r : Except Failure α} (hτ : τ.heap.IsStored)
    (hle : σ.heap.objects.size ≤ τ.heap.objects.size) (o : ObjectRef) {f : Object → Object}
    (hf : ∀ data : Object, data.Conforms (fun _ ↦ True) anyHost →
      (f data).Conforms (fun _ ↦ True) anyHost) :
    storing.Allows σ (r, { τ with heap := τ.heap.modifyObject o f }) := by
  apply allows
  · exact Heap.AllConform.modifyObject hτ o hf
  · simpa [Heap.modifyObject] using hle

theorem base : storing.Base where
  quiet _ _ hobjects _ _ hσ :=
    ⟨Heap.AllConform.of_objects hσ hobjects, Nat.le_of_eq (congrArg Array.size hobjects).symm⟩
  grows _ _ hg _ hσ := ⟨Heap.AllConform.of_grows hσ (fun _ _ ↦ trivial) hg, hg.evolves.objects_le⟩
  deepen _ hσ := hσ
  surface _ _ _ hτ hle := ⟨hτ, hle⟩
  beside σ hσ := Heap.AllConform.of_grows hσ (fun _ _ ↦ trivial) (Realm.grows_build _ σ.heap)
  resume σ _ _ hτ hle := by
    have hbuild : σ.heap.Grows anyHost σ.beside.heap := Realm.grows_build _ σ.heap
    exact ⟨hτ, Nat.le_trans hbuild.evolves.objects_le hle⟩
  callable _ _ _ hσ hf := Heap.AllConform.callable hσ hf

theorem keeps_getOwn {eng : Engine} (heng : storing.Holds eng) (o : ObjectRef) (k : PropertyKey) :
    storing.Keeps (Object.getOwn eng o k) := by
  have hresolve (c : CellRef) (key : String) : storing.Keeps (Lazy.resolve eng c key) := by
    intro σ hσ
    rw [Lazy.run_resolve]
    split
    · exact Discipline.allows_ok hσ _
    · exact allows hσ (Nat.le_refl _)
    next r _ =>
      have hsteps := Discipline.keeps_runSteps base heng r.steps (σ.marking c) hσ
      split
      next τ hrun =>
        rw [hrun] at hsteps
        exact allows hsteps.good hsteps.step
      next e τ hrun =>
        rw [hrun] at hsteps
        exact allows hsteps.good hsteps.step
  intro σ hσ
  rw [Object.run_getOwn]
  split
  · exact Discipline.allows_ok hσ _
  next a c hown =>
    have hcell := hresolve c k.display σ hσ
    split
    next v τ hrun =>
      rw [hrun] at hcell
      apply allows_modifyObject hcell.good hcell.step
      exact fun _ hdata ↦ hdata.modify k fun _ _ ↦ trivial
    next e τ hrun =>
      rw [hrun] at hcell
      exact allows hcell.good hcell.step
  · exact Discipline.allows_ok hσ _
  · exact Discipline.allows_ok hσ _

theorem keeps_define {eng : Engine} (heng : storing.Holds eng) (o : ObjectRef) (k : PropertyKey)
    (patch : Descriptor) : storing.Keeps (Object.define eng o k patch) := by
  intro σ hσ
  have hread := keeps_getOwn heng o k σ hσ
  rw [Object.run_define]
  generalize (Object.getOwn eng o k).run σ = r at hread
  have hgood := hread.good
  have hle := hread.step
  obtain ⟨e | _ | shown, τ⟩ := r
  · exact allows hgood hle
  · dsimp only
    split
    · exact allows_modifyObject hgood hle o fun _ hdata ↦ hdata.store k trivial
    · exact allows hgood hle
  · dsimp only
    split
    · obtain ⟨form, heap, hstore, hpasses, -⟩ :=
        Object.run_storePatched o k patch (shown.patched patch) τ
      rw [hstore]
      apply allows_modifyObject (τ := { τ with heap })
      · exact Heap.AllConform.of_objects hgood hpasses.objects
      · rw [hpasses.objects]
        exact hle
      · exact fun _ hdata ↦ hdata.store k trivial
    · exact allows hgood hle

theorem keeps_delete (o : ObjectRef) (k : PropertyKey) : storing.Keeps (Object.delete o k) := by
  intro σ hσ
  rw [Object.run_delete]
  split
  · exact Discipline.allows_ok hσ _
  · split
    · exact allows_modifyObject hσ (Nat.le_refl _) o fun _ hdata ↦ hdata.remove k
    · exact Discipline.allows_ok hσ _

theorem keeps_setPrototype (o : ObjectRef) (prototype : Option ObjectRef) :
    storing.Keeps (Object.setPrototype o prototype) := by
  intro σ hσ
  rw [Object.setPrototype, Action.run_bind, Action.run_heap]
  dsimp only
  split
  · exact Discipline.allows_ok hσ _
  split
  · exact Discipline.allows_ok hσ _
  split
  · exact Discipline.allows_ok hσ _
  · exact allows_modifyObject hσ (Nat.le_refl _) o fun _ hdata ↦ hdata.of_stores rfl rfl rfl

theorem lawful : storing.Lawful :=
  { base with
    getOwn := fun _ heng o k ↦ keeps_getOwn heng o k
    define := fun _ heng o k patch _ ↦ keeps_define heng o k patch
    delete := keeps_delete
    setPrototype := keeps_setPrototype
    preventExtensions := fun o _ hσ ↦
      allows_modifyObject hσ (Nat.le_refl _) o fun _ hdata ↦ hdata.of_stores rfl rfl rfl }

end storing

/-! ## Sequences of operations -/

/-- An operation on properties, or a step of an enumeration from where it stands. -/
inductive PropertyStep where
  | operation (op : ObjectOperation)
  | next (it : ForIn)

namespace PropertyStep

def perform (eng : Engine) : PropertyStep → Action Unit
  | .operation op => op.perform eng
  | .next it => discard (it.next eng)

def runAll (eng : Engine) (steps : List PropertyStep) (σ : State) : State :=
  steps.foldl (fun σ step ↦ ((step.perform eng).run σ).2) σ

theorem keeps_perform {P : Policy} {eng : Engine} (hG : P.Governs eng) {step : PropertyStep}
    (hpatches : ∀ o k patch, step = .operation (.define o k patch) → P.host.Patches patch) :
    P.Keeps (step.perform eng) := by
  cases step with
  | next it => exact (hG.keeps_next it).discard
  | operation op =>
      cases op with
      | define o k patch => exact (hG.keeps_define o k (hpatches o k patch rfl)).discard
      | createData o k v => exact (hG.keeps_createData o k v).discard
      | set o k v receiver => exact (hG.keeps_set o k v receiver).discard
      | delete o k => exact (hG.properties.delete o k).discard
      | getOwn o k => exact (hG.keeps_getOwn o k).discard
      | get o k receiver => exact (hG.keeps_get o k receiver).discard
      | setPrototype o prototype => exact (hG.properties.setPrototype o prototype).discard
      | preventExtensions o => exact (hG.properties.preventExtensions o).discard

theorem accounts_runAll {lines : Set String} (hlines : ∀ line ∈ lines, ¬Lazy.IsReport line)
    (n : Nat) (steps : List PropertyStep) {σ : State} (hσ : σ.heap.Reserves lines) :
    σ.Accounts lines (runAll (.level n) steps σ) := by
  induction steps generalizing σ with
  | nil => exact σ.accounts_of_eq lines rfl rfl
  | cons step rest ih =>
      have hstep : KeepsAccounts lines (step.perform (.level n)) :=
        keeps_perform (accounting.governs hlines n) fun _ _ _ _ ↦ trivial
      obtain ⟨hτ, ha⟩ := hstep σ hσ
      exact ha.trans (ih hτ)

theorem isStored_runAll (n : Nat) (steps : List PropertyStep) {σ : State}
    (hσ : σ.heap.IsStored) : (runAll (.level n) steps σ).heap.IsStored := by
  have hG := (storing.lawful.governs_level n).policy
  induction steps generalizing σ with
  | nil => exact hσ
  | cons step rest ih =>
      have hstep : storing.Keeps (step.perform (.level n)) :=
        keeps_perform hG fun _ _ _ _ ↦ trivial
      exact ih (hstep σ hσ).good

end PropertyStep

/-! ## Reading a slot -/

namespace Heap

variable {h h' : Heap} {c : CellRef} {v : Value}

/-- From the first object, going up no more than so many, the key is first found on the
second. -/
def Finds (h : Heap) (n : Nat) (o : ObjectRef) (k : PropertyKey) (p : ObjectRef) : Prop :=
  (h.chainFrom n (some o)).find? (fun q ↦ (h.object q).hasOwn k) = some p

/-- A value that a cell has by now is the one it had from the start. -/
theorem CellsEvolve.value?_eq (hev : h.CellsEvolve h') (hc : c.index < h.cells.size)
    (hv : (h'.cell c).value? = some v) : (h.cell c).value? = some v := by
  have hcell := hev.cell c hc
  generalize h.cell c = cell at hcell
  generalize h'.cell c = cell' at hcell hv
  cases hcell with
  | same => exact hv
  | starts r => cases hv
  | resolves r => exact hv

end Heap

namespace Object

variable {eng : Engine} {n : Nat} {o p : ObjectRef} {k : PropertyKey} {a : Attributes}
  {c : CellRef} {σ τ : State} {v : Value} {m : Action Value}

/-- The value that reading an own property shows. -/
def ownValue (eng : Engine) (p : ObjectRef) (k : PropertyKey) : Action Value := do
  return ((← getOwn eng p k).bind Descriptor.value?).getD .undefined

/-- The action reads the property of the object under the key, for the object itself or for
one that inherits it. -/
inductive ReadsSlot (n : Nat) (p : ObjectRef) (k : PropertyKey) (h : Heap) : Action Value → Prop
  | own : ReadsSlot n p k h (ownValue (.level n) p k)
  | get (o : ObjectRef) (receiver : Value) (hfinds : h.Finds n o k p) :
      ReadsSlot n p k h (get (.level n) o k receiver)

theorem run_findFrom_of_finds (eng : Engine) (hfinds : σ.heap.Finds n o k p) :
    (findFrom eng k n o).run σ = (getOwn eng p k).run σ := by
  induction n generalizing o with
  | zero => cases hfinds
  | succ n ih =>
      rw [Heap.Finds, Heap.chainFrom, List.find?_cons] at hfinds
      cases hown : σ.heap.own? o k with
      | some d =>
          have hpresent : (σ.heap.object o).hasOwn k = true := by
            rw [Heap.own?] at hown
            rw [hasOwn, hown]
            rfl
          rw [hpresent] at hfinds
          cases hfinds
          exact run_findFrom_present eng hown n
      | none =>
          have habsent : (σ.heap.object o).hasOwn k = false := by
            simpa [hasOwn, Heap.own?] using hown
          rw [habsent] at hfinds
          rw [run_findFrom_absent eng hown]
          cases hp : (σ.heap.object o).prototype with
          | none =>
              rw [hp] at hfinds
              cases n <;> cases hfinds
          | some q =>
              rw [hp] at hfinds
              exact ih hfinds

theorem run_getOwn_lazy_eq (eng : Engine) (hown : σ.heap.own? p k = some ⟨a, .lazy c⟩) :
    (getOwn eng p k).run σ =
      match (Lazy.resolve eng c k.display).run σ with
      | (.ok v, τ) => (.ok (some ⟨a, .data (some v)⟩),
          { τ with heap := τ.heap.modifyObject p (memoize k c v) })
      | (.error e, τ) => (.error e, τ) := by
  have hread := run_getOwn eng p k σ
  rw [hown] at hread
  exact hread

theorem run_ownValue (eng : Engine) (hown : σ.heap.own? p k = some ⟨a, .lazy c⟩) :
    (ownValue eng p k).run σ =
      match (Lazy.resolve eng c k.display).run σ with
      | (.ok v, τ) => (.ok v, { τ with heap := τ.heap.modifyObject p (memoize k c v) })
      | (.error e, τ) => (.error e, τ) := by
  rw [ownValue, Action.run_bind, run_getOwn_lazy_eq eng hown]
  rcases (Lazy.resolve eng c k.display).run σ with ⟨_ | _, _⟩ <;> rfl

/-- Every read of a lazy property resolves its cell. -/
theorem ReadsSlot.run_eq (hm : ReadsSlot n p k σ.heap m)
    (hown : σ.heap.own? p k = some ⟨a, .lazy c⟩) :
    m.run σ = (ownValue (.level n) p k).run σ := by
  cases hm with
  | own => rfl
  | get o receiver hfinds =>
      unfold Object.get find
      rw [Action.run_bind, Engine.fuel_level, run_findFrom_of_finds _ hfinds,
        run_getOwn_lazy_eq _ hown, run_ownValue _ hown]
      rcases (Lazy.resolve (.level n) c k.display).run σ with ⟨_ | _, _⟩ <;> rfl

theorem ReadsSlot.run_eq_of_getOwn (hm : ReadsSlot n p k σ.heap m)
    (hown : σ.heap.own? p k = some ⟨a, .lazy c⟩) {r : Except Failure (Option Descriptor)}
    (hrun : (getOwn (.level n) p k).run σ = (r, τ)) :
    m.run σ = (r.map fun found ↦ (found.bind Descriptor.value?).getD .undefined, τ) := by
  rw [hm.run_eq hown, ownValue, Action.run_bind, hrun]
  cases r <;> rfl

theorem ReadsSlot.value (hm : ReadsSlot n p k σ.heap m)
    (hown : σ.heap.own? p k = some ⟨a, .lazy c⟩) (hrun : m.run σ = (.ok v, τ)) :
    (σ.heap.cell c).value? = some v := by
  rw [hm.run_eq hown, run_ownValue _ hown, Lazy.run_resolve] at hrun
  cases hc : σ.heap.cell c with
  | resolved w =>
      rw [hc] at hrun
      cases hrun
      rfl
  | resolving =>
      rw [hc] at hrun
      cases hrun
  | unresolved r =>
      rw [hc] at hrun
      dsimp only at hrun
      split at hrun
      next w ρ hresolve =>
        split at hresolve
        · cases hresolve
          cases hrun
          rfl
        · cases hresolve
      next => cases hrun

theorem ReadsSlot.run_resolving (hm : ReadsSlot n p k σ.heap m)
    (hown : σ.heap.own? p k = some ⟨a, .lazy c⟩) (hc : σ.heap.cell c = .resolving) :
    m.run σ = (.error (.fault (.lazyReentrancy k.display)), σ) := by
  rw [hm.run_eq hown, run_ownValue _ hown, Lazy.run_resolve, hc]

theorem ReadsSlot.run_resolved (hm : ReadsSlot n p k σ.heap m)
    (hown : σ.heap.own? p k = some ⟨a, .lazy c⟩) (hc : σ.heap.cell c = .resolved v) :
    m.run σ = (.ok v, { σ with heap := σ.heap.modifyObject p (memoize k c v) }) := by
  rw [hm.run_eq hown, run_ownValue _ hown, Lazy.run_resolve, hc]

end Object

/-! ## While a resolver runs -/

/-- The state may be passed through while a resolver runs: it takes steps, reads beside
the interpreter, starts other resolvers, and more may be done in between. -/
inductive State.Passes (σ : State) : State → Prop
  | start : σ.Passes σ
  | step {ρ : State} (hρ : σ.Passes ρ) (n : Nat) (step : ResolverStep) :
      σ.Passes ((Lazy.runStep (.level n) step).run ρ).2
  | beside {ρ : State} (hρ : σ.Passes ρ) : σ.Passes ρ.beside
  | resolver {ρ : State} (hρ : σ.Passes ρ) {c : CellRef} {r : Resolver}
      (hc : ρ.heap.cell c = .unresolved r) : σ.Passes (ρ.marking c)
  | operation {ρ : State} (hρ : σ.Passes ρ) (n : Nat) (step : PropertyStep) :
      σ.Passes ((step.perform (.level n)).run ρ).2

theorem Heap.reserves_empty (h : Heap) : h.Reserves ∅ := by
  refine ⟨fun o f _ ↦ ?_, fun _ _ _ _ hline ↦ hline.elim⟩
  cases f with
  | closure f s strict => trivial
  | native name arity run =>
      refine fun this args ↦ HostProgram.asks_of_forall (fun request ↦ ?_) _
      cases request with
      | log line => exact Set.notMem_empty line
      | newCell r => exact fun _ hline ↦ hline.elim
      | _ => trivial

theorem State.Passes.cellsEvolve {σ ρ : State} (hρ : σ.Passes ρ) :
    σ.heap.CellsEvolve ρ.heap := by
  have hnone : ∀ line ∈ (∅ : Set String), ¬Lazy.IsReport line := nofun
  have hkeeps {α : Type} {m : Action α} (hm : KeepsAccounts ∅ m) (ρ : State) :
      ρ.heap.CellsEvolve (m.run ρ).2.heap := (hm ρ ρ.heap.reserves_empty).2.cells
  induction hρ with
  | start => exact σ.heap.cellsEvolve_refl
  | step _ n step ih =>
      refine ih.trans (hkeeps ?_ _)
      cases step with
      | log line => exact .log (Set.notMem_empty line)
      | read o k =>
          exact accounting.keeps_readApart hnone (accounting.governs hnone n).toServes o k
  | @beside ρ _ ih =>
      have hsame : ρ.Accounts ∅ ρ.beside := ρ.accounts_of_eq ∅ rfl rfl
      exact ih.trans hsame.cells
  | resolver _ hc ih => exact ih.trans (Heap.cellsEvolve_setCell_resolving hc)
  | operation _ n step ih =>
      refine ih.trans (hkeeps ?_ _)
      exact PropertyStep.keeps_perform (accounting.governs hnone n) fun _ _ _ _ ↦ trivial

/-! ## What is promised of lazy properties -/

namespace Heap

variable {h : Heap}

/-- The resolver of the cell has still to run and writes the line first of all; nothing
else does. -/
structure Announces (h : Heap) (c : CellRef) (line : String) : Prop where
  announces : (h.cell c).announces line = true
  only : ∀ c', (h.cell c').announces line = true → c' = c
  reserves : h.Reserves {line}
  notReport : ¬Lazy.IsReport line

/-- The line has been written once more if the resolver has been started, and not if not. -/
theorem Announces.count_log {σ τ : State} {c : CellRef} {line : String}
    (hann : σ.heap.Announces c line) (ha : σ.Accounts {line} τ) :
    τ.log.count line = σ.log.count line + if (τ.heap.cell c).announces line then 0 else 1 := by
  have hlt : c.index < σ.heap.cells.size := by
    refine lt_of_cell_ne_resolving fun hc ↦ ?_
    have hannounces := hann.announces
    rw [hc] at hannounces
    cases hannounces
  have honly (c' : CellRef) (hc' : (τ.heap.cell c').announces line = true) : c' = c := by
    by_contra hne
    have hbefore : (σ.heap.cell c').announces line = false :=
      Bool.eq_false_iff.2 fun h ↦ hne (hann.only c' h)
    have hafter : (τ.heap.cell c').announces line = false := by
      by_cases hlt' : c'.index < σ.heap.cells.size
      · exact (ha.cells.cell c' hlt').announces hbefore
      · exact ha.fresh c' (Nat.le_of_not_lt hlt') line rfl
    rw [hafter] at hc'
    cases hc'
  have hlines := ha.lines line rfl
  rw [announcing_eq_of_only hlt hann.only, hann.announces,
    announcing_eq_of_only (Nat.lt_of_lt_of_le hlt ha.cells.size_le) honly] at hlines
  cases hwaits : (τ.heap.cell c).announces line with
  | true =>
      rw [hwaits] at hlines
      simpa using hlines
  | false =>
      rw [hwaits] at hlines
      simpa using hlines

/-- The resolvers that have still to run read data and lazy properties only, whose nearest
holder is no more than so many objects away. -/
def ResolversReadPlainly (depth : Nat) (h : Heap) : Prop :=
  ∀ c r, h.cell c = .unresolved r → ∀ o k, .read o k ∈ r.steps → h.ReadsPlainly k depth o

theorem IsStored.isPlain (hh : h.IsStored) {depth : Nat} (hreads : h.ResolversReadPlainly depth) :
    h.IsPlain depth ((List.range h.cells.size).map CellRef.mk) where
  stored := hh
  listed c r hc := by
    have hlt : c.index < h.cells.size := lt_of_cell_ne_resolving (by simp [hc])
    exact List.mem_map.2 ⟨c.index, List.mem_range.2 hlt, rfl⟩
  reads := hreads

end Heap

/-- What holds of lazy properties at a moment, seen from an earlier one. -/
structure LazyContract (σ τ : State) : Prop where
  /-- A cell gets its resolver's value, if any, and nothing else, and keeps it. -/
  evolves : σ.heap.CellsEvolve τ.heap
  /-- A resolver that announces itself has done so once if it has been started, and not at
  all if not. -/
  starts : ∀ c line, σ.heap.Announces c line → τ.log.count line =
    σ.log.count line + if (τ.heap.cell c).announces line then 0 else 1
  /-- Once it has yielded its value, a read runs nothing. -/
  resolved : ∀ n p k a c v m, τ.heap.own? p k = some ⟨a, .lazy c⟩ →
    τ.heap.cell c = .resolved v → Object.ReadsSlot n p k τ.heap m →
    m.run τ = (.ok v, { τ with heap := τ.heap.modifyObject p (Object.memoize k c v) })
  /-- A read that succeeds gives the value of the resolver. -/
  value : ∀ n p k a c m, τ.heap.own? p k = some ⟨a, .lazy c⟩ →
    Object.ReadsSlot n p k τ.heap m → ∀ v ρ, m.run τ = (.ok v, ρ) →
    (τ.heap.cell c).value? = some v ∧
      (c.index < σ.heap.cells.size → (σ.heap.cell c).value? = some v)
  /-- While a resolver runs, its cell cannot be read. -/
  reentrancy : ∀ c r, τ.heap.cell c = .unresolved r → ∀ ρ, (τ.marking c).Passes ρ →
    ∀ n p k a m, ρ.heap.own? p k = some ⟨a, .lazy c⟩ → Object.ReadsSlot n p k ρ.heap m →
    m.run ρ = (.error (.fault (.lazyReentrancy k.display)), ρ)
  /-- It comes to its end, all the same, if the fuel lasts. -/
  completes : ∀ depth, τ.heap.ResolversReadPlainly depth → ∀ n, τ.heap.cells.size + depth ≤ n →
    ∀ p k a c v m, τ.heap.own? p k = some ⟨a, .lazy c⟩ → (τ.heap.cell c).value? = some v →
    Object.ReadsSlot n p k τ.heap m →
    ∃ ρ, m.run τ = (.ok v, ρ) ∧ ρ.heap.cell c = .resolved v
  /-- A property that has been read is plain data, with its flags and in its place. -/
  settles : ∀ depth, τ.heap.ResolversReadPlainly depth → ∀ n p k a c v m ρ,
    τ.heap.own? p k = some ⟨a, .lazy c⟩ → Object.ReadsSlot n p k τ.heap m →
    m.run τ = (.ok v, ρ) → ρ.heap.own? p k = some ⟨a, .data (some v)⟩ ∧
      (ρ.heap.object p).ownKeys = (τ.heap.object p).ownKeys

/-- Whatever is done to properties, the resolver of a lazy cell is started at most once, and
what is read of the cell is its value. -/
theorem lazy_properties_resolve_once (n : Nat) (steps : List PropertyStep) (σ : State)
    (hσ : σ.heap.IsStored) : LazyContract σ (PropertyStep.runAll (.level n) steps σ) := by
  have hstored := PropertyStep.isStored_runAll n steps hσ
  have hempty : ∀ line ∈ (∅ : Set String), ¬Lazy.IsReport line := nofun
  have hcells := (PropertyStep.accounts_runAll hempty n steps σ.heap.reserves_empty).cells
  refine ⟨hcells, fun c line hann ↦ ?_, fun n p k a c v m hown hc hm ↦ ?_, ?_, ?_, ?_, ?_⟩
  · have hreport : ∀ line' ∈ ({line} : Set String), ¬Lazy.IsReport line' := by
      rintro _ rfl
      exact hann.notReport
    exact hann.count_log (PropertyStep.accounts_runAll hreport n steps hann.reserves)
  · exact hm.run_resolved hown hc
  · intro n p k a c m hown hm v ρ hrun
    have hv := hm.value hown hrun
    exact ⟨hv, fun hc ↦ hcells.value?_eq hc hv⟩
  · intro c r hc ρ hρ n p k a m hown hm
    exact hm.run_resolving hown (hρ.cellsEvolve.cell_of_marked hc).2
  · intro depth hreads n hn p k a c v m hown hv hm
    have hplain := hstored.isPlain hreads
    obtain ⟨ρ, -, -, ⟨w, hw, hc, -, hrun⟩ | ⟨hc, -, -⟩ | ⟨-, hshort⟩⟩ :=
      Object.run_getOwn_lazy (Engine.readsAlong_level depth n) hplain hown
    · cases hv.symm.trans hw
      exact ⟨ρ, hm.run_eq_of_getOwn hown hrun, hc⟩
    · rw [hc] at hv
      cases hv
    · rw [Engine.fuel_level, List.length_map, List.length_range] at hshort
      exact absurd hshort (Nat.not_lt_of_le hn)
  · intro depth hreads n p k a c v m ρ hown hm hrun
    have hplain := hstored.isPlain hreads
    obtain ⟨ρ', hs, -, ⟨w, -, -, hvalue, hrun'⟩ | ⟨-, -, hrun'⟩ | ⟨hrun', -⟩⟩ :=
      Object.run_getOwn_lazy (Engine.readsAlong_level depth n) hplain hown
    · cases hrun.symm.trans (hm.run_eq_of_getOwn hown hrun')
      exact ⟨hvalue, hs.keys p (Heap.lt_of_own? hown)⟩
    · cases hrun.symm.trans (hm.run_eq_of_getOwn hown hrun')
    · cases hrun.symm.trans (hm.run_eq_of_getOwn hown hrun')

/-- An object and its prototype share a cell, whose resolver reads the property of the
object; the first of them is read, then the other, and both are enumerated. -/
theorem lazy_properties_resolve_once_shared :
    let base := State.initial .standard
    let g := base.realm.globalObject
    let q := base.realm.objectPrototype
    let x : PropertyKey := .ofString "x"
    let c : CellRef := ⟨0⟩
    let r : Resolver := ⟨[.log "start", .read g x], .boolean true⟩
    let σ : State := { base with heap := (base.heap.addCell (.unresolved r)).2 }
    let shared : List PropertyStep :=
      [.operation (.define g x (.lazy c true true true)),
        .operation (.define q x (.lazy c false true true))]
    let reads : List PropertyStep :=
      [.operation (.get g x (.object g)), .operation (.getOwn q x), .next (.start g)]
    let τ := PropertyStep.runAll (.level 9) shared σ
    let ρ := PropertyStep.runAll (.level 9) (shared ++ reads) σ
    σ.heap.IsStored ∧ σ.heap.Announces c "start" ∧ τ.heap.ResolversReadPlainly 1 ∧
      LazyContract σ τ ∧ LazyContract σ ρ ∧ ρ.log.count "start" = 1 := by
  intro base g q x c r σ shared reads τ ρ
  have hσ : σ.heap.IsStored :=
    Heap.AllConform.of_grows Heap.allConform_empty (fun _ _ ↦ trivial)
      ((Realm.grows_build _ _).addCell r)
  have hcell (c' : CellRef) (hc' : σ.heap.cell c' ≠ .resolving) :
      c' = c ∧ σ.heap.cell c' = .unresolved r := by
    have hlt : c'.index < 1 := Heap.lt_of_cell_ne_resolving hc'
    obtain ⟨i⟩ := c'
    obtain rfl : i = 0 := Nat.lt_one_iff.1 hlt
    exact ⟨rfl, rfl⟩
  have hann : σ.heap.Announces c "start" := by
    refine ⟨by decide +kernel, fun c' hc' ↦ (hcell c' fun h ↦ ?_).1, ⟨?_, fun c' r' hc' ↦ ?_⟩, ?_⟩
    · rw [h] at hc'
      cases hc'
    · exact Heap.AllCallable.of_objects (Heap.allCallable_empty.build (fun _ _ ↦ trivial) _) rfl
    · cases (hcell c' (by simp [hc'])).2.symm.trans hc'
      simp [r]
    · rintro ⟨text, htext | htext⟩
      · have hhead := congrArg (·.toList.head?) htext
        simp at hhead
      · have hhead := congrArg (·.toList.head?) htext
        simp at hhead
  have hτ : LazyContract σ τ := lazy_properties_resolve_once 9 shared σ hσ
  have hplain : τ.heap.ResolversReadPlainly 1 := by
    intro c' r' hc' o k hread
    have hsize : τ.heap.cells.size = σ.heap.cells.size := by decide +kernel
    have hlt : c'.index < σ.heap.cells.size :=
      hsize ▸ Heap.lt_of_cell_ne_resolving (by simp [hc'])
    have hbefore := hτ.evolves.unresolved hlt hc'
    cases (hcell c' (by simp [hbefore])).2.symm.trans hbefore
    obtain ⟨rfl, rfl⟩ : o = g ∧ k = x := by simpa [r] using hread
    exact Heap.readsPlainly_of_own? 0 (by decide +kernel)
  have hρ : LazyContract σ ρ := lazy_properties_resolve_once 9 (shared ++ reads) σ hσ
  have hstarted : (ρ.heap.cell c).announces "start" = false := by decide +kernel
  refine ⟨hσ, hann, hplain, hτ, hρ, ?_⟩
  rw [hρ.starts c "start" hann, hstarted]
  rfl

end Ecma
