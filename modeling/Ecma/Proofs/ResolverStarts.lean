import Ecma.Proofs.Evolution
import Ecma.Proofs.OwnPropertyRuns
import Ecma.Proofs.Policy.Callables
import Ecma.Proofs.Policy.Laws
import Ecma.Proofs.Policy.Statements

/-!
# Starts of resolvers

A resolver may announce itself: it writes a line first of all.  If nothing else
writes that line, the lines in the log and the cells whose resolvers have still
to write it are together always the same number, whatever is run.  A cell never
gets its resolver back, so a resolver that is run twice would upset the balance.
-/

namespace Ecma

/-! ## Announcements -/

/-- The resolver has still to run, and writes the line first of all. -/
def LazyCell.announces (line : String) : LazyCell → Bool
  | .unresolved ⟨.log first :: _, _⟩ => first == line
  | _ => false

theorem LazyCell.announces_eq_false {line : String} {r : Resolver} (hr : .log line ∉ r.steps) :
    (unresolved r).announces line = false := by
  obtain ⟨_ | ⟨first | ⟨o, k⟩, rest⟩, v⟩ := r
  · rfl
  · refine beq_eq_false_iff_ne.2 fun heq ↦ hr ?_
    rw [heq]
    exact List.mem_cons_self
  · rfl

theorem LazyCell.Evolves.announces {line : String} {cell cell' : LazyCell}
    (hev : cell.Evolves cell') (hcell : cell.announces line = false) :
    cell'.announces line = false := by
  cases hev with
  | same => exact hcell
  | starts r => rfl
  | resolves r => rfl

/-- What is logged of a read through another interpreter. -/
def Lazy.IsReport (line : String) : Prop :=
  ∃ text, line = "reenter ok " ++ text ∨ line = "reenter error " ++ text

/-- The request writes none of the lines, now or later. -/
def Request.IsSilent (lines : Set String) : Request → Prop
  | .log line => line ∉ lines
  | .newCell r => ∀ line ∈ lines, .log line ∉ r.steps
  | _ => True

def Callable.IsSilent (lines : Set String) : Callable → Prop
  | .closure _ _ _ => True
  | .native _ _ run => ∀ this args, (run this args).Asks (Request.IsSilent lines)

namespace Heap

variable {h h' : Heap} {lines : Set String} {c : CellRef}

/-- How many resolvers have still to announce themselves by the line. -/
def announcing (h : Heap) (line : String) : Nat := h.cells.countP (LazyCell.announces line)

/-- The lines are written by resolvers only, and only as announcements. -/
structure Reserves (lines : Set String) (h : Heap) : Prop where
  host : h.AllCallable (Callable.IsSilent lines)
  resolvers : ∀ c r, h.cell c = .unresolved r → ∀ line ∈ lines, .log line ∉ r.steps.tail

theorem Reserves.of_cells (hh : h.Reserves lines) (hhost : h'.AllCallable (Callable.IsSilent lines))
    (hcells : h'.cells = h.cells) : h'.Reserves lines := by
  refine ⟨hhost, fun c r hc ↦ hh.resolvers c r ?_⟩
  rw [← hc, cell, cell, hcells]

theorem cell_of_le (hc : h.cells.size ≤ c.index) : h.cell c = .resolving := by
  by_contra hne
  exact Nat.not_lt_of_le hc (lt_of_cell_ne_resolving hne)

theorem announcing_setCell (hc : c.index < h.cells.size) (data : LazyCell) (line : String) :
    (h.setCell c data).announcing line + ((h.cell c).announces line).toNat =
      h.announcing line + (data.announces line).toNat := by
  have hcell : h.cell c = h.cells[c.index] := by simp [cell, hc]
  have hset : h.cells.modify c.index (fun _ ↦ data) = h.cells.set c.index data hc := by
    refine Array.ext_getElem? fun i ↦ ?_
    by_cases heq : c.index = i
    · subst heq
      simp [hc, Array.getElem_modify_self]
    · simp [Array.getElem?_modify, heq]
  have hpos : (h.cells[c.index].announces line).toNat ≤
      h.cells.countP (LazyCell.announces line) := by
    cases hann : h.cells[c.index].announces line with
    | false => exact Nat.zero_le _
    | true => exact Array.countP_pos_iff.2 ⟨_, Array.getElem_mem hc, hann⟩
  rw [announcing, announcing, setCell, hset, Array.countP_set, hcell]
  have htoNat (b : Bool) : (if b = true then 1 else 0) = b.toNat := by cases b <;> rfl
  rw [htoNat, htoNat]
  omega

theorem announcing_setCell_of_not {line : String} {data : LazyCell}
    (hc : (h.cell c).announces line = false) (hdata : data.announces line = false) :
    (h.setCell c data).announcing line = h.announcing line := by
  by_cases hlt : c.index < h.cells.size
  · have hset := announcing_setCell hlt data line
    rw [hc, hdata] at hset
    exact hset
  · have hsame : h.cells.modify c.index (fun _ ↦ data) = h.cells := by
      refine Array.ext_getElem? fun i ↦ ?_
      rw [Array.getElem?_modify]
      split
      next heq => simp [← heq, Nat.le_of_not_lt hlt]
      next => rfl
    rw [announcing, announcing, setCell, hsame]

theorem cell_addCell (h : Heap) (data : LazyCell) (c : CellRef) :
    (h.addCell data).2.cell c = if c.index = h.cells.size then data else h.cell c := by
  simp only [addCell, cell, Array.getD_eq_getD_getElem?, Array.getElem?_push]
  split <;> rfl

theorem announcing_addCell_of_not {line : String} {data : LazyCell}
    (hdata : data.announces line = false) :
    (h.addCell data).2.announcing line = h.announcing line := by
  simp [announcing, addCell, hdata]

theorem announcing_eq_zero {line : String} (hnone : ∀ c, (h.cell c).announces line = false) :
    h.announcing line = 0 := by
  refine Array.countP_eq_zero.2 fun data hmem ↦ ?_
  obtain ⟨i, hi, rfl⟩ := Array.getElem_of_mem hmem
  have hcell : h.cell ⟨i⟩ = h.cells[i] := by simp [cell, hi]
  simpa [hcell] using hnone ⟨i⟩

theorem announcing_eq_of_only {line : String} (hlt : c.index < h.cells.size)
    (honly : ∀ c', (h.cell c').announces line = true → c' = c) :
    h.announcing line = ((h.cell c).announces line).toNat := by
  have hzero : (h.setCell c .resolving).announcing line = 0 := by
    refine announcing_eq_zero fun c' ↦ ?_
    by_cases heq : c' = c
    · rw [heq, cell_setCell_self hlt]
      rfl
    · rw [cell_setCell_of_ne h heq]
      exact Bool.eq_false_iff.2 fun hann ↦ heq (honly c' hann)
  have hset := announcing_setCell hlt .resolving line
  rw [hzero] at hset
  simpa [LazyCell.announces] using hset.symm

theorem Reserves.setCell (hh : h.Reserves lines) {data : LazyCell} (c : CellRef)
    (hdata : ∀ r, data ≠ .unresolved r) : (h.setCell c data).Reserves lines := by
  refine ⟨hh.host.of_objects rfl, fun c' r hc' ↦ hh.resolvers c' r ?_⟩
  by_cases heq : c' = c
  · subst heq
    have hlt : c'.index < h.cells.size := by
      have hlt' : c'.index < (h.setCell c' data).cells.size :=
        lt_of_cell_ne_resolving (by simp [hc'])
      simpa using hlt'
    rw [cell_setCell_self hlt] at hc'
    exact absurd hc' (hdata r)
  · rwa [cell_setCell_of_ne h heq] at hc'

end Heap

/-! ## Balanced accounts -/

/-- Cells have evolved, no new one announces a line, and for each line what is written
and what is still to be announced add up as before. -/
structure State.Accounts (lines : Set String) (σ σ' : State) : Prop where
  cells : σ.heap.CellsEvolve σ'.heap
  fresh : ∀ c : CellRef, σ.heap.cells.size ≤ c.index → ∀ line ∈ lines,
    (σ'.heap.cell c).announces line = false
  lines : ∀ line ∈ lines, σ'.log.count line + σ'.heap.announcing line =
    σ.log.count line + σ.heap.announcing line

theorem State.Accounts.trans {lines : Set String} {σ σ' σ'' : State} (ha : σ.Accounts lines σ')
    (ha' : σ'.Accounts lines σ'') : σ.Accounts lines σ'' where
  cells := ha.cells.trans ha'.cells
  fresh c hc line hline := by
    by_cases hlt : c.index < σ'.heap.cells.size
    · exact (ha'.cells.cell c hlt).announces (ha.fresh c hc line hline)
    · exact ha'.fresh c (Nat.le_of_not_lt hlt) line hline
  lines line hline := (ha'.lines line hline).trans (ha.lines line hline)

theorem State.accounts_of_eq (lines : Set String) {σ σ' : State}
    (hcells : σ'.heap.cells = σ.heap.cells) (hlog : σ'.log = σ.log) : σ.Accounts lines σ' := by
  have hcell (c : CellRef) : σ'.heap.cell c = σ.heap.cell c := by
    rw [Heap.cell, hcells, Heap.cell]
  refine ⟨⟨by rw [hcells], fun c _ ↦ ?_⟩, fun c hc line _ ↦ ?_, fun line _ ↦ ?_⟩
  · rw [hcell]
    exact .same _
  · rw [hcell, Heap.cell_of_le hc]
    rfl
  · rw [hlog, Heap.announcing, hcells, Heap.announcing]

/-- The action keeps the lines for announcements, and the accounts balanced. -/
def KeepsAccounts {α : Type} (lines : Set String) (m : Action α) : Prop :=
  ∀ σ, σ.heap.Reserves lines → (m.run σ).2.heap.Reserves lines ∧ σ.Accounts lines (m.run σ).2

namespace KeepsAccounts

variable {α β : Type} {lines : Set String}

theorem of_run {m : Action α}
    (hhost : ∀ σ, σ.heap.AllCallable (Callable.IsSilent lines) →
      (m.run σ).2.heap.AllCallable (Callable.IsSilent lines))
    (hcells : ∀ σ, (m.run σ).2.heap.cells = σ.heap.cells) (hlog : ∀ σ, (m.run σ).2.log = σ.log) :
    KeepsAccounts lines m :=
  fun σ hσ ↦ ⟨hσ.of_cells (hhost σ hσ.host) (hcells σ), σ.accounts_of_eq lines (hcells σ) (hlog σ)⟩

theorem of_heap_eq {m : Action α} (hheap : ∀ σ, (m.run σ).2.heap = σ.heap)
    (hlog : ∀ σ, (m.run σ).2.log = σ.log) : KeepsAccounts lines m :=
  of_run (fun σ hσ ↦ (hheap σ).symm ▸ hσ) (fun σ ↦ by rw [hheap]) hlog

theorem pure (a : α) : KeepsAccounts lines (pure a : Action α) :=
  of_heap_eq (fun _ ↦ rfl) fun _ ↦ rfl

theorem fail (e : Failure) : KeepsAccounts lines (throw e : Action α) :=
  of_heap_eq (fun _ ↦ rfl) fun _ ↦ rfl

theorem bind {m : Action α} {f : α → Action β} (hm : KeepsAccounts lines m)
    (hf : ∀ a, KeepsAccounts lines (f a)) : KeepsAccounts lines (m >>= f) := by
  intro σ hσ
  have hfirst := hm σ hσ
  rw [Action.run_bind]
  rcases hrun : m.run σ with ⟨e | a, σ₁⟩
  · rw [hrun] at hfirst
    exact hfirst
  · rw [hrun] at hfirst
    obtain ⟨hσ₁, ha⟩ := hfirst
    obtain ⟨hσ₂, ha'⟩ := hf a σ₁ hσ₁
    exact ⟨hσ₂, ha.trans ha'⟩

theorem log {line : String} (hline : line ∉ lines) : KeepsAccounts lines (Action.log line) := by
  intro σ hσ
  have hsame : σ.Accounts lines σ := σ.accounts_of_eq lines rfl rfl
  refine ⟨hσ, hsame.cells, hsame.fresh, fun line' hline' ↦ ?_⟩
  have hne : line ≠ line' := fun heq ↦ hline (heq ▸ hline')
  exact congrArg (· + σ.heap.announcing line') (List.count_cons_of_ne hne)

theorem newCell {r : Resolver} (hr : ∀ line ∈ lines, .log line ∉ r.steps) :
    KeepsAccounts lines (Action.newCell r) := by
  intro σ hσ
  have hnew (c : CellRef) := σ.heap.cell_addCell (.unresolved r) c
  have hsilent {line : String} (hline : line ∈ lines) :=
    LazyCell.announces_eq_false (hr line hline)
  refine ⟨⟨hσ.host.of_objects rfl, fun c r' hc line hline hmem ↦ ?_⟩, ?_,
    fun c hc line hline ↦ (congrArg _ (hnew c)).trans ?_, fun line hline ↦ ?_⟩
  · have hcell := (hnew c).symm.trans hc
    split at hcell
    · cases hcell
      exact hr line hline (List.mem_of_mem_tail hmem)
    · exact hσ.resolvers c r' hcell line hline hmem
  · have hgrows : σ.heap.Grows anyHost (σ.heap.addCell (.unresolved r)).2 :=
      σ.heap.grows_refl.addCell r
    exact hgrows.evolves.cells
  · split
    · exact hsilent hline
    · rw [Heap.cell_of_le hc]
      rfl
  · exact congrArg (σ.log.count line + ·) (Heap.announcing_addCell_of_not (hsilent hline))

end KeepsAccounts

def accounting (lines : Set String) : Policy where
  host := anyHost
  asks := Request.IsSilent lines
  demands := False
  Holds _ m _ := KeepsAccounts lines m
  holds_pure a _ := .pure a
  holds_bind := KeepsAccounts.bind
  mono _ _ hm := hm
  persist hm := hm
  idle _ _ _ hm := hm

namespace accounting

open KeepsAccounts

variable {α : Type} {lines : Set String}

theorem admissible_iff {f : Callable} : (accounting lines).Admissible f ↔ f.IsSilent lines := by
  cases f with
  | closure f s strict => exact ⟨fun _ ↦ trivial, fun _ ↦ False.elim⟩
  | native name arity run =>
      unfold Policy.Admissible
      rw [Policy.permits_eq_asks id]
      refine forall₂_congr fun this args ↦ and_iff_right ?_
      exact (run this args).honours_of_forall (fun _ ↦ trivial) fun _ ↦ trivial

/-! ## Failures and host programs -/

theorem keeps_raise (kind : ErrorKind) (message : String) :
    KeepsAccounts lines (Action.raise kind message : Action α) := by
  refine of_run (fun σ hσ ↦ ?_) (fun _ ↦ rfl) fun _ ↦ rfl
  refine Heap.AllCallable.modifyObject ?_ _ fun data ↦ data.callable_store _ _
  exact Heap.AllCallable.addObject hσ nofun

theorem keeps_program {eng : Engine}
    (hperform : ∀ request : Request, request.IsSilent lines →
      KeepsAccounts lines (Host.perform eng request))
    {program : HostProgram α} (hprogram : program.Asks (Request.IsSilent lines)) :
    KeepsAccounts lines (Host.run eng program) := by
  induction program with
  | done result => exact of_heap_eq (fun _ ↦ rfl) fun _ ↦ rfl
  | perform request next ih =>
      obtain ⟨hrequest, hnext⟩ := hprogram
      have hattempt : KeepsAccounts lines (Action.attempt (Host.perform eng request)) :=
        hperform request hrequest
      rw [Host.run]
      refine hattempt.bind fun reply ↦ ?_
      split
      · exact fail _
      · exact ih _ (hnext _)

theorem executes_recovers {e : Failure} {m : Execution Completion}
    (hm : Statement.Recovers e m) : KeepsAccounts lines (Action.ofExecution m) := by
  cases hm with
  | report location => cases e <;> exact of_heap_eq (fun _ ↦ rfl) fun _ ↦ rfl
  | drop c => exact of_heap_eq (fun _ ↦ rfl) fun _ ↦ rfl

theorem executes_handle {m : Action α} (next : Except Failure α → Execution Completion)
    (hm : KeepsAccounts lines m)
    (hok : ∀ a, (∃ σ τ, m.run σ = (.ok a, τ)) →
      KeepsAccounts lines (Action.ofExecution (next (.ok a))))
    (herror : ∀ e, Statement.Recovers e (next (.error e))) :
    KeepsAccounts lines (Action.ofExecution (Execution.ofAction m >>= next)) := by
  intro σ hσ
  have hfirst := hm σ hσ
  rw [Policy.run_ofAction_bind]
  rcases hrun : m.run σ with ⟨e | a, τ⟩
  · rw [hrun] at hfirst
    obtain ⟨hτ, ha⟩ := executes_recovers (herror e) τ hfirst.1
    exact ⟨hτ, hfirst.2.trans ha⟩
  · rw [hrun] at hfirst
    obtain ⟨hτ, ha⟩ := hok a ⟨σ, τ, hrun⟩ τ hfirst.1
    exact ⟨hτ, hfirst.2.trans ha⟩

theorem executes_takeInterrupt :
    KeepsAccounts lines (Action.ofExecution (modifyGet State.takeInterrupt)) := by
  refine of_heap_eq (fun σ ↦ ?_) fun σ ↦ ?_
  · change σ.takeInterrupt.2.heap = _
    unfold State.takeInterrupt
    split <;> rfl
  · change σ.takeInterrupt.2.log = _
    unfold State.takeInterrupt
    split <;> rfl

/-! ## Laws -/

theorem basics : (accounting lines).Basics where
  patches _ _ := trivial
  read m f hrun := of_heap_eq (fun σ ↦ by rw [hrun]) fun σ ↦ by rw [hrun]
  fault _ _ _ := fail _
  raise := keeps_raise
  log _ hline := .log hline
  raises _ _ := trivial
  interrupt := of_heap_eq (fun _ ↦ rfl) fun _ ↦ rfl
  newSymbol _ := of_heap_eq (fun _ ↦ rfl) fun _ ↦ rfl
  callable o next hnone hsome := by
    intro σ hσ
    change ((next (σ.heap.object o).callable).run σ).2.heap.Reserves lines ∧
      σ.Accounts lines ((next (σ.heap.object o).callable).run σ).2
    cases hcallable : (σ.heap.object o).callable with
    | none => exact hnone σ hσ
    | some f => exact hsome f (admissible_iff.2 (hσ.host o f hcallable)) σ hσ
  depth m m' hm hm' := by
    intro σ hσ
    have hboth (b : Prop) [Decidable b] : KeepsAccounts lines (if b then m else m') := by
      split
      · exact hm
      · exact hm'
    exact hboth (σ.options.maxCallDepth ≤ σ.callDepth) σ hσ
  counted m hm := by
    intro σ hσ
    obtain ⟨hreserves, ha⟩ := hm { σ with callDepth := σ.callDepth + 1 } hσ
    exact ⟨hreserves, ha.cells, ha.fresh, ha.lines⟩
  program _ hperform _ _ _ hpermits := by
    rw [Policy.permits_eq_asks id] at hperform hpermits
    refine keeps_program (fun request hrequest ↦ hperform request ?_ hrequest) hpermits
    cases request <;> trivial
  finish c := by
    cases c <;> exact of_heap_eq (fun _ ↦ rfl) fun _ ↦ rfl
  handle := executes_handle
  forget := of_heap_eq (fun _ ↦ rfl) fun _ ↦ rfl
  takeInterrupt := executes_takeInterrupt

theorem loose : (accounting lines).Loose where
  basics := basics
  free hm := hm
  neverCreated := fail _
  addScope _ := of_run (fun _ hσ ↦ hσ.of_objects rfl) (fun _ ↦ rfl) fun _ ↦ rfl
  modifyScope _ _ := of_run (fun _ hσ ↦ hσ.of_objects rfl) (fun _ ↦ rfl) fun _ ↦ rfl

/-! ## Resolvers -/

section Resolvers

variable (hlines : ∀ line ∈ lines, ¬Lazy.IsReport line)

include hlines

theorem keeps_report (h : Heap) (r : Except Failure Value) :
    KeepsAccounts lines (Lazy.report h r) := by
  unfold Lazy.report
  split
  · exact .log fun hmem ↦ hlines _ hmem ⟨_, .inl rfl⟩
  · exact fail _
  · exact .log fun hmem ↦ hlines _ hmem ⟨_, .inr rfl⟩

variable {eng : Engine} (heng : (accounting lines).Serves eng)

include heng

theorem keeps_readApart (o : ObjectRef) (k : PropertyKey) :
    KeepsAccounts lines (Lazy.readApart eng o k) := by
  intro σ hσ
  have hbeside : σ.beside.heap.Reserves lines := by
    refine hσ.of_cells (hσ.host.build ?_ _) rfl
    exact fun _ _ ↦ trivial
  obtain ⟨hinner, ha⟩ := heng.get o k (.object o) σ.beside hbeside
  have hbefore : σ.Accounts lines σ.beside := σ.accounts_of_eq lines rfl rfl
  rw [Lazy.run_readApart]
  generalize (eng.get o k (.object o)).run σ.beside = r at hinner ha
  have hall := hbefore.trans ha
  have hresumed : σ.Accounts lines (σ.resume r.2) := ⟨hall.cells, hall.fresh, hall.lines⟩
  obtain ⟨hτ, ha'⟩ := keeps_report hlines r.2.heap r.1 (σ.resume r.2) hinner
  exact ⟨hτ, hresumed.trans ha'⟩

theorem keeps_runSteps {steps : List ResolverStep} (hsteps : ∀ line ∈ lines, .log line ∉ steps) :
    KeepsAccounts lines (Lazy.runSteps eng steps) := by
  induction steps with
  | nil => exact .pure ()
  | cons step rest ih =>
      have hrest := ih fun line hline hmem ↦ hsteps line hline (List.mem_cons_of_mem _ hmem)
      cases step with
      | log line =>
          refine (KeepsAccounts.log fun hmem ↦ ?_).bind fun _ ↦ hrest
          exact hsteps line hmem List.mem_cons_self
      | read o k => exact (keeps_readApart hlines heng o k).bind fun _ ↦ hrest

omit hlines heng in
/-- Marking a cell takes its announcement from those to come; the first step of its
resolver writes it. -/
theorem accounts_start (eng : Engine) {σ : State} {c : CellRef} {r : Resolver}
    (hσ : σ.heap.Reserves lines) (hc : σ.heap.cell c = .unresolved r) :
    ∃ σ₁ rest, (Lazy.runSteps eng r.steps).run (σ.marking c) = (Lazy.runSteps eng rest).run σ₁ ∧
      σ₁.heap = (σ.marking c).heap ∧ (∀ line ∈ lines, .log line ∉ rest) ∧
      σ.Accounts lines σ₁ := by
  have hlt : c.index < σ.heap.cells.size := Heap.lt_of_cell_ne_resolving (by simp [hc])
  have htail := hσ.resolvers c r hc
  have hmarking (log : List String) (hsum : ∀ line, log.count line +
      (σ.marking c).heap.announcing line = σ.log.count line + σ.heap.announcing line) :
      σ.Accounts lines { σ.marking c with log } := by
    refine ⟨Heap.cellsEvolve_setCell_resolving hc, fun c' hc' line _ ↦ ?_, fun line _ ↦ hsum line⟩
    have hnew : (σ.heap.setCell c .resolving).cell c' = .resolving :=
      Heap.cell_of_le (by simpa using hc')
    exact congrArg (·.announces line) hnew
  -- No line is announced by a resolver that does not begin with one.
  have hquiet (hann : ∀ line, (LazyCell.unresolved r).announces line = false) :
      σ.Accounts lines (σ.marking c) := by
    refine hmarking σ.log fun line ↦ congrArg (σ.log.count line + ·) ?_
    exact Heap.announcing_setCell_of_not (by rw [hc, hann]) rfl
  obtain ⟨steps, v⟩ := r
  cases steps with
  | nil =>
      exact ⟨σ.marking c, [], rfl, rfl, fun _ _ ↦ List.not_mem_nil, hquiet fun _ ↦ rfl⟩
  | cons step rest =>
      cases step with
      | read o k =>
          refine ⟨σ.marking c, .read o k :: rest, rfl, rfl, fun line hline hmem ↦ ?_,
            hquiet fun _ ↦ rfl⟩
          rcases List.mem_cons.1 hmem with heq | hmem
          · cases heq
          · exact htail line hline hmem
      | log first =>
          refine ⟨{ σ.marking c with log := first :: σ.log }, rest, rfl, rfl, htail,
            hmarking _ fun line ↦ ?_⟩
          have hset := Heap.announcing_setCell hlt .resolving line
          rw [hc] at hset
          have hfirst : (LazyCell.unresolved ⟨.log first :: rest, v⟩).announces line =
              (first == line) := rfl
          have hnone : LazyCell.resolving.announces line = false := rfl
          rw [hfirst, hnone] at hset
          change (first :: σ.log).count line + (σ.heap.setCell c .resolving).announcing line = _
          rw [List.count_cons]
          cases hsame : first == line with
          | true =>
              rw [hsame] at hset
              simp only [Bool.toNat_true, Bool.toNat_false, if_true] at hset ⊢
              omega
          | false =>
              rw [hsame] at hset
              simp only [Bool.toNat_false, Bool.false_eq_true, if_false] at hset ⊢
              omega

omit hlines heng in
/-- A cell that was marked announces nothing, nor does it with its value. -/
theorem accounts_finish {σ τ : State} {c : CellRef} {r : Resolver} (ha : σ.Accounts lines τ)
    (hc : σ.heap.cell c = .unresolved r)
    (hcells : (σ.heap.setCell c .resolving).CellsEvolve τ.heap) :
    σ.Accounts lines { τ with heap := τ.heap.setCell c (.resolved r.value) } := by
  obtain ⟨-, hmarked⟩ := hcells.cell_of_marked hc
  refine ⟨hcells.setCell_resolved hc, fun c' hc' line hline ↦ ?_, fun line hline ↦ ?_⟩
  · have hlt : c.index < σ.heap.cells.size := Heap.lt_of_cell_ne_resolving (by simp [hc])
    have hne : c' ≠ c := fun heq ↦ Nat.not_lt_of_le hc' (heq ▸ hlt)
    have hsame := Heap.cell_setCell_of_ne τ.heap hne (.resolved r.value)
    exact (congrArg (·.announces line) hsame).trans (ha.fresh c' hc' line hline)
  · have hset : (τ.heap.setCell c (.resolved r.value)).announcing line = τ.heap.announcing line :=
      Heap.announcing_setCell_of_not (by rw [hmarked]; rfl) rfl
    exact (congrArg (τ.log.count line + ·) hset).trans (ha.lines line hline)

theorem keeps_resolve (c : CellRef) (key : String) :
    KeepsAccounts lines (Lazy.resolve eng c key) := by
  intro σ hσ
  rw [Lazy.run_resolve]
  cases hc : σ.heap.cell c with
  | resolved v => exact ⟨hσ, σ.accounts_of_eq lines rfl rfl⟩
  | resolving => exact ⟨hσ, σ.accounts_of_eq lines rfl rfl⟩
  | unresolved r =>
      obtain ⟨σ₁, rest, hrun, hheap, hrest, hstart⟩ := accounts_start eng hσ hc
      have hσ₁ : σ₁.heap.Reserves lines := hheap ▸ hσ.setCell c nofun
      obtain ⟨hτ, ha⟩ := keeps_runSteps hlines heng hrest σ₁ hσ₁
      dsimp only
      rw [hrun]
      generalize (Lazy.runSteps eng rest).run σ₁ = result at hτ ha
      have hcells : (σ.heap.setCell c .resolving).CellsEvolve result.2.heap := by
        have hmarked := ha.cells
        rwa [hheap] at hmarked
      have hall := hstart.trans ha
      obtain ⟨e | _, τ⟩ := result
      · exact ⟨hτ, hall⟩
      · exact ⟨hτ.setCell c nofun, accounts_finish hall hc hcells⟩

end Resolvers

theorem lax (hlines : ∀ line ∈ lines, ¬Lazy.IsReport line) : (accounting lines).Lax where
  basics := basics
  newCell _ hr := .newCell hr
  constant _ _ _ := List.not_mem_nil
  addObject _ hdata := of_run (fun _ hσ ↦ hσ.addObject fun f hf ↦ admissible_iff.1 (hdata f hf))
    (fun _ ↦ rfl) fun _ ↦ rfl
  modifyObject o _ hg := of_run (fun _ hσ ↦ hσ.modifyObject o hg) (fun _ ↦ rfl) fun _ ↦ rfl
  storeBound _ _ _ := of_run (fun _ hσ ↦ hσ.of_objects rfl) (fun _ ↦ rfl) fun _ ↦ rfl
  resolve _ heng := keeps_resolve hlines heng

theorem governs (hlines : ∀ line ∈ lines, ¬Lazy.IsReport line) (n : Nat) :
    (accounting lines).Governs (.level n) :=
  Policy.Lawful.governs_level
    ⟨basics, (lax hlines).creation, loose.scopes, (lax hlines).properties⟩ n

end accounting

end Ecma
