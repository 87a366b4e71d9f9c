import Ecma.Proofs.Discipline.Allocation
import Ecma.Proofs.EssentialInvariants

/-!
# Reading lazy properties

Reading an own property of an object may resolve a cell and put its value in the
place of the cell.  A resolver that only writes to the log changes nothing else.
-/

namespace Ecma

/-! ## Cells -/

/-- The value that the cell has, or gets when it is read. -/
def LazyCell.value? : LazyCell → Option Value
  | .unresolved r => some r.value
  | .resolving => none
  | .resolved v => some v

/-- The resolver, if it has still to run, only writes to the log. -/
def LazyCell.IsQuiet : LazyCell → Prop
  | .unresolved r => ∀ step ∈ r.steps, ∃ line, step = .log line
  | .resolving | .resolved _ => True

theorem Lazy.run_runSteps_log (eng : Engine) {steps : List ResolverStep}
    (hsteps : ∀ step ∈ steps, ∃ line, step = .log line) (σ : State) :
    ∃ log, (Lazy.runSteps eng steps).run σ = (.ok (), { σ with log }) := by
  induction steps generalizing σ with
  | nil => exact ⟨σ.log, rfl⟩
  | cons step rest ih =>
      obtain ⟨line, rfl⟩ := hsteps step List.mem_cons_self
      exact ih (fun step hstep ↦ hsteps step (List.mem_cons_of_mem _ hstep))
        { σ with log := line :: σ.log }

/-! ## A value in the place of its cell -/

namespace Heap

variable {o : ObjectRef} {h : Heap} {c : CellRef} {v : Value}

theorem setCell_setCell (h : Heap) (c : CellRef) (x y : LazyCell) :
    (h.setCell c x).setCell c y = h.setCell c y := by
  simp only [setCell]
  congr 1
  refine Array.ext_getElem? fun i ↦ ?_
  simp only [Array.getElem?_modify]
  split <;> simp [Function.comp_def]

theorem lt_of_value? (hv : (h.cell c).value? = some v) : c.index < h.cells.size := by
  refine lt_of_cell_ne_resolving fun heq ↦ ?_
  rw [heq] at hv
  cases hv

theorem isQuiet_setCell (hv : (h.cell c).value? = some v) (c' : CellRef)
    (hc' : (h.cell c').IsQuiet) : ((h.setCell c (.resolved v)).cell c').IsQuiet := by
  by_cases hc : c' = c
  · subst hc
    rw [cell_setCell_self (lt_of_value? hv)]
    trivial
  · rw [cell_setCell_of_ne h hc]
    exact hc'

section Memoize

variable (ho : o.index < h.objects.size) (hvalid : (h.object o).Valid)

include ho hvalid

/-- Only a property that refers to the cell changes. -/
theorem own?_memoize_cases (k : PropertyKey) (c : CellRef) (v : Value) (k' : PropertyKey) :
    (h.modifyObject o (Object.memoize k c v)).own? o k' = h.own? o k' ∨
      ∃ a, h.own? o k' = some ⟨a, .lazy c⟩ ∧
        (h.modifyObject o (Object.memoize k c v)).own? o k' = some ⟨a, .data (some v)⟩ := by
  rw [own?, object_modifyObject_self ho, Object.memoize, hvalid.own?_modify, own?]
  split
  · cases hown : (h.object o).own? k' with
    | none => exact .inl rfl
    | some d =>
        obtain ⟨a, form⟩ := d
        rw [Option.map_some, Descriptor.resolveCell]
        split
        next c' hform =>
          cases hform
          split
          next hc => exact .inr ⟨a, by rw [hc], rfl⟩
          next => exact .inl rfl
        next => exact .inl rfl
  · exact .inl rfl

theorem own?_memoize {k : PropertyKey} {a : Attributes} (hown : h.own? o k = some ⟨a, .lazy c⟩)
    (v : Value) :
    (h.modifyObject o (Object.memoize k c v)).own? o k = some ⟨a, .data (some v)⟩ := by
  rw [own?] at hown
  rw [own?, object_modifyObject_self ho, Object.memoize, hvalid.own?_modify, hown]
  simp [Descriptor.resolveCell]

end Memoize

end Heap

end Ecma
