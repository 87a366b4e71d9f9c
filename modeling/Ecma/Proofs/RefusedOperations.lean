import Ecma.Proofs.Assignments

/-!
# Refused operations

Defining, assigning and deleting properties and changing a prototype may be
refused.  A refusal comes before anything is written, so all that has been done
by then is to consult properties.
-/

namespace Ecma

/-- The operations on objects that say whether they were accepted. -/
inductive ObjectRequest where
  | define (o : ObjectRef) (k : PropertyKey) (patch : Descriptor)
  | createData (o : ObjectRef) (k : PropertyKey) (v : Value)
  | set (o : ObjectRef) (k : PropertyKey) (v receiver : Value)
  | delete (o : ObjectRef) (k : PropertyKey)
  | setPrototype (o : ObjectRef) (prototype : Option ObjectRef)

namespace ObjectRequest

def perform (eng : Engine) : ObjectRequest → Action Bool
  | .define o k patch => Object.define eng o k patch
  | .createData o k v => Object.createData eng o k v
  | .set o k v receiver => Object.set eng o k v receiver
  | .delete o k => Object.delete o k
  | .setPrototype o prototype => Object.setPrototype o prototype

/-- The request has come no further than to read own properties under its key. -/
def OnlyConsults (eng : Engine) (σ τ : State) : ObjectRequest → Prop
  | .define _ k _ | .createData _ k _ | .set _ k _ _ => σ.Consults eng k τ
  | .delete _ _ | .setPrototype _ _ => τ = σ

end ObjectRequest

/-! ## Refusals, one by one -/

namespace Object

variable {eng : Engine} {o : ObjectRef} {k : PropertyKey} {v receiver : Value}
  {patch : Descriptor} {σ τ : State}

theorem consults_of_refused_define (hrun : (define eng o k patch).run σ = (.ok false, τ)) :
    σ.Consults eng k τ := by
  rw [run_define] at hrun
  rcases hread : (getOwn eng o k).run σ with ⟨e | _ | shown, ρ⟩
  · rw [hread] at hrun
    cases hrun
  · rw [hread] at hrun
    dsimp only at hrun
    split at hrun
    · cases hrun
    · cases hrun
      exact State.consults_getOwn hread
  · rw [hread] at hrun
    dsimp only at hrun
    split at hrun
    · obtain ⟨form, heap, hstored, -⟩ := run_storePatched o k patch (shown.patched patch) ρ
      cases hrun.symm.trans hstored
    · cases hrun
      exact State.consults_getOwn hread

/-- The holder of the property, the receiver and the property to define may refuse. -/
theorem consults_of_refused_set (hrun : (set eng o k v receiver).run σ = (.ok false, τ)) :
    σ.Consults eng k τ := by
  obtain ⟨found, ρ, hfind, ⟨-, rfl⟩ | ⟨-, -, hset⟩ | ⟨d, f, w, -, -, -, -, htrue, -⟩⟩ :=
    run_set_cases hrun
  · exact State.consults_findFrom hfind
  · refine (State.consults_findFrom hfind).trans ?_
    rcases run_setOnReceiver_cases hset with
      ⟨-, hconsults⟩ | ⟨r, found', patch, ρ', -, hread, -, hdefine⟩
    · exact hconsults
    · exact (State.consults_getOwn hread).trans (consults_of_refused_define hdefine)
  · cases htrue

/-- A refused assignment has called no setter. -/
theorem run_set_withCall (hrun : (set eng o k v receiver).run σ = (.ok false, τ))
    (call : Value → Value → List Value → Action Value) :
    (set { eng with call } o k v receiver).run σ = (.ok false, τ) := by
  obtain ⟨found, ρ, hfind, hrest⟩ := Action.run_bind_eq_ok hrun
  rw [set, Action.run_bind, find_withCall, hfind]
  dsimp only at hrest ⊢
  split at hrest
  next hdata =>
    rw [if_pos hdata, setOnReceiver_withCall]
    exact hrest
  next hdata =>
    rw [if_neg hdata]
    obtain ⟨callable, ρ', hcheck, hrest⟩ := Action.run_bind_eq_ok hrest
    rw [Action.run_bind, hcheck]
    cases callable with
    | false => exact hrest
    | true =>
        obtain ⟨-, ρ'', -, htrue⟩ := Action.run_bind_eq_ok hrest
        cases htrue

theorem eq_of_refused_delete (hrun : (delete o k).run σ = (.ok false, τ)) : τ = σ := by
  rw [run_delete] at hrun
  split at hrun
  · cases hrun
  · split at hrun
    · cases hrun
    · cases hrun
      rfl

theorem eq_of_refused_setPrototype {prototype : Option ObjectRef}
    (hrun : (setPrototype o prototype).run σ = (.ok false, τ)) : τ = σ := by
  rw [setPrototype, Action.run_bind, Action.run_heap] at hrun
  dsimp only at hrun
  split at hrun
  · cases hrun
  split at hrun
  · cases hrun
    rfl
  split at hrun
  · cases hrun
    rfl
  · cases hrun

end Object

/-! ## All of them -/

namespace ObjectRequest

variable {eng : Engine} {op : ObjectRequest} {σ τ : State}

theorem onlyConsults_of_refused (hrun : (op.perform eng).run σ = (.ok false, τ)) :
    op.OnlyConsults eng σ τ := by
  cases op with
  | define o k patch => exact Object.consults_of_refused_define hrun
  | createData o k v => exact Object.consults_of_refused_define hrun
  | set o k v receiver => exact Object.consults_of_refused_set hrun
  | delete o k => exact Object.eq_of_refused_delete hrun
  | setPrototype o prototype => exact Object.eq_of_refused_setPrototype hrun

theorem run_perform_withCall (hrun : (op.perform eng).run σ = (.ok false, τ))
    (call : Value → Value → List Value → Action Value) :
    (op.perform { eng with call }).run σ = (.ok false, τ) := by
  cases op with
  | define o k patch =>
      rw [perform, Object.define_withCall]
      exact hrun
  | createData o k v =>
      rw [perform, Object.createData, Object.define_withCall]
      exact hrun
  | set o k v receiver => exact Object.run_set_withCall hrun call
  | delete o k => exact hrun
  | setPrototype o prototype => exact hrun

theorem OnlyConsults.asBefore {n : ℕ} (h : op.OnlyConsults (.reading n) σ τ)
    (hσ : σ.heap.IsStored) : σ.heap.AsBefore τ.heap := by
  have hsame : σ.heap.AsBefore σ.heap := (Heap.Retains.refl σ.heap).asBefore
  cases op with
  | define o k patch => exact (State.Consults.retains h hσ).2.asBefore
  | createData o k v => exact (State.Consults.retains h hσ).2.asBefore
  | set o k v receiver => exact (State.Consults.retains h hσ).2.asBefore
  | delete o k => exact h ▸ hsame
  | setPrototype o prototype => exact h ▸ hsame

end ObjectRequest

end Ecma
