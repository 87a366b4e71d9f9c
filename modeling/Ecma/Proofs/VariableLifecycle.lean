import Ecma.Proofs.CallScopes

/-!
# The life of a variable

A scope that holds variables itself is changed by seven calls.  Each of them
moves one variable and leaves the others alone, and the moves are few: a
variable is declared without a value, gets values, and may be deleted if it was
declared so.  What a whole run of calls does to a variable follows: its kind
stays while it is there, a value is never taken back, a constant changes only by
being initialised again, and what is read is what was written last.
-/

namespace Ecma

/-! ## Calls -/

/-- A call on the variables of a scope.  `store` is a write through a bound
property. -/
inductive VariableCall where
  | createMutable (name : String) (canDelete : Bool)
  | createImmutable (name : String) (strict : Bool)
  | initialise (name : String) (v : Value)
  | set (name : String) (v : Value) (strict : Bool)
  | get (name : String) (strict : Bool)
  | delete (name : String)
  | store (name : String) (v : Value)

/-- What a call that succeeds gives back. -/
inductive VariableReply where
  | done
  | value (v : Value)
  | deleted (b : Bool)

namespace VariableCall

/-- The variable that a call is about. -/
def name : VariableCall → String
  | .createMutable name _ | .createImmutable name _ | .initialise name _ | .set name _ _
  | .get name _ | .delete name | .store name _ => name

def perform (eng : Engine) (s : ScopeRef) : VariableCall → Action VariableReply
  | .createMutable name canDelete => do
    Scope.createMutable eng s name canDelete
    return .done
  | .createImmutable name strict => do
    Scope.createImmutable s name strict
    return .done
  | .initialise name v => do
    Scope.initialise eng s name v
    return .done
  | .set name v strict => do
    Scope.set eng s name v strict
    return .done
  | .get name strict => do return .value (← Scope.get eng s name strict)
  | .delete name => do return .deleted (← Scope.delete s name)
  | .store name v => do
    Action.modifyHeap (·.storeBound s name v)
    return .done

/-- Makes the calls in turn; one that fails does not stop the others. -/
def performAll (eng : Engine) (s : ScopeRef) : List VariableCall → State → State
  | [], σ => σ
  | call :: rest, σ => performAll eng s rest ((call.perform eng s).run σ).2

/-- What a call does to the variables themselves. -/
def apply (b : Bindings) : VariableCall → Except BindingError (VariableReply × Bindings)
  | .createMutable name canDelete => (b.createMutable name canDelete).map (.done, ·)
  | .createImmutable name strict => (b.createImmutable name strict).map (.done, ·)
  | .initialise name v => (b.initialise name v).map (.done, ·)
  | .set name v strict => (b.set name v strict).map (.done, ·)
  | .get name _ => (b.get name).map (.value ·, b)
  | .delete name => .ok (.deleted (b.delete name).1, (b.delete name).2)
  | .store name v => .ok (.done, b.store name v)

end VariableCall

/-- A refused call throws a new error object of the right kind, or ends the run; no
scope is changed and no object that is there. -/
def BindingError.Refuses {α : Type} (σ : State) (r : Except Failure α × State) :
    BindingError → Prop
  | .script e => σ.Throws e.kind r
  | .neverCreated => r = (.error (.fault (.invariant .bindingNeverCreated)), σ)

namespace BindingError

variable {α β : Type} {σ : State}

theorem refuses_throwBinding (e : BindingError) :
    e.Refuses σ ((Scope.throwBinding e : Action α).run σ) := by
  cases e with
  | script e => exact Action.throws_raise e.kind e.message σ
  | neverCreated => rfl

theorem Refuses.bind {e : BindingError} {m : Action α} (h : e.Refuses σ (m.run σ))
    (f : α → Action β) : e.Refuses σ ((m >>= f).run σ) := by
  cases e with
  | script e => exact State.Throws.bind h f
  | neverCreated =>
      have hrun : m.run σ = (.error (.fault (.invariant .bindingNeverCreated)), σ) := h
      change ((m >>= f).run σ) = _
      rw [Action.run_bind, hrun]

/-- A refused call fails, and no scope is another than before. -/
theorem Refuses.exists_error {e : BindingError} {r : Except Failure α × State}
    (h : e.Refuses σ r) : ∃ failure τ, r = (.error failure, τ) ∧ τ.heap.scopes = σ.heap.scopes := by
  cases e with
  | script e =>
      obtain ⟨heap, hgains, hr⟩ := h
      exact ⟨_, _, hr, hgains.scopes⟩
  | neverCreated => exact ⟨_, σ, h, rfl⟩

end BindingError

/-- No scope but one is another than before. -/
structure Heap.KeepsOthers (s : ScopeRef) (h h' : Heap) : Prop where
  size : h'.scopes.size = h.scopes.size
  scope : ∀ t : ScopeRef, t ≠ s → h'.scope t = h.scope t

theorem Heap.keepsOthers_of_scopes {h h' : Heap} (s : ScopeRef) (hscopes : h'.scopes = h.scopes) :
    h.KeepsOthers s h' :=
  ⟨congrArg Array.size hscopes, fun t _ ↦ by simp [Heap.scope, hscopes]⟩

theorem Heap.keepsOthers_modifyScope (h : Heap) (s : ScopeRef) (f : Scope → Scope) :
    h.KeepsOthers s (h.modifyScope s f) :=
  ⟨by simp [modifyScope], fun _ ht ↦ h.scope_modifyScope_of_ne ht f⟩

/-! ## A call is what it does to the variables -/

namespace VariableCall

/-- The outcome of an action that changes the variables of a scope. -/
def Yields {α : Type} (s : ScopeRef) (σ : State) (r : Except Failure α × State) :
    Except BindingError (α × Bindings) → Prop
  | .ok (a, b) => ∃ τ, r = (.ok a, τ) ∧ τ.heap.IsDeclarative s b ∧ σ.heap.KeepsOthers s τ.heap
  | .error e => e.Refuses σ r

section Runs

variable (eng : Engine) {s : ScopeRef} {b : Bindings} {σ : State}
  (hs : σ.heap.IsDeclarative s b)

include hs

theorem yields_modifyScope (b' : Bindings) :
    Yields s σ ((Action.modifyHeap (·.modifyScope s fun scope ↦
      { scope with record := scope.record.withBindings b' })).run σ) (.ok ((), b')) := by
  obtain ⟨hlt, this, hrecord⟩ := hs
  refine ⟨_, rfl, ⟨by simpa [Heap.modifyScope] using hlt, this, ?_⟩,
    σ.heap.keepsOthers_modifyScope s _⟩
  rw [Heap.scope_modifyScope_self hlt, hrecord]
  rfl

theorem yields_update (f : Bindings → Except BindingError Bindings) :
    Yields s σ ((Scope.update s b f).run σ) ((f b).map ((), ·)) := by
  unfold Scope.update
  cases f b with
  | ok b' => exact yields_modifyScope hs b'
  | error e => exact e.refuses_throwBinding

omit hs in
theorem Yields.map {α β : Type} {m : Action α} {r : Except BindingError (α × Bindings)}
    (h : Yields s σ (m.run σ) r) (f : α → β) :
    Yields s σ ((do return f (← m) : Action β).run σ) (r.map fun x ↦ (f x.1, x.2)) := by
  match r, h with
  | .ok (a, b'), ⟨τ, hrun, hb', hothers⟩ =>
      refine ⟨τ, ?_, hb', hothers⟩
      rw [Action.run_bind, hrun]
      rfl
  | .error e, h => exact BindingError.Refuses.bind h _

theorem yields_set (name : String) (v : Value) (strict : Bool) :
    Yields s σ ((Scope.set eng s name v strict).run σ)
      ((b.set name v strict).map ((), ·)) := by
  obtain ⟨-, this, hrecord⟩ := id hs
  rw [Scope.set, Action.run_bind, Action.run_scope]
  dsimp only
  rw [hrecord]
  exact yields_update hs (·.set name v strict)

theorem yields_get (name : String) (strict : Bool) :
    Yields s σ ((Scope.get eng s name strict).run σ) ((b.get name).map (·, b)) := by
  obtain ⟨-, this, hrecord⟩ := id hs
  rw [Scope.get, Action.run_bind, Action.run_scope]
  dsimp only
  rw [hrecord]
  dsimp only
  rw [Scope.readBindings]
  cases b.get name with
  | ok v => exact ⟨σ, rfl, hs, Heap.keepsOthers_of_scopes s rfl⟩
  | error e => exact e.refuses_throwBinding

/-- In a scope that holds variables itself a call does to them what it does to
variables. -/
theorem yields_perform (call : VariableCall) :
    Yields s σ ((call.perform eng s).run σ) (call.apply b) := by
  obtain ⟨hlt, this, hrecord⟩ := id hs
  have hscope {α : Type} (m : Scope → Action α) :
      (Action.scope s >>= m).run σ = (m (σ.heap.scope s)).run σ := rfl
  have hupdate (f : Bindings → Except BindingError Bindings) {m : Action Unit}
      (hm : m.run σ = (Scope.update s b f).run σ) :
      Yields s σ ((do m; return .done : Action VariableReply).run σ) ((f b).map (.done, ·)) := by
    have hyields := (hm ▸ yields_update hs f).map fun _ ↦ VariableReply.done
    cases hf : f b <;> rw [hf] at hyields <;> exact hyields
  cases call with
  | createMutable name canDelete =>
      refine hupdate (·.createMutable name canDelete) ?_
      rw [Scope.createMutable, hscope, hrecord]
  | createImmutable name strict =>
      refine hupdate (·.createImmutable name strict) ?_
      rw [Scope.createImmutable, hscope, hrecord]
  | initialise name v =>
      refine hupdate (·.initialise name v) ?_
      rw [Scope.initialise, hscope, hrecord]
  | set name v strict =>
      have hset := (yields_set eng hs name v strict).map fun _ ↦ VariableReply.done
      rw [apply]
      cases hb : b.set name v strict <;> rw [hb] at hset <;> exact hset
  | get name strict =>
      have hvalue := (yields_get eng hs name strict).map VariableReply.value
      rw [apply]
      cases hget : b.get name <;> rw [hget] at hvalue <;> exact hvalue
  | delete name =>
      have hdelete : Yields s σ ((Scope.delete s name).run σ)
          (.ok ((b.delete name).1, (b.delete name).2)) := by
        rw [Scope.delete, hscope, hrecord]
        exact (yields_modifyScope hs (b.delete name).2).map fun _ ↦ (b.delete name).1
      exact hdelete.map VariableReply.deleted
  | store name v =>
      have hb : (σ.heap.scope s).record.bindings? = some b := by
        rw [hrecord]
        rfl
      have hstore := yields_modifyScope hs (b.store name v)
      rw [Action.run_modifyHeap, ← Heap.storeBound_eq hb] at hstore
      exact Yields.map (m := Action.modifyHeap (·.storeBound s name v)) hstore
        fun _ ↦ VariableReply.done

end Runs

/-! ## The moves of one variable -/

/-- All that a call that succeeds can do to the variable that it is about. -/
inductive Moves : VariableCall → VariableReply → Option Binding → Option Binding → Prop where
  | declare (name : String) (canDelete : Bool) :
      Moves (.createMutable name canDelete) .done none (some ⟨none, canDelete, true, false⟩)
  | declareConstant (name : String) (strict : Bool) :
      Moves (.createImmutable name strict) .done none (some ⟨none, false, false, strict⟩)
  | initialise (name : String) (v : Value) (x : Binding) :
      Moves (.initialise name v) .done (some x) (some { x with value := some v })
  | assign (name : String) (v : Value) (strict : Bool) {x : Binding} (hx : x.isMutable = true)
      (hvalue : x.value.isSome) :
      Moves (.set name v strict) .done (some x) (some { x with value := some v })
  | assignAbsent (name : String) (v : Value) :
      Moves (.set name v false) .done none (some ⟨some v, true, true, false⟩)
  | assignConstant (name : String) (v : Value) {x : Binding} (hx : x.isMutable = false)
      (hvalue : x.value.isSome) : Moves (.set name v false) .done (some x) (some x)
  | read (name : String) (strict : Bool) {x : Binding} {v : Value} (hvalue : x.value = some v) :
      Moves (.get name strict) (.value v) (some x) (some x)
  | delete (name : String) {x : Binding} (hx : x.canDelete = true) :
      Moves (.delete name) (.deleted true) (some x) none
  | deleteAbsent (name : String) : Moves (.delete name) (.deleted true) none none
  | deleteRefused (name : String) {x : Binding} (hx : x.canDelete = false) :
      Moves (.delete name) (.deleted false) (some x) (some x)
  | store (name : String) (v : Value) {x : Binding} (hx : x.isMutable = true) :
      Moves (.store name v) .done (some x) (some { x with value := some v })
  | storeConstant (name : String) (v : Value) {x : Binding} (hx : x.isMutable = false) :
      Moves (.store name v) .done (some x) (some x)
  | storeAbsent (name : String) (v : Value) : Moves (.store name v) .done none none

section Step

variable {b b' : Bindings} {reply : VariableReply}

theorem find?_write_eq {name : String} {x : Binding} (hx : b.find? name = some x) (v : Value) :
    (b.write name v).find? name = some { x with value := some v } := by
  rw [Bindings.find?_write_self, hx]
  rfl

theorem apply_create_eq_ok {name : String} {x : Binding} {r : VariableReply × Bindings}
    (h : (b.create name x).map (VariableReply.done, ·) = .ok r) :
    r.1 = .done ∧ b.find? name = none ∧ r.2 = b.insert name x := by
  cases hcreate : b.create name x with
  | error e =>
      rw [hcreate] at h
      cases h
  | ok b' =>
      rw [hcreate] at h
      obtain ⟨habsent, rfl⟩ := Bindings.create_eq_ok hcreate
      cases h
      exact ⟨rfl, by simpa [Bindings.contains] using habsent, rfl⟩

/-- A call moves the variable that it is about. -/
theorem moves_of_apply {call : VariableCall} (h : call.apply b = .ok (reply, b')) :
    Moves call reply (b.find? call.name) (b'.find? call.name) := by
  cases call with
  | createMutable name canDelete =>
      obtain ⟨rfl, habsent, rfl⟩ := apply_create_eq_ok h
      change Moves _ _ (b.find? name) ((b.insert name _).find? name)
      rw [habsent, Bindings.find?_insert_self]
      exact .declare name canDelete
  | createImmutable name strict =>
      obtain ⟨rfl, habsent, rfl⟩ := apply_create_eq_ok h
      change Moves _ _ (b.find? name) ((b.insert name _).find? name)
      rw [habsent, Bindings.find?_insert_self]
      exact .declareConstant name strict
  | initialise name v =>
      change Moves _ _ (b.find? name) (b'.find? name)
      cases hx : b.find? name with
      | none => simp [apply, Bindings.initialise, Bindings.contains, hx, Except.map] at h
      | some x =>
          simp only [apply, Bindings.initialise, Bindings.contains, hx, Option.isSome_some,
            if_true, Except.map, Except.ok.injEq, Prod.mk.injEq] at h
          obtain ⟨rfl, rfl⟩ := h
          rw [find?_write_eq hx]
          exact .initialise name v x
  | set name v strict =>
      change Moves _ _ (b.find? name) (b'.find? name)
      cases hx : b.find? name with
      | none =>
          cases strict with
          | true => simp [apply, Bindings.set, hx, Except.map] at h
          | false =>
              -- Sloppy code declares the variable that it misses, and then writes to it.
              rw [apply, Bindings.set_absent hx] at h
              cases h
              rw [find?_write_eq (b.find?_insert_self name _)]
              exact .assignAbsent name v
      | some x =>
          simp only [apply, Bindings.set, hx] at h
          split at h
          next => cases h
          next hvalue =>
            have hvalue : x.value.isSome := by simpa [Option.isNone_iff_eq_none,
              Option.isSome_iff_ne_none] using hvalue
            split at h
            next hmutable =>
              cases h
              rw [find?_write_eq hx]
              exact .assign name v strict hmutable hvalue
            next hmutable =>
              split at h
              next => cases h
              next hstrict =>
                cases h
                have hsloppy : strict = false := by
                  simp only [Bool.or_eq_true, not_or, Bool.not_eq_true] at hstrict
                  exact hstrict.1
                rw [hx, hsloppy]
                exact .assignConstant name v (by simpa using hmutable) hvalue
  | get name strict =>
      change Moves _ _ (b.find? name) (b'.find? name)
      simp only [apply, Bindings.get] at h
      split at h
      next v _ _ _ hx =>
        cases h
        rw [hx]
        exact .read name strict rfl
      next => cases h
      next => cases h
  | delete name =>
      change Moves _ _ (b.find? name) (b'.find? name)
      cases hx : b.find? name with
      | none =>
          simp only [apply, Bindings.delete, hx] at h
          cases h
          rw [hx]
          exact .deleteAbsent name
      | some x =>
          simp only [apply, Bindings.delete, hx] at h
          split at h
          next hdelete =>
            cases h
            rw [Bindings.find?_erase_self]
            exact .delete name hdelete
          next hdelete =>
            cases h
            rw [hx]
            exact .deleteRefused name (by simpa using hdelete)
  | store name v =>
      change Moves _ _ (b.find? name) (b'.find? name)
      cases hx : b.find? name with
      | none =>
          simp only [apply, Bindings.store, hx] at h
          cases h
          rw [hx]
          exact .storeAbsent name v
      | some x =>
          simp only [apply, Bindings.store, hx] at h
          split at h
          next hmutable =>
            cases h
            rw [find?_write_eq hx]
            exact .store name v hmutable
          next hmutable =>
            cases h
            rw [hx]
            exact .storeConstant name v (by simpa using hmutable)

/-- And no other variable. -/
theorem find?_of_apply_of_ne {call : VariableCall} (h : call.apply b = .ok (reply, b'))
    {other : String} (hne : other ≠ call.name) : b'.find? other = b.find? other := by
  cases call with
  | createMutable name canDelete =>
      obtain ⟨-, -, rfl⟩ := apply_create_eq_ok h
      exact b.find?_insert_of_ne hne _
  | createImmutable name strict =>
      obtain ⟨-, -, rfl⟩ := apply_create_eq_ok h
      exact b.find?_insert_of_ne hne _
  | initialise name v =>
      simp only [apply, Bindings.initialise] at h
      split at h
      · cases h
        exact b.find?_write_of_ne hne v
      · cases h
  | set name v strict =>
      cases hx : b.find? name with
      | none =>
          cases strict with
          | true => simp [apply, Bindings.set, hx, Except.map] at h
          | false =>
              rw [apply, Bindings.set_absent hx] at h
              cases h
              exact (Bindings.find?_write_of_ne _ hne v).trans (b.find?_insert_of_ne hne _)
      | some x =>
          simp only [apply, Bindings.set, hx] at h
          split at h
          · cases h
          · split at h
            · cases h
              exact b.find?_write_of_ne hne v
            · split at h <;> cases h
              rfl
  | get name strict =>
      simp only [apply, Bindings.get] at h
      split at h <;> cases h
      rfl
  | delete name =>
      simp only [apply, Bindings.delete] at h
      split at h
      · cases h
        rfl
      · split at h <;> cases h
        · exact b.find?_erase_of_ne hne
        · rfl
  | store name v =>
      simp only [apply, Bindings.store] at h
      split at h
      · split at h <;> cases h
        · exact b.find?_write_of_ne hne v
        · rfl
      · cases h
        rfl

end Step

end VariableCall

/-! ## What calls leave of a variable -/

/-- A variable of the same kind, with a value if there was one. -/
structure Binding.Continues (x x' : Binding) : Prop extends x.Evolves x' where
  isStrict : x'.isStrict = x.isStrict

theorem Binding.continues_refl (x : Binding) : x.Continues x := ⟨x.evolves_refl, rfl⟩

theorem Binding.continues_write (x : Binding) (v : Value) :
    x.Continues { x with value := some v } :=
  ⟨⟨rfl, rfl, fun _ ↦ rfl⟩, rfl⟩

theorem Binding.Continues.trans {x x' x'' : Binding} (h : x.Continues x')
    (h' : x'.Continues x'') : x.Continues x'' :=
  ⟨⟨h'.canDelete.trans h.canDelete, h'.isMutable.trans h.isMutable, h'.value ∘ h.value⟩,
    h'.isStrict.trans h.isStrict⟩

namespace VariableCall

namespace Moves

variable {call : VariableCall} {reply : VariableReply} {x x' : Binding} {after : Option Binding}

/-- A variable that is there before and after a call is the same one. -/
theorem continues (h : Moves call reply (some x) (some x')) : x.Continues x' := by
  cases h with
  | initialise name v x => exact x.continues_write v
  | assign name v strict hx hvalue => exact x.continues_write v
  | store name v hx => exact x.continues_write v
  | assignConstant | read | deleteRefused | storeConstant => exact x.continues_refl

theorem stays (h : Moves call reply (some x) after) (hx : x.canDelete = false) :
    after.isSome := by
  cases h with
  | delete name hdelete => exact absurd hdelete (by simp [hx])
  | initialise | assign | assignConstant | read | deleteRefused | store | storeConstant => rfl

theorem value_of_constant (h : Moves call reply (some x) (some x')) (hx : x.isMutable = false)
    (hcall : ∀ v, call ≠ .initialise call.name v) : x'.value = x.value := by
  cases h with
  | initialise name v x => exact absurd rfl (hcall v)
  | assign name v strict hmutable hvalue => exact absurd hmutable (by simp [hx])
  | store name v hmutable => exact absurd hmutable (by simp [hx])
  | assignConstant | read | deleteRefused | storeConstant => rfl

end Moves

/-- The value that was written last to the variable `name`, after one more call that
had the given outcome; `before` is the variable at the time of the call.  A constant is
written to by being initialised only, and what is declared or deleted has no value. -/
def lastWritten (name : String) (before : Option Binding) (last : Option Value)
    (call : VariableCall) : Except Failure VariableReply → Option Value
  | .error _ => last
  | .ok reply =>
    if call.name ≠ name then last
    else match call, reply with
      | .createMutable _ _, _ | .createImmutable _ _, _ | .delete _, .deleted true => none
      | .initialise _ v, _ => some v
      | .set _ v _, _ => if before.all (·.isMutable) then some v else last
      | .store _ v, _ => if before.any (·.isMutable) then some v else last
      | .get _ _, _ | .delete _, _ => last

theorem Moves.lastWritten {call : VariableCall} {reply : VariableReply}
    {before after : Option Binding} (h : Moves call reply before after) :
    after.bind Binding.value =
      call.lastWritten call.name before (before.bind Binding.value) (.ok reply) := by
  cases h with
  | assignConstant name v hx hvalue => simp [VariableCall.lastWritten, hx]
  | assign name v strict hx hvalue => simp [VariableCall.lastWritten, hx]
  | store name v hx => simp [VariableCall.lastWritten, hx]
  | storeConstant name v hx => simp [VariableCall.lastWritten, hx]
  | _ => simp [VariableCall.lastWritten]

/-! ## One call -/

/-- All that a call with the given outcome can do to the variable `name`. -/
inductive Turns (name : String) : VariableCall → Except Failure VariableReply →
    Option Binding → Option Binding → Prop where
  | failed (call : VariableCall) (failure : Failure) (x : Option Binding) :
      Turns name call (.error failure) x x
  | other {call : VariableCall} (hname : call.name ≠ name) (reply : VariableReply)
      (x : Option Binding) : Turns name call (.ok reply) x x
  | moves {call : VariableCall} {reply : VariableReply} {before after : Option Binding}
      (hname : call.name = name) (h : Moves call reply before after) :
      Turns name call (.ok reply) before after

namespace Turns

variable {name : String} {call : VariableCall} {outcome : Except Failure VariableReply}
  {x x' : Binding} {before after : Option Binding}

theorem continues (h : Turns name call outcome (some x) (some x')) : x.Continues x' := by
  cases h with
  | failed | other => exact x.continues_refl
  | moves hname h => exact h.continues

theorem stays (h : Turns name call outcome (some x) after) (hx : x.canDelete = false) :
    after.isSome := by
  cases h with
  | failed | other => rfl
  | moves hname h => exact h.stays hx

theorem value_of_constant (h : Turns name call outcome (some x) (some x'))
    (hx : x.isMutable = false) (hcall : ∀ v, call ≠ .initialise name v) : x'.value = x.value := by
  cases h with
  | failed | other => rfl
  | moves hname h =>
      subst hname
      exact h.value_of_constant hx hcall

theorem lastWritten (h : Turns name call outcome before after) :
    after.bind Binding.value =
      call.lastWritten name before (before.bind Binding.value) outcome := by
  cases h with
  | failed => rfl
  | other hname => simp [VariableCall.lastWritten, hname]
  | moves hname h =>
      subst hname
      exact h.lastWritten

end Turns

end VariableCall

theorem Heap.IsDeclarative.bindingAt {h : Heap} {s : ScopeRef} {b : Bindings}
    (hs : h.IsDeclarative s b) (name : String) : h.bindingAt s name = b.find? name := by
  obtain ⟨-, this, hrecord⟩ := hs
  rw [Heap.bindingAt, hrecord]
  rfl

namespace VariableCall

section Call

variable (eng : Engine) {s : ScopeRef} {b : Bindings} {σ : State}
  (hs : σ.heap.IsDeclarative s b)

include hs

/-- A call fails and changes no scope, or does to the variables what it does to them. -/
theorem run_perform_cases (call : VariableCall) :
    (∃ failure τ, (call.perform eng s).run σ = (.error failure, τ) ∧
      τ.heap.scopes = σ.heap.scopes) ∨
    ∃ reply b' τ, (call.perform eng s).run σ = (.ok reply, τ) ∧ τ.heap.IsDeclarative s b' ∧
      σ.heap.KeepsOthers s τ.heap ∧ call.apply b = .ok (reply, b') := by
  have hyields := yields_perform eng hs call
  match happly : call.apply b with
  | .error e =>
      rw [happly] at hyields
      exact .inl hyields.exists_error
  | .ok (reply, b') =>
      rw [happly] at hyields
      obtain ⟨τ, hrun, hb', hothers⟩ := hyields
      exact .inr ⟨reply, b', τ, hrun, hb', hothers, rfl⟩

theorem scopes_of_run_perform {call : VariableCall} {failure : Failure}
    (h : ((call.perform eng s).run σ).1 = .error failure) :
    ((call.perform eng s).run σ).2.heap.scopes = σ.heap.scopes := by
  obtain ⟨_, τ, hrun, hscopes⟩ | ⟨reply, b', τ, hrun, -, -⟩ := run_perform_cases eng hs call
  · rw [hrun]
    exact hscopes
  · rw [hrun] at h
    cases h

/-- One call turns every variable of the scope. -/
theorem turns_perform (call : VariableCall) :
    ∃ b', ((call.perform eng s).run σ).2.heap.IsDeclarative s b' ∧
      ∀ name, Turns name call ((call.perform eng s).run σ).1 (b.find? name) (b'.find? name) := by
  obtain ⟨failure, τ, hrun, hscopes⟩ | ⟨reply, b', τ, hrun, hb', -, happly⟩ :=
    run_perform_cases eng hs call
  · rw [hrun]
    exact ⟨b, hs.of_scopes hscopes, fun name ↦ .failed call failure _⟩
  · rw [hrun]
    refine ⟨b', hb', fun name ↦ ?_⟩
    by_cases hname : call.name = name
    · subst hname
      exact .moves rfl (moves_of_apply happly)
    · rw [find?_of_apply_of_ne happly (Ne.symm hname)]
      exact .other hname reply _

end Call

/-! ## A run of calls -/

/-- The variable `name` is there before the calls, between them and after them. -/
def Lasts (eng : Engine) (s : ScopeRef) (name : String) (calls : List VariableCall)
    (σ : State) : Prop :=
  ∀ part, part <+: calls → ((performAll eng s part σ).heap.bindingAt s name).isSome

theorem lasts_cons {eng : Engine} {s : ScopeRef} {name : String} {call : VariableCall}
    {rest : List VariableCall} {σ : State} :
    Lasts eng s name (call :: rest) σ ↔ (σ.heap.bindingAt s name).isSome ∧
      Lasts eng s name rest ((call.perform eng s).run σ).2 := by
  constructor
  · intro h
    refine ⟨h [] (List.nil_prefix), fun part hpart ↦ ?_⟩
    exact h (call :: part) (List.cons_prefix_cons.2 ⟨rfl, hpart⟩)
  · rintro ⟨hhere, hrest⟩ part hpart
    rcases List.prefix_cons_iff.1 hpart with rfl | ⟨part', rfl, hpart'⟩
    · exact hhere
    · exact hrest part' hpart'

/-- The value that was written last to the variable `name` after all calls, when it was
`last` before them. -/
def writtenLast (eng : Engine) (s : ScopeRef) (name : String) :
    List VariableCall → State → Option Value → Option Value
  | [], _, last => last
  | call :: rest, σ, last =>
    let r := (call.perform eng s).run σ
    writtenLast eng s name rest r.2 (call.lastWritten name (σ.heap.bindingAt s name) last r.1)

section Run

variable (eng : Engine) {s : ScopeRef} (calls : List VariableCall)

theorem isDeclarative_performAll {σ : State} (hs : ∃ b, σ.heap.IsDeclarative s b) :
    ∃ b, (performAll eng s calls σ).heap.IsDeclarative s b := by
  induction calls generalizing σ with
  | nil => exact hs
  | cons call rest ih =>
      obtain ⟨b, hs⟩ := hs
      obtain ⟨b', hs', -⟩ := turns_perform eng hs call
      exact ih ⟨b', hs'⟩

/-- While a variable is there it is the same one, and a constant that is not initialised
again keeps its value. -/
theorem continues_performAll {name : String} {σ : State} {b : Bindings}
    (hs : σ.heap.IsDeclarative s b) {x : Binding} (hx : b.find? name = some x)
    (hlasts : Lasts eng s name calls σ) :
    ∃ x', (performAll eng s calls σ).heap.bindingAt s name = some x' ∧ x.Continues x' ∧
      (x.isMutable = false → (∀ v, .initialise name v ∉ calls) → x'.value = x.value) := by
  induction calls generalizing σ b x with
  | nil => exact ⟨x, (hs.bindingAt name).trans hx, x.continues_refl, fun _ _ ↦ rfl⟩
  | cons call rest ih =>
      obtain ⟨b', hs', hturns⟩ := turns_perform eng hs call
      -- The variable is still there after the first call, so that is a turn of one
      -- variable, and the induction goes on from what it has become.
      have hrest := (lasts_cons.1 hlasts).2
      have hthere := hrest [] List.nil_prefix
      rw [performAll, hs'.bindingAt] at hthere
      obtain ⟨x', hx'⟩ := Option.isSome_iff_exists.1 hthere
      have hturn := hturns name
      rw [hx, hx'] at hturn
      obtain ⟨x'', hx'', hcontinues, hconstant⟩ := ih hs' hx' hrest
      refine ⟨x'', hx'', hturn.continues.trans hcontinues, fun hmutable hcalls ↦ ?_⟩
      have hcall : ∀ v, call ≠ .initialise name v :=
        fun v heq ↦ hcalls v (heq ▸ List.mem_cons_self)
      have hmutable' : x'.isMutable = false := hturn.continues.isMutable.trans hmutable
      exact (hconstant hmutable' fun v hv ↦ hcalls v (List.mem_cons_of_mem _ hv)).trans
        (hturn.value_of_constant hmutable hcall)

theorem lasts_of_canDelete {name : String} {σ : State} {b : Bindings}
    (hs : σ.heap.IsDeclarative s b) {x : Binding} (hx : b.find? name = some x)
    (hdelete : x.canDelete = false) : Lasts eng s name calls σ := by
  induction calls generalizing σ b x with
  | nil =>
      intro part hpart
      rw [List.prefix_nil.1 hpart, performAll, hs.bindingAt, hx]
      rfl
  | cons call rest ih =>
      obtain ⟨b', hs', hturns⟩ := turns_perform eng hs call
      have hturn := hturns name
      rw [hx] at hturn
      obtain ⟨x', hx'⟩ := Option.isSome_iff_exists.1 (hturn.stays hdelete)
      rw [hx'] at hturn
      refine lasts_cons.2 ⟨?_, ih hs' hx' (hturn.continues.canDelete.trans hdelete)⟩
      rw [hs.bindingAt, hx]
      rfl

/-- The value of a variable is what was written to it last. -/
theorem writtenLast_eq {name : String} {σ : State} {b : Bindings}
    (hs : σ.heap.IsDeclarative s b) :
    writtenLast eng s name calls σ ((σ.heap.bindingAt s name).bind Binding.value) =
      ((performAll eng s calls σ).heap.bindingAt s name).bind Binding.value := by
  induction calls generalizing σ b with
  | nil => rfl
  | cons call rest ih =>
      obtain ⟨b', hs', hturns⟩ := turns_perform eng hs call
      -- The ghost value is that of the variable before the call, hence after it too.
      have hlast := (hturns name).lastWritten
      rw [← hs.bindingAt, ← hs'.bindingAt] at hlast
      rw [writtenLast, performAll, ← ih hs', hlast]

end Run

section Reads

variable (eng : Engine) {s : ScopeRef} {b : Bindings} {σ : State}
  (hs : σ.heap.IsDeclarative s b)

include hs

/-- Reading gives the value that the variable has. -/
theorem run_get_eq_ok (name : String) (strict : Bool) (v : Value) :
    ((Scope.get eng s name strict).run σ).1 = .ok v ↔
      (σ.heap.bindingAt s name).bind Binding.value = some v := by
  have hyields := yields_get eng hs name strict
  rw [hs.bindingAt]
  match hget : b.get name with
  | .ok w =>
      rw [hget] at hyields
      obtain ⟨τ, hrun, -⟩ := hyields
      rw [Bindings.get] at hget
      split at hget <;> simp_all
  | .error e =>
      rw [hget] at hyields
      obtain ⟨failure, τ, hrun, -⟩ := BindingError.Refuses.exists_error hyields
      rw [Bindings.get] at hget
      split at hget <;> simp_all

/-- A variable without a value can be neither read nor set. -/
theorem throws_of_uninitialised {name : String} {x : Binding} (hx : b.find? name = some x)
    (hvalue : x.value = none) (v : Value) (strict : Bool) :
    σ.Throws .referenceError ((Scope.get eng s name strict).run σ) ∧
      σ.Throws .referenceError ((Scope.set eng s name v strict).run σ) := by
  obtain ⟨value, canDelete, isMutable, isStrict⟩ := x
  cases hvalue
  have hget := yields_get eng hs name strict
  have hset := yields_set eng hs name v strict
  have hrefused : b.get name = .error (.script (.notInitialized name)) := by
    simp [Bindings.get, hx]
  have hrefused' : b.set name v strict = .error (.script (.notInitialized name)) := by
    simp [Bindings.set, hx]
  rw [hrefused] at hget
  rw [hrefused'] at hset
  exact ⟨hget, hset⟩

end Reads

/-- From any state in which a scope holds variables itself, and for all calls on them:
while a variable is there its kind stays, a value is never taken back, and a constant
changes only by being initialised; what may not be deleted stays; what is read is what
was written last, and what has no value can be neither read nor set; and a call that
fails changes no scope. -/
theorem variables_live_by_their_kind (eng : Engine) {s : ScopeRef} {b : Bindings} {σ : State}
    (hs : σ.heap.IsDeclarative s b) (calls : List VariableCall) (name : String) :
    let τ := performAll eng s calls σ
    (∃ b', τ.heap.IsDeclarative s b') ∧
    (∀ x, σ.heap.bindingAt s name = some x → Lasts eng s name calls σ →
      ∃ x', τ.heap.bindingAt s name = some x' ∧ x.Continues x' ∧
        (x.isMutable = false → (∀ v, .initialise name v ∉ calls) → x'.value = x.value)) ∧
    (∀ x, σ.heap.bindingAt s name = some x → x.canDelete = false →
      Lasts eng s name calls σ) ∧
    (∀ strict v, ((Scope.get eng s name strict).run τ).1 = .ok v ↔
      writtenLast eng s name calls σ ((σ.heap.bindingAt s name).bind Binding.value) = some v) ∧
    (∀ x, τ.heap.bindingAt s name = some x → x.value = none → ∀ v strict,
      τ.Throws .referenceError ((Scope.get eng s name strict).run τ) ∧
        τ.Throws .referenceError ((Scope.set eng s name v strict).run τ)) ∧
    ∀ (call : VariableCall) failure, ((call.perform eng s).run τ).1 = .error failure →
      ((call.perform eng s).run τ).2.heap.scopes = τ.heap.scopes := by
  intro τ
  obtain ⟨b', hs'⟩ : ∃ b', τ.heap.IsDeclarative s b' := isDeclarative_performAll eng calls ⟨b, hs⟩
  refine ⟨⟨b', hs'⟩, fun x hx hlasts ↦ ?_, fun x hx hdelete ↦ ?_, fun strict v ↦ ?_,
    fun x hx hvalue v strict ↦ ?_, fun call failure hfailed ↦ ?_⟩
  · exact continues_performAll eng calls hs (hs.bindingAt name ▸ hx) hlasts
  · exact lasts_of_canDelete eng calls hs (hs.bindingAt name ▸ hx) hdelete
  · rw [writtenLast_eq eng calls hs]
    exact run_get_eq_ok eng hs' name strict v
  · exact throws_of_uninitialised eng hs' (hs'.bindingAt name ▸ hx) hvalue v strict
  · exact scopes_of_run_perform eng hs' hfailed

/-- A constant of a block keeps its value through a sloppy assignment, a write from
outside and an attempt to delete it. -/
theorem variables_live_by_their_kind_constant :
    let b := Bindings.empty.insert "x" ⟨some (.ofInt32 1), false, false, false⟩
    let made := (State.initial .standard).heap.addScope ⟨.declarative b none, none, false⟩
    let σ := { State.initial .standard with heap := made.2 }
    let calls : List VariableCall :=
      [.set "x" (.ofInt32 2) false, .store "x" (.ofInt32 3), .delete "x"]
    σ.heap.IsDeclarative made.1 b ∧ ∀ strict,
      ((Scope.get .exhausted made.1 "x" strict).run (performAll .exhausted made.1 calls σ)).1 =
        .ok (.ofInt32 1) := by
  intro b made σ calls
  have hs : σ.heap.IsDeclarative made.1 b :=
    ⟨by simp [σ, made, Heap.addScope], none, by rw [Heap.scope_addScope_self]⟩
  obtain ⟨-, hcontinues, hlasts, hread, -, -⟩ :=
    variables_live_by_their_kind .exhausted hs calls "x"
  have hx := (hs.bindingAt "x").trans (Bindings.find?_insert_self _ "x" _)
  obtain ⟨x', hx', -, hconstant⟩ := hcontinues _ hx (hlasts _ hx rfl)
  have hvalue := hconstant rfl (by simp [calls])
  refine ⟨hs, fun strict ↦ (hread strict _).2 ?_⟩
  rw [writtenLast_eq .exhausted calls hs, hx', Option.bind_some, hvalue]

end VariableCall

end Ecma
