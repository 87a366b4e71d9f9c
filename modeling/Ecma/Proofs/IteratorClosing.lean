import Ecma.Engine.Level

/-!
# Closing iterators

A loop over an iterator asks it for one value after another, and closes it if it
leaves the iterator before that is done.  All that a run of the loop does is a
sequence of events, each in the state that the one before has left.  The runs
are described by their events; that the iterator is closed when it must be, and
only then, is read off the description.
-/

namespace Ecma

theorem Value.eq_object_of_object? {v : Value} {o : ObjectRef} (h : v.object? = some o) :
    v = .object o := by
  cases v <;> cases h
  rfl

namespace Statement

/-! ## Events of a loop -/

/-- A loop whose iterator has been opened. -/
structure IteratorLoop where
  iterator : Iterator
  target : LoopTarget
  body : Statement
  scope : ScopeRef
  labels : List String
  location : Location

/-- One thing that a loop does, and what comes of it. -/
inductive IteratorEvent where
  /-- The method for the next result is called. -/
  | next (r : Except Failure Value)
  /-- A result that is no object is refused. -/
  | refuse (result : Value) (r : Except Failure (Option Value))
  | readDone (result : ObjectRef) (r : Except Failure Value)
  | readValue (result : ObjectRef) (r : Except Failure Value)
  /-- The loop variable gets the value; that yields the scope of the turn. -/
  | bind (v : Value) (r : Except Failure ScopeRef)
  /-- A failure to give it the value becomes the completion of the turn. -/
  | giveUp (e : Failure) (r : Except Fault Completion)
  /-- The body is executed in the scope of the turn. -/
  | execute (s : ScopeRef) (r : Except Fault Completion)
  /-- The method that closes the iterator is looked up. -/
  | lookUp (r : Except Failure (Option Value))
  /-- It is called. -/
  | close (method : Value) (r : Except Failure Value)

namespace IteratorEvent

/-- The event takes the first state to the second one. -/
def Happens (eng : Engine) (loop : IteratorLoop) (σ τ : State) : IteratorEvent → Prop
  | .next r => (eng.call loop.iterator.nextMethod loop.iterator.object []).run σ = (r, τ)
  | .refuse result r =>
      (Action.throwNew (.stepNotObject (σ.heap.display result))).run σ = (r, τ)
  | .readDone result r =>
      (Object.get eng result (.ofString "done") (.object result)).run σ = (r, τ)
  | .readValue result r =>
      (Object.get eng result (.ofString "value") (.object result)).run σ = (r, τ)
  | .bind v r => (bindTarget eng loop.target v loop.scope).run σ = (r, τ)
  | .giveUp e r => (throwCompletion e loop.location).run σ = (r, τ)
  | .execute s r => (eng.exec loop.body s []).run σ = (r, τ)
  | .lookUp r =>
      (Conversion.getMethod eng loop.iterator.object (.ofString "return")).run σ = (r, τ)
  | .close method r => (eng.call method loop.iterator.object []).run σ = (r, τ)

/-- The event is a part of closing the iterator. -/
def isClosing : IteratorEvent → Bool
  | .lookUp _ | .close _ _ => true
  | _ => false

/-- The completion of the turn, if the event ends one. -/
def completion? : IteratorEvent → Option Completion
  | .giveUp _ (.ok c) | .execute _ (.ok c) => some c
  | _ => none

/-- The value of the loop after the event. -/
def valueAfter (last : Value) (e : IteratorEvent) : Value :=
  e.completion?.elim last fun c ↦ c.value?.getD last

/-- The events neither end a turn nor belong to closing the iterator. -/
def Prepare (events : List IteratorEvent) : Prop :=
  ∀ e ∈ events, e.completion? = none ∧ e.isClosing = false

/-- The events happen one after the other, and nothing between them. -/
inductive Trace (eng : Engine) (loop : IteratorLoop) : State → List IteratorEvent → State → Prop
  | nil (σ : State) : Trace eng loop σ [] σ
  | cons {σ ρ τ : State} {e : IteratorEvent} {events : List IteratorEvent}
      (first : e.Happens eng loop σ ρ) (rest : Trace eng loop ρ events τ) :
      Trace eng loop σ (e :: events) τ

/-- The events are those of asking an iterator for its next value, with what comes of it:
`none` if the iterator is done. -/
inductive Asks : List IteratorEvent → Except Failure (Option Value) → Prop
  | nextFails (e : Failure) : Asks [.next (.error e)] (.error e)
  | noObject {result : Value} (hresult : result.isObject = false)
      (r : Except Failure (Option Value)) : Asks [.next (.ok result), .refuse result r] r
  | doneFails (o : ObjectRef) (e : Failure) :
      Asks [.next (.ok (.object o)), .readDone o (.error e)] (.error e)
  | isDone (o : ObjectRef) {d : Value} (hd : d.toBoolean = true) :
      Asks [.next (.ok (.object o)), .readDone o (.ok d)] (.ok none)
  | gives (o : ObjectRef) {d : Value} (hd : d.toBoolean = false) (r : Except Failure Value) :
      Asks [.next (.ok (.object o)), .readDone o (.ok d), .readValue o r] (r.map some)

/-- The events are those of a turn with the value, with what comes of it. -/
inductive Turns (v : Value) : List IteratorEvent → Except Fault Completion → Prop
  | bindFails (e : Failure) (r : Except Fault Completion) :
      Turns v [.bind v (.error e), .giveUp e r] r
  | executes (s : ScopeRef) (r : Except Fault Completion) :
      Turns v [.bind v (.ok s), .execute s r] r

/-- The events are those of closing an iterator, with what comes of it: `none` if there is
no method to call. -/
inductive Closes : List IteratorEvent → Except Failure (Option Value) → Prop
  | lookUpFails (e : Failure) : Closes [.lookUp (.error e)] (.error e)
  | absent : Closes [.lookUp (.ok none)] (.ok none)
  | called (method : Value) (r : Except Failure Value) :
      Closes [.lookUp (.ok (some method)), .close method r] (r.map some)

variable {eng : Engine} {loop : IteratorLoop}

theorem Trace.single {e : IteratorEvent} {σ τ : State} (h : e.Happens eng loop σ τ) :
    Trace eng loop σ [e] τ :=
  .cons h (.nil τ)

theorem isClosing_of_completion? {e : IteratorEvent} {c : Completion}
    (h : e.completion? = some c) : e.isClosing = false := by
  cases e <;> first | rfl | cases h

theorem Prepare.append {events rest : List IteratorEvent} (h : Prepare events)
    (hrest : Prepare rest) : Prepare (events ++ rest) :=
  List.forall_mem_append.2 ⟨h, hrest⟩

theorem Prepare.foldl_valueAfter {events : List IteratorEvent} (h : Prepare events)
    (last : Value) : events.foldl valueAfter last = last := by
  induction events with
  | nil => rfl
  | cons e rest ih =>
      obtain ⟨⟨he, -⟩, hrest⟩ := List.forall_mem_cons.1 h
      rw [List.foldl_cons, valueAfter, he, Option.elim_none, ih hrest]

/-- Asking for a value ends no turn. -/
theorem Asks.prepare {events : List IteratorEvent} {r : Except Failure (Option Value)}
    (h : Asks events r) : Prepare events := by
  intro e he
  cases h <;> simp only [List.mem_cons, List.not_mem_nil, or_false] at he <;>
    rcases he with rfl | rfl | rfl <;> exact ⟨rfl, rfl⟩

/-- A turn without a completion ends in a fault. -/
theorem Turns.prepare {v : Value} {events : List IteratorEvent} {f : Fault}
    (h : Turns v events (.error f)) : Prepare events := by
  intro e he
  cases h <;> simp only [List.mem_cons, List.not_mem_nil, or_false] at he <;>
    rcases he with rfl | rfl <;> exact ⟨rfl, rfl⟩

/-- The last event of a turn gives its completion. -/
theorem Turns.exists_eq {v : Value} {events : List IteratorEvent} {c : Completion}
    (h : Turns v events (.ok c)) :
    ∃ before e, events = before ++ [e] ∧ Prepare before ∧ e.completion? = some c := by
  cases h with
  | bindFails e =>
      exact ⟨[.bind v (.error e)], _, rfl, List.forall_mem_singleton.2 ⟨rfl, rfl⟩, rfl⟩
  | executes s => exact ⟨[.bind v (.ok s)], _, rfl, List.forall_mem_singleton.2 ⟨rfl, rfl⟩, rfl⟩

theorem Closes.completion?_eq_none {events : List IteratorEvent}
    {closed : Except Failure (Option Value)} (h : Closes events closed) {e : IteratorEvent}
    (he : e ∈ events) : e.completion? = none := by
  cases h <;> simp only [List.mem_cons, List.not_mem_nil, or_false] at he <;>
    rcases he with rfl | rfl <;> rfl

end IteratorEvent

/-! ## Runs of the parts -/

theorem run_exec {σ τ : State} (h : σ.takeInterrupt = (false, τ)) (eng : Engine) (stmt : Statement)
    (s : ScopeRef) (labels : List String) :
    (exec eng stmt s labels).run σ = (execForm eng stmt.form s labels stmt.location).run τ := by
  have hstop : (modifyGet State.takeInterrupt : Execution Bool).run σ = (.ok false, τ) := by
    change (Except.ok σ.takeInterrupt.1, σ.takeInterrupt.2) = _
    rw [h]
  rw [exec, Execution.run_bind, hstop]
  rfl

theorem run_exitBreakable (m : Execution Completion) (σ : State) :
    Execution.run (do return (← m).exitBreakable) σ =
      ((m.run σ).1.map Completion.exitBreakable, (m.run σ).2) := by
  rw [Execution.run_bind]
  rcases m.run σ with ⟨_ | _, _⟩ <;> rfl

theorem run_ofAction {α : Type} (m : Action α) (σ : State) :
    (Execution.ofAction m).run σ = (.ok (m.run σ).1, (m.run σ).2) := rfl

theorem run_attempt {α : Type} (m : Action α) (location : Location)
    (next : α → Execution Completion) (σ : State) :
    (attempt m location next).run σ =
      match m.run σ with
      | (.ok a, τ) => (next a).run τ
      | (.error e, τ) => (throwCompletion e location).run τ := by
  rw [attempt, Execution.run_bind, run_ofAction]
  rcases m.run σ with ⟨_ | _, _⟩ <;> rfl

open IteratorEvent

section Parts

variable (eng : Engine) (loop : IteratorLoop)

/-- Asking for the next value is what its events are. -/
theorem exists_asks (σ : State) :
    ∃ events r ρ, Asks events r ∧ Trace eng loop σ events ρ ∧
      (stepIterator eng loop.iterator).run σ = (r, ρ) := by
  rw [stepIterator, Action.run_bind]
  rcases hnext : (eng.call loop.iterator.nextMethod loop.iterator.object []).run σ with
    ⟨e | result, σ₁⟩
  · exact ⟨_, _, σ₁, .nextFails e, .single hnext, rfl⟩
  dsimp only
  by_cases hresult : result.isObject = true
  · obtain ⟨o, rfl⟩ : ∃ o, result = .object o := by
      cases result with
      | object o => exact ⟨o, rfl⟩
      | _ => cases hresult
    dsimp only
    rw [Action.run_bind]
    rcases hdone : (Object.get eng o (.ofString "done") (.object o)).run σ₁ with ⟨e | d, σ₂⟩
    · exact ⟨_, _, σ₂, .doneFails o e, .cons hnext (.single hdone), rfl⟩
    dsimp only
    cases hd : d.toBoolean with
    | true => exact ⟨_, _, σ₂, .isDone o hd, .cons hnext (.single hdone), rfl⟩
    | false =>
        rw [if_neg Bool.false_ne_true, Action.run_bind]
        rcases hvalue : (Object.get eng o (.ofString "value") (.object o)).run σ₂ with
          ⟨e | v, σ₃⟩
        · exact ⟨_, _, σ₃, .gives o hd (.error e), .cons hnext (.cons hdone (.single hvalue)), rfl⟩
        · exact ⟨_, _, σ₃, .gives o hd (.ok v), .cons hnext (.cons hdone (.single hvalue)), rfl⟩
  · have hrefuse (r ρ) (h : (Action.throwNew (.stepNotObject (σ₁.heap.display result)) :
        Action (Option Value)).run σ₁ = (r, ρ)) : ∃ events r' ρ', Asks events r' ∧
          Trace eng loop σ events ρ' ∧ (r, ρ) = (r', ρ') :=
      ⟨_, r, ρ, .noObject (Bool.eq_false_iff.2 hresult) r, .cons hnext (.single h), rfl⟩
    cases result with
    | object o => exact absurd rfl hresult
    | _ => exact hrefuse _ _ rfl

/-- A turn is what its events are. -/
theorem exists_turns (v : Value) (σ : State) :
    ∃ events r ρ, Turns v events r ∧ Trace eng loop σ events ρ ∧
      (execTurn eng loop.target v loop.body loop.scope loop.location).run σ = (r, ρ) := by
  rw [execTurn, run_attempt]
  rcases hbind : (bindTarget eng loop.target v loop.scope).run σ with ⟨e | s, ρ⟩
  · exact ⟨_, _, _, .bindFails e _, .cons hbind (.single rfl), rfl⟩
  · exact ⟨_, _, _, .executes s _, .cons hbind (.single rfl), rfl⟩

/-- Closing is what its events are. -/
theorem exists_closes (σ : State) :
    ∃ events r ρ, Closes events r ∧ Trace eng loop σ events ρ ∧
      (callReturn eng loop.iterator).run σ = (r, ρ) := by
  rw [callReturn, Action.run_bind]
  rcases hfound : (Conversion.getMethod eng loop.iterator.object (.ofString "return")).run σ with
    ⟨e | _ | method, σ₁⟩
  · exact ⟨_, _, σ₁, .lookUpFails e, .single hfound, rfl⟩
  · exact ⟨_, _, σ₁, .absent, .single hfound, rfl⟩
  · dsimp only
    rw [Action.run_bind]
    rcases hcall : (eng.call method loop.iterator.object []).run σ₁ with ⟨e | v, σ₂⟩
    · exact ⟨_, _, σ₂, .called method (.error e), .cons hfound (.single hcall), rfl⟩
    · exact ⟨_, _, σ₂, .called method (.ok v), .cons hfound (.single hcall), rfl⟩

end Parts

/-! ## What is handed on -/

/-- The last part of closing an iterator, when it is known what came of calling its method. -/
def handOn (c : Completion) (location : Location) (closed : Except Failure (Option Value)) :
    Execution Completion := do
  match closed, c with
  | .ok none, c => return c
  | .error (.fault f), _ => throw f
  | _, .throw v l =>
    modify fun s ↦ { s with throwLocation := none }
    return .throw v l
  | .error e, _ => throwCompletion e location
  | .ok (some v), c => if v.isObject then return c else throwNew .closeNotObject location

theorem run_closeIterator (eng : Engine) (it : Iterator) (c : Completion) (location : Location)
    (σ : State) :
    (closeIterator eng it c location).run σ =
      (handOn c location ((callReturn eng it).run σ).1).run ((callReturn eng it).run σ).2 := rfl

/-- What a loop that was left with the completion `c` hands on, by what came of closing the
iterator. -/
structure HandsOn (c : Completion) (closed : Except Failure (Option Value))
    (r : Except Fault Completion) : Prop where
  /-- Nothing but a fault while closing ends the loop without a completion. -/
  fault : ∀ f, closed = .error (.fault f) → r = .error f
  /-- The completion stands if there is no method to call, -/
  absent : closed = .ok none → r = .ok c
  /-- and a throw stands in any case. -/
  kept : ∀ v l, c = .throw v l → (∀ f, closed ≠ .error (.fault f)) → r = .ok c
  /-- Any other gives way to what the look-up or the call throws, -/
  replaced : (∀ v l, c ≠ .throw v l) → ∀ e v, closed = .error e → e.value? = some v →
    ∃ l, r = .ok (.throw v l)
  /-- and to an error if the call gives no object, -/
  refused : (∀ v l, c ≠ .throw v l) → ∀ w, closed = .ok (some w) → w.isObject = false →
    ∃ o l, r = .ok (.throw (.object o) l)
  /-- and stands if it gives one. -/
  accepted : ∀ w, closed = .ok (some w) → w.isObject = true → r = .ok c

/-- Where the completion is no throw, a failure to close it takes its place. -/
theorem handOn_of_not_throw {c : Completion} (hc : ∀ v l, c ≠ .throw v l) (location : Location)
    (closed : Except Failure (Option Value)) :
    handOn c location closed =
      match closed with
      | .error e => throwCompletion e location
      | .ok none => pure c
      | .ok (some w) => if w.isObject then pure c else throwNew .closeNotObject location := by
  cases c with
  | throw v l => exact absurd rfl (hc v l)
  | _ => rcases closed with (_ | _ | _) | _ | _ <;> rfl

theorem handsOn_handOn (c : Completion) (location : Location)
    (closed : Except Failure (Option Value)) (σ : State) :
    HandsOn c closed ((handOn c location closed).run σ).1 where
  fault f hclosed := by
    subst hclosed
    cases c <;> rfl
  absent hclosed := by
    subst hclosed
    cases c <;> rfl
  kept v l hc hfault := by
    subst hc
    rcases closed with (_ | _ | f) | _ | _
    · rfl
    · rfl
    · exact absurd rfl (hfault f)
    · rfl
    · rfl
  replaced hc e v hclosed he := by
    subst hclosed
    rw [handOn_of_not_throw hc]
    cases e with
    | thrown w =>
        cases he
        exact ⟨_, rfl⟩
    | uncaught w l =>
        cases he
        exact ⟨l, rfl⟩
    | fault f => cases he
  refused hc w hclosed hw := by
    subst hclosed
    rw [handOn_of_not_throw hc]
    dsimp only
    rw [hw, if_neg Bool.false_ne_true]
    exact ⟨_, location, rfl⟩
  accepted w hclosed hw := by
    subst hclosed
    by_cases hc : ∃ v l, c = .throw v l
    · obtain ⟨v, l, rfl⟩ := hc
      rfl
    · rw [handOn_of_not_throw fun v l h ↦ hc ⟨v, l, h⟩]
      dsimp only
      rw [hw]
      rfl

/-! ## Runs of the loop -/

namespace IteratorLoop

variable (eng : Engine) (loop : IteratorLoop)

/-- The loop, with fuel for that many turns and with the given value so far, runs from the state
through the events to the outcome. -/
inductive Runs :
    Nat → Value → State → List IteratorEvent → Except Fault Completion × State → Prop
  /-- The fuel is out. -/
  | exhausted (last : Value) (σ : State) : Runs 0 last σ [] (.error .outOfFuel, σ)
  /-- There is no next value to be had, -/
  | fails (n : Nat) (last : Value) {σ ρ : State} {asked : List IteratorEvent} {e : Failure}
      (hasks : Asks asked (.error e)) (htrace : Trace eng loop σ asked ρ) :
      Runs (n + 1) last σ asked ((throwCompletion e loop.location).run ρ)
  /-- or the iterator is done, -/
  | done (n : Nat) (last : Value) {σ ρ : State} {asked : List IteratorEvent}
      (hasks : Asks asked (.ok none)) (htrace : Trace eng loop σ asked ρ) :
      Runs (n + 1) last σ asked (.ok (.normal (some last)), ρ)
  /-- or a fault ends the turn. -/
  | faults (n : Nat) (last : Value) {σ ρ τ : State} {asked turn : List IteratorEvent} {v : Value}
      {f : Fault} (hasks : Asks asked (.ok (some v))) (htrace : Trace eng loop σ asked ρ)
      (hturns : Turns v turn (.error f)) (hturn : Trace eng loop ρ turn τ) :
      Runs (n + 1) last σ (asked ++ turn) (.error f, τ)
  /-- A turn is followed by another one, -/
  | goesOn {n : Nat} {last : Value} {σ ρ τ : State} {asked turn rest : List IteratorEvent}
      {v : Value} {c : Completion} {out : Except Fault Completion × State}
      (hasks : Asks asked (.ok (some v))) (htrace : Trace eng loop σ asked ρ)
      (hturns : Turns v turn (.ok c)) (hturn : Trace eng loop ρ turn τ)
      (hc : c.continuesLoop loop.labels = true) (hrest : Runs n (c.value?.getD last) τ rest out) :
      Runs (n + 1) last σ (asked ++ turn ++ rest) out
  /-- or the iterator is left and closed. -/
  | leaves (n : Nat) (last : Value) {σ ρ τ τ' : State} {asked turn closing : List IteratorEvent}
      {v : Value} {c : Completion} {closed : Except Failure (Option Value)}
      (hasks : Asks asked (.ok (some v))) (htrace : Trace eng loop σ asked ρ)
      (hturns : Turns v turn (.ok c)) (hturn : Trace eng loop ρ turn τ)
      (hc : c.continuesLoop loop.labels = false)
      (hcloses : Closes closing closed) (htrace' : Trace eng loop τ closing τ') :
      Runs (n + 1) last σ (asked ++ turn ++ closing)
        ((handOn (c.updateEmpty (some last)) loop.location closed).run τ')

/-- Every run of the loop is one through events. -/
theorem exists_runs (n : Nat) (last : Value) (σ : State) :
    ∃ events, Runs eng loop n last σ events
      ((forOfTurns eng loop.iterator loop.target loop.body loop.scope loop.labels loop.location n
        last).run σ) := by
  induction n generalizing last σ with
  | zero => exact ⟨[], .exhausted last σ⟩
  | succ n ih =>
      obtain ⟨asked, answer, ρ, hasks, htrace, hstep⟩ := exists_asks eng loop σ
      rw [forOfTurns, run_attempt, hstep]
      rcases answer with e | _ | v
      · exact ⟨asked, .fails n last hasks htrace⟩
      · exact ⟨asked, .done n last hasks htrace⟩
      dsimp only
      obtain ⟨turn, r, τ, hturns, hturn, hrun⟩ := exists_turns eng loop v ρ
      rw [Execution.run_bind, hrun]
      rcases r with f | c
      · exact ⟨_, .faults n last hasks htrace hturns hturn⟩
      dsimp only
      cases hc : c.continuesLoop loop.labels with
      | true =>
          obtain ⟨rest, hrest⟩ := ih (c.value?.getD last) τ
          exact ⟨_, .goesOn hasks htrace hturns hturn hc hrest⟩
      | false =>
          obtain ⟨closing, closed, τ', hcloses, htrace', hclose⟩ := exists_closes eng loop τ
          rw [if_neg Bool.false_ne_true, run_closeIterator, hclose]
          exact ⟨_, .leaves n last hasks htrace hturns hturn hc hcloses htrace'⟩

/-! ## When the iterator is closed -/

/-- The loop may go on after each of the turns. -/
def GoesOnAfter (events : List IteratorEvent) : Prop :=
  ∀ e ∈ events, ∀ c, e.completion? = some c → c.continuesLoop loop.labels = true

/-- What a loop whose value was `last` owes its iterator, in a run that ended with `r`. -/
structure Contract (last : Value) (events : List IteratorEvent) (r : Except Fault Completion) :
    Prop where
  /-- The iterator is not closed if the loop may go on after each turn that was completed. -/
  spared : loop.GoesOnAfter events → ∀ e ∈ events, e.isClosing = false
  /-- After any other turn it is closed, and that is all that happens.  The turn's completion,
  with the value of the turns before it, decides with the outcome of closing what is handed
  on. -/
  closed : ∀ e ∈ events, ∀ c, e.completion? = some c → c.continuesLoop loop.labels = false →
    ∃ before closing outcome, events = before ++ e :: closing ∧
      loop.GoesOnAfter before ∧ (∀ e ∈ before, e.isClosing = false) ∧
      Closes closing outcome ∧
      HandsOn (c.updateEmpty (some (before.foldl valueAfter last))) outcome r

variable {eng loop}

theorem goesOnAfter_of_prepare {events : List IteratorEvent} (h : Prepare events) :
    loop.GoesOnAfter events := by
  intro e he c hc
  rw [(h e he).1] at hc
  cases hc

theorem GoesOnAfter.append {events rest : List IteratorEvent} (h : loop.GoesOnAfter events)
    (hrest : loop.GoesOnAfter rest) : loop.GoesOnAfter (events ++ rest) :=
  List.forall_mem_append.2 ⟨h, hrest⟩

theorem GoesOnAfter.cons {e : IteratorEvent} {rest : List IteratorEvent} {c : Completion}
    (he : e.completion? = some c) (hc : c.continuesLoop loop.labels = true)
    (hrest : loop.GoesOnAfter rest) : loop.GoesOnAfter (e :: rest) := by
  refine List.forall_mem_cons.2 ⟨fun d hd ↦ ?_, hrest⟩
  cases he.symm.trans hd
  exact hc

/-- A run in which no turn is completed owes nothing. -/
theorem Contract.of_prepare {last : Value} {events : List IteratorEvent}
    {r : Except Fault Completion} (h : Prepare events) : loop.Contract last events r where
  spared _ e he := (h e he).2
  closed e he c hc := by
    rw [(h e he).1] at hc
    cases hc

variable {last : Value} {before rest closing : List IteratorEvent} {e : IteratorEvent}
  {c : Completion} {r : Except Fault Completion}

/-- A turn after which the loop goes on adds nothing to what it owes. -/
theorem Contract.goesOn (hbefore : Prepare before) (he : e.completion? = some c)
    (hc : c.continuesLoop loop.labels = true) (h : loop.Contract (c.value?.getD last) rest r) :
    loop.Contract last (before ++ e :: rest) r := by
  have hopen {events : List IteratorEvent} (hevents : ∀ e ∈ events, e.isClosing = false) :
      ∀ e' ∈ before ++ e :: events, e'.isClosing = false :=
    List.forall_mem_append.2 ⟨fun e he ↦ (hbefore e he).2,
      List.forall_mem_cons.2 ⟨isClosing_of_completion? he, hevents⟩⟩
  constructor
  · intro hgo
    refine hopen (h.spared fun e' hmem ↦ hgo e' ?_)
    exact List.mem_append_right _ (List.mem_cons_of_mem _ hmem)
  · intro e' hmem c' he' hc'
    rcases List.mem_append.1 hmem with hmem | hmem
    · rw [(hbefore e' hmem).1] at he'
      cases he'
    rcases List.mem_cons.1 hmem with rfl | hmem
    · cases he.symm.trans he'
      rw [hc] at hc'
      cases hc'
    obtain ⟨before', closing, outcome, rfl, hbefore', hspared, hcloses, hhands⟩ :=
      h.closed e' hmem c' he' hc'
    refine ⟨before ++ e :: before', closing, outcome, by simp,
      (goesOnAfter_of_prepare hbefore).append (hbefore'.cons he hc), hopen hspared, hcloses, ?_⟩
    rw [List.foldl_append, hbefore.foldl_valueAfter, List.foldl_cons, valueAfter, he]
    exact hhands

/-- Any other turn is the last one. -/
theorem Contract.leaves {outcome : Except Failure (Option Value)} (hbefore : Prepare before)
    (he : e.completion? = some c) (hc : c.continuesLoop loop.labels = false)
    (hcloses : Closes closing outcome)
    (hhands : HandsOn (c.updateEmpty (some last)) outcome r) :
    loop.Contract last (before ++ e :: closing) r := by
  constructor
  · intro hgo
    rw [hgo e (by simp) c he] at hc
    cases hc
  · intro e' hmem c' he' hc'
    rcases List.mem_append.1 hmem with hmem | hmem
    · rw [(hbefore e' hmem).1] at he'
      cases he'
    rcases List.mem_cons.1 hmem with rfl | hmem
    · cases he.symm.trans he'
      refine ⟨before, closing, outcome, rfl, goesOnAfter_of_prepare hbefore,
        fun e he ↦ (hbefore e he).2, hcloses, ?_⟩
      rw [hbefore.foldl_valueAfter]
      exact hhands
    · rw [hcloses.completion?_eq_none hmem] at he'
      cases he'

/-- Every run of the loop gives the iterator its due. -/
theorem Runs.contract {n : Nat} {σ : State} {events : List IteratorEvent}
    {out : Except Fault Completion × State} (h : Runs eng loop n last σ events out) :
    loop.Contract last events out.1 := by
  induction h with
  | exhausted last σ => exact .of_prepare (List.forall_mem_nil _)
  | fails n last hasks => exact .of_prepare hasks.prepare
  | done n last hasks => exact .of_prepare hasks.prepare
  | faults n last hasks _ hturns _ => exact .of_prepare (hasks.prepare.append hturns.prepare)
  | goesOn hasks _ hturns _ hc _ ih =>
      obtain ⟨before, e, rfl, hbefore, he⟩ := hturns.exists_eq
      rw [← List.append_assoc, List.append_assoc _ [e]]
      exact .goesOn (hasks.prepare.append hbefore) he hc ih
  | leaves n last hasks _ hturns _ hc hcloses _ =>
      obtain ⟨before, e, rfl, hbefore, he⟩ := hturns.exists_eq
      rw [← List.append_assoc, List.append_assoc _ [e]]
      exact .leaves (hasks.prepare.append hbefore) he hc hcloses (handsOn_handOn _ _ _ _)

end IteratorLoop

end Statement

end Ecma
