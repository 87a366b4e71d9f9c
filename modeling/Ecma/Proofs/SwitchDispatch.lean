import Mathlib.Data.List.Basic
import Ecma.Proofs.IteratorClosing

/-!
# Dispatch of switch statements

A switch statement looks for the clause where it starts before it executes any.
All that its run does is a sequence of events: its subject is evaluated, then
tests of clauses, then their bodies are executed.  Which tests and which bodies
those are, and how the statement ends, is settled by what comes of them.
-/

namespace Ecma

namespace Statement

/-! ## Events of a switch -/

/-- A switch statement in its scope. -/
structure Switch where
  subject : Expression
  clauses : List SwitchClause
  scope : ScopeRef

/-- One thing that a switch does, and what comes of it.  A clause is given by its place. -/
inductive SwitchEvent where
  | subject (r : Except Failure Value)
  | test (i : ℕ) (r : Except Failure Value)
  | body (i : ℕ) (r : Except Fault Completion)

namespace SwitchEvent

/-- The event takes the first state to the second one. -/
def Happens (eng : Engine) (sw : Switch) (σ τ : State) : SwitchEvent → Prop
  | .subject r => (eng.eval sw.subject sw.scope).run σ = (r, τ)
  | .test i r =>
      ∃ test, sw.clauses[i]?.bind SwitchClause.test? = some test ∧
        (eng.eval test sw.scope).run σ = (r, τ)
  | .body i r =>
      ∃ clause, sw.clauses[i]? = some clause ∧
        (execBlock eng clause.body sw.scope).run σ = (r, τ)

/-- The events happen one after the other, and nothing between them. -/
inductive Trace (eng : Engine) (sw : Switch) : State → List SwitchEvent → State → Prop
  | nil (σ : State) : Trace eng sw σ [] σ
  | cons {σ ρ τ : State} {e : SwitchEvent} {events : List SwitchEvent}
      (first : e.Happens eng sw σ ρ) (rest : Trace eng sw ρ events τ) :
      Trace eng sw σ (e :: events) τ

variable {eng : Engine} {sw : Switch}

theorem Trace.append {σ ρ τ : State} {first rest : List SwitchEvent}
    (hfirst : Trace eng sw σ first ρ) (hrest : Trace eng sw ρ rest τ) :
    Trace eng sw σ (first ++ rest) τ := by
  induction hfirst with
  | nil => exact hrest
  | cons hhead _ ih => exact .cons hhead (ih hrest)

end SwitchEvent

/-- The tests evaluated and the bodies executed by a run of a switch, with the places of their
clauses, and what came of them and of the subject. -/
structure SwitchRun where
  given : Except Failure Value
  tests : List (ℕ × Except Failure Value)
  bodies : List (ℕ × Except Fault Completion)

/-- The test gives the value. -/
def gives (v : Value) : Except Failure Value → Bool
  | .ok w => v.strictEqual w
  | .error _ => false

/-- The test gives another value. -/
def Misses (v : Value) (r : Except Failure Value) : Prop :=
  ∃ w, r = .ok w ∧ v.strictEqual w = false

def EndsNormally (r : Except Fault Completion) : Prop :=
  ∃ v, r = .ok (.normal v)

/-- What is at the places is done in their order, up to and including the first with an outcome
after which it does not go on. -/
structure UpToFirst {α : Type} (goesOn : α → Prop) (places : List ℕ) (done : List (ℕ × α)) :
    Prop where
  inOrder : done.map Prod.fst <+: places
  earlier : ∀ p ∈ done.dropLast, goesOn p.2
  complete : (∀ p ∈ done, goesOn p.2) → done.map Prod.fst = places

/-- The value that the last of the bodies with a value has given, or else the one before them. -/
def lastValue (before : Value) (bodies : List (ℕ × Except Fault Completion)) : Value :=
  (bodies.filterMap fun p ↦ p.2.toOption.bind Completion.value?).getLast?.getD before

/-- The places from the given one to the last of the clauses. -/
def placesFrom (clauses : List SwitchClause) : Option ℕ → List ℕ
  | none => []
  | some i => List.range' i (clauses.length - i)

/-- The place of the clause whose test has given the value. -/
def found? (v : Value) (tests : List (ℕ × Except Failure Value)) : Option ℕ :=
  (tests.find? (gives v ·.2)).map Prod.fst

/-- Where the bodies start: at the clause that has been found, or else at the default one. -/
def start? (clauses : List SwitchClause) (v : Value)
    (tests : List (ℕ × Except Failure Value)) : Option ℕ :=
  (found? v tests).or (clauses.findIdx? (·.test?.isNone))

namespace SwitchRun

variable (run : SwitchRun)

def events : List SwitchEvent :=
  .subject run.given ::
    (run.tests.map (fun p ↦ .test p.1 p.2) ++ run.bodies.map fun p ↦ .body p.1 p.2)

/-- The subject or a test has failed. -/
def Fails (e : Failure) : Prop :=
  run.given = .error e ∨ ∃ i, (i, .error e) ∈ run.tests

/-- The run evaluates the tests and executes the bodies that it should. -/
structure Selects (clauses : List SwitchClause) : Prop where
  /-- Nothing happens after a subject that fails. -/
  untested : ∀ e, run.given = .error e → run.tests = []
  /-- The tests are tried in their order up to the first that gives the value, or fails. -/
  tested : ∀ v, run.given = .ok v →
    UpToFirst (Misses v) (clauses.findIdxs (·.test?.isSome)) run.tests
  /-- After a failure no body is executed; -/
  skipped : ∀ e, run.Fails e → run.bodies = []
  /-- otherwise those from the selected clause on are, up to the first that does not end
  normally. -/
  executed : ∀ v, run.given = .ok v → (∀ e, ¬ run.Fails e) →
    UpToFirst EndsNormally (placesFrom clauses (start? clauses v run.tests)) run.bodies

/-- The value of the switch. -/
def value : Value := lastValue .undefined run.bodies

/-- How the statement ends when its events have led to the state. -/
structure EndsWith (location : Location) (ρ : State) (out : Except Fault Completion × State) :
    Prop where
  failed : ∀ e, run.Fails e → out = (throwCompletion e location).run ρ
  faulted : ∀ i f, (i, .error f) ∈ run.bodies → out = (.error f, ρ)
  abrupt : ∀ i c, (i, .ok c) ∈ run.bodies → c.isAbrupt = true →
    out = (.ok (c.updateEmpty (some run.value)).exitBreakable, ρ)
  normal : (∀ e, ¬ run.Fails e) → (∀ p ∈ run.bodies, EndsNormally p.2) →
    out = (.ok (.normal (some run.value)), ρ)
  /-- If it ends normally, by a break or without one, its value is that of the bodies. -/
  value : ∀ v, out.1 = .ok (.normal v) → v = some run.value

end SwitchRun

/-! ## Going on as far as possible -/

namespace UpToFirst

variable {α : Type} {goesOn : α → Prop}

theorem nil : UpToFirst goesOn [] [] :=
  ⟨List.prefix_refl [], List.forall_mem_nil _, fun _ ↦ rfl⟩

theorem stop {i : ℕ} {r : α} (h : ¬ goesOn r) (places : List ℕ) :
    UpToFirst goesOn (i :: places) [(i, r)] where
  inOrder := List.prefix_append [i] places
  earlier := List.forall_mem_nil _
  complete hall := absurd (hall (i, r) (List.mem_singleton_self _)) h

theorem cons {i : ℕ} {r : α} {places : List ℕ} {done : List (ℕ × α)} (h : goesOn r)
    (hrest : UpToFirst goesOn places done) : UpToFirst goesOn (i :: places) ((i, r) :: done) where
  inOrder := (List.prefix_cons_inj i).2 hrest.inOrder
  earlier p hp := by
    cases done with
    | nil => cases hp
    | cons q rest =>
        rw [List.dropLast_cons_cons] at hp
        rcases List.mem_cons.1 hp with rfl | hp
        · exact h
        · exact hrest.earlier p hp
  complete hall := congrArg (i :: ·) (hrest.complete fun p hp ↦ hall p (List.mem_cons_of_mem _ hp))

end UpToFirst

/-! ## Tests -/

/-- What is looked up among the clauses by the tests. -/
structure Answers (clauses : List SwitchClause) (v : Value)
    (tests : List (ℕ × Except Failure Value))
    (answer : Except Failure (Option (List SwitchClause))) : Prop where
  failed : ∀ i e, (i, .error e) ∈ tests → answer = .error e
  found : (∀ i e, (i, .error e) ∉ tests) →
    answer = .ok ((found? v tests).map clauses.drop)

namespace Answers

variable {clauses : List SwitchClause} {v w : Value} {i : ℕ}

theorem nil : Answers clauses v [] (.ok none) :=
  ⟨fun _ _ h ↦ absurd h List.not_mem_nil, fun _ ↦ rfl⟩

theorem fail (i : ℕ) (e : Failure) : Answers clauses v [(i, .error e)] (.error e) where
  failed j f hmem := by
    cases List.mem_singleton.1 hmem
    rfl
  found hok := absurd (List.mem_singleton_self _) (hok i e)

theorem hit (hw : v.strictEqual w = true) :
    Answers clauses v [(i, .ok w)] (.ok (some (clauses.drop i))) where
  failed j e hmem := by cases List.mem_singleton.1 hmem
  found _ := by simp [found?, gives, hw]

theorem miss {tests : List (ℕ × Except Failure Value)}
    {answer : Except Failure (Option (List SwitchClause))} (hw : v.strictEqual w = false)
    (h : Answers clauses v tests answer) : Answers clauses v ((i, .ok w) :: tests) answer where
  failed j e hmem := by
    rcases List.mem_cons.1 hmem with heq | hmem
    · cases heq
    · exact h.failed j e hmem
  found hok := by
    rw [found?, List.find?_cons_of_neg (by simp [gives, hw])]
    exact h.found fun j e hmem ↦ hok j e (List.mem_cons_of_mem _ hmem)

end Answers

theorem not_misses_error (v : Value) (e : Failure) : ¬ Misses v (.error e) := nofun

theorem not_misses_of_strictEqual {v w : Value} (h : v.strictEqual w = true) :
    ¬ Misses v (.ok w) := by
  rintro ⟨_, ⟨⟩, hmiss⟩
  rw [h] at hmiss
  cases hmiss

/-! ## Bodies -/

/-- What executing the bodies gives if the value before them is the given one. -/
structure Results (before : Value) (bodies : List (ℕ × Except Fault Completion))
    (r : Except Fault Completion) : Prop where
  faulted : ∀ i f, (i, .error f) ∈ bodies → r = .error f
  abrupt : ∀ i c, (i, .ok c) ∈ bodies → c.isAbrupt = true →
    r = .ok (c.updateEmpty (some (lastValue before bodies)))
  normal : (∀ p ∈ bodies, EndsNormally p.2) → r = .ok (.normal (some (lastValue before bodies)))
  value : ∀ c, r = .ok c → c.value? = some (lastValue before bodies)

theorem lastValue_cons (before : Value) (i : ℕ) (c : Completion)
    (bodies : List (ℕ × Except Fault Completion)) :
    lastValue before ((i, .ok c) :: bodies) = lastValue (c.value?.getD before) bodies := by
  unfold lastValue
  cases hc : c.value? with
  | none => rw [List.filterMap_cons_none (by exact hc), Option.getD_none]
  | some v => rw [List.filterMap_cons_some (by exact hc), List.getLast?_cons]; rfl

theorem not_endsNormally {c : Completion} (h : c.isAbrupt = true) : ¬ EndsNormally (.ok c) := by
  rintro ⟨v, ⟨⟩⟩
  cases h

namespace Results

variable {before : Value} {i : ℕ}

theorem nil (before : Value) : Results before [] (.ok (.normal (some before))) where
  faulted _ _ h := absurd h List.not_mem_nil
  abrupt _ _ h := absurd h List.not_mem_nil
  normal _ := rfl
  value := by
    rintro _ ⟨⟩
    rfl

theorem fault (before : Value) (i : ℕ) (f : Fault) :
    Results before [(i, .error f)] (.error f) where
  faulted j g hmem := by
    cases List.mem_singleton.1 hmem
    rfl
  abrupt j c hmem := by cases List.mem_singleton.1 hmem
  normal hall := by
    obtain ⟨v, hv⟩ := hall _ (List.mem_singleton_self _)
    cases hv
  value := nofun

theorem stop {c : Completion} (hc : c.isAbrupt = true) :
    Results before [(i, .ok c)] (.ok (c.updateEmpty (some (c.value?.getD before)))) where
  faulted j f hmem := by cases List.mem_singleton.1 hmem
  abrupt j d hmem _ := by
    cases List.mem_singleton.1 hmem
    rw [lastValue_cons]
    rfl
  normal hall := absurd (hall _ (List.mem_singleton_self _)) (not_endsNormally hc)
  value := by
    rintro _ ⟨⟩
    rw [lastValue_cons, Completion.value?_updateEmpty]
    cases c.value? <;> rfl

theorem cons {v : Option Value} {bodies : List (ℕ × Except Fault Completion)}
    {r : Except Fault Completion} (h : Results (v.getD before) bodies r) :
    Results before ((i, .ok (.normal v)) :: bodies) r := by
  have hlast : lastValue before ((i, .ok (.normal v)) :: bodies) =
      lastValue (v.getD before) bodies := lastValue_cons before i _ bodies
  constructor
  · intro j f hmem
    rcases List.mem_cons.1 hmem with heq | hmem
    · cases heq
    · exact h.faulted j f hmem
  · intro j c hmem hc
    rcases List.mem_cons.1 hmem with heq | hmem
    · cases heq
      cases hc
    · rw [hlast]
      exact h.abrupt j c hmem hc
  · intro hall
    rw [hlast]
    exact h.normal fun p hp ↦ hall p (List.mem_cons_of_mem _ hp)
  · intro c hc
    rw [hlast]
    exact h.value c hc

end Results

/-! ## Runs of the parts -/

/-- From a place with a clause on there is that clause, and what there is from the next place
on. -/
theorem getElem?_and_drop_succ {α : Type} {l rest : List α} {a : α} {n : ℕ}
    (h : l.drop n = a :: rest) : l[n]? = some a ∧ l.drop (n + 1) = rest :=
  ⟨by rw [← List.head?_drop, h]; rfl, by rw [← List.tail_drop, h]; rfl⟩

section Runs

variable (eng : Engine) (sw : Switch)

open SwitchEvent

/-- Looking for the value among the clauses from a place on is evaluating their tests. -/
theorem exists_tests (v : Value) (n : ℕ) (σ : State) :
    ∃ tests ρ answer,
      Trace eng sw σ (tests.map fun p ↦ .test p.1 p.2) ρ ∧
      UpToFirst (Misses v) ((sw.clauses.drop n).findIdxs (·.test?.isSome) n) tests ∧
      Answers sw.clauses v tests answer ∧
      (matchClause eng v sw.scope (sw.clauses.drop n)).run σ = (answer, ρ) := by
  generalize hsuffix : sw.clauses.drop n = suffix
  induction suffix generalizing n σ with
  | nil => exact ⟨[], σ, .ok none, .nil σ, .nil, .nil, rfl⟩
  | cons clause rest ih =>
      obtain ⟨hclause, hrest⟩ := getElem?_and_drop_succ hsuffix
      rw [List.findIdxs_cons, matchClause]
      cases htest : clause.test? with
      | none =>
          -- A default clause is passed over.
          exact ih (n + 1) σ hrest
      | some test =>
          have hhappens {r ρ} (h : (eng.eval test sw.scope).run σ = (r, ρ)) :
              (SwitchEvent.test n r).Happens eng sw σ ρ :=
            ⟨test, by rw [hclause]; exact htest, h⟩
          rw [Option.isSome_some, if_pos rfl]
          dsimp only
          rw [Action.run_bind]
          rcases hrun : (eng.eval test sw.scope).run σ with ⟨e | w, ρ⟩
          · exact ⟨[(n, .error e)], ρ, .error e, .cons (hhappens hrun) (.nil ρ),
              .stop (not_misses_error v e) _, .fail n e, rfl⟩
          dsimp only
          cases hw : v.strictEqual w with
          | true =>
              exact ⟨[(n, .ok w)], ρ, .ok (some (clause :: rest)), .cons (hhappens hrun) (.nil ρ),
                .stop (not_misses_of_strictEqual hw) _, hsuffix ▸ .hit hw, rfl⟩
          | false =>
              obtain ⟨tests, τ, answer, htrace, htests, hanswer, hmatch⟩ := ih (n + 1) ρ hrest
              exact ⟨(n, .ok w) :: tests, τ, answer, .cons (hhappens hrun) htrace,
                .cons ⟨w, rfl, hw⟩ htests, hanswer.miss hw, hmatch⟩

/-- Executing the clauses from a place on is executing their bodies. -/
theorem exists_bodies (before : Value) (n : ℕ) (σ : State) :
    ∃ bodies ρ r,
      Trace eng sw σ (bodies.map fun p ↦ .body p.1 p.2) ρ ∧
      UpToFirst EndsNormally (List.range' n (sw.clauses.drop n).length) bodies ∧
      Results before bodies r ∧
      (execClauses eng sw.scope before (sw.clauses.drop n)).run σ = (r, ρ) := by
  generalize hsuffix : sw.clauses.drop n = suffix
  induction suffix generalizing before n σ with
  | nil => exact ⟨[], σ, _, .nil σ, .nil, .nil before, rfl⟩
  | cons clause rest ih =>
      obtain ⟨hclause, hrest⟩ := getElem?_and_drop_succ hsuffix
      rw [List.length_cons, List.range'_succ, execClauses, Execution.run_bind]
      rcases hrun : (execBlock eng clause.body sw.scope).run σ with ⟨f | c, ρ⟩
      · exact ⟨[(n, .error f)], ρ, .error f, .cons ⟨clause, hclause, hrun⟩ (.nil ρ),
          .stop nofun _, .fault before n f, rfl⟩
      dsimp only
      cases hc : c.isAbrupt with
      | true =>
          exact ⟨[(n, .ok c)], ρ, _, .cons ⟨clause, hclause, hrun⟩ (.nil ρ),
            .stop (not_endsNormally hc) _, .stop hc, rfl⟩
      | false =>
          cases c with
          | normal v =>
              obtain ⟨bodies, τ, r, htrace, hbodies, hresults, hexec⟩ :=
                ih (v.getD before) (n + 1) ρ hrest
              exact ⟨(n, .ok (.normal v)) :: bodies, τ, r,
                .cons ⟨clause, hclause, hrun⟩ htrace, .cons ⟨v, rfl⟩ hbodies, hresults.cons, hexec⟩
          | _ => cases hc

end Runs

/-! ## How a switch ends -/

theorem defaultClauses_eq_drop (clauses : List SwitchClause) :
    defaultClauses clauses =
      clauses.drop ((clauses.findIdx? (·.test?.isNone)).getD clauses.length) := by
  rw [defaultClauses, List.dropWhile_eq_drop_findIdx_not, ← List.findIdx_eq_getD_findIdx?]
  simp only [Option.not_isSome]

/-- The clauses selected are those from the start on, if there is one. -/
theorem selected_eq_drop (clauses : List SwitchClause) (found : Option ℕ) :
    (found.map clauses.drop).getD (defaultClauses clauses) =
      clauses.drop ((found.or (clauses.findIdx? (·.test?.isNone))).getD clauses.length) := by
  cases found with
  | none => exact defaultClauses_eq_drop clauses
  | some i => rfl

theorem placesFrom_eq (clauses : List SwitchClause) (start : Option ℕ) :
    placesFrom clauses start =
      List.range' (start.getD clauses.length)
        (clauses.drop (start.getD clauses.length)).length := by
  cases start with
  | none => rw [Option.getD_none, List.drop_length]; rfl
  | some i => rw [Option.getD_some, List.length_drop]; rfl

theorem run_selectClauses {eng : Engine} {sw : Switch} {v : Value} {σ σ₁ ρ : State}
    {answer : Except Failure (Option (List SwitchClause))}
    (hsubject : (eng.eval sw.subject sw.scope).run σ = (.ok v, σ₁))
    (hmatch : (matchClause eng v sw.scope sw.clauses).run σ₁ = (answer, ρ)) :
    (selectClauses eng sw.subject sw.clauses sw.scope).run σ =
      (answer.map (·.getD (defaultClauses sw.clauses)), ρ) := by
  rw [selectClauses, Action.run_bind, hsubject]
  dsimp only
  rw [Action.run_bind, hmatch]
  cases answer <;> rfl

/-- A failure to select clauses ends the statement. -/
theorem run_switch_of_error {eng : Engine} {sw : Switch} {σ ρ : State} {e : Failure}
    (hselect : (selectClauses eng sw.subject sw.clauses sw.scope).run σ = (.error e, ρ))
    (location : Location) :
    (execForm eng (.switch sw.subject sw.clauses) sw.scope labels location).run σ =
      (throwCompletion e location).run ρ := by
  rw [execForm, run_exitBreakable, execSwitch, run_attempt, hselect]
  cases e <;> rfl

theorem run_switch_of_ok {eng : Engine} {sw : Switch} {σ ρ τ : State}
    {selected : List SwitchClause} {r : Except Fault Completion}
    (hselect : (selectClauses eng sw.subject sw.clauses sw.scope).run σ = (.ok selected, ρ))
    (hexec : (execClauses eng sw.scope .undefined selected).run ρ = (r, τ))
    (location : Location) :
    (execForm eng (.switch sw.subject sw.clauses) sw.scope labels location).run σ =
      (r.map Completion.exitBreakable, τ) := by
  rw [execForm, run_exitBreakable, execSwitch, run_attempt, hselect]
  dsimp only
  rw [hexec]

namespace SwitchRun

variable {run : SwitchRun} {location : Location} {ρ : State}

theorem endsWith_of_fails {e : Failure} (hfails : run.Fails e)
    (honly : ∀ e', run.Fails e' → e' = e) (hbodies : run.bodies = []) :
    run.EndsWith location ρ ((throwCompletion e location).run ρ) where
  failed e' he := by rw [honly e' he]
  faulted i f hmem := by
    rw [hbodies] at hmem
    cases hmem
  abrupt i c hmem := by
    rw [hbodies] at hmem
    cases hmem
  normal hok := absurd hfails (hok e)
  value := by cases e <;> exact nofun

theorem endsWith_of_results {r : Except Fault Completion} (hok : ∀ e, ¬ run.Fails e)
    (h : Results .undefined run.bodies r) :
    run.EndsWith location ρ (r.map Completion.exitBreakable, ρ) where
  failed e he := absurd he (hok e)
  faulted i f hmem := by
    rw [h.faulted i f hmem]
    rfl
  abrupt i c hmem hc := by
    rw [h.abrupt i c hmem hc]
    rfl
  normal _ hall := by
    rw [h.normal hall]
    rfl
  value := by
    have hvalue := h.value
    intro v hv
    rcases r with f | c
    · cases hv
    · have hc : c.exitBreakable = .normal v := Except.ok.inj hv
      rw [value, ← hvalue c rfl]
      rcases c with w | _ | _ | ⟨_ | _, w, l⟩ | _ <;> cases hc
      · rfl
      · -- A break has the value of the bodies, since it had none of its own or gave the last one.
        have hw := hvalue _ rfl
        cases w with
        | none => cases hw
        | some w => rfl

end SwitchRun

section Runs

variable (eng : Engine) (sw : Switch) (labels : List String) (location : Location)

/-- The statement runs from the state as it should. -/
def Dispatches (σ : State) : Prop :=
  ∃ (run : SwitchRun) (ρ : State),
    SwitchEvent.Trace eng sw σ run.events ρ ∧ run.Selects sw.clauses ∧
    run.EndsWith location ρ
      ((execForm eng (.switch sw.subject sw.clauses) sw.scope labels location).run σ)

variable {eng sw labels location}

theorem dispatches_of_subject_error {e : Failure} {σ σ₁ : State}
    (hsubject : (eng.eval sw.subject sw.scope).run σ = (.error e, σ₁)) :
    Dispatches eng sw labels location σ := by
  have hselect : (selectClauses eng sw.subject sw.clauses sw.scope).run σ = (.error e, σ₁) := by
    rw [selectClauses, Action.run_bind, hsubject]
  refine ⟨⟨.error e, [], []⟩, σ₁, .cons hsubject (.nil σ₁),
    ⟨fun _ _ ↦ rfl, nofun, fun _ _ ↦ rfl, nofun⟩, ?_⟩
  rw [run_switch_of_error hselect]
  refine SwitchRun.endsWith_of_fails (.inl rfl) ?_ rfl
  rintro e' (⟨⟨⟩⟩ | ⟨_, ⟨⟩⟩)
  rfl

section Subject

variable {v : Value} {σ σ₁ σ₂ : State} {tests : List (ℕ × Except Failure Value)}
  {answer : Except Failure (Option (List SwitchClause))}
  (hsubject : (eng.eval sw.subject sw.scope).run σ = (.ok v, σ₁))
  (htests : SwitchEvent.Trace eng sw σ₁ (tests.map fun p ↦ .test p.1 p.2) σ₂)
  (htried : UpToFirst (Misses v) (sw.clauses.findIdxs (·.test?.isSome)) tests)
  (hanswer : Answers sw.clauses v tests answer)
  (hmatch : (matchClause eng v sw.scope sw.clauses).run σ₁ = (answer, σ₂))

include hsubject htests htried hanswer hmatch

theorem dispatches_of_test_error {i : ℕ} {e : Failure} (hmem : (i, .error e) ∈ tests) :
    Dispatches eng sw labels location σ := by
  obtain rfl := hanswer.failed i e hmem
  have hfails : (SwitchRun.mk (.ok v) tests []).Fails e := .inr ⟨i, hmem⟩
  refine ⟨⟨.ok v, tests, []⟩, σ₂, .cons hsubject (by simpa using htests),
    ⟨nofun, ?_, fun _ _ ↦ rfl, fun _ _ hok ↦ absurd hfails (hok e)⟩, ?_⟩
  · rintro _ ⟨⟩
    exact htried
  · rw [run_switch_of_error (run_selectClauses hsubject hmatch)]
    refine SwitchRun.endsWith_of_fails hfails ?_ rfl
    rintro e' (⟨⟨⟩⟩ | ⟨j, hj⟩)
    exact (Except.error.inj (hanswer.failed j e' hj)).symm

theorem dispatches_of_tests_ok (hok : ∀ i e, (i, .error e) ∉ tests) :
    Dispatches eng sw labels location σ := by
  obtain rfl := hanswer.found hok
  have hselect := run_selectClauses hsubject hmatch
  rw [Except.map, selected_eq_drop, ← start?] at hselect
  obtain ⟨bodies, ρ, r, hbodies, hplaces, hresults, hexec⟩ :=
    exists_bodies eng sw .undefined ((start? sw.clauses v tests).getD sw.clauses.length) σ₂
  have hsound (e) : ¬ (SwitchRun.mk (.ok v) tests bodies).Fails e := by
    rintro (⟨⟨⟩⟩ | ⟨i, hmem⟩)
    exact hok i e hmem
  refine ⟨⟨.ok v, tests, bodies⟩, ρ, .cons hsubject (htests.append hbodies),
    ⟨nofun, ?_, fun e he ↦ absurd he (hsound e), ?_⟩, ?_⟩
  · rintro _ ⟨⟩
    exact htried
  · rintro _ ⟨⟩ -
    rw [placesFrom_eq]
    exact hplaces
  · rw [run_switch_of_ok hselect hexec]
    exact SwitchRun.endsWith_of_results hsound hresults

end Subject

/-- Every run of a switch is one that selects what it should. -/
theorem dispatches (σ : State) : Dispatches eng sw labels location σ := by
  rcases hsubject : (eng.eval sw.subject sw.scope).run σ with ⟨e | v, σ₁⟩
  · exact dispatches_of_subject_error hsubject
  obtain ⟨tests, σ₂, answer, htests, htried, hanswer, hmatch⟩ := exists_tests eng sw v 0 σ₁
  by_cases hfail : ∃ i e, (i, .error e) ∈ tests
  · obtain ⟨i, e, hmem⟩ := hfail
    exact dispatches_of_test_error hsubject htests htried hanswer hmatch hmem
  · exact dispatches_of_tests_ok hsubject htests htried hanswer hmatch
      fun i e hmem ↦ hfail ⟨i, e, hmem⟩

end Runs

/-- A switch that is not interrupted evaluates its subject, then tests of its clauses, then executes
bodies, each once.  The tests are those up to the first that gives the value of the subject, or
fails.  If none fails, the bodies are those from the selected clause on, up to the first that does
not end normally, and their last value is that of the statement if it ends normally. -/
theorem switch_runs_from_the_selected_clause (eng : Engine) (location : Location)
    (subject : Expression) (clauses : List SwitchClause) (s : ScopeRef) (labels : List String)
    {σ₀ σ : State} (hstart : σ₀.takeInterrupt = (false, σ)) :
    ∃ (run : SwitchRun) (ρ : State),
      SwitchEvent.Trace eng ⟨subject, clauses, s⟩ σ run.events ρ ∧ run.Selects clauses ∧
      run.EndsWith location ρ
        ((exec eng (.mk location (.switch subject clauses)) s labels).run σ₀) := by
  rw [run_exec hstart]
  exact (dispatches σ : Dispatches eng ⟨subject, clauses, s⟩ labels location σ)

/-- No test gives the value, and the default clause is not the last one: its body is executed and
the one after it, which ends with a break. -/
theorem switch_runs_from_the_selected_clause_default :
    let σ := State.initial .standard
    let s := σ.realm.globalScope
    let here : Location := ⟨1, 1⟩
    let clause (test : Option String) (value : String) (rest : List Statement) :=
      SwitchClause.mk (test.map .string) (.mk here (.expression (.string value)) :: rest)
    let clauses := [clause (some "a") "v" [], clause none "w" [],
      clause (some "b") "x" [.mk here (.break none)], clause (some "c") "y" []]
    let out := (exec (.level 9) (.mk here (.switch (.string "d") clauses)) s []).run σ
    σ.takeInterrupt = (false, σ) ∧
      clauses.findIdxs (·.test?.isSome) = [0, 2, 3] ∧ clauses.findIdx? (·.test?.isNone) = some 1 ∧
      out.1.toOption.any (·.name == "normal") = true ∧
      (out.1.toOption.bind Completion.value?).any (·.strictEqual (.ofString "x")) = true ∧
      ∃ (run : SwitchRun) (ρ : State),
        SwitchEvent.Trace (.level 9) ⟨.string "d", clauses, s⟩ σ run.events ρ ∧
        run.Selects clauses ∧ run.EndsWith here ρ out := by
  intro σ s here clause clauses out
  have hstart : σ.takeInterrupt = (false, σ) := rfl
  exact ⟨hstart, rfl, rfl, by decide +kernel, by decide +kernel,
    switch_runs_from_the_selected_clause (.level 9) here (.string "d") clauses s [] hstart⟩

end Statement

end Ecma
