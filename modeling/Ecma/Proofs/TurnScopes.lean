import Mathlib.Data.List.Chain
import Ecma.Proofs.CallScopes
import Ecma.Proofs.DeclaredNames
import Ecma.Proofs.IteratorClosing
import Ecma.Proofs.VariableLifecycle

/-!
# The scopes of the turns of a loop

A `for` loop over variables of its own gives each turn a scope with copies of them.  A turn is a
few events, each in one scope; the copies are made between the body of a turn and the update, so
the update already runs in the scope of the next turn.  Functions keep the scope that they are made
in, and an assignment changes one scope only: what a function has captured in one turn is not what
another turn assigns.
-/

namespace Ecma

/-! ## Copies of variables -/

/-- The variables of the names and no others, each of them mutable and with the value given. -/
structure Bindings.Copies (value? : String → Option Value) (names : List String) (b : Bindings) :
    Prop where
  present : ∀ name ∈ names, ∃ v, value? name = some v ∧
    b.find? name = some ⟨some v, false, true, false⟩
  absent : ∀ name ∉ names, b.find? name = none

namespace State

/-- The state with one more block scope, which holds the variables. -/
def addBlock (σ : State) (outer : ScopeRef) (strict : Bool) (b : Bindings) : State :=
  { σ with heap := (σ.heap.addScope ⟨.declarative b none, some outer, strict⟩).2 }

/-- The later state has one more scope, with copies of the variables of the last turn.  It is
inside the same one, and as strict as that; nothing else is different. -/
def Copies (names : List String) (last next : ScopeRef) (σ τ : State) : Prop :=
  ∃ outer b, (σ.heap.scope last).outer = some outer ∧ b.Copies (σ.heap.valueAt last) names ∧
    next = ⟨σ.heap.scopes.size⟩ ∧ τ = σ.addBlock outer (σ.heap.scope outer).isStrict b

variable {σ : State} {outer s : ScopeRef} {strict : Bool} {b : Bindings}

theorem scope_addBlock_self (σ : State) (outer : ScopeRef) (strict : Bool) (b : Bindings) :
    (σ.addBlock outer strict b).heap.scope ⟨σ.heap.scopes.size⟩ =
      ⟨.declarative b none, some outer, strict⟩ :=
  σ.heap.scope_addScope_self _

theorem scope_addBlock_of_lt (hs : s.index < σ.heap.scopes.size) :
    (σ.addBlock outer strict b).heap.scope s = σ.heap.scope s :=
  Heap.scope_addScope_of_lt hs _

theorem lt_size_addBlock (σ : State) (outer : ScopeRef) (strict : Bool) (b : Bindings) :
    σ.heap.scopes.size < (σ.addBlock outer strict b).heap.scopes.size := by
  simp [addBlock, Heap.addScope]

end State

theorem Heap.lt_of_outer {h : Heap} {s outer : ScopeRef} (h' : (h.scope s).outer = some outer) :
    s.index < h.scopes.size := by
  by_contra hge
  have hdefault : h.scope s = default := by
    rw [scope, Array.getD_eq_getD_getElem?, Array.getElem?_eq_none (Nat.le_of_not_lt hge)]
    rfl
  rw [hdefault] at h'
  cases h'

theorem Heap.modifyScope_addScope (h : Heap) (data : Scope) (f : Scope → Scope) :
    (h.addScope data).2.modifyScope (h.addScope data).1 f = (h.addScope (f data)).2 := by
  have hpush : (h.scopes.push data).modify h.scopes.size f = h.scopes.push (f data) := by
    refine Array.ext (by simp) fun i hi _ ↦ ?_
    rw [Array.size_modify, Array.size_push] at hi
    rw [Array.getElem_modify, Array.getElem_push, Array.getElem_push]
    split
    next heq => simp [← heq]
    next hne => simp only [dif_pos (show i < h.scopes.size by omega)]
  exact congrArg (fun scopes ↦ { h with scopes }) hpush

theorem Scope.run_update_addBlock {σ : State} {outer : ScopeRef} {strict : Bool} {b b' : Bindings}
    {f : Bindings → Except BindingError Bindings} (hf : f b = .ok b') :
    (Scope.update ⟨σ.heap.scopes.size⟩ b f).run (σ.addBlock outer strict b) =
      (.ok (), σ.addBlock outer strict b') := by
  have hmodify := σ.heap.modifyScope_addScope ⟨.declarative b none, some outer, strict⟩
    fun scope ↦ { scope with record := scope.record.withBindings b' }
  rw [Scope.update, hf]
  exact congrArg (fun heap ↦ (Except.ok (), { σ with heap })) hmodify

namespace Statement

section Copying

variable (eng : Engine) {σ : State} {last : ScopeRef} (hlast : last.index < σ.heap.scopes.size)
  (outer : ScopeRef) (strict : Bool) {b : Bindings}

include hlast

/-- Copying one more variable to the scope that is being made. -/
theorem run_copyEach_cons {name : String} (habsent : b.find? name = none) {v : Value}
    (hv : σ.heap.valueAt last name = some v) (rest : List String) :
    (copyEach eng last ⟨σ.heap.scopes.size⟩ (name :: rest)).run (σ.addBlock outer strict b) =
      (copyEach eng last ⟨σ.heap.scopes.size⟩ rest).run (σ.addBlock outer strict
        ((b.insert name ⟨none, false, true, false⟩).write name v)) := by
  let b₁ := b.insert name ⟨none, false, true, false⟩
  have hcreate : b.createMutable name false = .ok b₁ := by
    simp [b₁, Bindings.createMutable, Bindings.create, Bindings.contains, habsent]
  have hinitialise : b₁.initialise name v = .ok (b₁.write name v) := by
    simp [b₁, Bindings.initialise, Bindings.contains]
  have hread : (σ.addBlock outer strict b₁).heap.valueAt last name = some v := by
    rw [Heap.valueAt, State.scope_addBlock_of_lt hlast]
    exact hv
  rw [copyEach, Action.run_bind, Scope.createMutable, Action.run_bind, Action.run_scope]
  dsimp only
  rw [State.scope_addBlock_self]
  dsimp only
  rw [Scope.run_update_addBlock hcreate]
  dsimp only
  rw [Action.run_bind, Scope.run_get_of_valueAt eng hread]
  dsimp only
  rw [Action.run_bind, Scope.initialise, Action.run_bind, Action.run_scope]
  dsimp only
  rw [State.scope_addBlock_self]
  dsimp only
  rw [Scope.run_update_addBlock hinitialise]

theorem run_copyEach {names : List String} (hdistinct : names.Nodup)
    (hvalues : ∀ name ∈ names, (σ.heap.valueAt last name).isSome)
    (habsent : ∀ name ∈ names, b.find? name = none) :
    ∃ b', (copyEach eng last ⟨σ.heap.scopes.size⟩ names).run (σ.addBlock outer strict b) =
        (.ok (), σ.addBlock outer strict b') ∧
      (∀ name ∈ names, ∃ v, σ.heap.valueAt last name = some v ∧
        b'.find? name = some ⟨some v, false, true, false⟩) ∧
      ∀ name ∉ names, b'.find? name = b.find? name := by
  induction names generalizing b with
  | nil => exact ⟨b, rfl, nofun, fun _ _ ↦ rfl⟩
  | cons name rest ih =>
      obtain ⟨hfresh, hdistinct⟩ := List.nodup_cons.1 hdistinct
      obtain ⟨v, hv⟩ := Option.isSome_iff_exists.1 (hvalues name List.mem_cons_self)
      let b₁ := (b.insert name ⟨none, false, true, false⟩).write name v
      have hself : b₁.find? name = some ⟨some v, false, true, false⟩ := by
        rw [Bindings.find?_write_self, Bindings.find?_insert_self]
        rfl
      have hother {other : String} (hne : other ≠ name) : b₁.find? other = b.find? other :=
        (Bindings.find?_write_of_ne _ hne v).trans (b.find?_insert_of_ne hne _)
      obtain ⟨b', hrun, hpresent, hkept⟩ := ih (b := b₁) hdistinct
        (fun other h ↦ hvalues other (List.mem_cons_of_mem _ h)) fun other h ↦
          (hother fun heq ↦ hfresh (heq ▸ h)).trans (habsent other (List.mem_cons_of_mem _ h))
      refine ⟨b', ?_, fun other hmem ↦ ?_, fun other hmem ↦ ?_⟩
      · rw [run_copyEach_cons eng hlast outer strict (habsent name List.mem_cons_self) hv]
        exact hrun
      · rcases List.mem_cons.1 hmem with rfl | hmem
        · exact ⟨v, hv, (hkept other hfresh).trans hself⟩
        · exact hpresent other hmem
      · have hrest := hkept other (List.not_mem_of_not_mem_cons hmem)
        exact hrest.trans (hother (List.ne_of_not_mem_cons hmem))

end Copying

theorem run_nextTurnScope (eng : Engine) {names : List String} (hnames : names ≠ []) {σ : State}
    {last outer : ScopeRef} (houter : (σ.heap.scope last).outer = some outer) :
    (nextTurnScope eng last names).run σ =
      Action.run (do
        copyEach eng last ⟨σ.heap.scopes.size⟩ names
        return ⟨σ.heap.scopes.size⟩)
        (σ.addBlock outer (σ.heap.scope outer).isStrict .empty) := by
  have hempty : names.isEmpty = false := by simpa using hnames
  rw [nextTurnScope, if_neg (by simp [hempty]), Action.run_bind, Action.run_scope]
  dsimp only
  rw [houter]
  rfl

/-- Variables that have values are copied. -/
theorem copies_nextTurnScope (eng : Engine) {names : List String} (hnames : names ≠ [])
    (hdistinct : names.Nodup) {σ : State} {last : ScopeRef}
    (houter : (σ.heap.scope last).outer.isSome)
    (hvalues : ∀ name ∈ names, (σ.heap.valueAt last name).isSome) :
    ∃ next τ, (nextTurnScope eng last names).run σ = (.ok next, τ) ∧
      σ.Copies names last next τ := by
  obtain ⟨outer, houter⟩ := Option.isSome_iff_exists.1 houter
  obtain ⟨b, hcopy, hpresent, habsent⟩ := run_copyEach eng (Heap.lt_of_outer houter) outer
    (σ.heap.scope outer).isStrict (b := .empty) hdistinct hvalues fun _ _ ↦ rfl
  refine ⟨_, _, ?_, outer, b, houter, ⟨hpresent, habsent⟩, rfl, rfl⟩
  rw [run_nextTurnScope eng hnames houter, Action.run_bind, hcopy]
  rfl

end Statement

/-! ## Scopes of turns -/

namespace Heap

variable {names : List String} {h h' : Heap} {s : ScopeRef}

/-- The scope is there, has variables of the names, and is inside another one. -/
structure IsTurn (names : List String) (h : Heap) (s : ScopeRef) : Prop where
  lt : s.index < h.scopes.size
  outer : (h.scope s).outer.isSome
  has : ∀ name ∈ names, h.IsVariable s name

theorem IsTurn.evolves (hs : h.IsTurn names s) (hev : h.ScopesEvolve h') : h'.IsTurn names s where
  lt := Nat.lt_of_lt_of_le hs.lt hev.size_le
  outer := by
    rw [(hev.scope s hs.lt).outer]
    exact hs.outer
  has name hname := (hs.has name hname).evolves hev

end Heap

theorem State.Copies.isTurn {names : List String} {last next : ScopeRef} {σ τ : State}
    (h : σ.Copies names last next τ) : τ.heap.IsTurn names next := by
  obtain ⟨outer, b, -, hb, rfl, rfl⟩ := h
  have hlt := σ.lt_size_addBlock outer (σ.heap.scope outer).isStrict b
  have hscope := σ.scope_addBlock_self outer (σ.heap.scope outer).isStrict b
  refine ⟨hlt, by rw [hscope]; rfl, fun name hname ↦ ?_⟩
  obtain ⟨v, -, hfind⟩ := hb.present name hname
  exact ⟨hlt, b, by rw [hscope]; rfl, _, hfind, rfl, rfl, rfl⟩

namespace Statement

variable {n : ℕ} {names : List String} {σ τ : State}

/-- What can be copied has no name twice, and is there afterwards, whatever is run to read the
variables. -/
theorem variables_of_run_copyEach {source target : ScopeRef} {b : Bindings}
    (htarget : σ.heap.IsDeclarative target b)
    (hrun : (copyEach (.level n) source target names).run σ = (.ok (), τ)) :
    names.Nodup ∧ (∀ name, b.IsDeclared name → name ∉ names) ∧
      σ.heap.ScopesEvolve τ.heap ∧ ∀ name ∈ names, τ.heap.IsVariable target name := by
  have hG : (declaredNames False).Governs (.level n) := declaredNames.lawful.governs_level n
  induction names generalizing σ b with
  | nil =>
      cases hrun
      exact ⟨List.nodup_nil, fun _ _ ↦ List.not_mem_nil, .of_scopes rfl, nofun⟩
  | cons name rest ih =>
      obtain ⟨⟨⟩, σ₁, hcreate, hrun⟩ := Action.run_bind_eq_ok hrun
      obtain ⟨v, σ₂, hread, hrun⟩ := Action.run_bind_eq_ok hrun
      obtain ⟨⟨⟩, σ₃, hinitialise, hrest⟩ := Action.run_bind_eq_ok hrun
      have hev₁ := scopesEvolve_of_run (hG.holds_createMutable target name) hcreate
      have hev₂ := scopesEvolve_of_run (hG.keeps_getBinding source name true) hread
      have hev₃ := scopesEvolve_of_run (hG.holds_initialise target name v) hinitialise
      obtain ⟨-, b₁, htarget₁, hb₁⟩ :=
        Action.updates_createMutable _ name σ b () σ₁ htarget hcreate
      obtain ⟨b₂, htarget₂, hb₂⟩ := htarget₁.evolves hev₂
      obtain ⟨-, b₃, htarget₃, hb₃⟩ :=
        Action.updates_initialise _ name v σ₂ b₂ () σ₃ htarget₂ hinitialise
      obtain ⟨habsent, hinsert⟩ := Bindings.create_eq_ok hb₁
      have hdeclared : b₂.IsDeclared name := by
        rw [hinsert] at hb₂
        exact (b.isDeclared_insert name).evolves hb₂
      have hvariable : b₃.IsVariable name := by
        rw [Bindings.initialise_eq_ok hb₃]
        exact hdeclared.write v
      have hbb₃ : b.Evolves b₃ :=
        ((Bindings.evolves_create hb₁).trans hb₂).trans (Bindings.evolves_initialise hb₃)
      obtain ⟨hdistinct, hfresh, hev, hvariables⟩ := ih htarget₃ hrest
      have hname : name ∉ rest := hfresh name (hdeclared.evolves (Bindings.evolves_initialise hb₃))
      refine ⟨List.nodup_cons.2 ⟨hname, hdistinct⟩, fun other hother hmem ↦ ?_,
        ((hev₁.trans hev₂).trans hev₃).trans hev, fun other hmem ↦ ?_⟩
      · rcases List.mem_cons.1 hmem with rfl | hmem
        · obtain ⟨x, hx, -⟩ := hother
          simp [Bindings.contains, hx] at habsent
        · exact hfresh other (hother.evolves hbb₃) hmem
      · rcases List.mem_cons.1 hmem with rfl | hmem
        · exact (htarget₃.isVariable hvariable).evolves hev
        · exact hvariables other hmem

/-- However the variables of the last turn are found, the scope that a turn gets is a new one
with variables of the names. -/
theorem isTurn_of_run_nextTurnScope (hnames : names ≠ []) {last next : ScopeRef}
    (hrun : (nextTurnScope (.level n) last names).run σ = (.ok next, τ)) :
    names.Nodup ∧ next.index = σ.heap.scopes.size ∧ τ.heap.IsTurn names next := by
  cases houter : (σ.heap.scope last).outer with
  | none =>
      have hempty : names.isEmpty = false := by simpa using hnames
      rw [nextTurnScope, if_neg (by simp [hempty]), Action.run_bind, Action.run_scope] at hrun
      dsimp only at hrun
      rw [houter] at hrun
      cases hrun
  | some outer =>
      rw [run_nextTurnScope _ hnames houter] at hrun
      obtain ⟨⟨⟩, ρ, hcopy, hdone⟩ := Action.run_bind_eq_ok hrun
      cases hdone
      have hlt := σ.lt_size_addBlock outer (σ.heap.scope outer).isStrict .empty
      have hscope := σ.scope_addBlock_self outer (σ.heap.scope outer).isStrict .empty
      obtain ⟨hdistinct, -, hev, hvariables⟩ :=
        variables_of_run_copyEach ⟨hlt, none, congrArg Scope.record hscope⟩ hcopy
      refine ⟨hdistinct, rfl, hlt.trans_le hev.size_le, ?_, hvariables⟩
      rw [(hev.scope ⟨σ.heap.scopes.size⟩ hlt).outer, hscope]
      rfl

/-! ## Events of a loop -/

/-- A `for` loop with the names that each turn has copies of. -/
structure ForLoop where
  test : Option Expression
  update : Option Expression
  body : Statement
  names : List String
  labels : List String

/-- One thing that a `for` loop does, in which scope, and what comes of it. -/
inductive ForEvent where
  /-- The scope of the first turn is made. -/
  | enter (last : ScopeRef) (r : Except Failure ScopeRef)
  | test (s : ScopeRef) (r : Except Failure Bool)
  | body (s : ScopeRef) (r : Except Fault Completion)
  /-- That of the next turn is made, which cannot fail. -/
  | advance (last next : ScopeRef)
  | update (s : ScopeRef) (r : Except Failure Unit)

namespace ForEvent

/-- The event takes the first state to the second one. -/
def Happens (eng : Engine) (loop : ForLoop) (σ τ : State) : ForEvent → Prop
  | .enter last r => (nextTurnScope eng last loop.names).run σ = (r, τ)
  | .test s r => (testOf eng loop.test s).run σ = (r, τ)
  | .body s r => (eng.exec loop.body s []).run σ = (r, τ)
  | .advance last next => (nextTurnScope eng last loop.names).run σ = (.ok next, τ) ∧
      σ.Copies loop.names last next τ
  | .update s r => (updateOf eng loop.update s).run σ = (r, τ)

/-- The scope that the event makes for a turn. -/
def made? : ForEvent → Option ScopeRef
  | .enter _ (.ok s) => some s
  | .advance _ next => some next
  | _ => none

/-- The second event may come right after the first one. -/
inductive ComesBefore (labels : List String) : ForEvent → ForEvent → Prop
  | enter (last s : ScopeRef) (r : Except Failure Bool) :
      ComesBefore labels (.enter last (.ok s)) (.test s r)
  | test (s : ScopeRef) (r : Except Fault Completion) :
      ComesBefore labels (.test s (.ok true)) (.body s r)
  | body (s next : ScopeRef) {c : Completion} (hc : c.continuesLoop labels = true) :
      ComesBefore labels (.body s (.ok c)) (.advance s next)
  | advance (last s : ScopeRef) (r : Except Failure Unit) :
      ComesBefore labels (.advance last s) (.update s r)
  | update (s : ScopeRef) (r : Except Failure Bool) :
      ComesBefore labels (.update s (.ok ())) (.test s r)

/-- The events happen one after the other, and nothing between them. -/
def Happen (eng : Engine) (loop : ForLoop) : State → List ForEvent → State → Prop
  | σ, [], τ => σ = τ
  | σ, e :: rest, τ => ∃ ρ, e.Happens eng loop σ ρ ∧ Happen eng loop ρ rest τ

/-- The events lead from a state of a loop to the end of its run.  They go on in order until
none can follow, unless the loop runs out of fuel. -/
structure Course (eng : Engine) (loop : ForLoop) (σ : State) (events : List ForEvent)
    (out : Except Fault Completion × State) : Prop where
  happen : ∃ τ, Happen eng loop σ events τ ∧ out.2.heap = τ.heap
  inOrder : events.IsChain (ComesBefore loop.labels)
  complete : out.1 = .error .outOfFuel ∨
    ∃ e, events.getLast? = some e ∧ ∀ e', ¬ComesBefore loop.labels e e'

variable {eng : Engine} {loop : ForLoop} {σ ρ τ : State} {e : ForEvent} {events : List ForEvent}
  {out : Except Fault Completion × State}

/-- What follows an event is the rest of a run. -/
def Follows (eng : Engine) (loop : ForLoop) (e : ForEvent) (σ : State)
    (out : Except Fault Completion × State) : Prop :=
  ∃ events, Course eng loop σ events out ∧ ∀ e' ∈ events.head?, ComesBefore loop.labels e e'

theorem course_of_last (he : e.Happens eng loop σ ρ) (hend : ∀ e', ¬ComesBefore loop.labels e e')
    (hheap : out.2.heap = ρ.heap) : Course eng loop σ [e] out where
  happen := ⟨ρ, ⟨ρ, he, rfl⟩, hheap⟩
  inOrder := List.isChain_singleton e
  complete := .inr ⟨e, rfl, hend⟩

theorem exists_course_cons (he : e.Happens eng loop σ ρ) (h : Follows eng loop e ρ out) :
    ∃ events, Course eng loop σ (e :: events) out := by
  obtain ⟨events, ⟨⟨τ, hevents, hheap⟩, hinOrder, hcomplete⟩, hnext⟩ := h
  refine ⟨events, ⟨τ, ⟨ρ, he, hevents⟩, hheap⟩, List.isChain_cons.2 ⟨hnext, hinOrder⟩, ?_⟩
  refine hcomplete.imp_right ?_
  rintro ⟨last, hlast, hend⟩
  exact ⟨last, by rw [List.getLast?_cons, hlast]; rfl, hend⟩

theorem follows_of_last {e₀ : ForEvent} (he : e.Happens eng loop σ ρ)
    (hbefore : ComesBefore loop.labels e₀ e) (hend : ∀ e', ¬ComesBefore loop.labels e e')
    (hheap : out.2.heap = ρ.heap) : Follows eng loop e₀ σ out :=
  ⟨[e], course_of_last he hend hheap, by simpa using hbefore⟩

theorem Follows.before {e₀ : ForEvent} (h : Follows eng loop e ρ out)
    (he : e.Happens eng loop σ ρ) (hbefore : ComesBefore loop.labels e₀ e) :
    Follows eng loop e₀ σ out := by
  obtain ⟨events, hcourse⟩ := exists_course_cons he h
  exact ⟨e :: events, hcourse, by simpa using hbefore⟩

end ForEvent

/-! ## Runs of a loop -/

theorem ForEvent.scopesEvolve_of_happens {loop : ForLoop} {e : ForEvent}
    (he : e.Happens (.level n) loop σ τ) : σ.heap.ScopesEvolve τ.heap := by
  have hG : (declaredNames False).Governs (.level n) := declaredNames.lawful.governs_level n
  cases e with
  | enter last r => exact scopesEvolve_of_run (hG.keeps_nextTurnScope last loop.names) he
  | test s r => exact scopesEvolve_of_run (hG.keeps_testOf (fun h ↦ False.elim h) s) he
  | body s r => exact scopesEvolve_of_execution (hG.exec (fun h ↦ False.elim h) s []) he
  | advance last next => exact scopesEvolve_of_run (hG.keeps_nextTurnScope last loop.names) he.1
  | update s r => exact scopesEvolve_of_run (hG.keeps_updateOf (fun h ↦ False.elim h) s) he

theorem heap_throwCompletion (e : Failure) (location : Location) (σ : State) :
    ((throwCompletion e location).run σ).2.heap = σ.heap := by
  cases e <;> rfl

section Turns

open ForEvent

variable {loop : ForLoop} (hnames : loop.names ≠ []) (hdistinct : loop.names.Nodup)
  (location : Location)

include hnames hdistinct

/-- After the body the next turn gets its scope, and then comes the update. -/
theorem follows_body {s : ScopeRef} {c : Completion} (hc : c.continuesLoop loop.labels = true)
    {go : ScopeRef → Execution Completion}
    (hgo : ∀ {next τ}, τ.heap.IsTurn loop.names next →
      Follows (.level n) loop (.update next (.ok ())) τ ((go next).run τ))
    {σ : State} (hs : σ.heap.IsTurn loop.names s) :
    Follows (.level n) loop (.body s (.ok c)) σ
      ((attempt (nextTurnScope (.level n) s loop.names) location fun next ↦
        attempt (updateOf (.level n) loop.update next) location fun _ ↦ go next).run σ) := by
  obtain ⟨next, ρ, hnext, hcopies⟩ := copies_nextTurnScope (.level n) hnames hdistinct hs.outer
    fun name hname ↦ by rw [(hs.has name hname).valueAt_eq]; rfl
  rw [run_attempt, hnext]
  dsimp only
  refine .before (e := .advance s next) ?_ ⟨hnext, hcopies⟩ (.body s next hc)
  rw [run_attempt]
  rcases hupdate : (updateOf (.level n) loop.update next).run ρ with ⟨e | ⟨⟩, τ⟩
  · exact follows_of_last (e := .update next _) hupdate (.advance s next _) nofun
      (heap_throwCompletion e location τ)
  · refine .before (e := .update next _) ?_ hupdate (.advance s next _)
    exact hgo (hcopies.isTurn.evolves (scopesEvolve_of_happens (e := .update next _) hupdate))

/-- From the scope of a turn on, the rest of the loop runs in order. -/
theorem follows_forTurns (fuel : ℕ) {s : ScopeRef} (last : Value) {e₀ : ForEvent}
    (h₀ : ∀ r, ComesBefore loop.labels e₀ (.test s r)) {σ : State}
    (hs : σ.heap.IsTurn loop.names s) :
    Follows (.level n) loop e₀ σ ((forTurns (.level n) loop.test loop.update
      loop.body loop.names loop.labels location fuel s last).run σ) := by
  -- The test comes after the scope of the first turn is made, and later on after an update.
  induction fuel generalizing s last e₀ σ with
  | zero => exact ⟨[], ⟨⟨σ, rfl, rfl⟩, .nil, .inl rfl⟩, nofun⟩
  | succ fuel ih =>
      rw [forTurns, run_attempt]
      rcases htest : (testOf (.level n) loop.test s).run σ with ⟨e | go, σ₁⟩
      · exact follows_of_last (e := .test s _) htest (h₀ _) nofun
          (heap_throwCompletion e location σ₁)
      dsimp only
      cases go with
      | false => exact follows_of_last (e := .test s _) htest (h₀ _) nofun rfl
      | true =>
          have hs₁ := hs.evolves (scopesEvolve_of_happens (e := .test s _) htest)
          refine .before (e := .test s _) ?_ htest (h₀ _)
          rw [if_pos rfl, Execution.run_bind]
          rcases hbody : (Engine.exec (.level n) loop.body s []).run σ₁ with ⟨f | c, σ₂⟩
          · exact follows_of_last (e := .body s _) hbody (.test s _) nofun rfl
          dsimp only
          cases hc : c.continuesLoop loop.labels with
          | false =>
              refine follows_of_last (e := .body s _) hbody (.test s _) (fun e' hnext ↦ ?_) rfl
              cases hnext with
              | body _ _ hgoes =>
                  rw [hc] at hgoes
                  cases hgoes
          | true =>
              have hs₂ := hs₁.evolves (scopesEvolve_of_happens (e := .body s _) hbody)
              refine .before (e := .body s _) ?_ hbody (.test s _)
              exact follows_body hnames hdistinct location hc (fun h ↦ ih _ (.update _) h) hs₂

end Turns

theorem exists_course_forBody (loop : ForLoop) (hnames : loop.names ≠ []) (location : Location)
    (s : ScopeRef) (σ : State) :
    ∃ r events, ForEvent.Course (.level n) loop σ (.enter s r :: events) ((forBody (.level n)
      loop.test loop.update loop.body s loop.names loop.labels location).run σ) := by
  rw [forBody, run_attempt]
  rcases hfirst : (nextTurnScope (.level n) s loop.names).run σ with ⟨e | first, ρ⟩
  · exact ⟨_, [], ForEvent.course_of_last (e := .enter s _) hfirst nofun
      (heap_throwCompletion e location ρ)⟩
  · obtain ⟨hdistinct, -, hturn⟩ := isTurn_of_run_nextTurnScope hnames hfirst
    exact ⟨_, ForEvent.exists_course_cons (e := .enter s _) hfirst
      (follows_forTurns hnames hdistinct location _ _ (.enter s first) hturn)⟩

/-! ## The scopes that a run has made -/

namespace ForEvent

variable {loop : ForLoop} {e : ForEvent} {events : List ForEvent}

theorem isTurn_of_happens (hnames : loop.names ≠ []) (he : e.Happens (.level n) loop σ τ)
    {s : ScopeRef} (hs : e.made? = some s) :
    s.index = σ.heap.scopes.size ∧ τ.heap.IsTurn loop.names s := by
  have hrun : ∃ last, (nextTurnScope (.level n) last loop.names).run σ = (.ok s, τ) := by
    rcases e with ⟨last, _ | _⟩ | _ | _ | ⟨last, _⟩ | _ <;> cases hs
    · exact ⟨last, he⟩
    · exact ⟨last, he.1⟩
  obtain ⟨last, hrun⟩ := hrun
  exact (isTurn_of_run_nextTurnScope hnames hrun).2

theorem Happen.scopesEvolve (h : Happen (.level n) loop σ events τ) :
    σ.heap.ScopesEvolve τ.heap := by
  induction events generalizing σ with
  | nil =>
      cases h
      exact .of_scopes rfl
  | cons e rest ih =>
      obtain ⟨ρ, he, hrest⟩ := h
      exact (scopesEvolve_of_happens he).trans (ih hrest)

/-- A scope that has been made was not there before, and stays. -/
theorem Happen.isTurn (hnames : loop.names ≠ []) (h : Happen (.level n) loop σ events τ) :
    ∀ s ∈ events.filterMap made?, σ.heap.scopes.size ≤ s.index ∧ τ.heap.IsTurn loop.names s := by
  induction events generalizing σ with
  | nil => exact nofun
  | cons e rest ih =>
      obtain ⟨ρ, he, hrest⟩ := h
      intro s hs
      obtain ⟨e', hmem, hmade⟩ := List.mem_filterMap.1 hs
      rcases List.mem_cons.1 hmem with rfl | hmem
      · obtain ⟨hindex, hturn⟩ := isTurn_of_happens hnames he hmade
        exact ⟨hindex.ge, hturn.evolves hrest.scopesEvolve⟩
      · obtain ⟨hle, hturn⟩ := ih hrest s (List.mem_filterMap.2 ⟨e', hmem, hmade⟩)
        exact ⟨(scopesEvolve_of_happens he).size_le.trans hle, hturn⟩

theorem Happen.pairwise (hnames : loop.names ≠ []) (h : Happen (.level n) loop σ events τ) :
    (events.filterMap made?).Pairwise fun s t ↦ s.index < t.index := by
  induction events generalizing σ with
  | nil => exact .nil
  | cons e rest ih =>
      obtain ⟨ρ, he, hrest⟩ := h
      cases hmade : e.made? with
      | none =>
          rw [List.filterMap_cons_none hmade]
          exact ih hrest
      | some s =>
          rw [List.filterMap_cons_some hmade]
          -- What is made later is not there yet when this scope is.
          have hlt := (isTurn_of_happens hnames he hmade).2.lt
          exact .cons (fun t ht ↦ hlt.trans_le (hrest.isTurn hnames t ht).1) (ih hrest)

end ForEvent

end Statement

/-! ## Assignments -/

namespace Heap

variable {h h' : Heap} {name : String} {r s t : ScopeRef}

/-- Looked up from the scope `r`, the name is found in `s`. -/
def LeadsTo (h : Heap) (r : ScopeRef) (name : String) (s : ScopeRef) : Prop :=
  ∃ inner outer, h.scopeChain r = inner ++ s :: outer ∧
    ∀ t ∈ inner, ∃ b this, (h.scope t).record = .declarative b this ∧ b.contains name = false

theorem scopesFrom_congr (houter : ∀ s, (h'.scope s).outer = (h.scope s).outer) (n : ℕ)
    (s : Option ScopeRef) : h'.scopesFrom n s = h.scopesFrom n s := by
  induction n generalizing s with
  | zero => rfl
  | succ n ih =>
      cases s with
      | none => rfl
      | some s => rw [scopesFrom, scopesFrom, houter, ih]

theorem keepsOthers_storeBound (h : Heap) (s : ScopeRef) (name : String) (v : Value) :
    h.KeepsOthers s (h.storeBound s name v) :=
  h.keepsOthers_modifyScope s _

theorem IsVariable.contains {b : Bindings} (hs : h.IsVariable s name)
    (hb : (h.scope s).record.bindings? = some b) : b.contains name = true := by
  obtain ⟨-, b', hb', hname⟩ := hs
  rw [hb] at hb'
  cases hb'
  exact hname.contains

/-- What is found in a scope is found there after an assignment to a variable of the name. -/
theorem LeadsTo.storeBound (hr : h.LeadsTo r name s) (ht : h.IsVariable t name) (v : Value) :
    (h.storeBound t name v).LeadsTo r name s := by
  obtain ⟨inner, outer, hchain, hinner⟩ := hr
  have hothers := h.keepsOthers_storeBound t name v
  have houter (u : ScopeRef) : ((h.storeBound t name v).scope u).outer = (h.scope u).outer := by
    by_cases hu : u = t
    · exact hu ▸ ((ScopesEvolve.storeBound h t name v).scope t ht.1).outer
    · rw [hothers.scope u hu]
  refine ⟨inner, outer, ?_, fun u hu ↦ ?_⟩
  · rw [scopeChain, scopesFrom_congr houter, hothers.size]
    exact hchain
  · obtain ⟨b, this, hrecord, habsent⟩ := hinner u hu
    have hne : u ≠ t := by
      rintro rfl
      rw [ht.contains (congrArg ScopeRecord.bindings? hrecord)] at habsent
      cases habsent
    exact ⟨b, this, by rw [hothers.scope u hne, hrecord], habsent⟩

end Heap

namespace Scope

variable {σ : State} {name : String} {s : ScopeRef}

theorem run_has_declarative (eng : Engine) {b : Bindings} {this : Option Value}
    (hrecord : (σ.heap.scope s).record = .declarative b this) :
    (Scope.has eng s name).run σ = (.ok (b.contains name), σ) := by
  rw [Scope.has, Action.run_bind, Action.run_scope]
  dsimp only
  rw [hrecord]
  rfl

theorem run_has_of_isVariable (eng : Engine) (hs : σ.heap.IsVariable s name) :
    (Scope.has eng s name).run σ = (.ok true, σ) := by
  rw [Scope.has, Action.run_bind, Action.run_scope]
  dsimp only
  cases hrecord : (σ.heap.scope s).record with
  | declarative b this =>
      dsimp only
      rw [hs.contains (congrArg ScopeRecord.bindings? hrecord)]
      rfl
  | object o isWith =>
      obtain ⟨-, b, hb, -⟩ := hs
      rw [hrecord] at hb
      cases hb
  | «global» o b names =>
      dsimp only
      rw [if_pos (hs.contains (congrArg ScopeRecord.bindings? hrecord))]
      rfl

end Scope

namespace Reference

variable {σ : State} {name : String} {r s : ScopeRef}

/-- Looking a variable up runs nothing where all the scopes on the way are declarative. -/
theorem run_resolve (eng : Engine) (hr : σ.heap.LeadsTo r name s)
    (hs : σ.heap.IsVariable s name) :
    (resolve eng name r).run σ = (.ok (.binding s name (σ.heap.scope r).isStrict), σ) := by
  obtain ⟨inner, outer, hchain, hinner⟩ := hr
  have hin (strict : Bool) : (resolveIn eng name strict (inner ++ s :: outer)).run σ =
      (.ok (.binding s name strict), σ) := by
    clear hchain
    induction inner with
    | nil =>
        rw [List.nil_append, resolveIn, Action.run_bind, Scope.run_has_of_isVariable eng hs]
        rfl
    | cons u rest ih =>
        obtain ⟨b, this, hrecord, habsent⟩ := hinner u List.mem_cons_self
        rw [List.cons_append, resolveIn, Action.run_bind, Scope.run_has_declarative eng hrecord,
          habsent]
        exact ih fun t ht ↦ hinner t (List.mem_cons_of_mem _ ht)
  change (resolveIn eng name (σ.heap.scope r).isStrict (σ.heap.scopeChain r)).run σ = _
  rw [hchain]
  exact hin _

theorem run_eval_identifier (eng : Engine) (hr : σ.heap.LeadsTo r name s)
    (hs : σ.heap.IsVariable s name) :
    (Expression.eval eng (.identifier name) r).run σ = (.ok (σ.heap.boundValue s name), σ) := by
  change ((resolve eng name r >>= Reference.read eng) : Action Value).run σ = _
  rw [Action.run_bind, run_resolve eng hr hs]
  exact Scope.run_get eng hs _

/-- Whatever is assigned to the name, where it is found in the scope `t`, becomes the value of the
variable there and of no other.  The target of an assignment is looked up first, and written to
once the value is known. -/
def StaysIn (eng : Engine) (name : String) (t : ScopeRef) : Prop :=
  ∀ (σ : State) (w : ScopeRef), σ.heap.IsVariable t name → σ.heap.LeadsTo w name t →
    ∃ target, (resolve eng name w).run σ = (.ok target, σ) ∧
      ∀ (ρ : State) (v : Value), ρ.heap.IsVariable t name →
        ∃ τ, (target.write eng v).run ρ = (.ok (), τ) ∧ ρ.heap.KeepsOthers t τ.heap ∧
          ∀ r s, ρ.heap.IsVariable s name → ρ.heap.LeadsTo r name s →
            (Expression.eval eng (.identifier name) r).run ρ =
              (.ok (ρ.heap.boundValue s name), ρ) ∧
            (Expression.eval eng (.identifier name) r).run τ =
              (.ok (if s = t then v else ρ.heap.boundValue s name), τ)

theorem staysIn (eng : Engine) (name : String) (t : ScopeRef) : StaysIn eng name t := by
  intro σ w ht hw
  refine ⟨_, run_resolve eng hw ht, fun ρ v ht ↦ ?_⟩
  have hothers := ρ.heap.keepsOthers_storeBound t name v
  refine ⟨_, Scope.run_set eng ht v _, hothers, fun r s hs hr ↦ ⟨run_eval_identifier eng hr hs, ?_⟩⟩
  have hs' := hs.evolves (.storeBound ρ.heap t name v)
  rw [run_eval_identifier eng (σ := { ρ with heap := ρ.heap.storeBound t name v })
    (hr.storeBound ht v) hs']
  by_cases heq : s = t
  · subst heq
    rw [if_pos rfl, Heap.boundValue_storeBound_self ht]
  · rw [if_neg heq, Heap.boundValue, hothers.scope s heq, Heap.boundValue]

end Reference

namespace Statement

open ForEvent

/-- Every turn of a loop with variables of its own has a new scope with copies of them, in which
its test and its body run.  The copies are made when a turn is over, before the update, which runs
in the scope of the next turn.  However far the loop has come, the scopes of its turns are
different ones, and what is assigned in one of them is seen in no other. -/
theorem turns_have_scopes_of_their_own (n : ℕ) (loop : ForLoop) (hnames : loop.names ≠ []) :
    (∀ (σ : State) (last : ScopeRef), loop.names.Nodup → (σ.heap.scope last).outer.isSome →
      (∀ name ∈ loop.names, (σ.heap.valueAt last name).isSome) →
        ∃ next τ, (nextTurnScope (.level n) last loop.names).run σ = (.ok next, τ) ∧
          σ.Copies loop.names last next τ) ∧
    (∀ (σ : State) (s : ScopeRef) (location : Location), ∃ r events,
      Course (.level n) loop σ (.enter s r :: events) ((forBody (.level n) loop.test loop.update
        loop.body s loop.names loop.labels location).run σ)) ∧
    (∀ (σ : State) events ρ, Happen (.level n) loop σ events ρ →
      (events.filterMap made?).Pairwise (fun s t ↦ s.index < t.index) ∧
      ∀ s ∈ events.filterMap made?,
        σ.heap.scopes.size ≤ s.index ∧ ρ.heap.IsTurn loop.names s) ∧
    ∀ name ∈ loop.names, ∀ s, Reference.StaysIn (.level n) name s :=
  ⟨fun _ _ hdistinct ↦ copies_nextTurnScope (.level n) hnames hdistinct,
    fun σ s location ↦ exists_course_forBody loop hnames location s σ,
    fun _ _ _ h ↦ ⟨h.pairwise hnames, h.isTurn hnames⟩,
    fun name _ s ↦ Reference.staysIn (.level n) name s⟩

/-- Each turn makes a function that returns the loop's variable, and the update appends to it: the
functions return what it was in their turns. -/
theorem turns_have_scopes_of_their_own_captured :
    let here : Location := ⟨1, 1⟩
    let i : Expression := .identifier "i"
    let arrow : Expression := .function (.mk none [] [.mk here (.return (some i))] true)
    let loop : ForLoop :=
      { test := some (.binary .strictNotEqual i (.string "aaa"))
        update := some (.assign (.compound .add) i (.string "a"))
        body := .mk here (.expression (.assign .plain (.index (.identifier "fs") i) arrow))
        names := ["i"]
        labels := [] }
    let init : ForInit := .declare .lexical [.mk "i" (some (.string "a"))]
    let returned (key : String) : Expression := .call (.index (.identifier "fs") (.string key)) []
    let script : List Statement :=
      [.mk here (.variable .var [.mk "fs" (some (.object []))]),
        .mk here (.forLoop init loop.test loop.update loop.body),
        .mk here (.expression (.binary .add (returned "a") (returned "aa")))]
    let base := State.initial .standard
    let s : ScopeRef := ⟨base.heap.scopes.size⟩
    let σ := base.addBlock base.realm.globalScope false
      ⟨[("i", ⟨some (.ofString "a"), false, true, false⟩)]⟩
    let out :=
      (forBody (.level 20) loop.test loop.update loop.body s loop.names loop.labels here).run σ
    loop.names ≠ [] ∧ loop.names.Nodup ∧ (σ.heap.scope s).outer = some base.realm.globalScope ∧
      σ.heap.valueAt s "i" = some (.ofString "a") ∧
      σ.heap.IsVariable s "i" ∧ σ.heap.LeadsTo s "i" s ∧
      ((Script.run (.level 20) script).run base).1.toOption.any
        (·.strictEqual (.ofString "aaa")) = true ∧
      (∃ next τ, (nextTurnScope (.level 20) s loop.names).run σ = (.ok next, τ) ∧
        σ.Copies loop.names s next τ) ∧
      (∃ r events τ, Course (.level 20) loop σ (.enter s r :: events) out ∧
        Happen (.level 20) loop σ (.enter s r :: events) τ ∧
        ((ForEvent.enter s r :: events).filterMap made?).Pairwise (·.index < ·.index)) ∧
      ∃ target τ, (Reference.resolve (.level 20) "i" s).run σ = (.ok target, σ) ∧
        (target.write (.level 20) .null).run σ = (.ok (), τ) ∧
        (Expression.eval (.level 20) i s).run τ = (.ok .null, τ) := by
  intro here i arrow loop init returned script base s σ out
  have hnames : loop.names ≠ [] := List.cons_ne_nil _ _
  have hdistinct : loop.names.Nodup := List.pairwise_singleton _ _
  have houter : (σ.heap.scope s).outer = some base.realm.globalScope := rfl
  have hvalue : σ.heap.valueAt s "i" = some (.ofString "a") := rfl
  have hvariable : σ.heap.IsVariable s "i" := ⟨by decide, _, rfl, _, rfl, rfl, rfl, rfl⟩
  have hleads : σ.heap.LeadsTo s "i" s := ⟨[], [base.realm.globalScope], rfl, nofun⟩
  have hscript : ((Script.run (.level 20) script).run base).1.toOption.any
      (·.strictEqual (.ofString "aaa")) = true := by decide +kernel
  obtain ⟨hcopies, hcourse, hapart, hstays⟩ := turns_have_scopes_of_their_own 20 loop hnames
  have hvalues : ∀ name ∈ loop.names, (σ.heap.valueAt s name).isSome := by
    intro name hname
    rw [List.mem_singleton.1 hname, hvalue]
    rfl
  obtain ⟨r, events, hevents⟩ := hcourse σ s here
  obtain ⟨τ, hhappen, -⟩ := hevents.happen
  obtain ⟨target, htarget, hwrite⟩ := hstays "i" List.mem_cons_self s σ s hvariable hleads
  obtain ⟨ρ, hassigned, -, hread⟩ := hwrite σ .null hvariable
  exact ⟨hnames, hdistinct, houter, hvalue, hvariable, hleads, hscript,
    hcopies σ s hdistinct (by rw [houter]; rfl) hvalues,
    ⟨r, events, τ, hevents, hhappen, (hapart σ _ τ hhappen).1⟩,
    target, ρ, htarget, hassigned, (hread s s hvariable hleads).2⟩

/-- Without variables the next turn has the scope of the last one.  With variables a function
made in one turn may alter what another one has captured, also when the update calls it. -/
theorem update_alters_captured_variable :
    let here : Location := ⟨1, 1⟩
    let does (e : Expression) : Statement := .mk here (.expression e)
    let assign (name : String) (e : Expression) : Expression := .assign .plain (.identifier name) e
    let made (body : StatementForm) : Expression := .function (.mk none [] [.mk here body] false)
    let init : ForInit := .declare .lexical
      [.mk "i" (some (.string "kept")), .mk "go" (some (.boolean true))]
    let update : Expression := .sequence
      [.call (.identifier "f") [], assign "go" (.boolean false)]
    let body : Statement := .mk here (.block
      [does (assign "f" (made (.expression (assign "i" (.string "altered"))))),
        does (assign "g" (made (.return (some (.identifier "i")))))])
    let script : List Statement :=
      [.mk here (.variable .var [.mk "f" none, .mk "g" none]),
        .mk here (.forLoop init (some (.identifier "go")) (some update) body),
        does (.call (.identifier "g") [])]
    let base := State.initial .standard
    let last : ScopeRef := ⟨base.heap.scopes.size⟩
    let σ := base.addBlock base.realm.globalScope false .empty
    (nextTurnScope (.level 9) last []).run σ = (.ok last, σ) ∧ last.index < σ.heap.scopes.size ∧
      ((Script.run (.level 20) script).run base).1.toOption.any
        (·.strictEqual (.ofString "altered")) = true := by
  intro here does assign made init update body script base last σ
  exact ⟨rfl, by decide, by decide +kernel⟩

end Statement

end Ecma
