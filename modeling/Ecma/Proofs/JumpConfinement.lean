import Ecma.Engine.Level

/-!
# Where `break` and `continue` may go

A tree is well labelled in a context when each of its jumps has a target in the
tree or in the context.  Executing such a tree never completes with a jump that
the context does not permit: each loop, `switch` and label takes in the jumps to
itself and passes on the others.  A script or a function body stands in the
empty context, so the outcome of its statements is never a jump.
-/

namespace Ecma

/-! ## Contexts -/

/-- What stands around a statement: whether a loop or `switch` does, whether a
loop does, and which labels and which labels of loops do. -/
structure JumpContext where
  inBreakable : Bool
  inLoop : Bool
  labels : List String
  loopLabels : List String
  deriving DecidableEq, Inhabited

namespace JumpContext

/-- Nothing around. -/
def empty : JumpContext := ⟨false, false, [], []⟩

def enterBreakable (ctx : JumpContext) : JumpContext := { ctx with inBreakable := true }

/-- Inside a loop that the labels `chain` stand directly before. -/
def enterLoop (ctx : JumpContext) (chain : List String) : JumpContext :=
  { ctx with inBreakable := true, inLoop := true, loopLabels := chain ++ ctx.loopLabels }

def enterLabel (ctx : JumpContext) (label : String) : JumpContext :=
  { ctx with labels := label :: ctx.labels }

def permitsBreak (ctx : JumpContext) : Option String → Bool
  | none => ctx.inBreakable
  | some label => ctx.labels.contains label

def permitsContinue (ctx : JumpContext) : Option String → Bool
  | none => ctx.inLoop
  | some label => ctx.loopLabels.contains label

/-- Whether a completion is no jump, or a jump that has a target around. -/
def permits (ctx : JumpContext) : Completion → Bool
  | .normal _ | .return _ _ | .throw _ _ => true
  | .break label _ _ => ctx.permitsBreak label
  | .continue label _ _ => ctx.permitsContinue label

@[simp] theorem permits_normal (ctx : JumpContext) (v : Option Value) :
    ctx.permits (.normal v) = true := rfl

@[simp] theorem permits_updateEmpty (ctx : JumpContext) (c : Completion) (v : Option Value) :
    ctx.permits (c.updateEmpty v) = ctx.permits c := by
  unfold Completion.updateEmpty
  split <;> rfl

/-- A breakable statement takes in the unlabelled break. -/
theorem permits_exitBreakable {ctx : JumpContext} {c : Completion}
    (h : ctx.enterBreakable.permits c = true) : ctx.permits c.exitBreakable = true := by
  match c, h with
  | .normal _, _ | .return _ _, _ | .throw _ _, _ | .break none _ _, _ => rfl
  | .break (some _) _ _, h | .continue _ _ _, h => exact h

/-- A labelled statement takes in the break to its label. -/
theorem permits_exitLabel {ctx : JumpContext} {label : String} {c : Completion}
    (h : (ctx.enterLabel label).permits c = true) :
    ctx.permits (Statement.exitLabel label c) = true := by
  match c, h with
  | .normal _, _ | .return _ _, _ | .throw _ _, _ => rfl
  | .break none _ _, h | .continue _ _ _, h => exact h
  | .break (some target) v l, h =>
      have hmem : target ∈ label :: ctx.labels := by
        simpa [permits, permitsBreak, enterLabel] using h
      by_cases htarget : target = label
      · simp [Statement.exitLabel, htarget]
      · have houter := (List.mem_cons.1 hmem).resolve_left htarget
        simpa [Statement.exitLabel, htarget, permits, permitsBreak] using houter

/-- What a loop does not go on after is permitted around it, the unlabelled
break apart. -/
theorem permits_of_not_continuesLoop {ctx : JumpContext} {chain : List String} {c : Completion}
    (h : (ctx.enterLoop chain).permits c = true) (hc : c.continuesLoop chain = false) :
    ctx.enterBreakable.permits c = true := by
  match c, h, hc with
  | .normal _, _, _ | .return _ _, _, _ | .throw _ _, _, _ | .break none _ _, _, _ => rfl
  | .break (some _) _ _, h, _ => exact h
  | .continue none _ _, _, hc => simp [Completion.continuesLoop] at hc
  | .continue (some label) _ _, h, hc =>
      have hmem : label ∈ chain ++ ctx.loopLabels := by
        simpa [permits, permitsContinue, enterLoop] using h
      have hchain : label ∉ chain := by simpa [Completion.continuesLoop] using hc
      have houter := (List.mem_append.1 hmem).resolve_left hchain
      simpa [permits, permitsContinue, enterBreakable] using houter

end JumpContext

/-! ## Well-labelled trees -/

namespace Tree

mutual

/-- Whether every jump of the statement has a target in it or in the context.
The labels of `chain` stand directly before the statement. -/
def wellLabelled (ctx : JumpContext) (chain : List String) : Statement → Bool
  | .mk _ form => wellLabelledForm ctx chain form

def wellLabelledForm (ctx : JumpContext) (chain : List String) : StatementForm → Bool
  | .break label => ctx.permitsBreak label
  | .continue label => ctx.permitsContinue label
  | .block body => wellLabelledAll ctx body
  | .conditional _ yes no => wellLabelled ctx [] yes && wellLabelledOption ctx no
  | .whileLoop _ body => wellLabelled (ctx.enterLoop chain) [] body
  | .doWhile body _ => wellLabelled (ctx.enterLoop chain) [] body
  | .forLoop _ _ _ body => wellLabelled (ctx.enterLoop chain) [] body
  | .forIn _ _ body => wellLabelled (ctx.enterLoop chain) [] body
  | .forOf _ _ body => wellLabelled (ctx.enterLoop chain) [] body
  | .try block handler finalizer =>
    wellLabelledAll ctx block && wellLabelledHandler ctx handler &&
      wellLabelledFinalizer ctx finalizer
  | .switch _ clauses => wellLabelledClauses ctx.enterBreakable clauses
  | .labelled label body => wellLabelled (ctx.enterLabel label) (chain ++ [label]) body
  | .with _ body => wellLabelled ctx [] body
  | .empty | .debugger | .expression _ | .variable _ _ | .return _ | .throw _ | .function _
  | .class _ => true

def wellLabelledAll (ctx : JumpContext) : List Statement → Bool
  | [] => true
  | s :: rest => wellLabelled ctx [] s && wellLabelledAll ctx rest

def wellLabelledOption (ctx : JumpContext) : Option Statement → Bool
  | none => true
  | some s => wellLabelled ctx [] s

def wellLabelledHandler (ctx : JumpContext) : Option CatchClause → Bool
  | none => true
  | some (.mk _ body) => wellLabelledAll ctx body

def wellLabelledFinalizer (ctx : JumpContext) : Option (List Statement) → Bool
  | none => true
  | some body => wellLabelledAll ctx body

def wellLabelledClauses (ctx : JumpContext) : List SwitchClause → Bool
  | [] => true
  | .mk _ body :: rest => wellLabelledAll ctx body && wellLabelledClauses ctx rest

end

end Tree

/-! ## Results of executions -/

namespace Execution

/-- Every result of the execution has the property. -/
def Yields {α : Type} (P : α → Prop) (m : Execution α) : Prop :=
  ∀ σ a σ', m.run σ = (.ok a, σ') → P a

variable {α β : Type} {P : α → Prop} {Q : β → Prop}

theorem yields_pure {a : α} (h : P a) : Yields P (pure a) := by
  intro σ a' σ' hrun
  cases hrun
  exact h

theorem yields_throw (f : Fault) : Yields P (throw f : Execution α) := by
  intro σ a σ' hrun
  cases hrun

theorem yields_any (m : Execution α) : Yields (fun _ ↦ True) m := fun _ _ _ _ ↦ trivial

theorem Yields.bind {m : Execution α} {f : α → Execution β} (hm : Yields P m)
    (hf : ∀ a, P a → Yields Q (f a)) : Yields Q (m >>= f) := by
  intro σ b σ' hrun
  rw [run_bind] at hrun
  rcases hm' : run m σ with ⟨_ | a, σ₁⟩
  · simp [hm'] at hrun
  · rw [hm'] at hrun
    exact hf a (hm σ a σ₁ hm') σ₁ b σ' hrun

end Execution

namespace Statement

open Execution

variable {ctx : JumpContext}

/-- An outcome that the context permits. -/
abbrev Confined (ctx : JumpContext) (m : Execution Completion) : Prop :=
  Yields (fun c ↦ ctx.permits c = true) m

theorem confined_throwCompletion (e : Failure) (location : Location) :
    Confined ctx (throwCompletion e location) := by
  unfold throwCompletion
  split
  next => exact (yields_any _).bind fun _ _ ↦ yields_pure rfl
  next => exact yields_pure rfl
  next => exact yields_throw _

theorem confined_attempt_of_run {α : Type} {m : Action α} (location : Location)
    {next : α → Execution Completion}
    (h : ∀ a σ σ', m.run σ = (.ok a, σ') → Confined ctx (next a)) :
    Confined ctx (attempt m location next) := by
  have hm : Yields (fun r ↦ ∃ σ σ', m.run σ = (r, σ')) (ofAction m) := by
    intro σ r σ' hrun
    cases hrun
    exact ⟨σ, _, rfl⟩
  refine hm.bind fun r hr ↦ ?_
  obtain ⟨σ, σ', hrun⟩ := hr
  cases r with
  | ok a => exact h a σ σ' hrun
  | error e => exact confined_throwCompletion e location

theorem confined_attempt {α : Type} (m : Action α) (location : Location)
    {next : α → Execution Completion} (h : ∀ a, Confined ctx (next a)) :
    Confined ctx (attempt m location next) :=
  confined_attempt_of_run location fun a _ _ _ ↦ h a

theorem confined_throwNew (e : ScriptError) (location : Location) :
    Confined ctx (throwNew e location) :=
  confined_attempt _ _ fun _ ↦ yields_pure rfl

/-- Leaving a loop with a completion that it does not go on after. -/
theorem confined_leave {chain : List String} {c : Completion}
    (hc : (ctx.enterLoop chain).permits c = true) (hstop : ¬c.continuesLoop chain = true)
    (last : Option Value) : Confined ctx.enterBreakable (pure (c.updateEmpty last)) := by
  have hout := JumpContext.permits_of_not_continuesLoop hc (Bool.eq_false_iff.2 hstop)
  exact yields_pure (by simpa using hout)

theorem confined_exitBreakable {m : Execution Completion} (h : Confined ctx.enterBreakable m) :
    Confined ctx (do return (← m).exitBreakable) :=
  h.bind fun _ hc ↦ yields_pure (JumpContext.permits_exitBreakable hc)

/-- The engine executes every well-labelled statement within its context. -/
def Confines (eng : Engine) : Prop :=
  ∀ ctx chain stmt s, Tree.wellLabelled ctx chain stmt = true → Confined ctx (eng.exec stmt s chain)

section Forms

variable {eng : Engine} (heng : Confines eng)

include heng

theorem confined_execFrom (s : ScopeRef) (last : Option Value) {body : List Statement}
    (h : Tree.wellLabelledAll ctx body = true) : Confined ctx (execFrom eng s last body) := by
  induction body generalizing last with
  | nil => exact yields_pure rfl
  | cons stmt rest ih =>
      simp only [Tree.wellLabelledAll, Bool.and_eq_true] at h
      refine (heng ctx [] stmt s h.1).bind fun c hc ↦ ?_
      split
      next v => exact ih (v.or last) h.2
      next => exact yields_pure (by simpa using hc)

theorem confined_execAll (s : ScopeRef) {body : List Statement}
    (h : Tree.wellLabelledAll ctx body = true) : Confined ctx (execAll eng body s) :=
  confined_execFrom heng s none h

theorem confined_execBlock (s : ScopeRef) {body : List Statement}
    (h : Tree.wellLabelledAll ctx body = true) : Confined ctx (execBlock eng body s) := by
  unfold execBlock
  split
  · exact confined_attempt _ _ fun inner ↦ confined_attempt _ _ fun _ ↦
      confined_execAll heng inner h
  · exact confined_execAll heng s h

/-! ### Loops

Each turn ends with a completion that the inside of the loop permits.  The loop
goes on after some of them, and those it leaves with are permitted outside, the
unlabelled break apart. -/

variable {chain : List String} {body : Statement}
  (hbody : Tree.wellLabelled (ctx.enterLoop chain) [] body = true)

include hbody

theorem confined_whileTurns (test : Expression) (s : ScopeRef) (location : Location) (n : Nat)
    (last : Value) :
    Confined ctx.enterBreakable (whileTurns eng test body s chain location n last) := by
  induction n generalizing last with
  | zero => exact yields_throw _
  | succ n ih =>
      refine confined_attempt _ _ fun go ↦ ?_
      split
      · refine (heng _ [] body s hbody).bind fun c hc ↦ ?_
        split
        next => exact ih _
        next hstop => exact confined_leave hc hstop _
      · exact yields_pure rfl

theorem confined_doTurns (test : Expression) (s : ScopeRef) (location : Location) (n : Nat)
    (last : Value) :
    Confined ctx.enterBreakable (doTurns eng test body s chain location n last) := by
  induction n generalizing last with
  | zero => exact yields_throw _
  | succ n ih =>
      refine (heng _ [] body s hbody).bind fun c hc ↦ ?_
      split
      next =>
        refine confined_attempt _ _ fun go ↦ ?_
        split
        · exact ih _
        · exact yields_pure rfl
      next hstop => exact confined_leave hc hstop _

theorem confined_forTurns (test update : Option Expression) (names : List String)
    (location : Location) (n : Nat) (s : ScopeRef) (last : Value) :
    Confined ctx.enterBreakable
      (forTurns eng test update body names chain location n s last) := by
  induction n generalizing s last with
  | zero => exact yields_throw _
  | succ n ih =>
      refine confined_attempt _ _ fun go ↦ ?_
      split
      · refine (heng _ [] body s hbody).bind fun c hc ↦ ?_
        split
        next =>
          exact confined_attempt _ _ fun next ↦ confined_attempt _ _ fun _ ↦ ih next _
        next hstop => exact confined_leave hc hstop _
      · exact yields_pure rfl

theorem confined_forBody (test update : Option Expression) (s : ScopeRef) (names : List String)
    (location : Location) :
    Confined ctx.enterBreakable (forBody eng test update body s names chain location) :=
  confined_attempt _ _ fun first ↦
    confined_forTurns heng hbody test update names location _ first _

theorem confined_execFor (init : ForInit) (test update : Option Expression) (s : ScopeRef)
    (location : Location) :
    Confined ctx.enterBreakable (execFor eng init test update body s chain location) := by
  unfold execFor
  split
  · exact confined_forBody heng hbody test update s _ location
  · exact confined_attempt _ _ fun _ ↦ confined_forBody heng hbody test update s _ location
  · exact confined_attempt _ _ fun _ ↦ confined_forBody heng hbody test update s _ location
  · exact confined_attempt _ _ fun inner ↦
      confined_forBody heng hbody test update inner _ location

theorem confined_execTurn (target : LoopTarget) (v : Value) (s : ScopeRef) (location : Location) :
    Confined (ctx.enterLoop chain) (execTurn eng target v body s location) :=
  confined_attempt _ _ fun inner ↦ heng _ [] body inner hbody

theorem confined_forInTurns (target : LoopTarget) (s : ScopeRef) (location : Location) (n : Nat)
    (keys : ForIn) (last : Value) :
    Confined ctx.enterBreakable
      (forInTurns eng target body s chain location n keys last) := by
  induction n generalizing keys last with
  | zero => exact yields_throw _
  | succ n ih =>
      refine confined_attempt _ _ fun found ↦ ?_
      split
      · exact yields_pure rfl
      · refine (confined_execTurn heng hbody target _ s location).bind fun c hc ↦ ?_
        split
        next => exact ih _ _
        next hstop => exact confined_leave hc hstop _

theorem confined_execForIn (target : LoopTarget) (subject : Expression) (s : ScopeRef)
    (location : Location) :
    Confined ctx.enterBreakable (execForIn eng target subject body s chain location) := by
  refine confined_attempt _ _ fun v ↦ ?_
  split
  · exact yields_pure rfl
  · exact confined_attempt _ _ fun o ↦
      confined_forInTurns heng hbody target s location _ _ _

omit heng hbody in
/-- Closing an iterator hands the completion on or throws. -/
theorem confined_closeIterator (it : Iterator) {c : Completion} (hc : ctx.permits c = true)
    (location : Location) : Confined ctx (closeIterator eng it c location) := by
  unfold closeIterator
  refine (yields_any _).bind fun r _ ↦ ?_
  split
  · exact yields_pure hc
  · exact yields_throw _
  · exact (yields_any _).bind fun _ _ ↦ yields_pure rfl
  · exact confined_throwCompletion _ _
  · split
    · exact yields_pure hc
    · exact confined_throwNew _ _

theorem confined_forOfTurns (it : Iterator) (target : LoopTarget) (s : ScopeRef)
    (location : Location) (n : Nat) (last : Value) :
    Confined ctx.enterBreakable
      (forOfTurns eng it target body s chain location n last) := by
  induction n generalizing last with
  | zero => exact yields_throw _
  | succ n ih =>
      refine confined_attempt _ _ fun found ↦ ?_
      split
      · exact yields_pure rfl
      · refine (confined_execTurn heng hbody target _ s location).bind fun c hc ↦ ?_
        split
        next => exact ih _
        next hstop =>
          have hout := JumpContext.permits_of_not_continuesLoop hc (Bool.eq_false_iff.2 hstop)
          exact confined_closeIterator it (by simpa using hout) location

theorem confined_execForOf (target : LoopTarget) (subject : Expression) (s : ScopeRef)
    (location : Location) :
    Confined ctx.enterBreakable (execForOf eng target subject body s chain location) :=
  confined_attempt _ _ fun _ ↦ confined_attempt _ _ fun it ↦
    confined_forOfTurns heng hbody it target s location _ _

/-! ### Other statements -/

omit hbody

theorem confined_execConditional (test : Expression) {yes : Statement} {no : Option Statement}
    (s : ScopeRef) (location : Location) (hyes : Tree.wellLabelled ctx [] yes = true)
    (hno : Tree.wellLabelledOption ctx no = true) :
    Confined ctx (execConditional eng test yes no s location) := by
  refine confined_attempt _ _ fun v ↦ ?_
  split
  · exact (heng ctx [] yes s hyes).bind fun c hc ↦ yields_pure (by simpa using hc)
  · split
    next no => exact (heng ctx [] no s hno).bind fun c hc ↦ yields_pure (by simpa using hc)
    next => exact yields_pure rfl

theorem confined_execCatch {handler : CatchClause} (thrown : Value) (s : ScopeRef)
    (h : Tree.wellLabelledHandler ctx (some handler) = true) :
    Confined ctx (execCatch eng handler thrown s) := by
  match handler, h with
  | .mk none body, h => exact confined_execBlock heng s h
  | .mk (some param) body, h =>
      exact confined_attempt _ _ fun inner ↦ confined_execBlock heng inner h

theorem confined_execFinally {finalizer : Option (List Statement)} {c : Completion}
    (hc : ctx.permits c = true) (s : ScopeRef)
    (h : Tree.wellLabelledFinalizer ctx finalizer = true) :
    Confined ctx (execFinally eng finalizer c s) := by
  cases finalizer with
  | none => exact yields_pure hc
  | some body =>
      refine (confined_execBlock heng s h).bind fun last hlast ↦ yields_pure ?_
      split
      · exact hlast
      · exact hc

theorem confined_execTry {block : List Statement} {handler : Option CatchClause}
    {finalizer : Option (List Statement)} (s : ScopeRef)
    (hblock : Tree.wellLabelledAll ctx block = true)
    (hhandler : Tree.wellLabelledHandler ctx handler = true)
    (hfinalizer : Tree.wellLabelledFinalizer ctx finalizer = true) :
    Confined ctx (execTry eng block handler finalizer s) := by
  have hlast (c : Completion) (hc : ctx.permits c = true) :
      Confined ctx (do return (← execFinally eng finalizer c s).updateEmpty (some .undefined)) :=
    (confined_execFinally heng hc s hfinalizer).bind fun c' hc' ↦ yields_pure (by simpa using hc')
  refine (confined_execBlock heng s hblock).bind fun c hc ↦ ?_
  dsimp only
  split
  · exact (confined_execCatch heng _ s hhandler).bind hlast
  · exact hlast _ hc

theorem confined_execClauses (s : ScopeRef) (last : Value) {clauses : List SwitchClause}
    (h : Tree.wellLabelledClauses ctx clauses = true) :
    Confined ctx (execClauses eng s last clauses) := by
  induction clauses generalizing last with
  | nil => exact yields_pure rfl
  | cons clause rest ih =>
      obtain ⟨test, body⟩ := clause
      simp only [Tree.wellLabelledClauses, Bool.and_eq_true] at h
      refine (confined_execBlock heng s h.1).bind fun c hc ↦ ?_
      dsimp only
      split
      · exact yields_pure (by simpa using hc)
      · exact ih _ h.2

theorem confined_execWith (object : Expression) {body : Statement} (s : ScopeRef)
    (location : Location) (h : Tree.wellLabelled ctx [] body = true) :
    Confined ctx (execWith eng object body s location) := by
  refine confined_attempt _ _ fun scope ↦ ?_
  split
  · exact confined_throwNew _ _
  · exact confined_attempt _ _ fun inner ↦
      (heng ctx [] body inner h).bind fun c hc ↦ yields_pure (by simpa using hc)

end Forms

/-! ## `switch` -/

theorem wellLabelledClauses_of_suffix {selected clauses : List SwitchClause}
    (hsuffix : selected <:+ clauses) (h : Tree.wellLabelledClauses ctx clauses = true) :
    Tree.wellLabelledClauses ctx selected = true := by
  obtain ⟨skipped, rfl⟩ := hsuffix
  induction skipped with
  | nil => exact h
  | cons clause rest ih =>
      obtain ⟨test, body⟩ := clause
      simp only [List.cons_append, Tree.wellLabelledClauses, Bool.and_eq_true] at h
      exact ih h.2

theorem matchClause_suffix (eng : Engine) (v : Value) (s : ScopeRef) (clauses : List SwitchClause)
    {σ σ' : State} {selected : List SwitchClause}
    (hrun : (matchClause eng v s clauses).run σ = (.ok (some selected), σ')) :
    selected <:+ clauses := by
  induction clauses generalizing σ with
  | nil => cases hrun
  | cons clause rest ih =>
      unfold matchClause at hrun
      split at hrun
      · exact (ih hrun).trans (List.suffix_cons _ _)
      · rw [Action.run_bind] at hrun
        split at hrun
        · split at hrun
          · cases hrun
            exact List.suffix_refl _
          · exact (ih hrun).trans (List.suffix_cons _ _)
        · cases hrun

theorem selectClauses_suffix (eng : Engine) (subject : Expression) (clauses : List SwitchClause)
    (s : ScopeRef) {σ σ' : State} {selected : List SwitchClause}
    (hrun : (selectClauses eng subject clauses s).run σ = (.ok selected, σ')) :
    selected <:+ clauses := by
  unfold selectClauses at hrun
  rw [Action.run_bind] at hrun
  split at hrun
  next v σ₁ _ =>
    rw [Action.run_bind] at hrun
    split at hrun
    next found σ₂ hmatch =>
      cases hrun
      cases found with
      | none => exact List.dropWhile_suffix _
      | some found => exact matchClause_suffix eng v s clauses hmatch
    next => cases hrun
  next => cases hrun

theorem confined_execSwitch {eng : Engine} (heng : Confines eng) (subject : Expression)
    {clauses : List SwitchClause} (s : ScopeRef) (location : Location)
    (h : Tree.wellLabelledClauses ctx clauses = true) :
    Confined ctx (execSwitch eng subject clauses s location) :=
  confined_attempt_of_run location fun _ _ _ hrun ↦
    confined_execClauses heng s .undefined
      (wellLabelledClauses_of_suffix (selectClauses_suffix eng subject clauses s hrun) h)

/-! ## All statements -/

theorem confined_execForm {eng : Engine} (heng : Confines eng) {chain : List String}
    {form : StatementForm} (s : ScopeRef) (location : Location)
    (h : Tree.wellLabelledForm ctx chain form = true) :
    Confined ctx (execForm eng form s chain location) := by
  cases form with
  | empty => exact yields_pure rfl
  | debugger => exact yields_pure rfl
  | function f => exact yields_pure rfl
  | expression e => exact confined_attempt _ _ fun v ↦ yields_pure rfl
  | block body => exact confined_execBlock heng s h
  | «variable» kind ds => exact confined_attempt _ _ fun _ ↦ yields_pure rfl
  | conditional test yes no =>
      obtain ⟨hyes, hno⟩ := Bool.and_eq_true_iff.1 h
      exact confined_execConditional heng test s location hyes hno
  | whileLoop test body =>
      exact confined_exitBreakable (confined_whileTurns heng h test s location _ _)
  | doWhile body test =>
      exact confined_exitBreakable (confined_doTurns heng h test s location _ _)
  | forLoop init test update body =>
      exact confined_exitBreakable (confined_execFor heng h init test update s location)
  | forIn target subject body =>
      exact confined_exitBreakable (confined_execForIn heng h target subject s location)
  | forOf target subject body =>
      exact confined_exitBreakable (confined_execForOf heng h target subject s location)
  | «return» value =>
      cases value with
      | none => exact yields_pure rfl
      | some e => exact confined_attempt _ _ fun v ↦ yields_pure rfl
  | «break» label => exact yields_pure h
  | «continue» label => exact yields_pure h
  | throw value => exact confined_attempt _ _ fun v ↦ yields_pure rfl
  | «try» block handler finalizer =>
      simp only [Tree.wellLabelledForm, Bool.and_eq_true] at h
      exact confined_execTry heng s h.1.1 h.1.2 h.2
  | switch subject clauses =>
      exact confined_exitBreakable (confined_execSwitch heng subject s location h)
  | labelled label body =>
      exact (heng _ _ body s h).bind fun c hc ↦
        yields_pure (JumpContext.permits_exitLabel hc)
  | «with» object body => exact confined_execWith heng object s location h
  | «class» name => exact yields_throw _

theorem confines_exec {eng : Engine} (heng : Confines eng) (ctx : JumpContext)
    (chain : List String) (stmt : Statement) (s : ScopeRef)
    (h : Tree.wellLabelled ctx chain stmt = true) : Confined ctx (exec eng stmt s chain) := by
  obtain ⟨location, form⟩ := stmt
  refine (yields_any _).bind fun stop _ ↦ ?_
  split
  · exact yields_throw _
  · exact confined_execForm heng s location h

theorem confines_level (n : Nat) : Confines (Engine.level n) := by
  induction n with
  | zero => exact fun _ _ _ _ _ ↦ yields_throw _
  | succ n ih => exact confines_exec ih

end Statement

end Ecma
