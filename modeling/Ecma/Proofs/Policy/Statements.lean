import Ecma.Engine.Level
import Ecma.Proofs.JumpConfinement
import Ecma.Proofs.Policy.Expressions

/-!
# Statements, scripts and all levels of the engine

A list of statements runs in a scope in which the names that it declares were
declared before, and any other statement declares nothing.  With statements,
every operation of an engine is as a policy says if those of the engine below
are, so the operations of all levels are.
-/

namespace Ecma

namespace Policy

namespace Governs

variable {P : Policy} {eng : Engine} (hG : P.Governs eng)

include hG

/-! ## Blocks and declarations -/

theorem executes_throwNew (e : ScriptError) (location : Location) :
    P.Executes ∅ (Statement.throwNew e location) :=
  hG.basics.executes_attempt_keeps (hG.creation.newError _ _) location fun _ ↦ executes_pure _

theorem holds_declareFunctions (s : ScopeRef) {fs : List FunctionNode}
    (hfs : ∀ f ∈ fs, P.Admits (Tree.placedFunction f)) :
    P.Holds {.holder s} (Statement.declareFunctions eng s fs) fun _ ↦ ∅ := by
  induction fs with
  | nil => exact holds_pure_of_subset (Set.empty_subset _)
  | cons f rest ih =>
      have ih := ih fun f hf ↦ hfs f (List.mem_cons_of_mem _ hf)
      unfold Statement.declareFunctions
      split
      · exact ih
      · have hclosure := hG.creation.instantiate (hfs f List.mem_cons_self) s none
        refine hclosure.bind_holds fun closure ↦ ?_
        exact hG.holds_createInitialised s _ closure ih

theorem holds_declareBlock {body : List Statement} (hbody : P.Admits (Tree.placedList body))
    (s : ScopeRef) : P.Holds {.holder s} (Statement.declareBlock eng body s) fun _ ↦
      Fact.all s ((Tree.lexicalNames body).map LexicalName.name) := by
  have hfunctions : ∀ f ∈ Tree.functions body, P.Admits (Tree.placedFunction f) :=
    fun f hf hP ↦ Tree.placedFunction_of_mem_list (hbody hP) hf
  refine (hG.holds_createLexical s _).bind fun _ ↦ ?_
  refine (hG.holds_declareFunctions s hfunctions).weaken Set.subset_union_left fun _ ↦ ?_
  exact Set.subset_union_right.trans Set.subset_union_left

theorem executes_execBlock {body : List Statement} (hbody : P.Admits (Tree.placedList body))
    (s : ScopeRef) : P.Executes ∅ (Statement.execBlock eng body s) := by
  unfold Statement.execBlock
  split
  next =>
    refine hG.basics.executes_attempt (hG.scopes.newBlockScope s) _ fun inner ↦ ?_
    rw [Set.empty_union]
    refine hG.basics.executes_attempt (hG.holds_declareBlock hbody inner) _ fun _ ↦ ?_
    exact (hG.executes_execAll inner hbody).of_subset Set.subset_union_right
  next hlexical =>
    have hnames : Tree.lexicalNames body = [] := by
      simp only [Tree.hasLexical, Bool.or_eq_true, Bool.not_eq_true', not_or] at hlexical
      simpa using hlexical.1
    have hall := hG.executes_execAll s hbody
    rw [hnames] at hall
    exact hall.of_subset (by simp [Fact.all])

theorem keeps_evalInit {d : Declarator} (hd : P.Admits (Tree.placedDeclarator d)) {e : Expression}
    (he : d.init? = some e) (s : ScopeRef) : P.Keeps (Expression.evalNamed eng e s d.name) := by
  obtain ⟨name, init⟩ := d
  cases he
  exact hG.keeps_evalNamed hd s name

theorem keeps_declareVars {ds : List Declarator} (hds : P.Admits (Tree.placedDeclarators ds))
    (s : ScopeRef) : P.Keeps (Statement.declareEach eng .var s ds) := by
  induction ds with
  | nil => exact keeps_pure _
  | cons d rest ih =>
      obtain ⟨hd, hrest⟩ := admits_and.1 hds
      have hone : P.Keeps (Statement.declareOne eng .var s d) := by
        unfold Statement.declareOne
        cases hinit : d.init? with
        | none => exact keeps_pure _
        | some e =>
            refine (hG.keeps_resolve d.name s).bind fun reference ↦ ?_
            exact (hG.keeps_evalInit hd hinit s).bind fun v ↦ hG.keeps_write v reference
      exact hone.bind fun _ ↦ ih hrest

/-- Lexical names are initialised, so they must be there. -/
theorem holds_declareEach {kind : DeclarationKind} (hkind : kind ≠ .var) {ds : List Declarator}
    (hds : P.Admits (Tree.placedDeclarators ds)) (s : ScopeRef) :
    P.Holds (Fact.all s (ds.map Declarator.name)) (Statement.declareEach eng kind s ds)
      fun _ ↦ ∅ := by
  induction ds with
  | nil => exact holds_pure_of_subset (Set.empty_subset _)
  | cons d rest ih =>
      obtain ⟨hd, hrest⟩ := admits_and.1 hds
      have hone : P.Holds {.declared s d.name} (Statement.declareOne eng kind s d) fun _ ↦ ∅ := by
        unfold Statement.declareOne
        cases hinit : d.init? with
        | none => cases kind with
          | var => exact absurd rfl hkind
          | lexical => exact hG.holds_initialise s _ _
          | constant => exact hG.holds_initialise s _ _
        | some e =>
            have hinitialise : P.Holds {.declared s d.name} (do
                let v ← Expression.evalNamed eng e s d.name
                Scope.initialise eng s d.name v) fun _ ↦ ∅ :=
              (hG.keeps_evalInit hd hinit s).bind_holds fun v ↦ hG.holds_initialise s _ v
            cases kind with
            | var => exact absurd rfl hkind
            | lexical => exact hinitialise
            | constant => exact hinitialise
      rw [List.map_cons, Fact.all_cons]
      refine (hone.of_subset Set.subset_union_left).bind fun _ ↦ ?_
      exact (ih hrest).of_subset (Set.subset_union_right.trans Set.subset_union_left)

theorem holds_createAs (kind : DeclarationKind) (s : ScopeRef) (name : String) :
    P.Holds {.holder s} (Statement.createAs eng kind s name) fun _ ↦ {.declared s name} := by
  cases kind with
  | constant => exact hG.scopes.createImmutable s name true
  | var => exact hG.holds_createMutable s name
  | lexical => exact hG.holds_createMutable s name

theorem holds_createEach (kind : DeclarationKind) (s : ScopeRef) (ds : List Declarator) :
    P.Holds {.holder s} (Statement.createEach eng kind s ds) fun _ ↦
      Fact.all s (ds.map Declarator.name) := by
  induction ds with
  | nil => exact holds_pure_of_subset (by simp [Fact.all])
  | cons d rest ih =>
      refine (hG.holds_createAs kind s d.name).bind fun _ ↦ ?_
      refine ih.weaken Set.subset_union_left fun _ ↦ ?_
      rw [List.map_cons, Fact.all_cons]
      exact Set.union_subset_union_left _ Set.subset_union_right

/-! ## Loops

The induction is on the fuel, as in the loops themselves. -/

section Loops

variable {test : Expression} {body : Statement} (hbody : P.Admits (Tree.placedAlone body))

include hbody

theorem executes_whileTurns (htest : P.Admits (Tree.placedExpression test)) (s : ScopeRef)
    (labels : List String) (location : Location) (n : Nat) (last : Value) :
    P.Executes ∅ (Statement.whileTurns eng test body s labels location n last) := by
  induction n generalizing last with
  | zero => exact hG.basics.executes_outOfFuel
  | succ n ih =>
      refine hG.basics.executes_attempt_keeps (hG.eval htest s) _ fun go ↦ ?_
      split
      · refine (hG.executes_alone hbody s).bind fun c ↦ ?_
        split
        · exact ih _
        · exact executes_pure _
      · exact executes_pure _

theorem executes_doTurns (htest : P.Admits (Tree.placedExpression test)) (s : ScopeRef)
    (labels : List String) (location : Location) (n : Nat) (last : Value) :
    P.Executes ∅ (Statement.doTurns eng test body s labels location n last) := by
  induction n generalizing last with
  | zero => exact hG.basics.executes_outOfFuel
  | succ n ih =>
      refine (hG.executes_alone hbody s).bind fun c ↦ ?_
      split
      · refine hG.basics.executes_attempt_keeps (hG.eval htest s) _ fun go ↦ ?_
        split
        · exact ih _
        · exact executes_pure _
      · exact executes_pure _

omit hbody in
theorem holds_copyEach (source target : ScopeRef) (names : List String) :
    P.Holds {.holder target} (Statement.copyEach eng source target names) fun _ ↦ ∅ := by
  induction names with
  | nil => exact holds_pure_of_subset (Set.empty_subset _)
  | cons name rest ih =>
      refine (hG.holds_createMutable target name).bind fun _ ↦ ?_
      refine (hG.keeps_getBinding source name _).bind_holds fun v ↦ ?_
      refine ((hG.holds_initialise target name v).of_subset Set.subset_union_right).bind fun _ ↦ ?_
      exact ih.of_subset (Set.subset_union_left.trans Set.subset_union_left)

omit hbody in
theorem keeps_nextTurnScope (last : ScopeRef) (names : List String) :
    P.Keeps (Statement.nextTurnScope eng last names) := by
  unfold Statement.nextTurnScope
  split
  · exact keeps_pure _
  · refine (hG.basics.keeps_scope last).bind fun scope ↦ ?_
    split
    · exact hG.basics.fault _ nofun nofun
    · refine P.holds_bind (hG.scopes.newBlockScope _) fun next ↦ ?_
      exact P.holds_bind (hG.holds_copyEach last next names) fun _ ↦ keeps_pure _

omit hbody in
theorem keeps_testOf {test : Option Expression} (htest : P.Admits (Tree.placedOption test))
    (s : ScopeRef) : P.Keeps (Statement.testOf eng test s) := by
  cases test with
  | none => exact keeps_pure _
  | some e => exact (hG.eval (e := e) htest s).bind fun _ ↦ keeps_pure _

omit hbody in
theorem keeps_updateOf {update : Option Expression} (hupdate : P.Admits (Tree.placedOption update))
    (s : ScopeRef) : P.Keeps (Statement.updateOf eng update s) := by
  cases update with
  | none => exact keeps_pure _
  | some e => exact (hG.eval (e := e) hupdate s).discard

theorem executes_forTurns {test update : Option Expression}
    (htest : P.Admits (Tree.placedOption test)) (hupdate : P.Admits (Tree.placedOption update))
    (names labels : List String) (location : Location) (n : Nat) (s : ScopeRef) (last : Value) :
    P.Executes ∅ (Statement.forTurns eng test update body names labels location n s last) := by
  induction n generalizing s last with
  | zero => exact hG.basics.executes_outOfFuel
  | succ n ih =>
      refine hG.basics.executes_attempt_keeps (hG.keeps_testOf htest s) _ fun go ↦ ?_
      split
      · refine (hG.executes_alone hbody s).bind fun c ↦ ?_
        split
        · refine hG.basics.executes_attempt_keeps (hG.keeps_nextTurnScope s names) _ fun next ↦ ?_
          exact hG.basics.executes_attempt_keeps (hG.keeps_updateOf hupdate next) _ fun _ ↦
            ih next _
        · exact executes_pure _
      · exact executes_pure _

theorem executes_forBody {test update : Option Expression}
    (htest : P.Admits (Tree.placedOption test)) (hupdate : P.Admits (Tree.placedOption update))
    (s : ScopeRef) (names labels : List String) (location : Location) :
    P.Executes ∅ (Statement.forBody eng test update body s names labels location) :=
  hG.basics.executes_attempt_keeps (hG.keeps_nextTurnScope s names) _ fun first ↦
    hG.executes_forTurns hbody htest hupdate names labels location _ first _

omit hbody in
theorem keeps_openLoopScope {kind : DeclarationKind} (hkind : kind ≠ .var) {ds : List Declarator}
    (hds : P.Admits (Tree.placedDeclarators ds)) (s : ScopeRef) :
    P.Keeps (Statement.openLoopScope eng kind ds s) := by
  refine P.holds_bind (hG.scopes.newBlockScope s) fun inner ↦ ?_
  refine P.holds_bind (hG.holds_createEach kind inner ds) fun _ ↦ ?_
  exact P.holds_bind (hG.holds_declareEach hkind hds inner) fun _ ↦ keeps_pure _

theorem executes_execFor {init : ForInit} (hinit : P.Admits (Tree.placedInit init))
    {test update : Option Expression} (htest : P.Admits (Tree.placedOption test))
    (hupdate : P.Admits (Tree.placedOption update)) (s : ScopeRef) (labels : List String)
    (location : Location) :
    P.Executes ∅ (Statement.execFor eng init test update body s labels location) := by
  have hrest (s : ScopeRef) (names : List String) :
      P.Executes ∅ (Statement.forBody eng test update body s names labels location) :=
    hG.executes_forBody hbody htest hupdate s names labels location
  unfold Statement.execFor
  split
  next => exact hrest s _
  next e => exact hG.basics.executes_attempt_keeps (hG.eval (e := e) hinit s) _ fun _ ↦ hrest s _
  next ds =>
    exact hG.basics.executes_attempt_keeps (hG.keeps_declareVars hinit s) _ fun _ ↦ hrest s _
  next kind ds hkind =>
    have hkind : kind ≠ .var := fun h ↦ hkind h
    exact hG.basics.executes_attempt_keeps (hG.keeps_openLoopScope hkind hinit s) _ fun inner ↦
      hrest inner _

omit hbody in
theorem keeps_evalSubject (target : LoopTarget) {e : Expression}
    (he : P.Admits (Tree.placedExpression e)) (s : ScopeRef) :
    P.Keeps (Statement.evalSubject eng target e s) := by
  have hinside (name : String) : P.Keeps (do
      let inner ← Action.newBlockScope s
      Scope.createMutable eng inner name false
      eng.eval e inner) := by
    refine P.holds_bind (hG.scopes.newBlockScope s) fun inner ↦ ?_
    refine P.holds_bind (hG.holds_createMutable inner name) fun _ ↦ ?_
    exact (hG.eval he inner).of_subset (Set.empty_subset _)
  unfold Statement.evalSubject
  split
  · exact hinside _
  · exact hinside _
  · exact hG.eval he s
  · exact hG.eval he s

omit hbody in
theorem keeps_bindTarget {target : LoopTarget} (htarget : P.Admits (Tree.placedTarget target))
    (v : Value) (s : ScopeRef) : P.Keeps (Statement.bindTarget eng target v s) := by
  unfold Statement.bindTarget
  split
  next e =>
    refine (hG.keeps_evalReference (e := e) htarget s).bind fun reference ↦ ?_
    exact (hG.keeps_write v reference).bind fun _ ↦ keeps_pure _
  next =>
    refine (hG.keeps_resolve _ s).bind fun reference ↦ ?_
    exact (hG.keeps_write v reference).bind fun _ ↦ keeps_pure _
  next kind name _ =>
    refine P.holds_bind (hG.scopes.newBlockScope s) fun inner ↦ ?_
    refine P.holds_bind (hG.holds_createAs kind inner name) fun _ ↦ ?_
    exact P.holds_bind (hG.holds_initialise inner name v) fun _ ↦ keeps_pure _

theorem executes_execTurn {target : LoopTarget} (htarget : P.Admits (Tree.placedTarget target))
    (v : Value) (s : ScopeRef) (location : Location) :
    P.Executes ∅ (Statement.execTurn eng target v body s location) :=
  hG.basics.executes_attempt_keeps (hG.keeps_bindTarget htarget v s) _ fun inner ↦
    hG.executes_alone hbody inner

theorem executes_forInTurns {target : LoopTarget} (htarget : P.Admits (Tree.placedTarget target))
    (s : ScopeRef) (labels : List String) (location : Location) (n : Nat) (keys : ForIn)
    (last : Value) :
    P.Executes ∅ (Statement.forInTurns eng target body s labels location n keys last) := by
  induction n generalizing keys last with
  | zero => exact hG.basics.executes_outOfFuel
  | succ n ih =>
      refine hG.basics.executes_attempt_keeps (hG.keeps_next keys) _ fun found ↦ ?_
      split
      · exact executes_pure _
      · refine (hG.executes_execTurn hbody htarget _ s location).bind fun c ↦ ?_
        split
        · exact ih _ _
        · exact executes_pure _

theorem executes_execForIn {target : LoopTarget} (htarget : P.Admits (Tree.placedTarget target))
    {e : Expression} (he : P.Admits (Tree.placedExpression e)) (s : ScopeRef)
    (labels : List String) (location : Location) :
    P.Executes ∅ (Statement.execForIn eng target e body s labels location) := by
  refine hG.basics.executes_attempt_keeps (hG.keeps_evalSubject target he s) _ fun v ↦ ?_
  split
  · exact executes_pure _
  · exact hG.basics.executes_attempt_keeps (hG.keeps_toObject v) _ fun o ↦
      hG.executes_forInTurns hbody htarget s labels location _ _ _

omit hbody in
theorem keeps_openIterator (v : Value) : P.Keeps (Statement.openIterator eng v) := by
  refine (hG.keeps_getMethod v _).bind fun method ↦ ?_
  split
  · exact (hG.basics.keeps_display v).bind fun _ ↦ hG.basics.keeps_throwNew _
  · refine (hG.call _ _ _).bind fun object ↦ ?_
    split
    · exact (hG.keeps_getOf object _).bind fun _ ↦ keeps_pure _
    · exact hG.basics.keeps_throwNew _

omit hbody in
theorem keeps_stepIterator (it : Statement.Iterator) : P.Keeps (Statement.stepIterator eng it) := by
  refine (hG.call _ _ _).bind fun result ↦ ?_
  split
  · refine (hG.keeps_get _ _ _).bind fun done ↦ ?_
    split
    · exact keeps_pure _
    · exact (hG.keeps_get _ _ _).bind fun _ ↦ keeps_pure _
  · exact (hG.basics.keeps_display _).bind fun _ ↦ hG.basics.keeps_throwNew _

omit hbody in
theorem keeps_callReturn (it : Statement.Iterator) : P.Keeps (Statement.callReturn eng it) := by
  refine (hG.keeps_getMethod it.object _).bind fun method ↦ ?_
  split
  · exact keeps_pure _
  · exact (hG.call _ _ _).bind fun _ ↦ keeps_pure _

omit hbody in
/-- A failure of closing is reported, or dropped where the loop ended in a throw. -/
theorem executes_closeIterator (it : Statement.Iterator) (c : Completion) (location : Location) :
    P.Executes ∅ (Statement.closeIterator eng it c location) := by
  refine hG.basics.handle _ (hG.keeps_callReturn it) (fun result _ ↦ ?_) fun e ↦ ?_
  · split
    · exact executes_pure _
    · contradiction
    · exact hG.basics.forget.bind fun _ ↦ executes_pure _
    · contradiction
    · split
      · exact executes_pure _
      · exact hG.executes_throwNew _ location
  · cases e with
    | fault f => exact .report location
    | thrown v => cases c with
      | throw w l => exact .drop _
      | _ => exact .report location
    | uncaught v l => cases c with
      | throw w l => exact .drop _
      | _ => exact .report location

theorem executes_forOfTurns (it : Statement.Iterator) {target : LoopTarget}
    (htarget : P.Admits (Tree.placedTarget target)) (s : ScopeRef) (labels : List String)
    (location : Location) (n : Nat) (last : Value) :
    P.Executes ∅ (Statement.forOfTurns eng it target body s labels location n last) := by
  induction n generalizing last with
  | zero => exact hG.basics.executes_outOfFuel
  | succ n ih =>
      refine hG.basics.executes_attempt_keeps (hG.keeps_stepIterator it) _ fun found ↦ ?_
      split
      · exact executes_pure _
      · refine (hG.executes_execTurn hbody htarget _ s location).bind fun c ↦ ?_
        split
        · exact ih _
        · exact hG.executes_closeIterator it _ location

theorem executes_execForOf {target : LoopTarget} (htarget : P.Admits (Tree.placedTarget target))
    {e : Expression} (he : P.Admits (Tree.placedExpression e)) (s : ScopeRef)
    (labels : List String) (location : Location) :
    P.Executes ∅ (Statement.execForOf eng target e body s labels location) := by
  refine hG.basics.executes_attempt_keeps (hG.keeps_evalSubject target he s) _ fun v ↦ ?_
  exact hG.basics.executes_attempt_keeps (hG.keeps_openIterator v) _ fun it ↦
    hG.executes_forOfTurns hbody it htarget s labels location _ _

end Loops

/-! ## Other statements -/

theorem executes_execConditional {test : Expression} (htest : P.Admits (Tree.placedExpression test))
    {yes : Statement} (hyes : P.Admits (Tree.placedAlone yes)) {no : Option Statement}
    (hno : P.Admits (Tree.placedElse no)) (s : ScopeRef) (location : Location) :
    P.Executes ∅ (Statement.execConditional eng test yes no s location) := by
  refine hG.basics.executes_attempt_keeps (hG.eval htest s) _ fun v ↦ ?_
  dsimp only
  split
  · exact (hG.executes_alone hyes s).bind fun _ ↦ executes_pure _
  · cases no with
    | some no =>
        have hno : P.Admits (Tree.placedAlone no) := hno
        exact (hG.executes_alone hno s).bind fun _ ↦ executes_pure _
    | none => exact executes_pure _

theorem executes_execCatch {handler : CatchClause}
    (hhandler : P.Admits (Tree.placedHandler (some handler))) (thrown : Value) (s : ScopeRef) :
    P.Executes ∅ (Statement.execCatch eng handler thrown s) := by
  unfold Statement.execCatch
  split
  next body => exact hG.executes_execBlock hhandler s
  next param body =>
    have hbind : P.Keeps (do
        let inner ← Action.newBlockScope s
        Scope.createMutable eng inner param false
        Scope.initialise eng inner param thrown
        return inner) := by
      refine P.holds_bind (hG.scopes.newBlockScope s) fun inner ↦ ?_
      exact hG.holds_createInitialised inner param thrown
        (holds_pure_of_subset (Set.empty_subset _))
    exact hG.basics.executes_attempt_keeps hbind _ fun inner ↦ hG.executes_execBlock hhandler inner

theorem executes_execFinally {finalizer : Option (List Statement)}
    (hfinalizer : P.Admits (Tree.placedFinalizer finalizer)) (c : Completion) (s : ScopeRef) :
    P.Executes ∅ (Statement.execFinally eng finalizer c s) := by
  cases finalizer with
  | none => exact executes_pure _
  | some body =>
      have hbody : P.Admits (Tree.placedList body) := hfinalizer
      exact (hG.executes_execBlock hbody s).bind fun _ ↦ executes_pure _

theorem executes_execTry {block : List Statement} (hblock : P.Admits (Tree.placedList block))
    {handler : Option CatchClause} (hhandler : P.Admits (Tree.placedHandler handler))
    {finalizer : Option (List Statement)} (hfinalizer : P.Admits (Tree.placedFinalizer finalizer))
    (s : ScopeRef) : P.Executes ∅ (Statement.execTry eng block handler finalizer s) := by
  have hlast (c : Completion) : P.Executes ∅ (do
      return (← Statement.execFinally eng finalizer c s).updateEmpty (some .undefined)) :=
    (hG.executes_execFinally hfinalizer c s).bind fun _ ↦ executes_pure _
  refine (hG.executes_execBlock hblock s).bind fun c ↦ ?_
  dsimp only
  split
  · exact (hG.executes_execCatch hhandler _ s).bind hlast
  · exact hlast _

theorem keeps_matchClause (v : Value) (s : ScopeRef) {clauses : List SwitchClause}
    (hclauses : P.Admits (Tree.placedClauses clauses)) :
    P.Keeps (Statement.matchClause eng v s clauses) := by
  induction clauses with
  | nil => exact keeps_pure _
  | cons clause rest ih =>
      obtain ⟨hclause, hrest⟩ := admits_and.1 hclauses
      obtain ⟨test, body⟩ := clause
      obtain ⟨htest, -⟩ := admits_and.1 hclause
      unfold Statement.matchClause
      cases test with
      | none => exact ih hrest
      | some test =>
          exact (hG.eval (e := test) htest s).bind fun _ ↦ keeps_ite (keeps_pure _) (ih hrest)

theorem executes_execClauses (s : ScopeRef) (last : Value) {clauses : List SwitchClause}
    (hclauses : P.Admits (Tree.placedClauses clauses)) :
    P.Executes ∅ (Statement.execClauses eng s last clauses) := by
  induction clauses generalizing last with
  | nil => exact executes_pure _
  | cons clause rest ih =>
      obtain ⟨hclause, hrest⟩ := admits_and.1 hclauses
      obtain ⟨test, body⟩ := clause
      obtain ⟨-, hbody⟩ := admits_and.1 hclause
      refine (hG.executes_execBlock hbody s).bind fun c ↦ ?_
      dsimp only
      split
      · exact executes_pure _
      · exact ih _ hrest

/-- The clauses that a value selects are the last ones of the statement. -/
theorem executes_execSwitch {subject : Expression} (he : P.Admits (Tree.placedExpression subject))
    {clauses : List SwitchClause} (hclauses : P.Admits (Tree.placedClauses clauses))
    (s : ScopeRef) (location : Location) :
    P.Executes ∅ (Statement.execSwitch eng subject clauses s location) := by
  have hselect : P.Keeps (Statement.selectClauses eng subject clauses s) :=
    (hG.eval he s).bind fun v ↦
      (hG.keeps_matchClause v s hclauses).bind fun _ ↦ keeps_pure _
  refine hG.basics.handle _ hselect (fun selected hrun ↦ ?_) fun e ↦ .report location
  obtain ⟨σ, τ, hrun⟩ := hrun
  have hsuffix := Statement.selectClauses_suffix eng subject clauses s hrun
  exact hG.executes_execClauses s _ fun hP ↦ Tree.placedClauses_of_suffix hsuffix (hclauses hP)

theorem executes_execWith {object : Expression} (he : P.Admits (Tree.placedExpression object))
    {body : Statement} (hbody : P.Admits (Tree.placedAlone body)) (s : ScopeRef)
    (location : Location) : P.Executes ∅ (Statement.execWith eng object body s location) := by
  refine hG.basics.executes_attempt_keeps (hG.basics.keeps_scope s) _ fun scope ↦ ?_
  split
  · exact hG.executes_throwNew _ location
  · have hopen : P.Keeps (do
        let o ← Conversion.toObject (← eng.eval object s)
        Action.newObjectScope o true s) :=
      (hG.eval he s).bind fun v ↦
        (hG.keeps_toObject v).bind fun o ↦ hG.scopes.newObjectScope o true s
    exact hG.basics.executes_attempt_keeps hopen _ fun inner ↦
      (hG.executes_alone hbody inner).bind fun _ ↦ executes_pure _

/-! ## All statements -/

theorem executes_variable {kind : DeclarationKind} {ds : List Declarator}
    (hds : P.Admits (Tree.placedDeclarators ds)) (s : ScopeRef) (location : Location) :
    P.Executes (Fact.all s ((Tree.formLexicalNames (.variable kind ds)).map LexicalName.name))
      (Statement.attempt (Statement.declareEach eng kind s ds) location fun _ ↦
        return .empty) := by
  have hlexical (hkind : kind ≠ .var) : P.Executes (Fact.all s (ds.map Declarator.name))
      (Statement.attempt (Statement.declareEach eng kind s ds) location fun _ ↦ return .empty) :=
    hG.basics.executes_attempt (hG.holds_declareEach hkind hds s) _ fun _ ↦ executes_pure _
  cases kind with
  | var => exact hG.basics.executes_attempt_keeps (hG.keeps_declareVars hds s) _ fun _ ↦
      executes_pure _
  | lexical => simpa [Tree.formLexicalNames, Function.comp_def] using hlexical nofun
  | constant => simpa [Tree.formLexicalNames, Function.comp_def] using hlexical nofun

theorem executes_execForm {form : StatementForm} (hform : P.Admits (Tree.placedForm form))
    (s : ScopeRef) (labels : List String) (location : Location) :
    P.Executes (Fact.all s ((Tree.formLexicalNames (Tree.unlabelled (.mk location form))).map
      LexicalName.name)) (Statement.execForm eng form s labels location) := by
  have hexpression {e : Expression} (he : P.Admits (Tree.placedExpression e))
      (f : Value → Completion) (Γ : Set Fact) : P.Executes Γ
      (Statement.attempt (eng.eval e s) location fun v ↦ return f v) :=
    hG.basics.executes_attempt_keeps (hG.eval he s) _ fun _ ↦ executes_pure _
  have hnone {m : Execution Completion} {Γ : Set Fact} (hm : P.Executes ∅ m) : P.Executes Γ m :=
    hm.of_subset (Set.empty_subset Γ)
  cases form with
  | empty => exact executes_pure _
  | debugger => exact executes_pure _
  | function f => exact executes_pure _
  | expression e => exact hexpression (e := e) hform _ _
  | block body => exact hnone (hG.executes_execBlock hform s)
  | «variable» kind ds => exact hG.executes_variable hform s location
  | conditional test yes no =>
      obtain ⟨htest, hbranches⟩ := admits_and.1 hform
      obtain ⟨hyes, hno⟩ := admits_and.1 hbranches
      exact hnone (hG.executes_execConditional htest hyes hno s location)
  | whileLoop test body =>
      obtain ⟨htest, hbody⟩ := admits_and.1 hform
      exact hnone ((hG.executes_whileTurns hbody htest s labels location _ _).bind fun _ ↦
        executes_pure _)
  | doWhile body test =>
      obtain ⟨hbody, htest⟩ := admits_and.1 hform
      exact hnone ((hG.executes_doTurns hbody htest s labels location _ _).bind fun _ ↦
        executes_pure _)
  | forLoop init test update body =>
      obtain ⟨hinit, hrest⟩ := admits_and.1 hform
      obtain ⟨htest, hrest⟩ := admits_and.1 hrest
      obtain ⟨hupdate, hbody⟩ := admits_and.1 hrest
      exact hnone ((hG.executes_execFor hbody hinit htest hupdate s labels location).bind fun _ ↦
        executes_pure _)
  | forIn target subject body =>
      obtain ⟨htarget, hrest⟩ := admits_and.1 hform
      obtain ⟨hsubject, hbody⟩ := admits_and.1 hrest
      exact hnone ((hG.executes_execForIn hbody htarget hsubject s labels location).bind fun _ ↦
        executes_pure _)
  | forOf target subject body =>
      obtain ⟨htarget, hrest⟩ := admits_and.1 hform
      obtain ⟨hsubject, hbody⟩ := admits_and.1 hrest
      exact hnone ((hG.executes_execForOf hbody htarget hsubject s labels location).bind fun _ ↦
        executes_pure _)
  | «return» value =>
      cases value with
      | none => exact executes_pure _
      | some e => exact hexpression (e := e) hform _ _
  | «break» label => exact executes_pure _
  | «continue» label => exact executes_pure _
  | throw value => exact hexpression (e := value) hform _ _
  | «try» block handler finalizer =>
      obtain ⟨hblock, hrest⟩ := admits_and.1 hform
      obtain ⟨hhandler, hfinalizer⟩ := admits_and.1 hrest
      exact hnone (hG.executes_execTry hblock hhandler hfinalizer s)
  | switch subject clauses =>
      obtain ⟨hsubject, hclauses⟩ := admits_and.1 hform
      exact hnone ((hG.executes_execSwitch hsubject hclauses s location).bind fun _ ↦
        executes_pure _)
  | labelled label body =>
      have hbody : P.Admits (Tree.placedStatement body) := hform
      exact (hG.exec hbody s _).bind fun _ ↦ executes_pure _
  | «with» object body =>
      obtain ⟨hobject, hbody⟩ := admits_and.1 hform
      exact hnone (hG.executes_execWith hobject hbody s location)
  | «class» name => exact hG.basics.executes_fault nofun nofun

theorem executes_exec {stmt : Statement} (hstmt : P.Admits (Tree.placedStatement stmt))
    (s : ScopeRef) (labels : List String) :
    P.Executes (Fact.all s ((Tree.formLexicalNames (Tree.unlabelled stmt)).map LexicalName.name))
      (Statement.exec eng stmt s labels) := by
  obtain ⟨location, form⟩ := stmt
  have hform : P.Admits (Tree.placedForm form) := hstmt
  refine (hG.basics.takeInterrupt.of_subset (Set.empty_subset _)).bind fun stop ↦ ?_
  split
  · exact hG.basics.executes_fault nofun nofun
  · exact hG.executes_execForm hform s labels location

/-! ## Scripts -/

theorem keeps_globalObject (s : ScopeRef) : P.Keeps (Script.globalObject s) := by
  refine (hG.basics.keeps_scope s).bind fun scope ↦ ?_
  split
  · exact keeps_pure _
  · exact hG.basics.fault _ nofun nofun

theorem keeps_declaresVar (s : ScopeRef) (name : String) : P.Keeps (Script.declaresVar s name) := by
  refine (hG.basics.keeps_scope s).bind fun scope ↦ ?_
  split
  · exact keeps_pure _
  · exact keeps_pure _

theorem keeps_declaresLexical (s : ScopeRef) (name : String) :
    P.Keeps (Script.declaresLexical s name) := by
  refine (hG.basics.keeps_scope s).bind fun scope ↦ ?_
  split
  · exact keeps_pure _
  · exact keeps_pure _

theorem keeps_clashes (d : Declarations) (s : ScopeRef) (o : ObjectRef) (name : String) :
    P.Keeps (Script.clashes eng d s o name) := by
  unfold Script.clashes
  split
  · exact keeps_pure _
  · refine (hG.keeps_declaresVar s name).bind fun _ ↦ keeps_ite (keeps_pure _) ?_
    refine (hG.keeps_declaresLexical s name).bind fun _ ↦ keeps_ite (keeps_pure _) ?_
    exact hG.keeps_isRestricted o name

theorem keeps_checkLexical (d : Declarations) (s : ScopeRef) (o : ObjectRef)
    (names : List LexicalName) : P.Keeps (Script.checkLexical eng d s o names) := by
  induction names with
  | nil => exact keeps_pure _
  | cons l rest ih =>
      refine (hG.keeps_clashes d s o l.name).bind fun clash ↦ ?_
      exact keeps_ite ((hG.basics.keeps_throwNew _).bind fun _ ↦ ih) ih

theorem keeps_checkNames (s : ScopeRef) (names : List String) :
    P.Keeps (Script.checkNames s names) := by
  induction names with
  | nil => exact keeps_pure _
  | cons name rest ih =>
      refine (hG.keeps_declaresLexical s name).bind fun declared ↦ ?_
      exact keeps_ite ((hG.basics.keeps_throwNew _).bind fun _ ↦ ih) ih

theorem keeps_checkFunctions (o : ObjectRef) (names : List String) :
    P.Keeps (Script.checkFunctions eng o names) := by
  induction names with
  | nil => exact keeps_pure _
  | cons name rest ih =>
      refine (hG.keeps_canDeclareFunction o name).bind fun can ↦ ?_
      exact keeps_ite ((hG.basics.keeps_throwNew _).bind fun _ ↦ ih) ih

theorem keeps_checkVars (o : ObjectRef) (names : List String) :
    P.Keeps (Script.checkVars o names) := by
  induction names with
  | nil => exact keeps_pure _
  | cons name rest ih =>
      have hcan : P.Keeps (Scope.canDeclareVar o name) :=
        (hG.basics.keeps_object o).bind fun _ ↦ keeps_pure _
      refine hcan.bind fun can ↦ ?_
      exact keeps_ite ((hG.basics.keeps_throwNew _).bind fun _ ↦ ih) ih

theorem keeps_check (d : Declarations) (s : ScopeRef) (o : ObjectRef) :
    P.Keeps (Script.check eng d s o) :=
  (hG.keeps_checkLexical d s o _).bind fun _ ↦ (hG.keeps_checkNames s _).bind fun _ ↦
    (hG.keeps_checkFunctions o _).bind fun _ ↦ hG.keeps_checkVars o _

theorem holds_createGlobalFunctions (s : ScopeRef) (o : ObjectRef) {fs : List FunctionNode}
    (hfs : ∀ f ∈ fs, P.Admits (Tree.placedFunction f)) :
    P.Holds {.holder s} (Script.createFunctions eng s o fs) fun _ ↦ ∅ := by
  induction fs with
  | nil => exact holds_pure_of_subset (Set.empty_subset _)
  | cons f rest ih =>
      have ih := ih fun f hf ↦ hfs f (List.mem_cons_of_mem _ hf)
      unfold Script.createFunctions
      split
      · exact ih
      · have hclosure := hG.creation.instantiate (hfs f List.mem_cons_self) s none
        refine hclosure.bind_holds fun closure ↦ ?_
        exact (hG.holds_createGlobalFunction s o _ closure _).bind fun _ ↦
          ih.of_subset Set.subset_union_left

theorem holds_createGlobalVars (s : ScopeRef) (o : ObjectRef) (names : List String) :
    P.Holds {.holder s} (Script.createVars eng s o names) fun _ ↦ ∅ := by
  induction names with
  | nil => exact holds_pure_of_subset (Set.empty_subset _)
  | cons name rest ih =>
      exact (hG.holds_createGlobalVar s o name _).bind fun _ ↦
        ih.of_subset Set.subset_union_left

theorem holds_declareScript {body : List Statement} (hbody : P.Admits (Tree.placedList body))
    (s : ScopeRef) : P.Holds {.holder s} (Script.declare eng (.analyze body) s) fun _ ↦
      Fact.all s ((Tree.lexicalNames body).map LexicalName.name) := by
  have hfunctions : ∀ f ∈ Tree.functions body, P.Admits (Tree.placedFunction f) :=
    fun f hf hP ↦ Tree.placedFunction_of_mem_list (hbody hP) hf
  refine (hG.keeps_globalObject s).bind_holds fun o ↦ ?_
  refine (hG.keeps_check _ s o).bind_holds fun _ ↦ (hG.holds_createLexical s _).bind fun _ ↦ ?_
  refine ((hG.holds_createGlobalFunctions s o hfunctions).of_subset
    Set.subset_union_left).bind fun _ ↦ ?_
  exact (hG.holds_createGlobalVars s o _).weaken
    (Set.subset_union_left.trans Set.subset_union_left) fun _ ↦
    (Set.subset_union_right.trans Set.subset_union_left).trans Set.subset_union_left

theorem executes_script {body : List Statement} (hbody : P.Admits (Tree.placedList body))
    (s : ScopeRef) : P.Executes {.holder s} (Script.exec eng body s) :=
  hG.basics.executes_attempt (hG.holds_declareScript hbody s) _ fun _ ↦
    (hG.executes_execAll s hbody).of_subset Set.subset_union_right

end Governs

/-! ## All levels -/

theorem Basics.serves_exhausted {P : Policy} (hP : P.Basics) : P.Serves Engine.exhausted where
  call _ _ _ := hP.keeps_outOfFuel
  get _ _ _ := hP.keeps_outOfFuel
  eval _ _ := hP.keeps_outOfFuel
  exec _ _ _ := hP.executes_outOfFuel

/-- Every level of the engine is as a lawful policy says. -/
theorem Lawful.governs_level {P : Policy} (hP : P.Lawful) (n : Nat) :
    P.Governs (Engine.level n) := by
  induction n with
  | zero => exact { hP, hP.basics.serves_exhausted with }
  | succ n ih =>
      have hserves : P.Serves (Engine.level (n + 1)) :=
        ⟨ih.keeps_call, ih.keeps_get, ih.keeps_eval, ih.executes_exec⟩
      exact { hP, hserves with }

end Policy

end Ecma
