import Ecma.Tree.Declarations

/-!
# Where lexical declarations stand

A tree is placed when `let`, `const` and class declarations stand only directly
in a list of statements, labels aside, or in the head of a loop.  The branches
of a conditional and the bodies of loops and of `with` are no lists, so a
declaration there has no scope of its own.
-/

namespace Ecma

namespace Tree

mutual

def placedFunction : FunctionNode → Bool
  | .mk _ _ body _ => placedList body

def placedExpression : Expression → Bool
  | .null | .boolean _ | .number _ | .string _ | .identifier _ | .this | .super => true
  | .object members => placedMembers members
  | .function f => placedFunction f
  | .unary _ operand | .typeof operand | .void operand | .delete operand =>
    placedExpression operand
  | .binary _ left right | .logical _ left right =>
    placedExpression left && placedExpression right
  | .update _ _ target => placedExpression target
  | .assign _ target value => placedExpression target && placedExpression value
  | .conditional test yes no =>
    placedExpression test && (placedExpression yes && placedExpression no)
  | .call callee args | .construct callee args => placedExpression callee && placedExpressions args
  | .dot object _ => placedExpression object
  | .index object key => placedExpression object && placedExpression key
  | .sequence items => placedExpressions items

def placedExpressions : List Expression → Bool
  | [] => true
  | e :: rest => placedExpression e && placedExpressions rest

def placedOption : Option Expression → Bool
  | none => true
  | some e => placedExpression e

def placedKey : MemberKey → Bool
  | .identifier _ | .string _ | .number _ => true
  | .computed e => placedExpression e

def placedMember : Member → Bool
  | .mk _ key value => placedKey key && placedExpression value

def placedMembers : List Member → Bool
  | [] => true
  | m :: rest => placedMember m && placedMembers rest

def placedDeclarator : Declarator → Bool
  | .mk _ init => placedOption init

def placedDeclarators : List Declarator → Bool
  | [] => true
  | d :: rest => placedDeclarator d && placedDeclarators rest

def placedInit : ForInit → Bool
  | .none => true
  | .declare _ ds => placedDeclarators ds
  | .expression e => placedExpression e

def placedTarget : LoopTarget → Bool
  | .declare _ _ => true
  | .assign target => placedExpression target

def placedClause : SwitchClause → Bool
  | .mk test body => placedOption test && placedList body

def placedClauses : List SwitchClause → Bool
  | [] => true
  | clause :: rest => placedClause clause && placedClauses rest

def placedHandler : Option CatchClause → Bool
  | none => true
  | some (.mk _ body) => placedList body

/-- A statement that stands in a list. -/
def placedStatement : Statement → Bool
  | .mk _ form => placedForm form

/-- A statement that stands alone, as the body of a loop does: it declares
nothing itself. -/
def placedAlone : Statement → Bool
  | .mk l form => (formLexicalNames (unlabelled (.mk l form))).isEmpty && placedForm form

def placedForm : StatementForm → Bool
  | .empty | .debugger | .break _ | .continue _ | .class _ => true
  | .expression e | .throw e => placedExpression e
  | .block body => placedList body
  | .variable _ ds => placedDeclarators ds
  | .conditional test yes no => placedExpression test && (placedAlone yes && placedElse no)
  | .whileLoop test body => placedExpression test && placedAlone body
  | .doWhile body test => placedAlone body && placedExpression test
  | .forLoop init test update body =>
    placedInit init && (placedOption test && (placedOption update && placedAlone body))
  | .forIn target subject body | .forOf target subject body =>
    placedTarget target && (placedExpression subject && placedAlone body)
  | .return value => placedOption value
  | .try block handler finalizer =>
    placedList block && (placedHandler handler && placedFinalizer finalizer)
  | .switch subject clauses => placedExpression subject && placedClauses clauses
  | .labelled _ body => placedStatement body
  | .with object body => placedExpression object && placedAlone body
  | .function f => placedFunction f

def placedElse : Option Statement → Bool
  | none => true
  | some no => placedAlone no

def placedFinalizer : Option (List Statement) → Bool
  | none => true
  | some body => placedList body

def placedList : List Statement → Bool
  | [] => true
  | stmt :: rest => placedStatement stmt && placedList rest

end

theorem placedClauses_of_suffix {clauses selected : List SwitchClause} (h : selected <:+ clauses)
    (hclauses : placedClauses clauses = true) : placedClauses selected = true := by
  induction clauses with
  | nil => rw [List.suffix_nil.1 h, placedClauses]
  | cons clause rest ih =>
      rcases List.suffix_cons_iff.1 h with rfl | h
      · exact hclauses
      · exact ih h (Bool.and_eq_true_iff.1 hclauses).2

/-! ## Functions of a list -/

theorem placedFunction_of_formFunction? {f : FunctionNode} :
    ∀ stmt : Statement, placedStatement stmt = true → formFunction? (unlabelled stmt) = some f →
      placedFunction f = true
  | .mk _ (.labelled _ body), hstmt, hf => placedFunction_of_formFunction? body hstmt hf
  | .mk _ (.function _), hstmt, hf => Option.some.inj hf ▸ hstmt

theorem mem_of_mem_keepLast {f : FunctionNode} {fs : List FunctionNode} (hf : f ∈ keepLast fs) :
    f ∈ fs := by
  induction fs with
  | nil => exact hf
  | cons g rest ih =>
      unfold keepLast at hf
      split at hf
      · exact List.mem_cons_of_mem _ (ih hf)
      · rcases List.mem_cons.1 hf with rfl | hf
        · exact List.mem_cons_self
        · exact List.mem_cons_of_mem _ (ih hf)

theorem placedStatement_of_mem {stmt : Statement} {body : List Statement}
    (hbody : placedList body = true) (hstmt : stmt ∈ body) : placedStatement stmt = true := by
  induction body with
  | nil => cases hstmt
  | cons first rest ih =>
      obtain ⟨hfirst, hrest⟩ := Bool.and_eq_true_iff.1 hbody
      rcases List.mem_cons.1 hstmt with rfl | hstmt
      · exact hfirst
      · exact ih hrest hstmt

theorem placedFunction_of_mem_list {f : FunctionNode} {body : List Statement}
    (hbody : placedList body = true) (hf : f ∈ functions body) : placedFunction f = true := by
  obtain ⟨stmt, hstmt, hform⟩ := List.mem_filterMap.1 (mem_of_mem_keepLast hf)
  exact placedFunction_of_formFunction? stmt (placedStatement_of_mem hbody hstmt) hform

/-- The functions inside a placed function are placed. -/
theorem placedFunction_of_mem_functions {f g : FunctionNode} (hf : placedFunction f = true)
    (hg : g ∈ functions f.body) : placedFunction g = true := by
  obtain ⟨name, params, body, isArrow⟩ := f
  exact placedFunction_of_mem_list hf hg

end Tree

end Ecma
