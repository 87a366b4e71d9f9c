import Ecma.Tree.Basic
import Ecma.Value.Basic

/-!
# Completions

How a statement ends: normally, possibly with a value, or abruptly, with the
place where that happened.
-/

namespace Ecma

inductive Completion where
  | normal (v : Option Value)
  | return (v : Value) (location : Location)
  | throw (v : Value) (location : Location)
  | break (label : Option String) (v : Option Value) (location : Location)
  | continue (label : Option String) (v : Option Value) (location : Location)
  deriving Inhabited

namespace Completion

def name : Completion → String
  | .normal _ => "normal"
  | .return _ _ => "return"
  | .throw _ _ => "throw"
  | .break _ _ _ => "break"
  | .continue _ _ _ => "continue"

/-- Normal, without a value. -/
def empty : Completion := .normal none

def isAbrupt : Completion → Bool
  | .normal _ => false
  | _ => true

def value? : Completion → Option Value
  | .normal v | .break _ v _ | .continue _ v _ => v
  | .return v _ | .throw v _ => some v

def location? : Completion → Option Location
  | .normal _ => none
  | .return _ l | .throw _ l | .break _ _ l | .continue _ _ l => some l

def label? : Completion → Option String
  | .break label _ _ | .continue label _ _ => label
  | _ => none

/-- Gives a completion that may have a value, and has none, the value `v`. -/
def updateEmpty (c : Completion) (v : Option Value) : Completion :=
  match c with
  | .normal none => .normal v
  | .break label none l => .break label v l
  | .continue label none l => .continue label v l
  | c => c

@[simp] theorem isAbrupt_updateEmpty (c : Completion) (v : Option Value) :
    (c.updateEmpty v).isAbrupt = c.isAbrupt := by
  unfold updateEmpty
  split <;> rfl

@[simp] theorem label?_updateEmpty (c : Completion) (v : Option Value) :
    (c.updateEmpty v).label? = c.label? := by
  unfold updateEmpty
  split <;> rfl

@[simp] theorem location?_updateEmpty (c : Completion) (v : Option Value) :
    (c.updateEmpty v).location? = c.location? := by
  unfold updateEmpty
  split <;> rfl

@[simp] theorem value?_updateEmpty (c : Completion) (v : Option Value) :
    (c.updateEmpty v).value? = c.value?.or v := by
  rcases c with (_ | _) | _ | _ | ⟨_, _ | _, _⟩ | ⟨_, _ | _, _⟩ <;> rfl

/-- Whether a loop with these labels goes on after its body completed so. -/
def continuesLoop (c : Completion) (labels : List String) : Bool :=
  match c with
  | .normal _ | .continue none _ _ => true
  | .continue (some label) _ _ => labels.contains label
  | _ => false

/-- An unlabelled break ends the innermost loop or switch normally. -/
def exitBreakable : Completion → Completion
  | .break none v _ => .normal (some (v.getD .undefined))
  | c => c

end Completion

end Ecma
