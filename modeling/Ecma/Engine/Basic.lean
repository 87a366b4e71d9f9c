import Ecma.State.Action
import Ecma.Statement.Completion

/-!
# Engines

Calling, reading, evaluating and executing need one another.  Each of them is
defined over an engine, which supplies all four; the engine that runs `n + 1`
levels deep is made from the one that runs `n` levels deep.
-/

namespace Ecma

structure Engine where
  /-- How many more turns a loop may take. -/
  fuel : Nat
  /-- Calls a value with a `this` and arguments. -/
  call : Value → Value → List Value → Action Value
  /-- Reads a property of an object or its prototypes for a receiver. -/
  get : ObjectRef → PropertyKey → Value → Action Value
  eval : Expression → ScopeRef → Action Value
  /-- Executes a statement that stands under the given labels. -/
  exec : Statement → ScopeRef → List String → Execution Completion

namespace Engine

/-- The engine that can do nothing more. -/
def exhausted : Engine where
  fuel := 0
  call _ _ _ := Action.fault .outOfFuel
  get _ _ _ := Action.fault .outOfFuel
  eval _ _ := Action.fault .outOfFuel
  exec _ _ _ := throw .outOfFuel

end Engine

end Ecma
