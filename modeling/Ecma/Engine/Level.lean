import Ecma.Statement.Script

/-!
# The engine

`level n` runs at most `n` levels deep.  What it finishes within its fuel does
not depend on the fuel.
-/

namespace Ecma

namespace Engine

def level : Nat → Engine
  | 0 => exhausted
  | n + 1 =>
    { fuel := n + 1
      call := fun f this args ↦ Function.call (level n) f this args
      get := fun o k receiver ↦ Object.get (level n) o k receiver
      eval := fun e s ↦ Expression.eval (level n) e s
      exec := fun stmt s labels ↦ Statement.exec (level n) stmt s labels }

@[simp] theorem level_zero : level 0 = exhausted := rfl

@[simp] theorem fuel_level (n : Nat) : (level n).fuel = n := by
  cases n <;> rfl

theorem get_level_succ (n : Nat) : (level (n + 1)).get = Object.get (level n) := rfl

/-- More fuel than any run that ends uses. -/
def ample : Nat := Nat.pow 2 60

/-- The engine to run with. -/
def standard : Engine := level ample

end Engine

end Ecma
