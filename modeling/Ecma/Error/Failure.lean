import Ecma.Error.Cause
import Ecma.Tree.Basic
import Ecma.Value.Basic

/-!
# How an operation fails

A thrown value can be caught; an uncaught one has left a script and knows where
it was thrown; a fault ends the run.
-/

namespace Ecma

inductive Failure where
  | thrown (v : Value)
  | uncaught (v : Value) (location : Location)
  | fault (f : Fault)
  deriving Inhabited

namespace Failure

def value? : Failure → Option Value
  | .thrown v | .uncaught v _ => some v
  | .fault _ => none

def isCatchable : Failure → Bool
  | .thrown _ => true
  | .uncaught _ _ | .fault _ => false

end Failure

end Ecma
