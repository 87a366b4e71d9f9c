import Ecma.Value.Key

/-!
# Lazy cells

A lazy property refers to a cell, which is resolved on the first read and keeps
its value.  Properties may share a cell.
-/

namespace Ecma

/-- What a resolver does before it yields its value.  A read goes through an
interpreter of its own over the same heap, and what it gave is logged. -/
inductive ResolverStep where
  | log (line : String)
  | read (o : ObjectRef) (k : PropertyKey)

/-- A resolver, given by the run that it makes: it has one only, so the steps and the value
that it would have had after other replies never show (`Lazy.resolveTree_eq_resolve`). -/
structure Resolver where
  steps : List ResolverStep
  value : Value

namespace Resolver

/-- Yields a value and does nothing else. -/
def constant (v : Value) : Resolver := ⟨[], v⟩

/-- Writes a line to the log and yields a value. -/
def logging (line : String) (v : Value) : Resolver := ⟨[.log line], v⟩

end Resolver

inductive LazyCell where
  | unresolved (r : Resolver)
  | resolving
  | resolved (v : Value)

namespace LazyCell

instance : Inhabited LazyCell := ⟨.resolving⟩

def isResolved : LazyCell → Bool
  | .resolved _ => true
  | .unresolved _ | .resolving => false

end LazyCell

end Ecma
