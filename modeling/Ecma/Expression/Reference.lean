import Ecma.Conversion.Comparison
import Ecma.Scope.Access

/-!
# References

What a name or a property access stands for before it is read or written.
-/

namespace Ecma

inductive Reference where
  | binding (scope : ScopeRef) (name : String) (strict : Bool)
  | property (base : Value) (key : PropertyKey) (strict : Bool)
  | unresolvable (name : String) (strict : Bool)

namespace Reference

/-- The first of the scopes that has the variable. -/
def resolveIn (eng : Engine) (name : String) (strict : Bool) : List ScopeRef → Action Reference
  | [] => return .unresolvable name strict
  | s :: rest => do
    if ← Scope.has eng s name then return .binding s name strict
    else resolveIn eng name strict rest

/-- Looks a variable up, from a scope outwards. -/
def resolve (eng : Engine) (name : String) (s : ScopeRef) : Action Reference := do
  let h ← Action.heap
  resolveIn eng name (h.scope s).isStrict (h.scopeChain s)

/-- The value of `this`, from the nearest scope that has one. -/
def resolveThis (s : ScopeRef) : Action Value := do
  let h ← Action.heap
  let found := (h.scopeChain s).find? fun s ↦ (h.scope s).record.hasThis
  return (found.bind fun s ↦ (h.scope s).record.this?).getD .undefined

def read (eng : Engine) : Reference → Action Value
  | .binding s name strict => Scope.get eng s name strict
  | .property base key _ => do
    if base.isNullish then
      Action.throwNew (.readNullish (← Action.display base) key.display)
    else Conversion.getOf eng base key
  | .unresolvable name _ => Action.throwNew (.notDefined name)

def write (eng : Engine) (v : Value) : Reference → Action Unit
  | .binding s name strict => Scope.set eng s name v strict
  | .property base key strict => do
    if base.isNullish then
      Action.throwNew (.writeNullish (← Action.display base) key.display)
    else
      let o ← Conversion.toObject base
      if !(← Object.set eng o key v base) && strict then
        Action.throwNew (.readOnlyProperty key.display)
  | .unresolvable name strict => do
    if strict then Action.throwNew (.notDefined name)
    else
      let global := (← Action.realm).globalObject
      discard (Object.set eng global (.ofString name) v (.object global))

/-- The `this` of a call through the reference. -/
def thisValue : Reference → Action Value
  | .property base _ _ => return base
  | .binding s _ _ => do
    return ((← Action.scope s).record.withObject?.map Value.object).getD .undefined
  | .unresolvable _ _ => return .undefined

end Reference

end Ecma
