import Ecma.Object.Own

/-!
# Enumerating keys for loops

The text keys of an object and its prototypes, each once.  The keys of an
object are listed when it is reached; a key removed before its turn is skipped,
and a key seen on one object hides the same key further up, enumerable or not.
-/

namespace Ecma

/-- Where an enumeration stands: the object it is at, the keys still to be
looked at there (`none` before they are listed), and the keys seen so far. -/
structure ForIn where
  object : Option ObjectRef
  remaining : Option (List Text)
  visited : List Text
  deriving Inhabited

namespace ForIn

def start (o : ObjectRef) : ForIn := ⟨some o, none, []⟩

/-- What looking through the keys of one object gives: a key with the keys left
and seen, or only the keys seen. -/
inductive Found where
  | key (t : Text) (remaining visited : List Text)
  | exhausted (visited : List Text)

def search (eng : Engine) (o : ObjectRef) (visited : List Text) : List Text → Action Found
  | [] => return .exhausted visited
  | t :: rest =>
    if visited.contains t then search eng o visited rest
    else do
      match ← Object.getOwn eng o (.string t) with
      | some d =>
        if d.isEnumerable then return .key t rest (t :: visited)
        else search eng o (t :: visited) rest
      | none => search eng o visited rest

/-- The next key and the place after it, at most `n` objects on. -/
def nextFrom (eng : Engine) : Nat → ForIn → Action (Option Text × ForIn)
  | 0, _ => Action.fault .outOfFuel
  | n + 1, it =>
    match it.object with
    | none => return (none, it)
    | some o => do
      let remaining ← match it.remaining with
        | some keys => pure keys
        | none => pure (← Action.object o).ownTexts
      match ← search eng o it.visited remaining with
      | .key t remaining visited => return (some t, ⟨some o, some remaining, visited⟩)
      | .exhausted visited =>
        nextFrom eng n ⟨(← Action.object o).prototype, none, visited⟩

def next (eng : Engine) (it : ForIn) : Action (Option Text × ForIn) := nextFrom eng eng.fuel it

end ForIn

end Ecma
