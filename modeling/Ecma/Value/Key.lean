import Ecma.Value.Basic

/-!
# Property keys

A key is a text or a symbol.  Texts that are the decimal form of an integer
below `2 ^ 32 - 1` are array indices and come first, in numeric order, when
the keys of an object are listed.
-/

namespace Ecma

inductive PropertyKey where
  | string (t : Text)
  | symbol (s : Symbol)
  deriving Inhabited

namespace PropertyKey

def ofString (s : String) : PropertyKey := .string (Text.ofString s)

def wellKnown (w : WellKnown) : PropertyKey := .symbol w.symbol

/-- The key of an array index. -/
def index (i : Nat) : PropertyKey := .string (Text.ofString (toString i))

def toValue : PropertyKey → Value
  | .string t => .string t
  | .symbol s => .symbol s

def text? : PropertyKey → Option Text
  | .string t => some t
  | .symbol _ => none

/-- The key as messages show it. -/
def display : PropertyKey → String
  | .string t => toString t
  | .symbol s => "[" ++ s.toText ++ "]"

/-- The name a function takes from the key it is stored under. -/
def functionName : PropertyKey → String
  | .string t => toString t
  | .symbol s =>
    match s.description with
    | some d => "[" ++ toString d ++ "]"
    | none => ""

end PropertyKey

namespace Text

def digitOfUnit? (u : UInt16) : Option Nat :=
  if 0x30 ≤ u.toNat ∧ u.toNat ≤ 0x39 then some (u.toNat - 0x30) else none

/-- The number that a list of decimal digits continues `n` to. -/
def readDigits? (n : Nat) : List UInt16 → Option Nat
  | [] => some n
  | u :: us =>
    match digitOfUnit? u with
    | some d => readDigits? (n * 10 + d) us
    | none => none

/-- One more than the largest array index: `2 ^ 32 - 1`. -/
def indexLimit : Nat := 4294967295

/-- The index a text is the decimal form of. -/
def arrayIndex? (t : Text) : Option Nat :=
  if t.isEmpty || decide (10 < t.length) || (decide (1 < t.length) && t.units.head? == some 0x30)
  then none
  else (readDigits? 0 t.units).filter (· < indexLimit)

end Text

end Ecma
