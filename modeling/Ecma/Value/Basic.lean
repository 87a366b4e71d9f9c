import Ecma.Number.Integer
import Ecma.Text.Units

/-!
# Values

Primitive values and references to objects.  Objects, scopes and lazy cells
live in the heap and are named by references.
-/

namespace Ecma

/-! ## References into the heap -/

structure ObjectRef where
  index : Nat
  deriving DecidableEq, Inhabited, Hashable

structure ScopeRef where
  index : Nat
  deriving DecidableEq, Inhabited

structure CellRef where
  index : Nat
  deriving DecidableEq, Inhabited

/-! ## Symbols -/

/-- A symbol is known by its number; the description is only shown. -/
structure Symbol where
  id : Nat
  description : Option Text
  deriving Inhabited

namespace Symbol

instance : BEq Symbol := ⟨fun a b ↦ a.id == b.id⟩

instance : Hashable Symbol := ⟨fun a ↦ hash a.id⟩

theorem beq_iff {a b : Symbol} : (a == b) = true ↔ a.id = b.id := by
  simp [BEq.beq]

instance : EquivBEq Symbol where
  symm h := beq_iff.2 (beq_iff.1 h).symm
  trans h h' := beq_iff.2 ((beq_iff.1 h).trans (beq_iff.1 h'))
  rfl := beq_iff.2 rfl

instance : LawfulHashable Symbol where
  hash_eq a b h := show hash a.id = hash b.id by rw [beq_iff.1 h]

def toText (s : Symbol) : String :=
  match s.description with
  | some d => "Symbol(" ++ toString d ++ ")"
  | none => "Symbol()"

end Symbol

/-- The symbols that the language itself looks for. -/
inductive WellKnown where
  | asyncIterator
  | hasInstance
  | isConcatSpreadable
  | iterator
  | match
  | matchAll
  | replace
  | search
  | species
  | split
  | toPrimitive
  | toStringTag
  | unscopables
  deriving DecidableEq, Inhabited

namespace WellKnown

def all : List WellKnown :=
  [.asyncIterator, .hasInstance, .isConcatSpreadable, .iterator, .match, .matchAll, .replace,
    .search, .species, .split, .toPrimitive, .toStringTag, .unscopables]

def name : WellKnown → String
  | .asyncIterator => "asyncIterator"
  | .hasInstance => "hasInstance"
  | .isConcatSpreadable => "isConcatSpreadable"
  | .iterator => "iterator"
  | .match => "match"
  | .matchAll => "matchAll"
  | .replace => "replace"
  | .search => "search"
  | .species => "species"
  | .split => "split"
  | .toPrimitive => "toPrimitive"
  | .toStringTag => "toStringTag"
  | .unscopables => "unscopables"

/-- Well-known symbols have the first numbers, from `1`, in the order of `all`. -/
def symbol (w : WellKnown) : Symbol :=
  ⟨w.ctorIdx + 1, some (Text.ofString ("Symbol." ++ w.name))⟩

end WellKnown

/-- The number of the first symbol that a script creates. -/
def Symbol.firstFresh : Nat := WellKnown.all.length + 1

/-! ## Values -/

inductive Value where
  | undefined
  | null
  | boolean (b : Bool)
  | number (n : Numeric)
  | string (t : Text)
  | symbol (s : Symbol)
  | object (o : ObjectRef)
  deriving Inhabited

namespace Value

def ofBinary64 (x : Binary64) : Value := .number (.ofBinary64 x)

def ofInt32 (i : Int32) : Value := .number (.ofInt32 i)

def ofNat (n : Nat) : Value := ofBinary64 (.ofNat n)

def ofString (s : String) : Value := .string (Text.ofString s)

def isUndefined : Value → Bool
  | .undefined => true
  | _ => false

def isNull : Value → Bool
  | .null => true
  | _ => false

def isNullish : Value → Bool
  | .undefined | .null => true
  | _ => false

def isBoolean : Value → Bool
  | .boolean _ => true
  | _ => false

def isNumber : Value → Bool
  | .number _ => true
  | _ => false

def isInteger : Value → Bool
  | .number n => n.isInteger
  | _ => false

def isString : Value → Bool
  | .string _ => true
  | _ => false

def isSymbol : Value → Bool
  | .symbol _ => true
  | _ => false

def isObject : Value → Bool
  | .object _ => true
  | _ => false

def isPrimitive (v : Value) : Bool := !v.isObject

def isNaN : Value → Bool
  | .number n => n.value.isNaN
  | _ => false

def isNegativeZero : Value → Bool
  | .number n => n.value.isNegativeZero
  | _ => false

def object? : Value → Option ObjectRef
  | .object o => some o
  | _ => none

/-- The bits of a value's type; an integer has the bit of numbers as well. -/
def typeBits : Value → Nat
  | .undefined => 1
  | .null => 2
  | .boolean _ => 4
  | .string _ => 8
  | .number n => if n.isInteger then 48 else 16
  | .symbol _ => 64
  | .object _ => 128

/-- The truth of a value: nothing, zero, NaN and the empty text are false. -/
def toBoolean : Value → Bool
  | .undefined | .null => false
  | .boolean b => b
  | .number n => !(n.value.isZero || n.value.isNaN)
  | .string t => !t.isEmpty
  | .symbol _ | .object _ => true

/-! ## Equality -/

/-- Equality without conversion; a NaN equals nothing. -/
def strictEqual : Value → Value → Bool
  | .undefined, .undefined => true
  | .null, .null => true
  | .boolean a, .boolean b => a == b
  | .number a, .number b => a.value.equal b.value
  | .string a, .string b => a == b
  | .symbol a, .symbol b => a == b
  | .object a, .object b => a == b
  | _, _ => false

/-- Like `strictEqual`, but NaN is the same as NaN and the zeros differ. -/
def sameValue : Value → Value → Bool
  | .number a, .number b => a.value.sameValue b.value
  | x, y => strictEqual x y

/-- Like `sameValue`, but the zeros are the same. -/
def sameValueZero : Value → Value → Bool
  | .number a, .number b => a.value.sameValueZero b.value
  | x, y => strictEqual x y

end Value

/-! ## Hints -/

/-- What an object is asked to become. -/
inductive Hint where
  | default
  | string
  | number
  deriving DecidableEq, Inhabited

namespace Hint

def name : Hint → String
  | .default => "default"
  | .string => "string"
  | .number => "number"

/-- The methods tried, in order. -/
def methods : Hint → List String
  | .string => ["toString", "valueOf"]
  | .default | .number => ["valueOf", "toString"]

end Hint

end Ecma
