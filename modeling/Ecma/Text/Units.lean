/-!
# Text in UTF-16 code units

A text is any sequence of 16-bit units.  Reading it as characters joins
surrogate pairs and puts U+FFFD for a surrogate that stands alone.
-/

namespace Ecma

structure Text where
  units : List UInt16
  deriving DecidableEq, Inhabited, Hashable

namespace Text

def empty : Text := ⟨[]⟩

def length (t : Text) : Nat := t.units.length

def isEmpty (t : Text) : Bool := t.units.isEmpty

def append (s t : Text) : Text := ⟨s.units ++ t.units⟩

instance : Append Text := ⟨append⟩

@[simp] theorem units_append (s t : Text) : (s ++ t).units = s.units ++ t.units := rfl

@[simp] theorem length_append (s t : Text) : (s ++ t).length = s.length + t.length :=
  List.length_append

/-! ## Characters -/

/-- The units of a character: one, or a pair beyond U+FFFF. -/
def encodeChar (c : Char) : List UInt16 :=
  if c.toNat < 0x10000 then [UInt16.ofNat c.toNat]
  else
    let v := c.toNat - 0x10000
    [UInt16.ofNat (0xd800 + v / 0x400), UInt16.ofNat (0xdc00 + v % 0x400)]

def ofString (s : String) : Text := ⟨s.toList.flatMap encodeChar⟩

def isHighSurrogate (u : UInt16) : Bool := decide (0xd800 ≤ u.toNat ∧ u.toNat < 0xdc00)

def isLowSurrogate (u : UInt16) : Bool := decide (0xdc00 ≤ u.toNat ∧ u.toNat < 0xe000)

/-- What stands for a surrogate without a partner. -/
def replacement : Char := '\ufffd'

def joinPair (high low : UInt16) : Char :=
  Char.ofNat (0x10000 + (high.toNat - 0xd800) * 0x400 + (low.toNat - 0xdc00))

/-- The character of a unit that is not part of a pair. -/
def charOfUnit (u : UInt16) : Char :=
  if isHighSurrogate u || isLowSurrogate u then replacement else Char.ofNat u.toNat

def decodeUnits : List UInt16 → List Char
  | [] => []
  | [u] => [charOfUnit u]
  | u :: v :: rest =>
    if isHighSurrogate u && isLowSurrogate v then joinPair u v :: decodeUnits rest
    else charOfUnit u :: decodeUnits (v :: rest)

def chars (t : Text) : List Char := decodeUnits t.units

protected def toString (t : Text) : String := String.ofList t.chars

instance : ToString Text := ⟨Text.toString⟩

/-- Whether every surrogate has its partner. -/
def isWellFormed (t : Text) : Bool := (t.chars.flatMap encodeChar) == t.units

/-! ## Order -/

/-- The lexicographic order of the units. -/
def lessUnits : List UInt16 → List UInt16 → Bool
  | _, [] => false
  | [], _ :: _ => true
  | u :: us, v :: vs => if u < v then true else if v < u then false else lessUnits us vs

def lessThan (s t : Text) : Bool := lessUnits s.units t.units

end Text

end Ecma
