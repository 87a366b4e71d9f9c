import Ecma.Number.Rounding
import Ecma.Number.Sticky
import Ecma.Text.Blank

/-!
# Reading numbers from text

A text denotes a number when, blanks at its ends aside, it is empty, an
infinity, an unsigned integer with a radix mark, or a signed decimal with an
optional fraction and exponent.  Any other text denotes NaN.  A decimal is
rounded correctly; an integer with a radix mark is rounded from its leading
bits and a sticky bit.
-/

namespace Ecma

namespace Binary64

/-! ## Digits -/

/-- The value of a digit, letters of either case included. -/
def digitValue? (radix : Nat) (c : Char) : Option Nat :=
  let v? :=
    if '0' ≤ c ∧ c ≤ '9' then some (c.toNat - '0'.toNat)
    else if 'a' ≤ c ∧ c ≤ 'z' then some (c.toNat - 'a'.toNat + 10)
    else if 'A' ≤ c ∧ c ≤ 'Z' then some (c.toNat - 'A'.toNat + 10)
    else none
  v?.filter (· < radix)

def isDigit (radix : Nat) (c : Char) : Bool := (digitValue? radix c).isSome

/-- The integer with the digits `ds` to a base, lowest first. -/
def horner (base : Nat) (ds : List Nat) : Nat := ds.foldr (fun d n ↦ d + base * n) 0

/-- Joins neighbouring digits to digits of the squared base. -/
def pairDigits (base : Nat) : List Nat → List Nat
  | d :: d' :: rest => (d + base * d') :: pairDigits base rest
  | ds => ds

/-- The integer of `horner`, by at most `n` rounds of joining neighbours: long
numbers are multiplied only by numbers of their own length. -/
def joinDigits : Nat → Nat → List Nat → Nat
  | 0, base, ds => horner base ds
  | _ + 1, _, [] => 0
  | _ + 1, _, [d] => d
  | n + 1, base, ds => joinDigits n (base * base) (pairDigits base ds)

/-- The integer written by digits, most significant first. -/
def digitsValue (radix : Nat) (cs : List Char) : Nat :=
  joinDigits cs.length radix (cs.reverse.map fun c ↦ (digitValue? radix c).getD 0)

theorem horner_pairDigits (base : Nat) (ds : List Nat) :
    horner (base * base) (pairDigits base ds) = horner base ds := by
  fun_induction pairDigits base ds with
  | case1 d d' rest ih =>
    simp only [horner, List.foldr_cons] at ih ⊢
    rw [ih, Nat.mul_add, Nat.mul_assoc, Nat.add_assoc]
  | case2 ds h =>
    match ds with
    | [] => rfl
    | [d] => simp [horner]
    | d :: d' :: rest => exact absurd rfl (h d d' rest)

theorem joinDigits_eq_horner (n base : Nat) (ds : List Nat) :
    joinDigits n base ds = horner base ds := by
  induction n generalizing base ds with
  | zero => rfl
  | succ n ih =>
    match ds with
    | [] => rfl
    | [d] => simp [joinDigits, horner]
    | d :: d' :: rest => rw [joinDigits, ih, horner_pairDigits] <;> simp

theorem digitsValue_eq_foldl (radix : Nat) (cs : List Char) :
    digitsValue radix cs =
      cs.foldl (fun n c ↦ (digitValue? radix c).getD 0 + radix * n) 0 := by
  rw [digitsValue, joinDigits_eq_horner, horner, List.foldr_map, List.foldr_reverse]

/-- The digits at the front, and the rest. -/
def spanDigits (cs : List Char) : List Char × List Char :=
  cs.span (isDigit 10)

/-! ## Decimal literals -/

/-- The parts of `±whole.fraction e ±exponent`. -/
structure DecimalLiteral where
  negative : Bool
  whole : List Char
  fraction : List Char
  exponent : Int
  deriving DecidableEq

/-- An optional sign, whether it is a minus, and the rest. -/
def readSign : List Char → Bool × List Char
  | '+' :: cs => (false, cs)
  | '-' :: cs => (true, cs)
  | cs => (false, cs)

/-- The fraction after a point, if there is one. -/
def readFraction : List Char → List Char × List Char
  | '.' :: cs => spanDigits cs
  | cs => ([], cs)

/-- Where the digits of an exponent stop counting, far outside the range of the
doubles. -/
def exponentLimit : Nat := 65536

/-- The integer written by the digits of an exponent; once it has reached the
limit, further digits do not change it. -/
def exponentValue (cs : List Char) : Nat :=
  cs.foldl (fun n c ↦ if n < exponentLimit then n * 10 + (digitValue? 10 c).getD 0 else n) 0

/-- The exponent, which must take all that is left. -/
def readExponent? : List Char → Option Int
  | [] => some 0
  | c :: cs =>
    if c = 'e' ∨ c = 'E' then
      let (negative, rest) := readSign cs
      if rest.isEmpty || !rest.all (isDigit 10) then none
      else
        let n : Int := exponentValue rest
        some (if negative then -n else n)
    else none

def DecimalLiteral.read? (cs : List Char) : Option DecimalLiteral :=
  let (negative, cs) := readSign cs
  let (whole, cs) := spanDigits cs
  let (fraction, cs) := readFraction cs
  if whole.isEmpty && fraction.isEmpty then none
  else (readExponent? cs).map fun e ↦ ⟨negative, whole, fraction, e⟩

/-- The double nearest to `n · 10 ^ e`.  Beyond the range of the doubles the
power is not computed: with `digits` digits, `n · 10 ^ e` is below
`10 ^ (digits + e)` and, unless it is zero, at least `10 ^ e`. -/
def ofDecimal (negative : Bool) (n digits : Nat) (e : Int) : Binary64 :=
  if n = 0 ∨ digits + e < -330 then withSign negative 0
  else if 310 < e then withSign negative infinityWord
  else ofUnits negative (n * Nat.pow 10 e.toNat * unitsPerOne) (Nat.pow 10 (-e).toNat)

def DecimalLiteral.value (d : DecimalLiteral) : Binary64 :=
  let digits := d.whole ++ d.fraction
  ofDecimal d.negative (digitsValue 10 digits) digits.length (d.exponent - d.fraction.length)

/-! ## Numeric texts -/

/-- The radix named after a leading zero. -/
def radixOf? (c : Char) : Option Nat :=
  if c = 'x' ∨ c = 'X' then some 16
  else if c = 'o' ∨ c = 'O' then some 8
  else if c = 'b' ∨ c = 'B' then some 2
  else none

/-- How digits become a double.  Of a decimal the reader is given the whole text,
of an integer with a radix mark its value. -/
structure Reader where
  decimal : List Char → Option Binary64
  integer : Nat → Binary64

namespace Reader

variable (r : Reader)

def ofRadixDigits (radix : Nat) (cs : List Char) : Binary64 :=
  if cs.isEmpty || !cs.all (isDigit radix) then nan else r.integer (digitsValue radix cs)

/-- A decimal is scanned before it is read: a reader may take other texts too. -/
def ofDecimalChars (cs : List Char) : Binary64 :=
  if (DecimalLiteral.read? cs).isSome then (r.decimal cs).getD nan else nan

/-- The number a trimmed text denotes. -/
def ofTrimmed (cs : List Char) : Binary64 :=
  if cs.isEmpty then zero
  else if cs = "Infinity".toList ∨ cs = "+Infinity".toList then infinity
  else if cs = "-Infinity".toList then negativeInfinity
  else match cs with
    | '0' :: c :: rest =>
      match radixOf? c with
      | some radix => r.ofRadixDigits radix rest
      | none => r.ofDecimalChars cs
    | _ => r.ofDecimalChars cs

def ofText (t : Text) : Binary64 := r.ofTrimmed (Text.trimBlank t.chars)

/-- Decimals by their exact value, and integers of any length with a sticky bit
beyond sixty-four. -/
def standard : Reader where
  decimal cs := (DecimalLiteral.read? cs).map DecimalLiteral.value
  integer n := ofNat (Sticky.coarsen n)

end Reader

def ofText (t : Text) : Binary64 := Reader.standard.ofTrimmed (Text.trimBlank t.chars)

theorem ofText_eq (t : Text) : ofText t = Reader.standard.ofText t := rfl

end Binary64

end Ecma
