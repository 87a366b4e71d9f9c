import Ecma.Number.Boundary

/-!
# Shortest decimal digits

The digits of a finite positive double are generated with exact integers: a
value `rest / scale` is kept together with its distances to the two rounding
boundaries, and digits are taken until what is left lies within one of them.
Boundaries belong to the interval exactly when the significand is even.

The first position is only estimated; two loops correct the estimate, so any
integer may be given for it.
-/

namespace Ecma

/-- The number `0.d₁d₂…dₙ · 10 ^ point`. -/
structure Decimal where
  digits : List Nat
  point : Int
  deriving DecidableEq, Inhabited

namespace Decimal

/-- A value `rest / scale`, with its distances `below / scale` and
`above / scale` to the ends of its rounding interval. -/
structure Window where
  rest : Nat
  below : Nat
  above : Nat
  scale : Nat
  deriving DecidableEq, Inhabited

/-- `b ≤ a` when ends count, `b < a` when they do not. -/
def reaches (inclusive : Bool) (a b : Nat) : Bool :=
  if inclusive then decide (b ≤ a) else decide (b < a)

namespace Window

/-- The upper end of the interval. -/
def top (w : Window) : Nat := w.rest + w.above

/-- The value and its distances, `10` times larger. -/
def advance (w : Window) : Window :=
  { w with rest := w.rest * 10, below := w.below * 10, above := w.above * 10 }

/-- The value and its distances multiplied by `10 ^ -k`. -/
def scaleBy (w : Window) (k : Int) : Window :=
  if 0 ≤ k then { w with scale := w.scale * Nat.pow 10 k.toNat }
  else
    let t := Nat.pow 10 (-k).toNat
    { w with rest := w.rest * t, below := w.below * t, above := w.above * t }

/-- Enlarges the scale until the interval ends below `1`. -/
def shrink (inclusive : Bool) (w : Window) (k : Int) : Window × Int :=
  if h : 0 < w.scale ∧ reaches inclusive w.top w.scale = true then
    shrink inclusive { w with scale := w.scale * 10 } (k + 1)
  else (w, k)
termination_by w.top + 1 - w.scale
decreasing_by
  have hle : w.scale ≤ w.top := by
    have := h.2
    unfold reaches at this
    split at this <;> simp at this <;> omega
  simp only [top] at hle ⊢
  omega

/-- Enlarges the value until the interval ends at a tenth or more. -/
def grow (inclusive : Bool) (w : Window) (k : Int) : Window × Int :=
  if h : 0 < w.top ∧ reaches inclusive (w.top * 10) w.scale = false then
    grow inclusive w.advance (k - 1)
  else (w, k)
termination_by w.scale - w.top
decreasing_by
  have hle : w.top * 10 ≤ w.scale := by
    have := h.2
    unfold reaches at this
    split at this <;> simp at this <;> omega
  have hpos := h.1
  simp only [top, advance] at hle hpos ⊢
  omega

/-- The digits of a value below `1`: each is the integer part of ten times the
rest.  The last one is the first after which the rest, or what is missing to
the next digit, lies within the interval; when both do, the nearer is taken
and a tie goes to the even digit. -/
def expand (inclusive : Bool) (w : Window) : List Nat :=
  let next := w.advance
  let digit := next.rest / next.scale
  let rest := next.rest % next.scale
  let withinLow := reaches inclusive next.below rest
  let withinHigh := reaches inclusive (rest + next.above) next.scale
  let nearer := decide (next.scale < 2 * rest) || (decide (2 * rest = next.scale) && digit % 2 == 1)
  if h : withinLow = false ∧ withinHigh = false ∧ 0 < w.below ∧ 0 < w.scale then
    digit :: expand inclusive { next with rest := rest }
  else if withinHigh && (!withinLow || nearer) then [digit + 1]
  else [digit]
termination_by w.scale - w.below
decreasing_by
  have hlow : w.below * 10 ≤ w.rest * 10 % w.scale := by
    have := h.1
    simp only [withinLow, next, rest, advance, reaches] at this
    split at this <;> simp at this <;> omega
  have hlt : w.rest * 10 % w.scale < w.scale := Nat.mod_lt _ h.2.2.2
  have := h.2.2.1
  simp only [advance]
  omega

end Window

/-- Removes the zeros at the end; the first digit stays. -/
def dropTrailingZeros : List Nat → List Nat
  | [] => []
  | d :: ds => d :: (ds.reverse.dropWhile (· == 0)).reverse

/-- The interval of a finite positive double, over a common scale. -/
def windowOf (x : Binary64) : Window :=
  let w := BinaryFraction.ofBinary64 x
  let (low, high) := BinaryFraction.boundaries x
  let value := w.significand.toNat * Nat.pow 2 (w.exponent - high.exponent).toNat
  let unit := Nat.pow 2 high.exponent.toNat
  { rest := value * unit
    below := (value - low.significand.toNat) * unit
    above := (high.significand.toNat - value) * unit
    scale := Nat.pow 2 (-high.exponent).toNat }

/-- The shortest digits that read back as `x`, the nearest to `x` of these,
found from any first guess of the position of the point. -/
def shortestFrom (estimate : Int) (x : Binary64) : Decimal :=
  let inclusive := x.significand % 2 == 0
  let (shrunk, k) := ((windowOf x).scaleBy estimate).shrink inclusive estimate
  let (start, point) := shrunk.grow inclusive k
  ⟨dropTrailingZeros (start.expand inclusive), point⟩

/-- A guess from the position of the leading bit: `0.30103` digits a bit. -/
def estimatePoint (x : Binary64) : Int :=
  ((x.magnitude.log2 : Int) - 1074) * 30103 / 100000

def shortest (x : Binary64) : Decimal := shortestFrom (estimatePoint x) x

end Decimal

end Ecma
