import Ecma.Number.Shortest
import Ecma.Proofs.Number.Boundaries
import Mathlib.Data.List.TakeWhile

/-!
# The generated digits lie in the rounding interval

A window and a position of the point stand for an interval of rationals.  The
two loops that correct the position leave that interval alone, and each digit
taken turns the window into the part of it that the digit leaves over.  What
the digits denote is therefore in the interval of the double they were made
from, whatever position was tried first.
-/

namespace Ecma

namespace Decimal

/-! ## What digits denote -/

/-- The number `0.d₁d₂…dₙ`. -/
def fraction (ds : List ℕ) : ℚ := ds.foldr (fun d t ↦ (d + t) / 10) 0

def number (d : Decimal) : ℚ := fraction d.digits * 10 ^ d.point

/-- There are digits, and each is below ten. -/
structure IsWritten (ds : List ℕ) : Prop where
  ne_nil : ds ≠ []
  lt_ten : ∀ d ∈ ds, d < 10

@[simp] theorem fraction_nil : fraction [] = 0 := rfl

@[simp] theorem fraction_cons (d : ℕ) (ds : List ℕ) : fraction (d :: ds) = (d + fraction ds) / 10 :=
  rfl

theorem fraction_append_zeros (ds zs : List ℕ) (hz : ∀ z ∈ zs, z = 0) :
    fraction (ds ++ zs) = fraction ds := by
  induction ds with
  | cons d ds ih => simp [ih]
  | nil =>
      induction zs with
      | nil => rfl
      | cons z zs ih =>
          simp only [List.nil_append] at ih ⊢
          rw [fraction_cons, ih fun w hw ↦ hz w (List.mem_cons_of_mem z hw), hz z (by simp)]
          simp

/-- Only zeros are dropped. -/
theorem exists_dropTrailingZeros (ds : List ℕ) :
    ∃ zs, ds = dropTrailingZeros ds ++ zs ∧ ∀ z ∈ zs, z = 0 := by
  match ds with
  | [] => exact ⟨[], rfl, by simp⟩
  | d :: ds =>
      refine ⟨(ds.reverse.takeWhile (· == 0)).reverse, ?_, ?_⟩
      · simp [dropTrailingZeros, ← List.reverse_append, List.takeWhile_append_dropWhile]
      · intro z hz
        simpa using List.mem_takeWhile_imp (List.mem_reverse.1 hz)

theorem fraction_dropTrailingZeros (ds : List ℕ) :
    fraction (dropTrailingZeros ds) = fraction ds := by
  obtain ⟨zs, hds, hz⟩ := exists_dropTrailingZeros ds
  conv_rhs => rw [hds]
  exact (fraction_append_zeros _ zs hz).symm

theorem IsWritten.dropTrailingZeros {ds : List ℕ} (h : IsWritten ds) :
    IsWritten (Decimal.dropTrailingZeros ds) := by
  obtain ⟨zs, hds, _⟩ := exists_dropTrailingZeros ds
  constructor
  · match ds, h.ne_nil with
    | d :: ds, _ => simp [Decimal.dropTrailingZeros]
  · intro d hd
    apply h.lt_ten d
    rw [hds]
    exact List.mem_append_left zs hd

/-! ## Windows as intervals -/

theorem reaches_iff {inclusive : Bool} {a b : ℕ} :
    reaches inclusive a b = true ↔ Precedes inclusive b a := by
  cases inclusive <;> simp [reaches, Precedes]

namespace Window

variable {w : Window} {inclusive : Bool} {k : ℤ} {lo hi : ℚ}

/-- The lower end of the interval. -/
def low (w : Window) : ℚ := (w.rest - w.below) / w.scale

/-- The upper end of the interval. -/
def high (w : Window) : ℚ := (w.rest + w.above) / w.scale

/-- The value is strictly between the ends of the interval. -/
structure IsOpen (w : Window) : Prop where
  below_pos : 0 < w.below
  above_pos : 0 < w.above
  scale_pos : 0 < w.scale

/-- The window, with the point moved by `k`, is the interval from `lo` to `hi`. -/
structure Frames (w : Window) (k : ℤ) (lo hi : ℚ) : Prop extends IsOpen w where
  low_eq : w.low * 10 ^ k = lo
  high_eq : w.high * 10 ^ k = hi

theorem reaches_top_iff (hs : 0 < w.scale) :
    reaches inclusive w.top w.scale = true ↔ Precedes inclusive 1 w.high := by
  have hsQ : (0 : ℚ) < w.scale := by exact_mod_cast hs
  have htop : w.high * w.scale = w.top := by
    rw [high, div_mul_cancel₀ _ hsQ.ne', top]
    push_cast
    rfl
  rw [reaches_iff, ← htop, ← Precedes.mul_iff (b := w.high) hsQ, one_mul]

theorem reaches_below_iff (hs : 0 < w.scale) :
    reaches inclusive w.below w.rest = true ↔ Precedes inclusive w.low 0 := by
  have hsQ : (0 : ℚ) < w.scale := by exact_mod_cast hs
  have hlow : w.low * w.scale = -w.below + w.rest := by
    rw [low, div_mul_cancel₀ _ hsQ.ne']
    ring
  rw [reaches_iff, ← Precedes.mul_iff (a := w.low) hsQ, hlow, zero_mul,
    ← neg_add_cancel (w.below : ℚ), Precedes.add_iff]

theorem top_advance (w : Window) : w.advance.top = w.top * 10 := by
  simp only [top, advance]
  omega

theorem high_advance (w : Window) : w.advance.high = w.high * 10 := by
  simp only [high, advance]
  push_cast
  ring

/-- The point further to the left, the window larger. -/
theorem Frames.magnify (h : w.Frames k lo hi) (n : ℕ) :
    Frames { w with rest := w.rest * 10 ^ n, below := w.below * 10 ^ n, above := w.above * 10 ^ n }
      (k - n) lo hi := by
  have hpow : 0 < 10 ^ n := Nat.pow_pos (by decide)
  refine ⟨⟨Nat.mul_pos h.below_pos hpow, Nat.mul_pos h.above_pos hpow, h.scale_pos⟩, ?_, ?_⟩
  · rw [← h.low_eq, zpow_sub₀ (by norm_num), zpow_natCast]
    simp only [low]
    push_cast
    field_simp
  · rw [← h.high_eq, zpow_sub₀ (by norm_num), zpow_natCast]
    simp only [high]
    push_cast
    field_simp

/-- The point further to the right, the scale larger. -/
theorem Frames.reduce (h : w.Frames k lo hi) (n : ℕ) :
    Frames { w with scale := w.scale * 10 ^ n } (k + n) lo hi := by
  have hpow : 0 < 10 ^ n := Nat.pow_pos (by decide)
  refine ⟨⟨h.below_pos, h.above_pos, Nat.mul_pos h.scale_pos hpow⟩, ?_, ?_⟩
  · rw [← h.low_eq, zpow_add₀ (by norm_num), zpow_natCast]
    simp only [low]
    push_cast
    field_simp
  · rw [← h.high_eq, zpow_add₀ (by norm_num), zpow_natCast]
    simp only [high]
    push_cast
    field_simp

theorem Frames.scaleBy (h : w.Frames 0 lo hi) (j : ℤ) : (w.scaleBy j).Frames j lo hi := by
  unfold Window.scaleBy
  split
  · rename_i hj
    have hframes := h.reduce j.toNat
    rwa [zero_add, Int.toNat_of_nonneg hj] at hframes
  · rename_i hj
    have hframes := h.magnify (-j).toNat
    rwa [Int.toNat_of_nonneg (by omega), zero_sub, neg_neg] at hframes

/-! ## The position of the point -/

theorem Frames.shrink (h : w.Frames k lo hi) (inclusive : Bool) :
    (w.shrink inclusive k).1.Frames (w.shrink inclusive k).2 lo hi ∧
      ¬Precedes inclusive 1 (w.shrink inclusive k).1.high := by
  fun_induction Window.shrink inclusive w k with
  | case1 w k hreach ih => exact ih (h.reduce 1)
  | case2 w k hreach =>
      refine ⟨h, ?_⟩
      rw [← reaches_top_iff h.scale_pos]
      exact fun htop ↦ hreach ⟨h.scale_pos, htop⟩

theorem Frames.grow (h : w.Frames k lo hi) (hbelow : ¬Precedes inclusive 1 w.high) :
    (w.grow inclusive k).1.Frames (w.grow inclusive k).2 lo hi ∧
      ¬Precedes inclusive 1 (w.grow inclusive k).1.high ∧
      Precedes inclusive 1 ((w.grow inclusive k).1.high * 10) := by
  have hadvance {w : Window} {k : ℤ} (h : w.Frames k lo hi) : w.advance.Frames (k - 1) lo hi :=
    h.magnify 1
  have hiff {w : Window} {k : ℤ} (h : w.Frames k lo hi) :
      reaches inclusive (w.top * 10) w.scale = true ↔ Precedes inclusive 1 (w.high * 10) := by
    rw [← top_advance, ← high_advance]
    exact reaches_top_iff (hadvance h).scale_pos
  fun_induction Window.grow inclusive w k with
  | case1 w k hreach ih =>
      apply ih (hadvance h)
      rw [high_advance, ← hiff h, hreach.2]
      decide
  | case2 w k hreach =>
      refine ⟨h, hbelow, ?_⟩
      rw [← hiff h]
      have htop : 0 < w.top := Nat.lt_of_lt_of_le h.above_pos (Nat.le_add_left _ _)
      by_contra hfalse
      exact hreach ⟨htop, Bool.eq_false_iff.2 hfalse⟩

/-! ## Taking digits -/

/-- The interval of the window contains `t`. -/
structure Holds (w : Window) (inclusive : Bool) (t : ℚ) : Prop where
  lower : Precedes inclusive w.low t
  upper : Precedes inclusive t w.high

/-- The first digit of the value. -/
def digit (w : Window) : ℕ := w.advance.rest / w.advance.scale

/-- The window that the first digit leaves over. -/
def leave (w : Window) : Window := { w.advance with rest := w.advance.rest % w.advance.scale }

theorem digit_add_rest (w : Window) :
    (w.scale : ℚ) * w.digit + w.leave.rest = w.rest * 10 := by
  exact_mod_cast Nat.div_add_mod (w.rest * 10) w.scale

theorem low_leave (hs : 0 < w.scale) : w.leave.low = w.low * 10 - w.digit := by
  have hsQ : (0 : ℚ) < w.scale := by exact_mod_cast hs
  have hbelow : (w.leave.below : ℚ) = w.below * 10 := Nat.cast_mul w.below 10
  have hscale : w.leave.scale = w.scale := rfl
  rw [low, low, hbelow, hscale]
  field_simp
  linarith [w.digit_add_rest]

theorem high_leave (hs : 0 < w.scale) : w.leave.high = w.high * 10 - w.digit := by
  have hsQ : (0 : ℚ) < w.scale := by exact_mod_cast hs
  have habove : (w.leave.above : ℚ) = w.above * 10 := Nat.cast_mul w.above 10
  have hscale : w.leave.scale = w.scale := rfl
  rw [high, high, habove, hscale]
  field_simp
  linarith [w.digit_add_rest]

/-- A digit and what follows it are in the interval when what follows is in
the part that the digit leaves over. -/
theorem holds_leave_iff {t : ℚ} (hs : 0 < w.scale) :
    w.leave.Holds inclusive t ↔ w.Holds inclusive ((w.digit + t) / 10) := by
  have hten : (w.digit + t) / 10 * 10 = w.digit + t := by ring
  have hlow : w.low * 10 = w.digit + w.leave.low := by
    rw [low_leave hs]
    ring
  have hhigh : w.high * 10 = w.digit + w.leave.high := by
    rw [high_leave hs]
    ring
  have hlower : Precedes inclusive w.low ((w.digit + t) / 10) ↔
      Precedes inclusive w.leave.low t := by
    rw [← Precedes.mul_iff (c := 10) (by norm_num), hlow, hten, Precedes.add_iff]
  have hupper : Precedes inclusive ((w.digit + t) / 10) w.high ↔
      Precedes inclusive t w.leave.high := by
    rw [← Precedes.mul_iff (c := 10) (by norm_num), hhigh, hten, Precedes.add_iff]
  exact ⟨fun h ↦ ⟨hlower.2 h.lower, hupper.2 h.upper⟩,
    fun h ↦ ⟨hlower.1 h.lower, hupper.1 h.upper⟩⟩

theorem IsOpen.leave (h : w.IsOpen) : w.leave.IsOpen :=
  ⟨Nat.mul_pos h.below_pos (by decide), Nat.mul_pos h.above_pos (by decide), h.scale_pos⟩

theorem IsOpen.rest_lt (h : w.IsOpen) (hbelow : ¬Precedes inclusive 1 w.high) :
    w.rest < w.scale := by
  have htop : ¬w.scale < w.top := by
    intro hlt
    refine hbelow ((reaches_top_iff h.scale_pos).1 (reaches_iff.2 (.of_lt ?_)))
    exact_mod_cast hlt
  have habove := h.above_pos
  unfold top at htop
  omega

theorem IsOpen.digit_lt (h : w.IsOpen) (hbelow : ¬Precedes inclusive 1 w.high) :
    w.digit < 10 := by
  have hlt := h.rest_lt hbelow
  apply (Nat.div_lt_iff_lt_mul h.scale_pos).2
  simp only [advance]
  omega

/-- The digit above the first one is still a digit when its end is in the interval. -/
theorem IsOpen.succ_digit_lt (h : w.IsOpen) (hbelow : ¬Precedes inclusive 1 w.high)
    (hend : Precedes inclusive 1 w.leave.high) : w.digit + 1 < 10 := by
  have hlt := h.digit_lt hbelow
  by_contra hge
  have hnine : w.digit = 9 := by omega
  rw [high_leave h.scale_pos, hnine] at hend
  apply hbelow
  rw [← Precedes.mul_iff (c := 10) (by norm_num), ← Precedes.add_iff (-9)]
  convert hend using 1
  · norm_num
  · push_cast
    ring

theorem IsOpen.low_leave_lt_one (h : w.IsOpen) : w.leave.low < 1 := by
  have hs : (0 : ℚ) < w.scale := by exact_mod_cast h.scale_pos
  have hrest : (w.leave.rest : ℚ) < w.scale := by exact_mod_cast Nat.mod_lt _ h.scale_pos
  have hbelow : (0 : ℚ) < w.leave.below := by exact_mod_cast h.leave.below_pos
  rw [low, div_lt_one]
  · exact lt_trans (by linarith) hrest
  · exact hs

theorem IsOpen.high_leave_pos (h : w.IsOpen) : 0 < w.leave.high := by
  have hs : (0 : ℚ) < w.leave.scale := by exact_mod_cast h.leave.scale_pos
  have habove : (0 : ℚ) < w.leave.above := by exact_mod_cast h.leave.above_pos
  unfold high
  positivity

/-- Digits are taken until the rest, or what it is short of the next digit, is
in the interval; so is then what the digits denote. -/
theorem expand_spec (h : w.IsOpen) (hbelow : ¬Precedes inclusive 1 w.high) :
    IsWritten (w.expand inclusive) ∧ w.Holds inclusive (fraction (w.expand inclusive)) := by
  fun_induction Window.expand inclusive w with
  | case1 w next digit rest withinLow withinHigh hstop ih =>
      have hhigh : ¬Precedes inclusive 1 w.leave.high := by
        rw [← reaches_top_iff h.leave.scale_pos]
        exact ne_true_of_eq_false hstop.2.1
      obtain ⟨hwritten, hholds⟩ := ih h.leave hhigh
      refine ⟨⟨List.cons_ne_nil _ _, ?_⟩, (holds_leave_iff h.scale_pos).1 hholds⟩
      exact List.forall_mem_cons.2 ⟨h.digit_lt hbelow, hwritten.lt_ten⟩
  | case2 w next digit rest withinLow withinHigh nearer hstop hup =>
      have hend : Precedes inclusive 1 w.leave.high := by
        rw [← reaches_top_iff h.leave.scale_pos]
        exact (Bool.and_eq_true_iff.1 hup).1
      have hholds : w.leave.Holds inclusive 1 := ⟨.of_lt h.low_leave_lt_one, hend⟩
      refine ⟨⟨List.cons_ne_nil _ _, ?_⟩, ?_⟩
      · exact List.forall_mem_singleton.2 (h.succ_digit_lt hbelow hend)
      · convert (holds_leave_iff h.scale_pos).1 hholds using 1
        simp
        rfl
  | case3 w next digit rest withinLow withinHigh nearer hstop hup =>
      have hlow : withinLow = true := by
        by_contra hfalse
        rw [Bool.not_eq_true] at hfalse
        by_cases hhigh : withinHigh = true
        · exact hup (by simp [hfalse, hhigh])
        · exact hstop ⟨hfalse, Bool.eq_false_iff.2 hhigh, h.below_pos, h.scale_pos⟩
      have hholds : w.leave.Holds inclusive 0 :=
        ⟨(reaches_below_iff h.leave.scale_pos).1 hlow, .of_lt h.high_leave_pos⟩
      refine ⟨⟨List.cons_ne_nil _ _, ?_⟩, (holds_leave_iff h.scale_pos).1 hholds⟩
      exact List.forall_mem_singleton.2 (h.digit_lt hbelow)

end Window

/-! ## The digits of a double -/

section

variable {x : Binary64}

theorem mul_two_zpow (n : ℕ) (e : ℤ) :
    ((n * Nat.pow 2 e.toNat : ℕ) : ℚ) / (Nat.pow 2 (-e).toNat : ℕ) = n * 2 ^ e := by
  rw [Nat.cast_mul, mul_div_assoc, Binary64.cast_pow_div_pow two_ne_zero, Nat.cast_ofNat]

theorem windowOf_eq (x : Binary64) :
    ∃ low value high : ℕ, ∃ e : ℤ,
      windowOf x = ⟨value * Nat.pow 2 e.toNat, (value - low) * Nat.pow 2 e.toNat,
        (high - value) * Nat.pow 2 e.toNat, Nat.pow 2 (-e).toNat⟩ ∧
      value * (2 : ℚ) ^ e = x.magnitude / Binary64.unitsPerOne ∧
      low * (2 : ℚ) ^ e = (BinaryFraction.boundaries x).1.value ∧
      high * (2 : ℚ) ^ e = (BinaryFraction.boundaries x).2.value := by
  refine ⟨_, _, _, _, rfl, ?_, rfl, rfl⟩
  have hle : (BinaryFraction.ofBinary64 x).upperMidpoint.exponent ≤
      (BinaryFraction.ofBinary64 x).exponent := by
    rw [BinaryFraction.exponent_upperMidpoint]
    omega
  rw [← BinaryFraction.value_ofBinary64, BinaryFraction.value, Nat.cast_mul, Binary64.cast_two_pow,
    ← zpow_natCast, mul_assoc, ← zpow_add₀ two_ne_zero, Int.toNat_of_nonneg (Int.sub_nonneg.2 hle),
    sub_add_cancel]

/-- The window of a double is its rounding interval. -/
theorem windowOf_frames (hx : 0 < x.significand) :
    (windowOf x).Frames 0 ((x.magnitude - x.lowerGap) / Binary64.unitsPerOne)
      ((x.magnitude + x.upperGap) / Binary64.unitsPerOne) := by
  obtain ⟨low, value, high, e, hwindow, hvalue, hlow, hhigh⟩ := windowOf_eq x
  rw [BinaryFraction.value_boundaries_fst x hx] at hlow
  rw [BinaryFraction.value_boundaries_snd] at hhigh
  have hunits := Binary64.unitsPerOne_pos
  have hpow : (0 : ℚ) < 2 ^ e := by positivity
  have hlt_value : low < value := by
    have hlt : (low : ℚ) * 2 ^ e < value * 2 ^ e := by
      rw [hlow, hvalue]
      exact div_lt_div_of_pos_right (by linarith [x.lowerGap_pos]) hunits
    exact_mod_cast lt_of_mul_lt_mul_right hlt hpow.le
  have hlt_high : value < high := by
    have hlt : (value : ℚ) * 2 ^ e < high * 2 ^ e := by
      rw [hhigh, hvalue]
      exact div_lt_div_of_pos_right (by linarith [x.upperGap_pos]) hunits
    exact_mod_cast lt_of_mul_lt_mul_right hlt hpow.le
  rw [hwindow]
  refine ⟨⟨?_, ?_, Nat.two_pow_pos _⟩, ?_, ?_⟩
  · exact Nat.mul_pos (Nat.sub_pos_of_lt hlt_value) (Nat.two_pow_pos _)
  · exact Nat.mul_pos (Nat.sub_pos_of_lt hlt_high) (Nat.two_pow_pos _)
  · rw [zpow_zero, mul_one, ← hlow, ← mul_two_zpow]
    refine congrArg (· / _) ?_
    push_cast [hlt_value.le]
    ring
  · rw [zpow_zero, mul_one, ← hhigh, ← mul_two_zpow]
    refine congrArg (· / _) ?_
    push_cast [hlt_high.le]
    ring

/-- The window that digits are taken from, and the position of its point. -/
def start (estimate : ℤ) (x : Binary64) : Window × ℤ :=
  let shrunk := ((windowOf x).scaleBy estimate).shrink x.isEven estimate
  shrunk.1.grow x.isEven shrunk.2

theorem shortestFrom_eq (estimate : ℤ) (x : Binary64) : shortestFrom estimate x =
    ⟨dropTrailingZeros ((start estimate x).1.expand x.isEven), (start estimate x).2⟩ :=
  rfl

variable (estimate : ℤ) (hx : 0 < x.significand)

include hx

/-- Digits are taken from a window that ends between a tenth and one. -/
theorem start_frames :
    (start estimate x).1.Frames (start estimate x).2
        ((x.magnitude - x.lowerGap) / Binary64.unitsPerOne)
        ((x.magnitude + x.upperGap) / Binary64.unitsPerOne) ∧
      ¬Precedes x.isEven 1 (start estimate x).1.high ∧
      Precedes x.isEven 1 ((start estimate x).1.high * 10) := by
  have hframes := (windowOf_frames hx).scaleBy estimate
  obtain ⟨hshrunk, hbelow⟩ := hframes.shrink x.isEven
  exact hshrunk.grow hbelow

theorem start_holds_iff (t : ℚ) : (start estimate x).1.Holds x.isEven t ↔
    x.IsNearest (t * 10 ^ (start estimate x).2 * Binary64.unitsPerOne) := by
  obtain ⟨hframes, _⟩ := start_frames estimate hx
  have hunits := Binary64.unitsPerOne_pos
  have hpow : (0 : ℚ) < 10 ^ (start estimate x).2 := by positivity
  have hlower : Precedes x.isEven (start estimate x).1.low t ↔ Precedes x.isEven
      (x.magnitude - x.lowerGap) (t * 10 ^ (start estimate x).2 * Binary64.unitsPerOne) := by
    rw [← Precedes.mul_iff hpow, hframes.low_eq, ← Precedes.mul_iff hunits,
      div_mul_cancel₀ _ hunits.ne']
  have hupper : Precedes x.isEven t (start estimate x).1.high ↔ Precedes x.isEven
      (t * 10 ^ (start estimate x).2 * Binary64.unitsPerOne) (x.magnitude + x.upperGap) := by
    rw [← Precedes.mul_iff hpow, hframes.high_eq, ← Precedes.mul_iff hunits,
      div_mul_cancel₀ _ hunits.ne']
  exact ⟨fun h ↦ ⟨hlower.1 h.lower, hupper.1 h.upper⟩,
    fun h ↦ ⟨hlower.2 h.lower, hupper.2 h.upper⟩⟩

theorem isWritten_shortestFrom : IsWritten (shortestFrom estimate x).digits := by
  obtain ⟨hframes, hbelow, _⟩ := start_frames estimate hx
  exact (Window.expand_spec hframes.toIsOpen hbelow).1.dropTrailingZeros

/-- The digits denote a number that is rounded to the double they were made from. -/
theorem isNearest_shortestFrom :
    x.IsNearest ((shortestFrom estimate x).number * Binary64.unitsPerOne) := by
  obtain ⟨hframes, hbelow, _⟩ := start_frames estimate hx
  rw [shortestFrom_eq, number, fraction_dropTrailingZeros]
  exact (start_holds_iff estimate hx _).1 (Window.expand_spec hframes.toIsOpen hbelow).2

omit hx in
/-- The largest upper end is below `10 ^ 310`. -/
theorem upperEnd_lt (hfinite : x.isFinite = true) :
    (x.magnitude + x.upperGap) / Binary64.unitsPerOne < (10 : ℚ) ^ (310 : ℤ) := by
  have hexponent : 53 + x.power ≤ 1025 + 1074 := by
    have hlt := x.power_lt hfinite
    omega
  rw [Binary64.unitsPerOne_cast, div_lt_iff₀ (by positivity)]
  calc
    x.magnitude + x.upperGap < 2 ^ (53 + x.power) := x.magnitude_add_upperGap_lt
    _ ≤ 2 ^ (1025 + 1074) := pow_le_pow_right₀ (by norm_num) hexponent
    _ = 2 ^ 1025 * 2 ^ 1074 := pow_add _ _ _
    _ < 10 ^ (310 : ℤ) * 2 ^ 1074 :=
      mul_lt_mul_of_pos_right Binary64.two_pow_lt_ten_pow_310 (by positivity)

/-- The smallest upper end is above `10 ^ -324`. -/
theorem lt_upperEnd :
    (10 : ℚ) ^ (-324 : ℤ) < (x.magnitude + x.upperGap) / Binary64.unitsPerOne := by
  have hmagnitude : (1 : ℚ) ≤ x.magnitude := by
    exact_mod_cast Nat.mul_pos hx (Nat.two_pow_pos x.power)
  rw [Binary64.unitsPerOne_cast, lt_div_iff₀ (by positivity), zpow_neg]
  calc
    ((10 : ℚ) ^ (324 : ℤ))⁻¹ * 2 ^ 1074 < 1 :=
      (inv_mul_lt_one₀ (by positivity)).2 Binary64.two_pow_lt_ten_pow_324
    _ ≤ x.magnitude := hmagnitude
    _ ≤ x.magnitude + x.upperGap := le_add_of_nonneg_right x.upperGap_pos.le

/-- The point of a double is within the range of the doubles. -/
theorem point_shortestFrom (hfinite : x.isFinite = true) :
    -324 < (shortestFrom estimate x).point ∧ (shortestFrom estimate x).point ≤ 310 := by
  obtain ⟨hframes, hbelow, habove⟩ := start_frames estimate hx
  have hpow : (0 : ℚ) < 10 ^ (start estimate x).2 := by positivity
  have hle : (start estimate x).1.high ≤ 1 := not_lt.1 fun hlt ↦ hbelow (.of_lt hlt)
  have hlow := lt_upperEnd hx
  have hhigh := upperEnd_lt hfinite
  rw [← hframes.high_eq] at hlow hhigh
  constructor
  · refine (zpow_lt_zpow_iff_right₀ (by norm_num : (1 : ℚ) < 10)).1 (hlow.trans_le ?_)
    exact mul_le_of_le_one_left hpow.le hle
  · have hlt : (10 : ℚ) ^ ((start estimate x).2 - 1) < 10 ^ (310 : ℤ) := by
      refine lt_of_le_of_lt ?_ hhigh
      rw [zpow_sub_one₀ (by norm_num)]
      nlinarith [habove.le]
    exact Int.sub_one_lt_iff.1 ((zpow_lt_zpow_iff_right₀ (by norm_num : (1 : ℚ) < 10)).1 hlt)

end

end Decimal

end Ecma
