import Ecma.Proofs.Number.DigitLoops

/-!
# The generated digits are the shortest, and the closest of these

Digits are taken while no integer lies in the interval of the window.  A
decimal on a coarser grid than that of the digits would be such an integer at
an earlier digit, and the last digit is chosen between the two integers next to
the rest.  A decimal with as many digits that is on a finer grid lies below the
first power of ten of the interval, and there that power is closer.
-/

namespace Ecma

namespace Binary64

/-! ## The ends of the interval are midpoints -/

section

variable {x y : Binary64}

theorem word_succ_cases (h : y.absWord = x.absWord + 1) :
    y.power = x.power ∧ y.significand = x.significand + 1 ∨
      y.power = x.power + 1 ∧ x.significand + 1 = 2 * hiddenBit ∧ y.significand = hiddenBit := by
  have hx := x.significand_lt
  have hy := y.significand_lt
  have hxp := x.hiddenBit_le_significand
  have hyp := y.hiddenBit_le_significand
  rw [x.absWord_eq, y.absWord_eq] at h
  unfold hiddenBit at *
  omega

theorem magnitude_succ (h : y.absWord = x.absWord + 1) :
    (y.magnitude : ℚ) = x.magnitude + 2 ^ x.power := by
  rw [magnitude_cast, magnitude_cast]
  rcases word_succ_cases h with ⟨hp, hs⟩ | ⟨hp, hx, hs⟩
  · rw [hp, hs]
    push_cast
    ring
  · have hxQ : (x.significand : ℚ) + 1 = 2 * hiddenBit := by exact_mod_cast hx
    rw [hp, hs, eq_sub_of_add_eq hxQ, pow_succ]
    ring

theorem lowerGap_succ (h : y.absWord = x.absWord + 1) : y.lowerGap = 2 ^ x.power / 2 := by
  unfold lowerGap
  rcases word_succ_cases h with ⟨hp, hs⟩ | ⟨hp, _, hs⟩
  · rw [if_neg, hp]
    rintro ⟨hy, hne⟩
    have hle := x.hiddenBit_le_significand (hp ▸ hne)
    omega
  · rw [if_pos ⟨hs, by omega⟩, hp, pow_succ]
    ring

theorem lowerGap_lt (hx : 0 < x.significand) : x.lowerGap < x.magnitude := by
  have hsig : (1 : ℚ) ≤ x.significand := by exact_mod_cast hx
  have hpow : (0 : ℚ) < 2 ^ x.power := by positivity
  rw [magnitude_cast]
  nlinarith [x.lowerGap_le]

/-! ## The first power of ten above a double -/

theorem two_pow_bounds : (20 : ℚ) * 10 ^ 322 < 2 ^ 1074 ∧ (2 : ℚ) ^ 1074 < 21 * 10 ^ 322 := by
  have hlow : (766 * 10 ^ 51 : ℚ) ^ 6 < (2 ^ 179) ^ 6 :=
    pow_lt_pow_left₀ (by norm_num) (by positivity) (by decide)
  have hhigh : ((2 : ℚ) ^ 179) ^ 6 < (767 * 10 ^ 51) ^ 6 :=
    pow_lt_pow_left₀ (by norm_num) (by positivity) (by decide)
  rw [mul_pow, ← pow_mul, ← pow_mul] at hlow hhigh
  have hsplit : (10 : ℚ) ^ 322 = 10 ^ 16 * 10 ^ (51 * 6) := pow_add 10 16 306
  have hpos : (0 : ℚ) < 10 ^ (51 * 6) := by positivity
  rw [hsplit, ← mul_assoc, ← mul_assoc]
  constructor
  · exact (mul_lt_mul_of_pos_right (by norm_num) hpos).trans hlow
  · exact hhigh.trans (mul_lt_mul_of_pos_right (by norm_num) hpos)

/-- In units of the smallest double: a power of ten is above twenty, or between
two and a little more, or below one. -/
theorem ten_pow_units (j : ℤ) : 20 < (10 : ℚ) ^ j * unitsPerOne ∨
    2 < (10 : ℚ) ^ j * unitsPerOne ∧ (10 : ℚ) ^ j * unitsPerOne < 21 / 10 ∨
    (10 : ℚ) ^ j * unitsPerOne < 1 := by
  obtain ⟨hlow, hhigh⟩ := two_pow_bounds
  rw [← lt_div_iff₀ (by positivity)] at hlow
  rw [← div_lt_iff₀ (by positivity)] at hhigh
  have hfactor : (10 : ℚ) ^ j * unitsPerOne = 10 ^ (j + 322) * (2 ^ 1074 / 10 ^ 322) := by
    rw [unitsPerOne_cast, zpow_add₀ (by norm_num), zpow_ofNat, mul_assoc,
      mul_div_cancel₀ _ (by positivity)]
  rw [hfactor]
  generalize (2 : ℚ) ^ 1074 / 10 ^ 322 = u at *
  rcases lt_trichotomy (j + 322) (-1) with hj | hj | hj
  · right
    right
    have hpow : (10 : ℚ) ^ (j + 322) ≤ 10 ^ (-2 : ℤ) := zpow_le_zpow_right₀ (by norm_num) (by omega)
    norm_num at hpow
    nlinarith
  · right
    left
    rw [hj]
    constructor <;> norm_num <;> linarith
  · left
    have hpow : (1 : ℚ) ≤ 10 ^ (j + 322) := one_le_zpow₀ (by norm_num) (by omega)
    nlinarith

/-- A power of ten between a double and its upper end is less than a twentieth
above the double. -/
theorem lt_of_between (hx : 0 < x.significand) {j : ℤ}
    (hlt : x.magnitude < 10 ^ j * (unitsPerOne : ℚ))
    (hle : 10 ^ j * (unitsPerOne : ℚ) ≤ x.magnitude + x.upperGap) :
    19 / 20 * (10 ^ j * unitsPerOne) < (x.magnitude : ℚ) := by
  have hpow : (0 : ℚ) < 2 ^ x.power := by positivity
  rcases le_or_gt 10 x.significand with hlarge | hsmall
  · have hsig : (10 : ℚ) ≤ x.significand := by exact_mod_cast hlarge
    rw [upperGap] at hle
    rw [magnitude_cast] at hle ⊢
    nlinarith
  · -- Only the smallest doubles are left: the one below `2.1` units is two.
    have hp : x.power = 0 := by
      by_contra hp
      have hbit := x.hiddenBit_le_significand hp
      unfold hiddenBit at hbit
      omega
    have hone : (1 : ℚ) ≤ x.significand := by exact_mod_cast hx
    have hten : (x.significand : ℚ) ≤ 9 := by exact_mod_cast (by omega : x.significand ≤ 9)
    rw [upperGap, hp] at hle
    rw [magnitude_cast, hp] at hle hlt ⊢
    rcases ten_pow_units j with hj | ⟨hj, hj'⟩ | hj
    · linarith
    · have htwo : 2 ≤ x.significand := by
        have hgt : (1 : ℚ) < x.significand := by linarith
        exact_mod_cast hgt
      have htwoQ : (2 : ℚ) ≤ x.significand := by exact_mod_cast htwo
      linarith
    · linarith

end

end Binary64

namespace Decimal

/-! ## No coarser decimal, and the nearest of the grid -/

namespace Window

variable {w : Window} {inclusive : Bool}

def value (w : Window) : ℚ := w.rest / w.scale

/-- The interval is between zero and one. -/
structure IsProper (inclusive : Bool) (w : Window) : Prop where
  low : ¬Precedes inclusive w.low 0
  high : ¬Precedes inclusive 1 w.high

theorem IsProper.not_holds (h : w.IsProper inclusive) (z : ℤ) : ¬w.Holds inclusive z := by
  intro hz
  rcases le_or_gt z 0 with hle | hgt
  · exact h.low (hz.lower.trans_le (by exact_mod_cast hle))
  · exact h.high (.le_trans (by exact_mod_cast hgt) hz.upper)

theorem isProper_leave (h : w.IsOpen) (hundecided : w.isUndecided inclusive = true) :
    w.leave.IsProper inclusive := by
  rw [isUndecided, Bool.and_eq_true, Bool.not_eq_true', Bool.not_eq_true'] at hundecided
  constructor
  · rw [← reaches_below_iff h.leave.scale_pos]
    exact Bool.eq_false_iff.1 hundecided.1
  · rw [← reaches_top_iff h.leave.scale_pos]
    exact Bool.eq_false_iff.1 hundecided.2

theorem value_leave (hs : 0 < w.scale) : w.value = (w.digit + w.leave.value) / 10 := by
  have hsQ : (0 : ℚ) < w.scale := by exact_mod_cast hs
  have hscale : w.leave.scale = w.scale := rfl
  rw [value, value, hscale]
  field_simp
  linarith [w.digit_add_rest]

theorem value_leave_nonneg (w : Window) : 0 ≤ w.leave.value := by
  unfold value
  positivity

theorem value_leave_lt_one (hs : 0 < w.scale) : w.leave.value < 1 := by
  have hsQ : (0 : ℚ) < w.leave.scale := by exact_mod_cast hs
  rw [value, div_lt_one hsQ]
  exact_mod_cast Nat.mod_lt _ hs

theorem roundsUp_iff (hs : 0 < w.scale) :
    w.roundsUp = true ↔ 1 < 2 * w.leave.value ∨ 2 * w.leave.value = 1 ∧ w.digit % 2 = 1 := by
  have hsQ : (0 : ℚ) < w.leave.scale := by exact_mod_cast hs
  have hlt : w.leave.scale < 2 * w.leave.rest ↔ 1 < 2 * w.leave.value := by
    rw [value, mul_div, one_lt_div hsQ]
    exact_mod_cast Iff.rfl
  have heq : 2 * w.leave.rest = w.leave.scale ↔ 2 * w.leave.value = 1 := by
    rw [value, mul_div, div_eq_one_iff_eq hsQ.ne']
    exact_mod_cast Iff.rfl
  simp [roundsUp, hlt, heq]

end Window

/-- Of two candidates for `v`, the first is taken: it is nearer than the second
one, or as near and even. -/
def Wins (even : Prop) (v a b : ℚ) : Prop :=
  b = a ∨ |a - v| < |b - v| ∨ |a - v| = |b - v| ∧ even

theorem Wins.mul_add {even : Prop} {v a b c : ℚ} (h : Wins even v a b) (hc : c ≠ 0) (d : ℚ) :
    Wins even (v * c + d) (a * c + d) (b * c + d) := by
  have hdist (t : ℚ) : |t * c + d - (v * c + d)| = |t - v| * |c| := by
    rw [add_sub_add_right_eq_sub, ← sub_mul, abs_mul]
  unfold Wins
  rw [hdist, hdist]
  refine h.imp (fun heq ↦ by rw [heq]) (Or.imp ?_ (And.imp_left ?_))
  · exact fun hlt ↦ mul_lt_mul_of_pos_right hlt (abs_pos.2 hc)
  · exact fun heq ↦ by rw [heq]

theorem Wins.le {even : Prop} {v a b : ℚ} (h : Wins even v a b) : |a - v| ≤ |b - v| := by
  rcases h with rfl | hlt | ⟨heq, _⟩
  · exact le_rfl
  · exact hlt.le
  · exact heq.le

/-- Between zero and one, one is taken unless zero is nearer. -/
theorem wins_one {even : Prop} {v : ℚ} (hpos : 0 ≤ v) (hle : v ≤ 1) {t : ℤ}
    (hzero : t ≤ 0 → 1 < 2 * v ∨ 2 * v = 1 ∧ even) : Wins even v 1 t := by
  have hone : |1 - v| = 1 - v := abs_of_nonneg (by linarith)
  unfold Wins
  rw [hone]
  rcases le_or_gt t 0 with ht | ht
  · have htQ : (t : ℚ) ≤ 0 := by exact_mod_cast ht
    have hdist : |(t : ℚ) - v| = v - t := by
      rw [abs_sub_comm]
      exact abs_of_nonneg (by linarith)
    rw [hdist]
    rcases hzero ht with hlt | ⟨htie, heven⟩
    · exact .inr (.inl (by linarith))
    · rcases htQ.lt_or_eq with hneg | heq
      · exact .inr (.inl (by linarith))
      · exact .inr (.inr ⟨by linarith, heven⟩)
  · have htQ : (1 : ℚ) ≤ t := by exact_mod_cast ht
    rw [abs_of_nonneg (by linarith : 0 ≤ (t : ℚ) - v)]
    rcases htQ.eq_or_lt with heq | hlt
    · exact .inl heq.symm
    · exact .inr (.inl (by linarith))

theorem wins_zero {even : Prop} {v : ℚ} (hpos : 0 ≤ v) (hle : v ≤ 1) {t : ℤ}
    (hone : 1 ≤ t → 2 * v < 1 ∨ 2 * v = 1 ∧ even) : Wins even v 0 t := by
  have hmirror : Wins even (1 - v) 1 ((1 - t : ℤ) : ℚ) := by
    refine wins_one (by linarith) (by linarith) fun ht ↦ ?_
    refine (hone (by omega)).imp (fun hlt ↦ by linarith) (And.imp_left fun htie ↦ by linarith)
  convert hmirror.mul_add (c := -1) (by norm_num) 1 using 1
  · ring
  · ring
  · push_cast
    ring

def EndsEven (ds : List ℕ) : Prop := ∃ d ∈ ds.getLast?, d % 2 = 0

theorem endsEven_cons {d : ℕ} {ds : List ℕ} (hds : ds ≠ []) : EndsEven (d :: ds) ↔ EndsEven ds := by
  obtain ⟨e, es, rfl⟩ := List.exists_cons_of_ne_nil hds
  simp [EndsEven]

theorem grid_succ (z : ℤ) (d i : ℕ) :
    (z : ℚ) / 10 ^ (i + 1) = (d + ((z - d * 10 ^ i : ℤ) : ℚ) / 10 ^ i) / 10 := by
  push_cast
  field_simp
  ring

namespace Window

variable {w : Window} {inclusive : Bool} {ds : List ℕ}

/-- Nothing with fewer digits is in the interval, and nothing with as many is
nearer to the value. -/
structure IsBest (inclusive : Bool) (w : Window) (ds : List ℕ) : Prop where
  coarser : ∀ i < ds.length, ∀ z : ℤ, ¬w.Holds inclusive (z / 10 ^ i)
  nearest : ∀ z : ℤ, w.Holds inclusive (z / 10 ^ ds.length) →
    Wins (EndsEven ds) w.value (fraction ds) (z / 10 ^ ds.length)

theorem IsBest.cons (hs : 0 < w.scale) (hproper : w.IsProper inclusive) (hds : ds ≠ [])
    (h : w.leave.IsBest inclusive ds) : w.IsBest inclusive (w.digit :: ds) := by
  have hcoarser : ∀ i < ds.length + 1, ∀ z : ℤ, ¬w.Holds inclusive (z / 10 ^ i) := by
    intro i hi z
    match i with
    | 0 => simpa using hproper.not_holds z
    | i + 1 =>
        rw [grid_succ z w.digit, ← holds_leave_iff hs]
        exact h.coarser i (by omega) _
  refine ⟨hcoarser, ?_⟩
  intro z hz
  rw [List.length_cons, grid_succ z w.digit] at hz ⊢
  rw [← holds_leave_iff hs] at hz
  have hwins := (h.nearest _ hz).mul_add (c := 1 / 10) (by norm_num) (w.digit / 10)
  rw [endsEven_cons hds, value_leave hs, fraction_cons]
  convert hwins using 1 <;> ring

/-- What the last digit adds to the digit is nearer to the rest than any other
integer of the interval. -/
theorem wins_lastDigit (h : w.IsOpen) {t : ℤ} (ht : w.leave.Holds inclusive t) :
    Wins (w.lastDigit inclusive % 2 = 0) w.leave.value (w.lastDigit inclusive - w.digit) t := by
  have hpos := w.value_leave_nonneg
  have hle := (value_leave_lt_one h.scale_pos).le
  have hlow (hzero : t ≤ 0) : w.withinLow inclusive = true :=
    (reaches_below_iff h.leave.scale_pos).2 (ht.lower.trans_le (by exact_mod_cast hzero))
  have hhigh (hone : 1 ≤ t) : w.withinHigh inclusive = true :=
    (reaches_top_iff h.leave.scale_pos).2 (.le_trans (by exact_mod_cast hone) ht.upper)
  unfold lastDigit
  split
  · rename_i hup
    rw [Nat.cast_add, Nat.cast_one, add_sub_cancel_left]
    refine wins_one hpos hle fun hzero ↦ ?_
    rw [hlow hzero, Bool.and_eq_true, Bool.not_true, Bool.false_or] at hup
    refine ((roundsUp_iff h.scale_pos).1 hup.2).imp_right ?_
    rintro ⟨htie, hodd⟩
    exact ⟨htie, by omega⟩
  · rename_i hdown
    rw [sub_self]
    refine wins_zero hpos hle fun hone ↦ ?_
    have hround : ¬w.roundsUp = true := by
      intro hround
      exact hdown (by simp [hhigh hone, hround])
    rw [roundsUp_iff h.scale_pos, not_or, not_lt] at hround
    refine hround.1.lt_or_eq.imp_right fun htie ↦ ⟨htie, ?_⟩
    have heven : ¬w.digit % 2 = 1 := fun hodd ↦ hround.2 ⟨htie, hodd⟩
    omega

theorem isBest_lastDigit (h : w.IsOpen) (hproper : w.IsProper inclusive) :
    w.IsBest inclusive [w.lastDigit inclusive] := by
  have hcoarser : ∀ i < 1, ∀ z : ℤ, ¬w.Holds inclusive (z / 10 ^ i) := by
    intro i hi z
    rw [Nat.lt_one_iff.1 hi]
    simpa using hproper.not_holds z
  refine ⟨hcoarser, ?_⟩
  intro z hz
  rw [List.length_singleton] at hz ⊢
  rw [grid_succ z w.digit 0, pow_zero (10 : ℚ), div_one] at hz ⊢
  rw [← holds_leave_iff h.scale_pos] at hz
  have hwins := (wins_lastDigit h hz).mul_add (c := 1 / 10) (by norm_num) (w.digit / 10)
  have heven : EndsEven [w.lastDigit inclusive] ↔ w.lastDigit inclusive % 2 = 0 := by
    simp [EndsEven]
  rw [heven, value_leave h.scale_pos, fraction_cons, fraction_nil]
  convert hwins using 1 <;> ring

/-- The digits of a window are the fewest, and the nearest of that many. -/
theorem isBest_expand (h : w.IsOpen) (hproper : w.IsProper inclusive) :
    w.IsBest inclusive (w.expand inclusive) := by
  have hwritten {w : Window} (h : w.IsOpen) (hproper : w.IsProper inclusive) :
      w.expand inclusive ≠ [] :=
    (expand_spec h hproper.high).1.ne_nil
  refine expand_induction (motive := fun w ds ↦ w.IsProper inclusive → w.IsBest inclusive ds)
    ?_ ?_ h hproper
  · intro w h hundecided ih hproper
    have hleave := isProper_leave h hundecided
    exact .cons h.scale_pos hproper (hwritten h.leave hleave) (ih hleave)
  · intro w h _ hproper
    exact isBest_lastDigit h hproper

/-! ## The first and the last digit -/

theorem exists_fraction_eq (ds : List ℕ) : ∃ z : ℤ, fraction ds = z / 10 ^ ds.length := by
  induction ds with
  | nil => exact ⟨0, by simp⟩
  | cons d ds ih =>
      obtain ⟨z, hz⟩ := ih
      refine ⟨z + d * 10 ^ ds.length, ?_⟩
      rw [fraction_cons, List.length_cons, grid_succ _ d, add_sub_cancel_right, hz]

theorem fraction_lt_one {ds : List ℕ} (hds : ∀ d ∈ ds, d < 10) : fraction ds < 1 := by
  induction ds with
  | nil => norm_num
  | cons d ds ih =>
      have hlt := ih fun e he ↦ hds e (List.mem_cons_of_mem d he)
      have hd : (d : ℚ) ≤ 9 := by
        have hten := hds d List.mem_cons_self
        exact_mod_cast (by omega : d ≤ 9)
      rw [fraction_cons, div_lt_one (by norm_num)]
      linarith

/-- A zero at the end would be a decimal with fewer digits. -/
theorem IsBest.getLast?_ne_zero (h : w.IsBest inclusive ds)
    (hholds : w.Holds inclusive (fraction ds)) : ds.getLast? ≠ some 0 := by
  intro hlast
  obtain ⟨init, rfl⟩ := List.getLast?_eq_some_iff.1 hlast
  obtain ⟨z, hz⟩ := exists_fraction_eq init
  rw [fraction_append_zeros init [0] (by simp), hz] at hholds
  exact h.coarser init.length (by simp) z hholds

/-- With a number below a tenth, a tenth is in the interval too. -/
theorem holds_tenth (habove : Precedes inclusive 1 (w.high * 10)) {t : ℚ} (ht : t < 1 / 10)
    (hholds : w.Holds inclusive t) : w.Holds inclusive (1 / 10) := by
  refine ⟨hholds.lower.trans_le ht.le, ?_⟩
  rw [← Precedes.mul_iff (c := 10) (by norm_num)]
  simpa using habove

/-- Digits with a number below a tenth beside them: there is only one. -/
theorem IsBest.length_eq_one (h : w.IsBest inclusive ds)
    (habove : Precedes inclusive 1 (w.high * 10)) (hds : ds ≠ []) {t : ℚ} (ht : t < 1 / 10)
    (hholds : w.Holds inclusive t) : ds.length = 1 := by
  have hpos : 0 < ds.length := List.length_pos_iff.2 hds
  by_contra hne
  apply h.coarser 1 (by omega) 1
  simpa using holds_tenth habove ht hholds

/-- A zero at the start would leave a number below a tenth. -/
theorem IsBest.head?_ne_zero (h : w.IsBest inclusive ds) (hproper : w.IsProper inclusive)
    (habove : Precedes inclusive 1 (w.high * 10)) (hwritten : IsWritten ds)
    (hholds : w.Holds inclusive (fraction ds)) : ds.head? ≠ some 0 := by
  intro hhead
  obtain ⟨rest, rfl⟩ := List.head?_eq_some_iff.1 hhead
  have hlt : fraction (0 :: rest) < 1 / 10 := by
    have hone := fraction_lt_one fun d hd ↦ hwritten.lt_ten d (List.mem_cons_of_mem 0 hd)
    rw [fraction_cons, Nat.cast_zero, zero_add]
    exact div_lt_div_of_pos_right hone (by norm_num)
  have hlength := h.length_eq_one habove hwritten.ne_nil hlt hholds
  obtain rfl : rest = [] := List.eq_nil_of_length_eq_zero (by simpa using hlength)
  apply hproper.not_holds 0
  simpa using hholds

end Window

theorem dropTrailingZeros_eq_self {ds : List ℕ} (h : ds.getLast? ≠ some 0) :
    dropTrailingZeros ds = ds := by
  obtain ⟨zs, hds, hz⟩ := exists_dropTrailingZeros ds
  rcases List.eq_nil_or_concat zs with rfl | ⟨init, z, rfl⟩
  · simpa using hds.symm
  · refine absurd ?_ h
    rw [hds, hz z (by simp)]
    simp

/-! ## Decimals with at most so many digits -/

/-- The number is a decimal with at most `n` significant digits. -/
def HasDigits (n : ℕ) (t : ℚ) : Prop := ∃ (m : ℕ) (j : ℤ), m < 10 ^ n ∧ t = m * 10 ^ j

theorem HasDigits.mul_zpow {n : ℕ} {t : ℚ} (h : HasDigits n t) (k : ℤ) :
    HasDigits n (t * 10 ^ k) := by
  obtain ⟨m, j, hm, rfl⟩ := h
  refine ⟨m, j + k, hm, ?_⟩
  rw [mul_assoc, zpow_add₀ (by norm_num)]

/-- A decimal with at most `n` digits is a multiple of `10 ^ -n`, or below a tenth. -/
theorem HasDigits.grid_or_le {n : ℕ} {t : ℚ} (h : HasDigits n t) :
    (∃ z : ℤ, t = z / 10 ^ n) ∨ t < 1 / 10 ∧ t ≤ (10 ^ n - 1) / 10 ^ n * (1 / 10) := by
  obtain ⟨m, j, hm, rfl⟩ := h
  rcases le_or_gt (-n : ℤ) j with hj | hj
  · left
    obtain ⟨i, hi⟩ := Int.le.dest hj
    refine ⟨m * 10 ^ i, ?_⟩
    rw [← hi, zpow_add₀ (by norm_num), zpow_neg, zpow_natCast, zpow_natCast]
    push_cast
    ring
  · right
    have hmQ : (m : ℚ) ≤ 10 ^ n - 1 := by
      have hle : ((m + 1 : ℕ) : ℚ) ≤ (10 ^ n : ℕ) := by exact_mod_cast hm
      push_cast at hle
      linarith
    have hpow : (10 : ℚ) ^ j ≤ 10 ^ (-n - 1 : ℤ) := zpow_le_zpow_right₀ (by norm_num) (by omega)
    have hle : (m : ℚ) * 10 ^ j ≤ (10 ^ n - 1) / 10 ^ n * (1 / 10) := by
      calc
        (m : ℚ) * 10 ^ j ≤ (10 ^ n - 1) * 10 ^ (-n - 1 : ℤ) :=
          mul_le_mul hmQ hpow (by positivity) (by linarith [(Nat.cast_nonneg m : (0 : ℚ) ≤ m)])
        _ = (10 ^ n - 1) / 10 ^ n * (1 / 10) := by
          rw [zpow_sub_one₀ (by norm_num), zpow_neg, zpow_natCast]
          ring
    refine ⟨hle.trans_lt (mul_lt_of_lt_one_left (by norm_num) ?_), hle⟩
    rw [div_lt_one (by positivity)]
    linarith

namespace Window

variable {w : Window} {inclusive : Bool} {ds : List ℕ}

theorem IsBest.not_holds (h : w.IsBest inclusive ds) (hproper : w.IsProper inclusive)
    (habove : Precedes inclusive 1 (w.high * 10)) {n : ℕ} (hn : n < ds.length) {t : ℚ}
    (ht : HasDigits n t) : ¬w.Holds inclusive t := by
  intro hholds
  rcases ht.grid_or_le with ⟨z, rfl⟩ | ⟨hlt, hle⟩
  · exact h.coarser n hn z hholds
  · have hlength := h.length_eq_one habove (List.length_pos_iff.1 (by omega)) hlt hholds
    obtain rfl : n = 0 := by omega
    exact hproper.low (hholds.lower.trans_le (by simpa using hle))

/-- Among the decimals with as many digits the nearest is taken, provided that
the value is not much below a tenth when a tenth is in the interval. -/
theorem IsBest.wins (h : w.IsBest inclusive ds) (habove : Precedes inclusive 1 (w.high * 10))
    (hds : ds ≠ []) (hclose : w.Holds inclusive (1 / 10) → w.value < 1 / 10 → 19 / 200 < w.value)
    {t : ℚ} (ht : HasDigits ds.length t) (hholds : w.Holds inclusive t) :
    Wins (EndsEven ds) w.value (fraction ds) t := by
  rcases ht.grid_or_le with ⟨z, rfl⟩ | ⟨hlt, hle⟩
  · exact h.nearest z hholds
  · have hlength := h.length_eq_one habove hds hlt hholds
    have htenth := holds_tenth habove hlt hholds
    have hwins := (h.nearest 1 (by simpa [hlength] using htenth)).le
    rw [hlength] at hle hwins
    norm_num at hle hwins
    right
    left
    refine hwins.trans_lt ?_
    rcases le_or_gt (1 / 10) w.value with hge | hgt
    · rw [abs_sub_comm, abs_sub_comm t, abs_of_nonneg (by linarith), abs_of_nonneg (by linarith)]
      linarith
    · have hfar := hclose htenth hgt
      rw [abs_of_nonneg (by linarith), abs_sub_comm, abs_of_nonneg (by linarith)]
      linarith

end Window

/-! ## The digits of a double -/

section

variable {x : Binary64}

theorem value_windowOf (x : Binary64) :
    (windowOf x).value = x.magnitude / Binary64.unitsPerOne := by
  obtain ⟨low, value, high, e, hwindow, hvalue, _, _⟩ := windowOf_eq x
  rw [hwindow, ← hvalue]
  exact mul_two_zpow value e

theorem start_value (estimate : ℤ) (hx : 0 < x.significand) :
    (start estimate x).1.value * 10 ^ (start estimate x).2 =
      x.magnitude / Binary64.unitsPerOne := by
  obtain ⟨a, b, hw, hk⟩ := isMoved_start estimate hx
  rw [hw, hk, ← value_windowOf, zpow_sub₀ (by norm_num), zpow_natCast, zpow_natCast]
  simp only [Window.value, Window.stretch]
  push_cast
  field_simp

theorem start_isProper (estimate : ℤ) (hx : 0 < x.significand) :
    (start estimate x).1.IsProper x.isEven := by
  obtain ⟨hframes, hbelow, _⟩ := start_frames estimate hx
  refine ⟨fun hlow ↦ ?_, hbelow⟩
  have hpow : (0 : ℚ) < 10 ^ (start estimate x).2 := by positivity
  have hle : (start estimate x).1.low * 10 ^ (start estimate x).2 ≤ 0 :=
    mul_nonpos_of_nonpos_of_nonneg hlow.le hpow.le
  rw [hframes.low_eq] at hle
  refine absurd hle (not_le.2 (div_pos ?_ Binary64.unitsPerOne_pos))
  exact sub_pos.2 (Binary64.lowerGap_lt hx)

/-- A tenth that the interval reaches from below is close to the value. -/
theorem start_close (estimate : ℤ) (hx : 0 < x.significand)
    (hholds : (start estimate x).1.Holds x.isEven (1 / 10))
    (hlt : (start estimate x).1.value < 1 / 10) : 19 / 200 < (start estimate x).1.value := by
  have hunits := Binary64.unitsPerOne_pos
  have hpow : (0 : ℚ) < 10 ^ (start estimate x).2 := by positivity
  have hvalue : (start estimate x).1.value * (10 ^ (start estimate x).2 * Binary64.unitsPerOne) =
      x.magnitude := by
    rw [← mul_assoc, start_value estimate hx, div_mul_cancel₀ _ hunits.ne']
  have htenth : 10 ^ ((start estimate x).2 - 1) * (Binary64.unitsPerOne : ℚ) =
      1 / 10 * (10 ^ (start estimate x).2 * Binary64.unitsPerOne) := by
    rw [zpow_sub_one₀ (by norm_num)]
    ring
  have hupper := ((start_holds_iff estimate hx _).1 hholds).upper.le
  rw [mul_assoc, ← htenth] at hupper
  have hclose := Binary64.lt_of_between hx (j := (start estimate x).2 - 1) ?_ hupper
  · rw [htenth, ← hvalue, ← mul_assoc] at hclose
    have h := lt_of_mul_lt_mul_right hclose (mul_pos hpow hunits).le
    linarith
  · rw [htenth, ← hvalue]
    exact mul_lt_mul_of_pos_right hlt (mul_pos hpow hunits)

/-- There is no zero to drop at the end of the digits. -/
theorem shortestFrom_eq_expand (estimate : ℤ) (hx : 0 < x.significand) :
    shortestFrom estimate x =
      ⟨(start estimate x).1.expand x.isEven, (start estimate x).2⟩ := by
  obtain ⟨hframes, hbelow, _⟩ := start_frames estimate hx
  have hbest := Window.isBest_expand hframes.toIsOpen (start_isProper estimate hx)
  have hlast := hbest.getLast?_ne_zero (Window.expand_spec hframes.toIsOpen hbelow).2
  rw [shortestFrom_eq, dropTrailingZeros_eq_self hlast]

/-- The decimal is the shortest in the rounding interval of `x`, and the
closest to `x` of that length. -/
structure IsShortest (x : Binary64) (d : Decimal) : Prop where
  isWritten : IsWritten d.digits
  head_ne_zero : d.digits.head? ≠ some 0
  last_ne_zero : d.digits.getLast? ≠ some 0
  isNearest : x.IsNearest (d.number * Binary64.unitsPerOne)
  shortest : ∀ n < d.digits.length, ∀ t, HasDigits n t →
    ¬x.IsNearest (t * Binary64.unitsPerOne)
  closest : ∀ t, HasDigits d.digits.length t → x.IsNearest (t * Binary64.unitsPerOne) →
    |d.number - x.magnitude / Binary64.unitsPerOne| ≤ |t - x.magnitude / Binary64.unitsPerOne|
  even_of_tie : ∀ t, HasDigits d.digits.length t → x.IsNearest (t * Binary64.unitsPerOne) →
    |d.number - x.magnitude / Binary64.unitsPerOne| = |t - x.magnitude / Binary64.unitsPerOne| →
    t ≠ d.number → EndsEven d.digits

theorem isShortest_shortestFrom (estimate : ℤ) (hx : 0 < x.significand) :
    IsShortest x (shortestFrom estimate x) := by
  obtain ⟨hframes, hbelow, habove⟩ := start_frames estimate hx
  have hproper := start_isProper estimate hx
  have hbest := Window.isBest_expand hframes.toIsOpen hproper
  obtain ⟨hwritten, hholds⟩ := Window.expand_spec hframes.toIsOpen hbelow
  have hpow : (10 : ℚ) ^ (start estimate x).2 ≠ 0 := by positivity
  have hcancel (t : ℚ) : t * 10 ^ (-(start estimate x).2) * 10 ^ (start estimate x).2 = t := by
    rw [zpow_neg, inv_mul_cancel_right₀ hpow]
  -- A number in the interval of the double, seen in the window.
  have hwindow {t : ℚ} (ht : x.IsNearest (t * Binary64.unitsPerOne)) :
      (start estimate x).1.Holds x.isEven (t * 10 ^ (-(start estimate x).2)) := by
    rwa [start_holds_iff estimate hx, hcancel]
  rw [shortestFrom_eq_expand estimate hx]
  have hwins {t : ℚ} (hdigits : HasDigits ((start estimate x).1.expand x.isEven).length t)
      (ht : x.IsNearest (t * Binary64.unitsPerOne)) :
      Wins (EndsEven ((start estimate x).1.expand x.isEven)) (x.magnitude / Binary64.unitsPerOne)
        (number ⟨(start estimate x).1.expand x.isEven, (start estimate x).2⟩) t := by
    have hscaled := (hbest.wins habove hwritten.ne_nil (start_close estimate hx)
      (hdigits.mul_zpow _) (hwindow ht)).mul_add hpow 0
    rw [hcancel, start_value estimate hx] at hscaled
    simpa only [number, add_zero] using hscaled
  refine ⟨hwritten, ?_, hbest.getLast?_ne_zero hholds, ?_, ?_, ?_, ?_⟩
  · exact hbest.head?_ne_zero hproper habove hwritten hholds
  · exact (start_holds_iff estimate hx _).1 hholds
  · intro n hn t hdigits ht
    exact hbest.not_holds hproper habove hn (hdigits.mul_zpow _) (hwindow ht)
  · intro t hdigits ht
    exact (hwins hdigits ht).le
  · intro t hdigits ht htie hne
    rcases hwins hdigits ht with heq | hlt | ⟨_, heven⟩
    · exact absurd heq hne
    · exact absurd htie hlt.ne
    · exact heven

/-- For every estimate the three loops end, with one and the same decimal: the
shortest of the interval, and the closest of these. -/
theorem exists_isShortest_of_every_estimate (x : Binary64) (hx : x.isZero = false) :
    ∃ d : Decimal, IsShortest x d ∧ ∀ estimate : ℤ, shortestFrom estimate x = d ∧
      ∃ (shrunk start : Window × ℤ) (last : Window × List ℕ),
        WhileEnds (Window.isTooLarge x.isEven) Window.enlargeScale
          ((windowOf x).scaleBy estimate, estimate) shrunk ∧
        WhileEnds (Window.isTooSmall x.isEven) Window.enlargeValue shrunk start ∧
        WhileEnds (fun s ↦ s.1.isUndecided x.isEven) Window.takeDigit (start.1, []) last ∧
        d = ⟨last.2 ++ [last.1.lastDigit x.isEven], start.2⟩ := by
  have hpos := x.significand_pos hx
  refine ⟨shortestFrom 0 x, isShortest_shortestFrom 0 hpos, fun estimate ↦
    ⟨shortestFrom_congr estimate 0 hpos, ?_⟩⟩
  obtain ⟨shrunk, hshrink, hgrow⟩ := start_ends estimate hpos
  have hopen := (start_frames estimate hpos).1.toIsOpen
  obtain ⟨last, hexpand, hlast⟩ := @Window.expand_ends _ x.isEven hopen []
  refine ⟨shrunk, start estimate x, last, hshrink, hgrow, hexpand, ?_⟩
  rw [hlast, shortestFrom_congr 0 estimate hpos, shortestFrom_eq_expand estimate hpos,
    List.nil_append]

theorem isShortest_one_of_every_estimate : Binary64.one.isZero = false ∧
    IsShortest Binary64.one ⟨[1], 1⟩ ∧
      ∀ estimate : ℤ, shortestFrom estimate Binary64.one = ⟨[1], 1⟩ := by
  have hone : shortestFrom 1 Binary64.one = ⟨[1], 1⟩ := by decide +kernel
  obtain ⟨d, hshortest, hall⟩ := exists_isShortest_of_every_estimate Binary64.one (by decide)
  obtain rfl : d = ⟨[1], 1⟩ := (hall 1).1.symm.trans hone
  exact ⟨by decide, hshortest, fun estimate ↦ (hall estimate).1⟩

end

end Decimal

end Ecma
