import Ecma.Number.Rounding
import Mathlib.Algebra.Order.Field.Rat
import Mathlib.Algebra.Order.Field.Power
import Mathlib.Data.Rat.Cast.Order
import Mathlib.Tactic.FieldSimp
import Mathlib.Tactic.Linarith
import Mathlib.Tactic.NormNum
import Mathlib.Tactic.Positivity
import Mathlib.Tactic.Ring

/-!
# The rationals a double is nearest to

The rounding interval of a finite double ends at the midpoints to its two
neighbours, and its ends belong to it when the significand is even.  Rounding
any ratio in the interval gives the double: below the first number of a binade
the ratio is rounded with the finer spacing of the binade before it, and the
carry leads to the same word.
-/

namespace Ecma

/-- `a ≤ b` when ends count, `a < b` when they do not. -/
def Precedes (inclusive : Bool) (a b : ℚ) : Prop := if inclusive then a ≤ b else a < b

namespace Precedes

variable {inclusive : Bool} {a b c : ℚ}

theorem le (h : Precedes inclusive a b) : a ≤ b := by
  cases inclusive with
  | false => exact le_of_lt h
  | true => exact h

theorem of_lt (h : a < b) : Precedes inclusive a b := by
  cases inclusive with
  | false => exact h
  | true => exact le_of_lt h

theorem trans_le (h : Precedes inclusive a b) (hb : b ≤ c) : Precedes inclusive a c := by
  cases inclusive with
  | false => exact lt_of_lt_of_le h hb
  | true => exact LE.le.trans h hb

theorem le_trans (hab : a ≤ b) (h : Precedes inclusive b c) : Precedes inclusive a c := by
  cases inclusive with
  | false => exact lt_of_le_of_lt hab h
  | true => exact hab.trans h

theorem lt_or_eq (h : Precedes inclusive a b) : a < b ∨ inclusive = true ∧ a = b := by
  cases inclusive with
  | false => exact .inl h
  | true =>
      rcases lt_or_eq_of_le (show a ≤ b from h) with hlt | heq
      · exact .inl hlt
      · exact .inr ⟨rfl, heq⟩

theorem mul_iff (hc : 0 < c) : Precedes inclusive (a * c) (b * c) ↔ Precedes inclusive a b := by
  cases inclusive with
  | false => exact mul_lt_mul_iff_of_pos_right hc
  | true => exact mul_le_mul_iff_of_pos_right hc

theorem add_iff (c : ℚ) : Precedes inclusive (c + a) (c + b) ↔ Precedes inclusive a b := by
  cases inclusive with
  | false => exact add_lt_add_iff_left c
  | true => exact add_le_add_iff_left c

end Precedes

namespace Binary64

/-! ## Significand and power -/

theorem exponentField_lt (x : Binary64) (hx : x.isFinite = true) : x.exponentField < 2047 := by
  have hword : x.absWord < infinityWord := of_decide_eq_true hx
  simp only [absWord, exponentField, infinityWord, signBit, hiddenBit] at hword ⊢
  omega

theorem significand_lt (x : Binary64) : x.significand < 2 * hiddenBit := by
  have htrailing : x.trailing < hiddenBit := Nat.mod_lt _ (by decide)
  unfold significand
  split <;> omega

theorem power_lt (x : Binary64) (hx : x.isFinite = true) : x.power < 2046 := by
  have hfield := x.exponentField_lt hx
  unfold power
  omega

theorem hiddenBit_le_significand (x : Binary64) (hp : x.power ≠ 0) :
    hiddenBit ≤ x.significand := by
  have hfield : x.exponentField ≠ 0 := by
    unfold power at hp
    omega
  rw [significand, if_neg hfield]
  omega

theorem absWord_eq (x : Binary64) : x.absWord = x.power * hiddenBit + x.significand := by
  have hsplit : x.absWord = x.exponentField * hiddenBit + x.trailing := by
    simp only [absWord, exponentField, trailing, signBit, hiddenBit]
    omega
  unfold significand power
  split
  · rename_i hzero
    simp [hsplit, hzero]
  · rename_i hne
    obtain ⟨e, he⟩ := Nat.exists_eq_succ_of_ne_zero hne
    rw [hsplit, he, Nat.succ_mul]
    simp only [Nat.succ_eq_add_one, Nat.add_sub_cancel]
    omega

theorem significand_pos (x : Binary64) (hx : x.isZero = false) : 0 < x.significand := by
  have hword : x.absWord ≠ 0 := of_decide_eq_false hx
  by_cases hp : x.power = 0
  · rw [absWord_eq, hp] at hword
    omega
  · exact Nat.lt_of_lt_of_le (by decide) (x.hiddenBit_le_significand hp)

/-! ## The rounding interval -/

/-- The distance to the midpoint with the next larger number, in units. -/
def upperGap (x : Binary64) : ℚ := 2 ^ x.power / 2

/-- The distance to the midpoint with the next smaller number, in units. -/
def lowerGap (x : Binary64) : ℚ :=
  if x.significand = hiddenBit ∧ x.power ≠ 0 then 2 ^ x.power / 4 else 2 ^ x.power / 2

/-- Whether the ends of the rounding interval belong to it. -/
def isEven (x : Binary64) : Bool := x.significand % 2 == 0

/-- The rounding interval of `x` contains `t` units. -/
structure IsNearest (x : Binary64) (t : ℚ) : Prop where
  lower : Precedes x.isEven (x.magnitude - x.lowerGap) t
  upper : Precedes x.isEven t (x.magnitude + x.upperGap)

theorem magnitude_cast (x : Binary64) : (x.magnitude : ℚ) = x.significand * 2 ^ x.power := by
  simp [magnitude]

theorem cast_two_pow (k : ℕ) : (Nat.pow 2 k : ℚ) = 2 ^ k := by
  rw [Nat.pow_eq, Nat.cast_pow, Nat.cast_ofNat]

/-- A power with any integer exponent, as a ratio of natural numbers. -/
theorem cast_pow_div_pow {b : ℕ} (hb : b ≠ 0) (e : ℤ) :
    ((Nat.pow b e.toNat : ℕ) : ℚ) / (Nat.pow b (-e).toNat : ℕ) = (b : ℚ) ^ e := by
  have hbQ : (b : ℚ) ≠ 0 := by exact_mod_cast hb
  rw [Nat.pow_eq, Nat.pow_eq, Nat.cast_pow, Nat.cast_pow, ← zpow_natCast, ← zpow_natCast,
    ← zpow_sub₀ hbQ]
  congr 1
  omega

theorem unitsPerOne_cast : (unitsPerOne : ℚ) = 2 ^ 1074 := by
  unfold unitsPerOne
  apply cast_two_pow

theorem unitsPerOne_pos : (0 : ℚ) < unitsPerOne := by
  rw [unitsPerOne_cast]
  positivity

theorem lowerGap_pos (x : Binary64) : 0 < x.lowerGap := by
  unfold lowerGap
  split <;> positivity

theorem lowerGap_le (x : Binary64) : x.lowerGap ≤ 2 ^ x.power / 2 := by
  have hpow : (0 : ℚ) < 2 ^ x.power := by positivity
  unfold lowerGap
  split <;> linarith

theorem upperGap_pos (x : Binary64) : 0 < x.upperGap := by
  unfold upperGap
  positivity

/-- The interval ends inside the binade of its number. -/
theorem magnitude_add_upperGap_lt (x : Binary64) :
    x.magnitude + x.upperGap < 2 ^ (53 + x.power) := by
  have hsig : (x.significand : ℚ) + 1 ≤ 2 ^ 53 := by
    have hlt := x.significand_lt
    unfold hiddenBit at hlt
    exact_mod_cast hlt
  have hpow : (0 : ℚ) < 2 ^ x.power := by positivity
  rw [magnitude_cast, upperGap, pow_add]
  nlinarith

theorem isNearest_magnitude (x : Binary64) : x.IsNearest x.magnitude := by
  refine ⟨.of_lt ?_, .of_lt ?_⟩
  · linarith [x.lowerGap_pos]
  · linarith [x.upperGap_pos]

/-! ## Rounding to an integer -/

theorem roundHalfEven_eq {n d m : ℕ} (hd : 0 < d)
    (hlow : Precedes (m % 2 == 0) (m - 1 / 2) (n / d))
    (hhigh : Precedes (m % 2 == 0) (n / d) (m + 1 / 2)) : roundHalfEven n d = m := by
  have hdQ : (0 : ℚ) < d := by exact_mod_cast hd
  have hlow' : 2 * (d * m) < 2 * n + d ∨ m % 2 = 0 ∧ 2 * (d * m) = 2 * n + d := by
    refine hlow.lt_or_eq.imp (fun h ↦ ?_) (fun h ↦ ⟨by simpa using h.1, ?_⟩)
    · rw [lt_div_iff₀ hdQ] at h
      exact_mod_cast (by linarith : (2 * (d * m) : ℚ) < 2 * n + d)
    · have h := (eq_div_iff hdQ.ne').1 h.2
      exact_mod_cast (by linarith : (2 * (d * m) : ℚ) = 2 * n + d)
  have hhigh' : 2 * n < 2 * (d * m) + d ∨ m % 2 = 0 ∧ 2 * n = 2 * (d * m) + d := by
    refine hhigh.lt_or_eq.imp (fun h ↦ ?_) (fun h ↦ ⟨by simpa using h.1, ?_⟩)
    · rw [div_lt_iff₀ hdQ] at h
      exact_mod_cast (by linarith : (2 * n : ℚ) < 2 * (d * m) + d)
    · have h := (div_eq_iff hdQ.ne').1 h.2
      exact_mod_cast (by linarith : (2 * n : ℚ) = 2 * (d * m) + d)
  have hdiv : d * (n / d) + n % d = n := Nat.div_add_mod n d
  have hmod : n % d < d := Nat.mod_lt n hd
  -- The quotient is `m`, or one less with a remainder of half or more.
  have hquot : n / d = m ∨ m = n / d + 1 := by
    have hle : n / d ≤ m := by
      by_contra hlt
      have hmul : d * (m + 1) ≤ d * (n / d) := Nat.mul_le_mul_left d (by omega)
      rw [Nat.mul_succ] at hmul
      omega
    have hge : m ≤ n / d + 1 := by
      by_contra hlt
      have hmul : d * (n / d + 1 + 1) ≤ d * m := Nat.mul_le_mul_left d (by omega)
      rw [Nat.mul_succ, Nat.mul_succ] at hmul
      omega
    omega
  unfold roundHalfEven
  rcases hquot with hq | hq
  · rw [hq] at hdiv
    rw [hq, if_neg (by omega)]
  · rw [hq, Nat.mul_succ] at hlow' hhigh'
    rw [if_pos (by omega), hq]

/-! ## Rounding to a double -/

theorem div_mul_two_pow (n d k : ℕ) :
    (n / (d * Nat.pow 2 k : ℕ) : ℚ) * 2 ^ k = n / d := by
  rw [Nat.cast_mul, cast_two_pow]
  field_simp

theorem log2_div_eq {n d k : ℕ} (hd : 0 < d) (hlow : (2 : ℚ) ^ k ≤ n / d)
    (hhigh : (n / d : ℚ) < 2 ^ (k + 1)) : (n / d).log2 = k := by
  have hdQ : (0 : ℚ) < d := by exact_mod_cast hd
  rw [le_div_iff₀ hdQ] at hlow
  rw [div_lt_iff₀ hdQ] at hhigh
  have hlow' : 2 ^ k ≤ n / d := (Nat.le_div_iff_mul_le hd).2 (by exact_mod_cast hlow)
  have hhigh' : n / d < 2 ^ (k + 1) := (Nat.div_lt_iff_lt_mul hd).2 (by exact_mod_cast hhigh)
  have hne : n / d ≠ 0 := Nat.ne_of_gt (Nat.lt_of_lt_of_le (by positivity) hlow')
  exact (Nat.log2_eq_iff hne).2 ⟨hlow', hhigh'⟩

theorem log2_div_lt {n d k : ℕ} (hd : 0 < d) (hk : 0 < k) (hhigh : (n / d : ℚ) < 2 ^ k) :
    (n / d).log2 < k := by
  have hdQ : (0 : ℚ) < d := by exact_mod_cast hd
  rw [div_lt_iff₀ hdQ] at hhigh
  have hhigh' : n / d < 2 ^ k := (Nat.div_lt_iff_lt_mul hd).2 (by exact_mod_cast hhigh)
  by_cases hzero : n / d = 0
  · rw [hzero]
    exact hk
  · exact (Nat.log2_lt hzero).2 hhigh'

/-! ## The range of the doubles

Powers of two and ten are compared in steps of a few hundred bits. -/

theorem two_pow_lt_ten_pow_324 : (2 : ℚ) ^ 1074 < 10 ^ 324 := by
  have hsplit : ((2 : ℚ) ^ 179) ^ 6 < (10 ^ 54) ^ 6 :=
    pow_lt_pow_left₀ (by norm_num) (by positivity) (by decide)
  rwa [← pow_mul, ← pow_mul] at hsplit

theorem two_pow_lt_ten_pow_310 : (2 : ℚ) ^ 1025 < 10 ^ 310 := by
  have hsplit : ((2 : ℚ) ^ 205) ^ 5 < (10 ^ 62) ^ 5 :=
    pow_lt_pow_left₀ (by norm_num) (by positivity) (by decide)
  rwa [← pow_mul, ← pow_mul] at hsplit

/-- What is at most half a unit is rounded to zero. -/
theorem isNearest_zero {t : ℚ} (hlow : 0 ≤ t) (hhigh : t ≤ 1 / 2) : zero.IsNearest t := by
  have hsig : zero.significand = 0 := by decide
  have hpower : zero.power = 0 := by decide
  have heven : zero.isEven = true := by decide
  constructor
  · have hle : (zero.magnitude : ℚ) - zero.lowerGap ≤ t := by
      rw [magnitude_cast, hsig, Nat.cast_zero, zero_mul]
      linarith [zero.lowerGap_pos]
    rwa [heven]
  · have hle : t ≤ (zero.magnitude : ℚ) + zero.upperGap := by
      rw [magnitude_cast, upperGap, hsig, hpower, Nat.cast_zero, zero_mul]
      linarith
    rwa [heven]

/-- What is beyond the largest finite number is rounded to infinity. -/
theorem roundRatio_eq_infinityWord {n d k : ℕ} (hd : 0 < d) (hk : 2099 ≤ k)
    (h : (2 : ℚ) ^ k ≤ n / d) : roundRatio n d = infinityWord := by
  have hdQ : (0 : ℚ) < d := by exact_mod_cast hd
  rw [le_div_iff₀ hdQ] at h
  have hle : 2 ^ k ≤ n / d := (Nat.le_div_iff_mul_le hd).2 (by exact_mod_cast h)
  have hlog : k ≤ (n / d).log2 :=
    (Nat.le_log2 (Nat.ne_of_gt (Nat.lt_of_lt_of_le (Nat.two_pow_pos _) hle))).2 hle
  have hpower : 2047 * hiddenBit ≤ ((n / d).log2 - 52) * hiddenBit :=
    Nat.mul_le_mul_right _ (by omega)
  exact Nat.min_eq_right (Nat.le_trans hpower (Nat.le_add_right _ _))

namespace IsNearest

variable {x : Binary64} {n d : ℕ}

/-- The interval begins at most one binade before its number. -/
theorem two_pow_le {t : ℚ} (h : x.IsNearest t) (hp : x.power ≠ 0) : 2 ^ (51 + x.power) ≤ t := by
  have hsig : (2 : ℚ) ^ 52 ≤ x.significand := by
    have hle := x.hiddenBit_le_significand hp
    unfold hiddenBit at hle
    exact_mod_cast hle
  have hpow : (0 : ℚ) < 2 ^ x.power := by positivity
  have hle := h.lower.le
  rw [magnitude_cast] at hle
  rw [pow_add]
  nlinarith [x.lowerGap_le]

/-- Rounding with the spacing of `x` itself. -/
theorem roundHalfEven_eq_significand (hd : 0 < d) (h : x.IsNearest (n / d)) :
    roundHalfEven n (d * Nat.pow 2 x.power) = x.significand := by
  have hpow : (0 : ℚ) < 2 ^ x.power := by positivity
  have hratio := div_mul_two_pow n d x.power
  refine roundHalfEven_eq (Nat.mul_pos hd (Nat.two_pow_pos _)) ?_ ?_
  · rw [← Precedes.mul_iff hpow, hratio]
    refine Precedes.le_trans ?_ h.lower
    rw [magnitude_cast]
    linarith [x.lowerGap_le]
  · rw [← Precedes.mul_iff hpow, hratio]
    apply h.upper.trans_le
    rw [magnitude_cast, upperGap]
    linarith

/-- A number whose interval reaches below its binade is the first of it. -/
theorem significand_eq_hiddenBit {t : ℚ} (h : x.IsNearest t) (hp : x.power ≠ 0)
    (hbelow : t < 2 ^ (52 + x.power)) : x.significand = hiddenBit := by
  have hge := x.hiddenBit_le_significand hp
  by_contra hne
  have hsig : (2 : ℚ) ^ 52 + 1 ≤ x.significand := by
    have hgt : hiddenBit + 1 ≤ x.significand := by omega
    unfold hiddenBit at hgt
    exact_mod_cast hgt
  have hpow : (0 : ℚ) < 2 ^ x.power := by positivity
  have hle := h.lower.le
  rw [magnitude_cast] at hle
  rw [pow_add] at hbelow
  nlinarith [x.lowerGap_le]

/-- Rounding below the binade, with half the spacing of `x`. -/
theorem roundHalfEven_eq_double (hd : 0 < d) (h : x.IsNearest (n / d)) (hp : x.power ≠ 0)
    (hbelow : (n / d : ℚ) < 2 ^ (52 + x.power)) :
    roundHalfEven n (d * Nat.pow 2 (x.power - 1)) = 2 * hiddenBit := by
  have hsig := h.significand_eq_hiddenBit hp hbelow
  have heven : x.isEven = true := by simp [isEven, hsig, hiddenBit]
  have hpow : (0 : ℚ) < 2 ^ (x.power - 1) := by positivity
  have hdouble : (2 : ℚ) ^ x.power = 2 ^ (x.power - 1) * 2 := by
    rw [← pow_succ, Nat.sub_add_cancel (Nat.one_le_iff_ne_zero.2 hp)]
  have hratio := div_mul_two_pow n d (x.power - 1)
  refine roundHalfEven_eq (Nat.mul_pos hd (Nat.two_pow_pos _)) ?_ ?_
  · rw [← Precedes.mul_iff hpow, hratio]
    refine Precedes.le_trans ?_ (heven ▸ h.lower)
    rw [magnitude_cast, lowerGap, if_pos ⟨hsig, hp⟩, hsig, hdouble]
    push_cast
    linarith
  · rw [← Precedes.mul_iff hpow, hratio]
    refine .of_lt (hbelow.trans ?_)
    rw [pow_add, hdouble, hiddenBit]
    push_cast
    linarith

/-- Rounding is correct: every ratio in the interval of `x` is rounded to `x`. -/
theorem roundRatio_eq_absWord (hx : x.isFinite = true) (hd : 0 < d) (h : x.IsNearest (n / d)) :
    roundRatio n d = x.absWord := by
  have hfinite : x.absWord < infinityWord := of_decide_eq_true hx
  have hhigh := lt_of_le_of_lt h.upper.le x.magnitude_add_upperGap_lt
  suffices hword : (n / d).log2 - 52 = x.power ∨
      x.power ≠ 0 ∧ (n / d).log2 - 52 = x.power - 1 ∧ (n / d : ℚ) < 2 ^ (52 + x.power) by
    unfold roundRatio
    rcases hword with hp | ⟨hne, hp, hbelow⟩
    · simp only [hp]
      rw [h.roundHalfEven_eq_significand hd, ← x.absWord_eq]
      exact Nat.min_eq_left hfinite.le
    · simp only [hp]
      rw [h.roundHalfEven_eq_double hd hne hbelow]
      have hcarry : (x.power - 1) * hiddenBit + 2 * hiddenBit = x.absWord := by
        rw [x.absWord_eq, h.significand_eq_hiddenBit hne hbelow]
        obtain ⟨p, hp⟩ := Nat.exists_eq_succ_of_ne_zero hne
        rw [hp, Nat.succ_eq_add_one, Nat.add_sub_cancel, Nat.add_one_mul p]
        omega
      rw [hcarry]
      exact Nat.min_eq_left hfinite.le
  by_cases hp : x.power = 0
  · rw [hp] at hhigh
    have hlog := log2_div_lt hd (by decide) hhigh
    exact .inl (by omega)
  · by_cases hbelow : (n / d : ℚ) < 2 ^ (52 + x.power)
    · have hlog := log2_div_eq hd (h.two_pow_le hp) (by rwa [Nat.add_right_comm])
      exact .inr ⟨hp, by omega, hbelow⟩
    · have hlog := log2_div_eq hd (not_lt.1 hbelow) (by rwa [Nat.add_right_comm])
      exact .inl (by omega)

end IsNearest

end Binary64

end Ecma
