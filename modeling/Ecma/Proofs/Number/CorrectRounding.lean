import Ecma.Proofs.Number.Exactness

/-!
# Correct rounding

Rounding a ratio gives the double whose rounding interval holds it: the nearest
one, at a midpoint the one with an even significand, and an infinity from half a
step beyond the largest double on.  There is only one such double of each sign.
-/

namespace Ecma

theorem Precedes.of_lt_or_eq {inclusive : Bool} {a b : ℚ} (h : a < b ∨ inclusive = true ∧ a = b) :
    Precedes inclusive a b := by
  rcases h with hlt | ⟨rfl, heq⟩
  · exact .of_lt hlt
  · exact heq.le

namespace Binary64

/-! ## Rounding to an integer -/

/-- The result is at most a half away, and a half only if it is even. -/
theorem roundHalfEven_spec {n d : ℕ} (hd : 0 < d) :
    Precedes (roundHalfEven n d % 2 == 0) (roundHalfEven n d - 1 / 2) (n / d) ∧
      Precedes (roundHalfEven n d % 2 == 0) (n / d) (roundHalfEven n d + 1 / 2) := by
  have hdQ : (0 : ℚ) < d := by exact_mod_cast hd
  have hbounds :
      (2 * (d * roundHalfEven n d) < 2 * n + d ∨
        roundHalfEven n d % 2 = 0 ∧ 2 * (d * roundHalfEven n d) = 2 * n + d) ∧
      (2 * n < 2 * (d * roundHalfEven n d) + d ∨
        roundHalfEven n d % 2 = 0 ∧ 2 * n = 2 * (d * roundHalfEven n d) + d) := by
    have hdiv : d * (n / d) + n % d = n := Nat.div_add_mod n d
    have hmod : n % d < d := Nat.mod_lt n hd
    have hnext : d * (n / d + 1) = d * (n / d) + d := Nat.mul_succ ..
    unfold roundHalfEven
    dsimp only
    split <;> omega
  obtain ⟨hlow, hhigh⟩ := hbounds
  generalize roundHalfEven n d = m at hlow hhigh ⊢
  constructor
  · apply Precedes.of_lt_or_eq
    rw [lt_div_iff₀ hdQ, eq_div_iff hdQ.ne']
    refine hlow.imp (fun h ↦ ?_) (fun h ↦ ⟨by simp [h.1], ?_⟩)
    · have hQ : (2 * (d * m) : ℚ) < 2 * n + d := by exact_mod_cast h
      linarith
    · have hQ : (2 * (d * m) : ℚ) = 2 * n + d := by exact_mod_cast h.2
      linarith
  · apply Precedes.of_lt_or_eq
    rw [div_lt_iff₀ hdQ, div_eq_iff hdQ.ne']
    refine hhigh.imp (fun h ↦ ?_) (fun h ↦ ⟨by simp [h.1], ?_⟩)
    · have hQ : (2 * n : ℚ) < 2 * (d * m) + d := by exact_mod_cast h
      linarith
    · have hQ : (2 * n : ℚ) = 2 * (d * m) + d := by exact_mod_cast h.2
      linarith

/-! ## Rounding to a double -/

/-- The number `t` is rounded to `m` multiples of `2 ^ p`, where `2 ^ p` is the
spacing of its binade. -/
structure IsRoundedTo (t : ℚ) (p m : ℕ) : Prop where
  lt_two_pow : t < 2 ^ (53 + p)
  two_pow_le : p ≠ 0 → 2 ^ (52 + p) ≤ t
  lower : Precedes (m % 2 == 0) ((m - 1 / 2) * 2 ^ p) t
  upper : Precedes (m % 2 == 0) t ((m + 1 / 2) * 2 ^ p)

theorem isRoundedTo_roundHalfEven {n d : ℕ} (hd : 0 < d) :
    IsRoundedTo (n / d) ((n / d).log2 - 52)
      (roundHalfEven n (d * Nat.pow 2 ((n / d).log2 - 52))) := by
  have hdQ : (0 : ℚ) < d := by exact_mod_cast hd
  have hspec {p : ℕ} := roundHalfEven_spec (n := n) (Nat.mul_pos hd (Nat.two_pow_pos p))
  have hpow {p : ℕ} : (0 : ℚ) < 2 ^ p := by positivity
  constructor
  · have hlt : n / d < 2 ^ (53 + ((n / d).log2 - 52)) :=
      Nat.lt_of_lt_of_le Nat.lt_log2_self (Nat.pow_le_pow_right (by decide) (by omega))
    rw [div_lt_iff₀ hdQ]
    exact_mod_cast (Nat.div_lt_iff_lt_mul hd).1 hlt
  · intro hlog
    have hne : n / d ≠ 0 := by
      intro hzero
      rw [hzero] at hlog
      exact hlog rfl
    have hexponent : 52 + ((n / d).log2 - 52) = (n / d).log2 := by omega
    rw [hexponent, le_div_iff₀ hdQ]
    exact_mod_cast (Nat.le_div_iff_mul_le hd).1 (Nat.log2_self_le hne)
  · rw [← div_mul_two_pow n d, Precedes.mul_iff hpow]
    exact hspec.1
  · rw [← div_mul_two_pow n d, Precedes.mul_iff hpow]
    exact hspec.2

namespace IsRoundedTo

variable {t : ℚ} {p m : ℕ} (h : IsRoundedTo t p m)

include h

theorem le_two_mul_hiddenBit : m ≤ 2 * hiddenBit := by
  have hpow : (0 : ℚ) < 2 ^ p := by positivity
  have hlt : ((m : ℚ) - 1 / 2) * 2 ^ p < 2 ^ 53 * 2 ^ p := by
    rw [← pow_add]
    exact lt_of_le_of_lt h.lower.le h.lt_two_pow
  have hm : (m : ℚ) < 2 ^ 53 + 1 := by
    have hlt := lt_of_mul_lt_mul_right hlt hpow.le
    linarith
  have hm' : m < 2 ^ 53 + 1 := by exact_mod_cast hm
  unfold hiddenBit
  omega

theorem hiddenBit_le (hp : p ≠ 0) : hiddenBit ≤ m := by
  have hpow : (0 : ℚ) < 2 ^ p := by positivity
  have hle : 2 ^ 52 * 2 ^ p ≤ ((m : ℚ) + 1 / 2) * 2 ^ p := by
    rw [← pow_add]
    exact (h.two_pow_le hp).trans h.upper.le
  have hm : (2 : ℚ) ^ 52 < m + 1 := by
    have hle := le_of_mul_le_mul_right hle hpow
    linarith
  have hm' : 2 ^ 52 < m + 1 := by exact_mod_cast hm
  unfold hiddenBit
  omega

/-- Without a carry the multiple is the significand. -/
theorem isNearest_of_lt {x : Binary64} (hword : x.absWord = p * hiddenBit + m)
    (hm : m < 2 * hiddenBit) : x.IsNearest t := by
  obtain ⟨hpower, hsig⟩ := fields_of_absWord hword hm h.hiddenBit_le
  have heven : x.isEven = (m % 2 == 0) := by rw [isEven, hsig]
  have hmagnitude : (x.magnitude : ℚ) = m * 2 ^ p := by rw [magnitude_cast, hpower, hsig]
  constructor
  · rw [heven, hmagnitude, lowerGap, hpower, hsig]
    split
    · -- The first number of a binade: `t` is not below it.
      rename_i hfirst
      have hpow : (0 : ℚ) < 2 ^ p := by positivity
      have hle := h.two_pow_le hfirst.2
      apply Precedes.of_lt
      rw [hfirst.1]
      unfold hiddenBit
      rw [pow_add] at hle
      push_cast
      linarith
    · apply h.lower.le_trans
      rw [sub_mul]
      linarith
  · rw [heven, hmagnitude, upperGap, hpower]
    apply h.upper.trans_le
    rw [add_mul]
    linarith

/-- A carry leads to the first number of the next binade. -/
theorem isNearest_of_eq {x : Binary64} (hword : x.absWord = p * hiddenBit + m)
    (hm : m = 2 * hiddenBit) : x.IsNearest t := by
  have hword' : x.absWord = (p + 1) * hiddenBit + hiddenBit := by
    rw [hword, hm]
    ring
  obtain ⟨hpower, hsig⟩ := fields_of_absWord hword' (by decide) (fun _ ↦ le_rfl)
  have hpow : (0 : ℚ) < 2 ^ p := by positivity
  have hmagnitude : (x.magnitude : ℚ) = 2 ^ 53 * 2 ^ p := by
    rw [magnitude_cast, hpower, hsig, pow_succ]
    unfold hiddenBit
    push_cast
    ring
  have hmQ : (m : ℚ) = 2 ^ 53 := by
    rw [hm]
    unfold hiddenBit
    norm_num
  have hgap : x.lowerGap = 2 ^ p / 2 := by
    rw [lowerGap, if_pos ⟨hsig, by omega⟩, hpower, pow_succ]
    ring
  have heven : x.isEven = true := by
    rw [isEven, hsig]
    rfl
  constructor
  · rw [heven, hmagnitude, hgap]
    have hle := h.lower.le
    rw [hmQ, sub_mul] at hle
    change _ ≤ _
    linarith
  · apply Precedes.of_lt
    have hlt := h.lt_two_pow
    have hupper := x.upperGap_pos
    rw [pow_add] at hlt
    rw [hmagnitude]
    linarith

theorem isNearest {x : Binary64} (hword : x.absWord = p * hiddenBit + m) : x.IsNearest t := by
  rcases Nat.lt_or_eq_of_le h.le_two_mul_hiddenBit with hm | hm
  · exact h.isNearest_of_lt hword hm
  · exact h.isNearest_of_eq hword hm

/-- A word beyond the finite ones is that of a number half a step beyond the
largest double, or more. -/
theorem le_of_overflow (hword : infinityWord ≤ p * hiddenBit + m) :
    (2 ^ 53 - 1 / 2) * 2 ^ 2045 ≤ t := by
  have hm := h.le_two_mul_hiddenBit
  by_cases hp : p = 2045
  · -- Here only a carry overflows.
    have hm' : m = 2 * hiddenBit := by
      unfold infinityWord hiddenBit at *
      omega
    have hle := h.lower.le
    rw [hm', hp] at hle
    unfold hiddenBit at hle
    push_cast at hle
    refine le_trans (mul_le_mul_of_nonneg_right ?_ (by positivity)) hle
    norm_num
  · have hlarge : 2046 ≤ p := by
      unfold infinityWord hiddenBit at *
      omega
    calc
      ((2 : ℚ) ^ 53 - 1 / 2) * 2 ^ 2045 ≤ 2 ^ 53 * 2 ^ 2045 := by
        refine mul_le_mul_of_nonneg_right ?_ (by positivity)
        norm_num
      _ = 2 ^ (52 + 2046) := by rw [← pow_add]
      _ ≤ 2 ^ (52 + p) := pow_le_pow_right₀ (by norm_num) (by omega)
      _ ≤ t := h.two_pow_le (by omega)

end IsRoundedTo

/-! ## The correctly rounded number -/

/-- The double with the given sign and the size `q`, correctly rounded.  What is
at least half a step beyond the largest double becomes an infinity. -/
inductive Rounds (x : Binary64) (negative : Bool) (q : ℚ) : Prop
  | finite (hsign : x.isNegative = negative) (hfinite : x.isFinite = true)
      (hnearest : x.IsNearest (q * unitsPerOne))
  | infinite (hsign : x.isNegative = negative) (hinfinite : x.isInfinite = true)
      (hle : 2 ^ 1024 - 2 ^ 970 ≤ q)

/-- Half a step beyond the largest double, in units. -/
theorem overflow_units :
    ((2 : ℚ) ^ 1024 - 2 ^ 970) * unitsPerOne = (2 ^ 53 - 1 / 2) * 2 ^ 2045 := by
  rw [unitsPerOne_cast, sub_mul, sub_mul, ← pow_add, ← pow_add, ← pow_add]
  congr 1
  have hdouble : (2 : ℚ) ^ 2045 = 2 ^ (970 + 1074) * 2 := pow_succ _ _
  rw [hdouble]
  generalize (2 : ℚ) ^ (970 + 1074) = u
  ring

theorem rounds_ofUnits (negative : Bool) {n d : ℕ} (hd : 0 < d) {q : ℚ}
    (hq : q * unitsPerOne = n / d) : (ofUnits negative n d).Rounds negative q := by
  have hrounded := isRoundedTo_roundHalfEven (n := n) hd
  rw [← hq] at hrounded
  unfold ofUnits roundRatio
  dsimp only
  generalize (n / d).log2 - 52 = p at *
  generalize roundHalfEven n (d * Nat.pow 2 p) = m at *
  rcases Nat.lt_or_ge (p * hiddenBit + m) infinityWord with hlt | hge
  · rw [Nat.min_eq_left hlt.le]
    have hsign : p * hiddenBit + m < signBit := Nat.lt_trans hlt (by decide)
    have habs := absWord_withSign negative hsign
    apply Rounds.finite (isNegative_withSign negative hsign)
    · rw [isFinite, habs]
      exact decide_eq_true hlt
    · exact hrounded.isNearest habs
  · rw [Nat.min_eq_right hge]
    have hsign : infinityWord < signBit := by decide
    apply Rounds.infinite (isNegative_withSign negative hsign)
    · rw [isInfinite, absWord_withSign negative hsign]
      exact decide_eq_true rfl
    · apply le_of_mul_le_mul_right _ unitsPerOne_pos
      rw [overflow_units]
      exact hrounded.le_of_overflow hge

/-- The interval of the largest double ends where infinity begins; the largest
double is odd, so that its end is not in it. -/
theorem IsNearest.lt_overflow {x : Binary64} {t : ℚ} (hx : x.isFinite = true)
    (h : x.IsNearest t) : t < (2 ^ 53 - 1 / 2) * 2 ^ 2045 := by
  have hpower : (2 : ℚ) ^ x.power ≤ 2 ^ 2045 := by
    apply pow_le_pow_right₀ (by norm_num)
    have hlt := x.power_lt hx
    omega
  have hpow : (0 : ℚ) < 2 ^ x.power := by positivity
  have hend : (x.magnitude : ℚ) + x.upperGap = (x.significand + 1 / 2) * 2 ^ x.power := by
    rw [magnitude_cast, upperGap]
    ring
  have hupper := h.upper
  rw [hend] at hupper
  by_cases hodd : x.significand = 2 * hiddenBit - 1
  · have heven : x.isEven = false := by
      rw [isEven, hodd]
      decide
    rw [heven] at hupper
    refine lt_of_lt_of_le hupper (mul_le_mul ?_ hpower hpow.le (by norm_num))
    rw [hodd]
    unfold hiddenBit
    norm_num
  · have hsig : (x.significand : ℚ) + 1 / 2 < 2 ^ 53 - 1 / 2 := by
      have hlt := x.significand_lt
      have hle : x.significand + 2 ≤ 2 * hiddenBit := by omega
      have hleQ : (x.significand : ℚ) + 2 ≤ (2 * hiddenBit : ℕ) := by exact_mod_cast hle
      unfold hiddenBit at hleQ
      norm_num at hleQ ⊢
      linarith
    refine lt_of_le_of_lt hupper.le (mul_lt_mul hsig hpower hpow (by norm_num))

theorem absWord_ofUnits (negative : Bool) (n d : ℕ) :
    (ofUnits negative n d).absWord = roundRatio n d := by
  apply absWord_withSign
  exact Nat.lt_of_le_of_lt (Nat.min_le_right _ _) (by decide)

theorem Rounds.absWord_eq {x : Binary64} {negative : Bool} {q : ℚ} (hx : x.Rounds negative q)
    {n d : ℕ} (hd : 0 < d) (hq : q * unitsPerOne = n / d) : x.absWord = roundRatio n d := by
  cases hx with
  | finite hsign hfinite hnearest =>
      rw [hq] at hnearest
      exact (hnearest.roundRatio_eq_absWord hfinite hd).symm
  | infinite hsign hinfinite hle =>
      have hword : x.absWord = infinityWord := of_decide_eq_true hinfinite
      rw [hword, ← absWord_ofUnits negative]
      cases rounds_ofUnits negative hd hq with
      | finite hsign' hfinite' hnearest' =>
          have hlt := hnearest'.lt_overflow hfinite'
          rw [← overflow_units] at hlt
          exact absurd (mul_le_mul_of_nonneg_right hle unitsPerOne_pos.le) hlt.not_ge
      | infinite hsign' hinfinite' hle' => exact (of_decide_eq_true hinfinite').symm

theorem Rounds.isNegative_eq {x : Binary64} {negative : Bool} {q : ℚ} (hx : x.Rounds negative q) :
    x.isNegative = negative := by
  cases hx with
  | finite hsign => exact hsign
  | infinite hsign => exact hsign

/-- There is one correctly rounded number. -/
theorem Rounds.unique {x y : Binary64} {negative : Bool} {q : ℚ} (hq : 0 ≤ q)
    (hx : x.Rounds negative q) (hy : y.Rounds negative q) : x = y := by
  have hratio : q * unitsPerOne = (q.num.natAbs * unitsPerOne : ℕ) / q.den := by
    have hnum : ((q.num.natAbs : ℕ) : ℚ) = q.num := by
      rw [Nat.cast_natAbs, abs_of_nonneg (Rat.num_nonneg.2 hq)]
    rw [Nat.cast_mul, hnum, mul_div_right_comm, Rat.num_div_den]
  rw [← withSign_absWord x, ← withSign_absWord y, hx.isNegative_eq, hy.isNegative_eq,
    hx.absWord_eq q.den_pos hratio, hy.absWord_eq q.den_pos hratio]

end Binary64

end Ecma
