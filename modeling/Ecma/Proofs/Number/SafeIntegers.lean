import Ecma.Proofs.Number.ClosestDigits
import Ecma.Proofs.Number.Exactness

/-!
# Integers that are represented exactly

Doubles below `2 ^ 53` are at most one apart, so the rounding interval of an
integer among them holds no other integer, and a decimal with a fraction has
fewer digits than the integer only where it is ten times smaller.  The shortest
digits therefore denote the integer itself, and laying them out writes it: the
short cut for such integers gives what digit generation gives.
-/

namespace Ecma

namespace Binary64

/-! ## The interval of an integer -/

section

variable {x : Binary64} {n : ℕ} (hvalue : x.magnitude = n * unitsPerOne) (hn : n < 2 ^ 53)

include hvalue hn

theorem power_le_of_integer : x.power ≤ 1074 := by
  by_contra hpower
  have hsig : (2 : ℚ) ^ 52 ≤ x.significand := by
    have hle := x.hiddenBit_le_significand (by omega)
    unfold hiddenBit at hle
    exact_mod_cast hle
  have hpow : 2 * (unitsPerOne : ℚ) ≤ 2 ^ x.power := by
    rw [unitsPerOne_cast, ← pow_succ']
    exact pow_le_pow_right₀ (by norm_num) (by omega)
  have hnQ : (n : ℚ) < 2 ^ 53 := by exact_mod_cast hn
  have hmagnitude : (x.significand : ℚ) * 2 ^ x.power = n * unitsPerOne := by
    rw [← magnitude_cast]
    exact_mod_cast hvalue
  have hunits := unitsPerOne_pos
  have hlow := mul_le_mul hsig hpow (by linarith only [hunits]) (Nat.cast_nonneg _)
  have hhigh := mul_lt_mul_of_pos_right hnQ hunits
  linarith only [hlow, hhigh, hmagnitude]

/-- The interval reaches at most half a unit to either side. -/
theorem abs_sub_le_half {t : ℚ} (ht : x.IsNearest (t * unitsPerOne)) : |t - n| ≤ 1 / 2 := by
  have hunits := unitsPerOne_pos
  have hmagnitude : (x.magnitude : ℚ) = n * unitsPerOne := by exact_mod_cast hvalue
  have hgap : (2 : ℚ) ^ x.power ≤ unitsPerOne := by
    rw [unitsPerOne_cast]
    exact pow_le_pow_right₀ (by norm_num) (power_le_of_integer hvalue hn)
  have hlower := ht.lower.le
  have hupper := ht.upper.le
  have hlowerGap := x.lowerGap_le
  rw [hmagnitude] at hlower hupper
  rw [upperGap] at hupper
  generalize (unitsPerOne : ℚ) = u at *
  rw [abs_le]
  constructor
  · apply le_of_mul_le_mul_right _ hunits
    linarith
  · apply le_of_mul_le_mul_right _ hunits
    linarith

end

end Binary64

namespace Decimal

open Binary64

/-! ## The digits of an integer -/

theorem cast_digitsValue_eq {d : Decimal} (hwritten : IsWritten d.digits) :
    d.number = digitsValue 10 (d.digits.map Nat.digitChar) * 10 ^ (d.point - d.digits.length) := by
  rw [digitsValue_map hwritten.lt_ten, number, zpow_sub₀ (by norm_num), zpow_natCast, mul_assoc,
    mul_div_cancel₀ _ (by positivity)]

theorem hasDigits_number {d : Decimal} (hwritten : IsWritten d.digits) :
    HasDigits d.digits.length d.number := by
  refine ⟨_, _, ?_, cast_digitsValue_eq hwritten⟩
  simpa using digitsValue_lt (by decide : 0 < 10) (d.digits.map Nat.digitChar)

/-- An integer next to a decimal needs no more digits: the decimal is the integer, or
has a fraction and then digits of its own for the whole part. -/
theorem HasDigits.of_near {k n : ℕ} {t : ℚ} (ht : HasDigits k t) (hpos : 0 < n)
    (hnear : |t - n| ≤ 1 / 2) : HasDigits k (n : ℚ) := by
  by_cases hsmall : n < 10 ^ k
  · exact ⟨n, 0, hsmall, by simp⟩
  obtain ⟨m, j, hm, rfl⟩ := ht
  rw [abs_le] at hnear
  rcases le_or_gt 0 j with hj | hj
  · -- A whole number this close is the integer.
    obtain ⟨i, rfl⟩ := Int.eq_ofNat_of_zero_le hj
    refine ⟨m, i, hm, ?_⟩
    have hcast : (m : ℚ) * 10 ^ (i : ℤ) = ((m * 10 ^ i : ℕ) : ℚ) := by
      push_cast
      rw [zpow_natCast]
    rw [hcast] at hnear ⊢
    have hlow : n < m * 10 ^ i + 1 := by
      exact_mod_cast (by linarith [hnear.1] : (n : ℚ) < (m * 10 ^ i : ℕ) + 1)
    have hhigh : m * 10 ^ i < n + 1 := by
      exact_mod_cast (by linarith [hnear.2] : ((m * 10 ^ i : ℕ) : ℚ) < n + 1)
    exact_mod_cast (by omega : n = m * 10 ^ i)
  · -- With a fraction it is at most a tenth of the integer.
    have hmQ : (m : ℚ) ≤ n := by
      have hmn : m ≤ n := by omega
      exact_mod_cast hmn
    have hone : (1 : ℚ) ≤ n := by exact_mod_cast hpos
    have htenth : (10 : ℚ) ^ j ≤ 10 ^ (-1 : ℤ) := zpow_le_zpow_right₀ (by norm_num) (by omega)
    have hle : (m : ℚ) * 10 ^ j ≤ n * 10 ^ (-1 : ℤ) :=
      mul_le_mul hmQ htenth (by positivity) (by positivity)
    rw [zpow_neg_one] at hle
    linarith [hnear.1]

/-- The shortest digits of an integer denote it. -/
theorem IsShortest.number_eq_integer {x : Binary64} {d : Decimal} (h : IsShortest x d) {n : ℕ}
    (hvalue : x.magnitude = n * unitsPerOne) (hpos : 0 < n) (hn : n < 2 ^ 53) : d.number = n := by
  have hunits := unitsPerOne_pos
  have hmagnitude : (x.magnitude : ℚ) = n * unitsPerOne := by exact_mod_cast hvalue
  have hnear := abs_sub_le_half hvalue hn h.isNearest
  have hdigits := (hasDigits_number h.isWritten).of_near hpos hnear
  have hself : x.IsNearest (n * unitsPerOne) := by
    rw [← hmagnitude]
    exact x.isNearest_magnitude
  have hclosest := h.closest n hdigits hself
  rw [hmagnitude, mul_div_cancel_right₀ _ hunits.ne', sub_self, abs_zero] at hclosest
  exact sub_eq_zero.1 (abs_nonpos_iff.1 hclosest)

/-! ## Writing an integer -/

theorem fraction_nonneg (ds : List ℕ) : 0 ≤ fraction ds := by
  induction ds with
  | nil => exact le_rfl
  | cons d ds ih =>
      rw [fraction_cons]
      positivity

theorem tenth_le_fraction {ds : List ℕ} (hne : ds ≠ []) (hhead : ds.head? ≠ some 0) :
    1 / 10 ≤ fraction ds := by
  match ds, hne with
  | d :: ds, _ =>
      have hd : (1 : ℚ) ≤ d := by
        have hpos : d ≠ 0 := by simpa using hhead
        exact_mod_cast Nat.pos_of_ne_zero hpos
      rw [fraction_cons]
      linarith [fraction_nonneg ds]

/-- Digits without a zero in front are those that their number is written with. -/
theorem toDigits_digitsValue {ds : List ℕ} (hwritten : IsWritten ds)
    (hhead : ds.head? ≠ some 0) :
    Nat.toDigits 10 (digitsValue 10 (ds.map Nat.digitChar)) = ds.map Nat.digitChar := by
  induction ds using List.reverseRecOn with
  | nil => exact absurd rfl hwritten.ne_nil
  | append_singleton init d ih =>
      have hd : d < 10 := hwritten.lt_ten d (by simp)
      rw [List.map_append, List.map_singleton, digitsValue_append_singleton,
        digitValue?_digitChar hd, Option.getD_some, Nat.toDigits_eq_if (by decide)]
      by_cases hinit : init = []
      · simp [hinit, digitsValue_eq_foldl, hd]
      · have hbefore : IsWritten init :=
          ⟨hinit, fun e he ↦ hwritten.lt_ten e (List.mem_append_left _ he)⟩
        have hhead' : init.head? ≠ some 0 := by
          rwa [List.head?_append_of_ne_nil _ hinit] at hhead
        have hpos : 0 < digitsValue 10 (init.map Nat.digitChar) := by
          have hfraction := tenth_le_fraction hinit hhead'
          have hvalue := digitsValue_map hbefore.lt_ten
          have hpow : (0 : ℚ) < 10 ^ init.length := by positivity
          have hposQ : (0 : ℚ) < fraction init * 10 ^ init.length := by
            apply mul_pos _ hpow
            linarith
          rw [← hvalue] at hposQ
          exact_mod_cast hposQ
        have hdiv : (d + 10 * digitsValue 10 (init.map Nat.digitChar)) / 10 =
            digitsValue 10 (init.map Nat.digitChar) := by omega
        have hmod : (d + 10 * digitsValue 10 (init.map Nat.digitChar)) % 10 = d := by omega
        rw [if_neg (by omega), hdiv, hmod, ih hbefore hhead']

/-- Where there is no zero at the end the last place counts. -/
theorem digitsValue_mod_ten {ds : List ℕ} (hwritten : IsWritten ds)
    (hlast : ds.getLast? ≠ some 0) : digitsValue 10 (ds.map Nat.digitChar) % 10 ≠ 0 := by
  obtain ⟨init, d, rfl⟩ := List.eq_nil_or_concat' ds |>.resolve_left hwritten.ne_nil
  have hd : d < 10 := hwritten.lt_ten d (by simp)
  have hne : d ≠ 0 := by simpa using hlast
  rw [List.map_append, List.map_singleton, digitsValue_append_singleton, digitValue?_digitChar hd,
    Option.getD_some]
  omega

section

variable {d : Decimal} {n : ℕ} (hwritten : IsWritten d.digits) (hnumber : d.number = n)

include hwritten hnumber

theorem length_le_point (hlast : d.digits.getLast? ≠ some 0) :
    (d.digits.length : ℤ) ≤ d.point := by
  by_contra hlt
  obtain ⟨i, hi⟩ := Int.eq_ofNat_of_zero_le (by omega : 0 ≤ d.digits.length - d.point - 1)
  have hvalue : (digitsValue 10 (d.digits.map Nat.digitChar) : ℚ) = n * 10 ^ (i + 1) := by
    have hpoint : d.point - d.digits.length = -((i + 1 : ℕ) : ℤ) := by omega
    rw [← hnumber, cast_digitsValue_eq hwritten, hpoint, zpow_neg, zpow_natCast,
      inv_mul_cancel_right₀ (by positivity)]
  have hvalue' : digitsValue 10 (d.digits.map Nat.digitChar) = n * 10 ^ (i + 1) := by
    exact_mod_cast hvalue
  apply digitsValue_mod_ten hwritten hlast
  rw [hvalue', Nat.pow_succ, ← Nat.mul_assoc, Nat.mul_mod_left]

theorem point_le_of_lt (hhead : d.digits.head? ≠ some 0) {k : ℕ} (hn : n < 10 ^ k) :
    d.point ≤ k := by
  have hfraction := tenth_le_fraction hwritten.ne_nil hhead
  have hpow : (0 : ℚ) < 10 ^ d.point := by positivity
  have hnQ : (n : ℚ) < 10 ^ (k : ℤ) := by exact_mod_cast hn
  have hlt : (10 : ℚ) ^ (d.point - 1) < 10 ^ (k : ℤ) := by
    refine lt_of_le_of_lt ?_ hnQ
    rw [← hnumber, number, zpow_sub_one₀ (by norm_num)]
    nlinarith
  have hle := (zpow_lt_zpow_iff_right₀ (by norm_num : (1 : ℚ) < 10)).1 hlt
  omega

/-- An integer is laid out as it is written: its digits, with the zeros that
were dropped. -/
theorem layout_of_integer (hhead : d.digits.head? ≠ some 0) (hlast : d.digits.getLast? ≠ some 0)
    (hn : n < 10 ^ 21) : d.layout.toList = Nat.toDigits 10 n := by
  have hcount := length_le_point hwritten hnumber hlast
  have hpoint : d.point ≤ maxPositional := point_le_of_lt hwritten hnumber hhead hn
  obtain ⟨z, hz⟩ := Int.eq_ofNat_of_zero_le (sub_nonneg.2 hcount)
  have hzeros : ∀ e ∈ List.replicate z 0, e = 0 := fun e he ↦ List.eq_of_mem_replicate he
  have hwhole : IsWritten (d.digits ++ List.replicate z 0) :=
    hwritten.append fun e he ↦ by simp [hzeros e he]
  have hfront : (d.digits ++ List.replicate z 0).head? ≠ some 0 := by
    rwa [List.head?_append_of_ne_nil _ hwritten.ne_nil]
  have hvalue : digitsValue 10 ((d.digits ++ List.replicate z 0).map Nat.digitChar) = n := by
    have hpow : (d.digits ++ List.replicate z 0).length = d.point := by
      rw [List.length_append, List.length_replicate]
      push_cast
      omega
    have hcast := digitsValue_map hwhole.lt_ten
    rw [fraction_append_zeros _ _ hzeros, ← zpow_natCast, hpow, ← number, hnumber] at hcast
    exact_mod_cast hcast
  rw [layout, if_pos ⟨hcount, hpoint⟩, String.toList_append, toList_digitText, hz,
    Int.toNat_natCast, toList_zeros, ← List.map_append, ← toDigits_digitsValue hwhole hfront,
    hvalue]

end

end Decimal

namespace Binary64

/-! ## The short cut -/

/-- The text of a number without the short cut for integers, from any first
guess of the position of the point. -/
def generatedText (estimate : ℤ) (x : Binary64) : String :=
  if x.isNaN then "NaN"
  else if x.isZero then "0"
  else if x.isInfinite then (if x.isNegative then "-Infinity" else "Infinity")
  else (if x.isNegative then "-" else "") ++ (Decimal.shortestFrom estimate x.abs).layout

theorem magnitude_abs (x : Binary64) : x.abs.magnitude = x.magnitude := by
  have hexponent : x.abs.exponentField = x.exponentField := by
    rw [exponentField, word_abs, exponentField, absWord]
    unfold signBit hiddenBit
    omega
  have htrailing : x.abs.trailing = x.trailing := by
    rw [trailing, word_abs, trailing, absWord]
    unfold signBit hiddenBit
    omega
  rw [magnitude, magnitude, significand, significand, power, power, hexponent, htrailing]

theorem magnitude_eq_truncateNat {x : Binary64} (hintegral : x.isIntegral = true) :
    x.magnitude = x.truncateNat * unitsPerOne :=
  (Nat.div_mul_cancel (Nat.dvd_of_mod_eq_zero (of_decide_eq_true hintegral))).symm

theorem truncateNat_eq {x : Binary64} {n : ℕ} (hvalue : x.magnitude = n * unitsPerOne) :
    x.truncateNat = n := by
  rw [truncateNat, hvalue, Nat.mul_div_cancel _ zero_lt_unitsPerOne]

/-- The words up to that of the largest safe integer are those with a fine spacing. -/
theorem absWord_le_maxSafeInteger_iff (x : Binary64) :
    x.absWord ≤ maxSafeInteger.absWord ↔ x.power ≤ 1074 := by
  have hmax : maxSafeInteger.absWord = 1076 * hiddenBit - 1 := by decide
  have hsig := x.significand_lt
  have hhidden := x.hiddenBit_le_significand
  rw [hmax, x.absWord_eq]
  unfold hiddenBit at *
  omega

/-- The safe integers are those below `2 ^ 53` in size. -/
theorem isSafeInteger_iff (x : Binary64) : x.isSafeInteger = true ↔
    x.isFinite = true ∧ ∃ n < 2 ^ 53, x.magnitude = n * unitsPerOne := by
  simp only [isSafeInteger, Bool.and_eq_true, decide_eq_true_eq, and_assoc]
  refine and_congr_right fun _ ↦ ?_
  constructor
  · rintro ⟨hintegral, hword⟩
    have hvalue := magnitude_eq_truncateNat hintegral
    exact ⟨x.truncateNat, truncateNat_lt (x.absWord_le_maxSafeInteger_iff.1 hword), hvalue⟩
  · rintro ⟨n, hn, hvalue⟩
    refine ⟨?_, x.absWord_le_maxSafeInteger_iff.2 (power_le_of_integer hvalue hn)⟩
    rw [isIntegral, hvalue, Nat.mul_mod_left]
    rfl

/-- A safe integer is written the same with and without digit generation. -/
theorem toString_truncate_eq_layout (estimate : ℤ) {x : Binary64} {n : ℕ} (hpos : 0 < n)
    (hn : n < 2 ^ 53) (hvalue : x.magnitude = n * unitsPerOne) :
    toString x.truncate =
      (if x.isNegative then "-" else "") ++ (Decimal.shortestFrom estimate x.abs).layout := by
  have hvalue' : x.abs.magnitude = n * unitsPerOne := x.magnitude_abs.trans hvalue
  have hsig : 0 < x.abs.significand := by
    have hmagnitude : 0 < x.abs.magnitude := by
      rw [hvalue']
      exact Nat.mul_pos hpos zero_lt_unitsPerOne
    exact Nat.pos_of_mul_pos_right hmagnitude
  have hshortest := Decimal.isShortest_shortestFrom estimate hsig
  have hlayout := Decimal.layout_of_integer hshortest.isWritten
    (hshortest.number_eq_integer hvalue' hpos hn) hshortest.head_ne_zero hshortest.last_ne_zero
    (Nat.lt_trans hn (by decide))
  have htruncate := truncateNat_eq hvalue
  apply String.toList_injective
  rw [toList_toString_truncate (by omega), htruncate, String.toList_append, hlayout]
  cases x.isNegative <;> rfl

/-- The short cut changes no text: a number is written as digit generation writes
it, from any first guess, also where it is a safe integer and written directly. -/
theorem toText_eq_generatedText (estimate : ℤ) (x : Binary64) :
    x.toText = x.generatedText estimate ∧
      ∀ n : ℕ, 0 < n → n ≤ 2 ^ 53 - 1 → x.isFinite = true → x.magnitude = n * unitsPerOne →
        x.toText = toString x.truncate ∧ toString x.truncate =
          (if x.isNegative then "-" else "") ++ (Decimal.shortestFrom estimate x.abs).layout := by
  have hdirect (n : ℕ) (hpos : 0 < n) (hn : n < 2 ^ 53) (hvalue : x.magnitude = n * unitsPerOne) :=
    toString_truncate_eq_layout estimate hpos hn hvalue
  constructor
  · unfold toText generatedText
    refine ite_congr rfl (fun _ ↦ rfl) fun _ ↦ ite_congr rfl (fun _ ↦ rfl) fun hzero ↦
      ite_congr rfl (fun _ ↦ rfl) fun _ ↦ ?_
    have hzero := Bool.eq_false_iff.2 hzero
    split
    · rename_i hsafe
      obtain ⟨_, n, hn, hvalue⟩ := x.isSafeInteger_iff.1 hsafe
      have hmagnitude := x.magnitude_pos_iff.2 hzero
      rw [hvalue] at hmagnitude
      exact hdirect n (Nat.pos_of_mul_pos_right hmagnitude) hn hvalue
    · have hsig : 0 < x.abs.significand := significand_pos _ (by rwa [isZero_abs])
      rw [Decimal.shortest, Decimal.shortestFrom_congr _ estimate hsig]
  · intro n hpos hle hfinite hvalue
    have hn : n < 2 ^ 53 := Nat.lt_of_le_of_lt hle (by decide)
    refine ⟨?_, hdirect n hpos hn hvalue⟩
    have hsafe := x.isSafeInteger_iff.2 ⟨hfinite, n, hn, hvalue⟩
    have hzero : ¬x.isZero = true := by
      rw [Bool.not_eq_true, ← magnitude_pos_iff, hvalue]
      exact Nat.mul_pos hpos zero_lt_unitsPerOne
    rw [toText, if_neg (by simp [not_isNaN hfinite]), if_neg hzero,
      if_neg (by simp [not_isInfinite hfinite]), if_pos hsafe]

/-- The largest safe integer, negative. -/
theorem toText_eq_generatedText_largest :
    let x : Binary64 := ⟨0xc33fffffffffffff⟩
    x.isFinite = true ∧ x.magnitude = (2 ^ 53 - 1) * unitsPerOne ∧
      x.toText = "-9007199254740991" ∧
      ∀ estimate, "-" ++ (Decimal.shortestFrom estimate x.abs).layout = "-9007199254740991" := by
  intro x
  have hfinite : x.isFinite = true := by decide
  have hvalue : x.magnitude = (2 ^ 53 - 1) * unitsPerOne := by decide +kernel
  have htext (estimate : ℤ) := (toText_eq_generatedText estimate x).2 (2 ^ 53 - 1) (by decide)
    le_rfl hfinite hvalue
  have htruncate : toString x.truncate = "-9007199254740991" := by decide +kernel
  refine ⟨hfinite, hvalue, (htext 0).1.trans htruncate, fun estimate ↦ ?_⟩
  exact (htext estimate).2.symm.trans htruncate

end Binary64

end Ecma
