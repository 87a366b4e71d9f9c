import Ecma.Number.Boundary
import Ecma.Proofs.Number.Nearest

/-!
# The boundaries are the ends of the rounding interval

Every shift below keeps the value of a fraction because it has room for the
bits it moves up: a significand of a double has fifty-three bits, and the
boundaries need two more.
-/

namespace Ecma

namespace BinaryFraction

/-- The number a fraction stands for. -/
def value (w : BinaryFraction) : ℚ := w.significand.toNat * 2 ^ w.exponent

theorem toNat_shiftLeft {a : UInt64} {k : ℕ} (hk : k < 64) (h : a.toNat * 2 ^ k < 2 ^ 64) :
    (a <<< UInt64.ofNat k).toNat = a.toNat * 2 ^ k := by
  have hcount : (UInt64.ofNat k).toNat % 64 = k := by
    simp only [UInt64.toNat_ofNat']
    omega
  rw [UInt64.toNat_shiftLeft, hcount, Nat.shiftLeft_eq, Nat.mod_eq_of_lt h]

/-! ## Shifts that keep the value -/

/-- A fraction whose significand moves up to a smaller exponent. -/
theorem value_shift {a : UInt64} {k : ℕ} (e : ℤ) (hk : k < 64) (h : a.toNat * 2 ^ k < 2 ^ 64) :
    value ⟨a <<< UInt64.ofNat k, e - k⟩ = value ⟨a, e⟩ := by
  simp only [value, toNat_shiftLeft hk h]
  rw [zpow_sub₀ two_ne_zero, zpow_natCast]
  push_cast
  field_simp

theorem mul_two_pow_lt {n : ℕ} (hn : n < 2 ^ 64) : n * 2 ^ (63 - n.log2) < 2 ^ 64 := by
  by_cases hzero : n = 0
  · simp [hzero]
  · have hlog : n.log2 < 64 := (Nat.log2_lt hzero).2 hn
    calc
      n * 2 ^ (63 - n.log2) < 2 ^ (n.log2 + 1) * 2 ^ (63 - n.log2) :=
        Nat.mul_lt_mul_of_pos_right Nat.lt_log2_self (Nat.two_pow_pos _)
      _ = 2 ^ 64 := by
        rw [← Nat.pow_add]
        congr 1
        omega

theorem value_normalize (w : BinaryFraction) : w.normalize.value = w.value :=
  value_shift w.exponent (by omega) (mul_two_pow_lt w.significand.toNat_lt)

theorem value_withExponent {w : BinaryFraction} {e : ℤ} {k : ℕ} (he : w.exponent = e + k)
    (hk : k < 64) (h : w.significand.toNat * 2 ^ k < 2 ^ 64) :
    (w.withExponent e).value = w.value := by
  have hcount : (w.exponent - e).toNat = k := by omega
  have hexponent : e = w.exponent - k := by omega
  simp only [withExponent, hcount]
  rw [hexponent]
  exact value_shift w.exponent hk h

/-! ## The boundaries of a double -/

section

variable (x : Binary64)

theorem toNat_significand_ofBinary64 : (ofBinary64 x).significand.toNat = x.significand := by
  have hlt := x.significand_lt
  simp only [ofBinary64, Binary64.hiddenBit, UInt64.toNat_ofNat'] at hlt ⊢
  omega

theorem two_zpow_exponent :
    (2 : ℚ) ^ (ofBinary64 x).exponent = 2 ^ x.power / Binary64.unitsPerOne := by
  have hunits : (2 : ℚ) ^ minExponent = (Binary64.unitsPerOne : ℚ)⁻¹ := by
    rw [Binary64.unitsPerOne_cast, ← zpow_natCast, ← zpow_neg]
    rfl
  rw [ofBinary64, zpow_add₀ two_ne_zero, zpow_natCast, hunits, mul_comm, div_eq_mul_inv]

theorem value_ofBinary64 : (ofBinary64 x).value = x.magnitude / Binary64.unitsPerOne := by
  rw [value, two_zpow_exponent, toNat_significand_ofBinary64, Binary64.magnitude_cast,
    mul_div_assoc]

/-- How far the upper boundary is shifted to set its top bit. -/
def upperShift : ℕ := 63 - (2 * x.significand + 1).log2

theorem one_le_upperShift : 1 ≤ upperShift x := by
  have hlt := x.significand_lt
  have hlog : (2 * x.significand + 1).log2 < 63 := by
    apply (Nat.log2_lt (by omega)).2
    simp only [Binary64.hiddenBit] at hlt
    omega
  unfold upperShift
  omega

theorem mul_upperShift_lt : (2 * x.significand + 1) * 2 ^ upperShift x < 2 ^ 64 := by
  apply mul_two_pow_lt
  have hlt := x.significand_lt
  simp only [Binary64.hiddenBit] at hlt
  omega

theorem toNat_upper : (((ofBinary64 x).significand <<< 1) + 1).toNat = 2 * x.significand + 1 := by
  have hlt := x.significand_lt
  have hsig := toNat_significand_ofBinary64 x
  simp only [Binary64.hiddenBit] at hlt
  have hshift := toNat_shiftLeft (a := (ofBinary64 x).significand) (k := 1) (by decide) (by omega)
  rw [UInt64.toNat_add, show (1 : UInt64) = UInt64.ofNat 1 from rfl, hshift]
  simp only [UInt64.toNat_ofNat']
  omega

theorem exponent_upperMidpoint :
    (ofBinary64 x).upperMidpoint.exponent = (ofBinary64 x).exponent - 1 - upperShift x := by
  simp only [upperMidpoint, normalize, toNat_upper, upperShift]

theorem value_upperMidpoint :
    (ofBinary64 x).upperMidpoint.value = (x.magnitude + x.upperGap) / Binary64.unitsPerOne := by
  rw [upperMidpoint, value_normalize, value]
  simp only [toNat_upper]
  rw [zpow_sub_one₀ two_ne_zero, two_zpow_exponent, Binary64.magnitude_cast, Binary64.upperGap]
  push_cast
  ring

/-- How many bits finer than its number the lower midpoint is written. -/
def lowerBits : ℕ := if (ofBinary64 x).lowerIsCloser then 2 else 1

theorem lowerBits_mem : 1 ≤ lowerBits x ∧ lowerBits x ≤ 2 := by
  unfold lowerBits
  split <;> decide

theorem lowerMidpoint_eq : (ofBinary64 x).lowerMidpoint =
    ⟨(ofBinary64 x).significand <<< UInt64.ofNat (lowerBits x) - 1,
      (ofBinary64 x).exponent - lowerBits x⟩ := by
  unfold lowerMidpoint lowerBits
  split <;> rfl

theorem lowerGap_eq : x.lowerGap = 2 ^ x.power / 2 ^ lowerBits x := by
  have hiff : (ofBinary64 x).lowerIsCloser = true ↔
      x.significand = Binary64.hiddenBit ∧ x.power ≠ 0 := by
    rw [lowerIsCloser, toNat_significand_ofBinary64]
    simp [ofBinary64]
  unfold Binary64.lowerGap lowerBits
  simp only [hiff]
  split <;> norm_num

theorem toNat_lowerMidpoint (hx : 0 < x.significand) :
    (ofBinary64 x).lowerMidpoint.significand.toNat = x.significand * 2 ^ lowerBits x - 1 := by
  have hlt := x.significand_lt
  have hsig := toNat_significand_ofBinary64 x
  obtain ⟨_, hbits⟩ := lowerBits_mem x
  simp only [Binary64.hiddenBit] at hlt
  have hmul : x.significand * 2 ^ lowerBits x ≤ x.significand * 2 ^ 2 :=
    Nat.mul_le_mul_left _ (Nat.pow_le_pow_right (by decide) hbits)
  have hpos : 0 < x.significand * 2 ^ lowerBits x := Nat.mul_pos hx (Nat.two_pow_pos _)
  have hshift := toNat_shiftLeft (a := (ofBinary64 x).significand) (k := lowerBits x) (by omega)
    (by rw [hsig]; omega)
  rw [hsig] at hshift
  rw [lowerMidpoint_eq, UInt64.toNat_sub_of_le, hshift]
  · rfl
  · rw [UInt64.le_iff_toNat_le, hshift]
    exact hpos

theorem value_lowerMidpoint (hx : 0 < x.significand) :
    (ofBinary64 x).lowerMidpoint.value = (x.magnitude - x.lowerGap) / Binary64.unitsPerOne := by
  have hpos : 1 ≤ x.significand * 2 ^ lowerBits x := Nat.mul_pos hx (Nat.two_pow_pos _)
  rw [value, toNat_lowerMidpoint x hx, lowerMidpoint_eq, lowerGap_eq, Binary64.magnitude_cast]
  simp only
  rw [zpow_sub₀ two_ne_zero, zpow_natCast, two_zpow_exponent]
  generalize (Binary64.unitsPerOne : ℚ) = u
  push_cast [hpos]
  field_simp

theorem value_boundaries_snd :
    (boundaries x).2.value = (x.magnitude + x.upperGap) / Binary64.unitsPerOne :=
  value_upperMidpoint x

/-- How far the lower boundary is shifted to be written like the upper one. -/
theorem exponent_lowerMidpoint_sub : (ofBinary64 x).lowerMidpoint.exponent -
    (ofBinary64 x).upperMidpoint.exponent = (upperShift x + 1 - lowerBits x : ℕ) := by
  obtain ⟨_, hbits⟩ := lowerBits_mem x
  have hshift := one_le_upperShift x
  rw [exponent_upperMidpoint, lowerMidpoint_eq]
  simp only
  omega

theorem lowerShift_lt : upperShift x + 1 - lowerBits x < 64 := by
  obtain ⟨hbits, _⟩ := lowerBits_mem x
  unfold upperShift
  omega

/-- The lower midpoint is below the upper one, for which there is room. -/
theorem toNat_lowerMidpoint_mul_lt (hx : 0 < x.significand) :
    (ofBinary64 x).lowerMidpoint.significand.toNat * 2 ^ (upperShift x + 1 - lowerBits x) <
      2 ^ 64 := by
  obtain ⟨_, hbits⟩ := lowerBits_mem x
  have hshift := one_le_upperShift x
  rw [toNat_lowerMidpoint x hx]
  calc
    (x.significand * 2 ^ lowerBits x - 1) * 2 ^ (upperShift x + 1 - lowerBits x) ≤
        x.significand * 2 ^ lowerBits x * 2 ^ (upperShift x + 1 - lowerBits x) :=
      Nat.mul_le_mul_right _ (Nat.sub_le _ _)
    _ = 2 * x.significand * 2 ^ upperShift x := by
      rw [Nat.mul_assoc, ← Nat.pow_add, Nat.add_sub_cancel' (by omega)]
      ring
    _ ≤ (2 * x.significand + 1) * 2 ^ upperShift x :=
      Nat.mul_le_mul_right _ (Nat.le_succ _)
    _ < 2 ^ 64 := mul_upperShift_lt x

theorem value_boundaries_fst (hx : 0 < x.significand) :
    (boundaries x).1.value = (x.magnitude - x.lowerGap) / Binary64.unitsPerOne := by
  have hexponent := exponent_lowerMidpoint_sub x
  rw [← value_lowerMidpoint x hx]
  exact value_withExponent (by omega) (lowerShift_lt x) (toNat_lowerMidpoint_mul_lt x hx)

end

end BinaryFraction

end Ecma
