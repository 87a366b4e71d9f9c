import Ecma.Number.Integer
import Ecma.Proofs.Number.RoundTrip

/-!
# Results that are doubles again

A number below `2 ^ 53` times a power of two is a double, and rounding leaves it
as it is.  The integer part of a double, the remainder of two doubles and the
sums of small integers are of this kind, so what is computed of them is exact.
-/

namespace Ecma

namespace Binary64

/-! ## Units -/

theorem unitsPerOne_eq : unitsPerOne = 2 ^ 1074 := rfl

theorem zero_lt_unitsPerOne : 0 < unitsPerOne := by
  exact_mod_cast unitsPerOne_pos

theorem magnitude_pos_iff (x : Binary64) : 0 < x.magnitude ↔ x.isZero = false := by
  constructor
  · intro hpos
    by_contra hzero
    have hword : x.absWord = 0 := of_decide_eq_true (Bool.not_eq_false _ ▸ hzero)
    rw [x.absWord_eq] at hword
    have hsig : x.significand = 0 := by omega
    rw [magnitude, hsig, Nat.zero_mul] at hpos
    exact absurd hpos (by decide)
  · intro hzero
    exact Nat.mul_pos (x.significand_pos hzero) (Nat.pow_pos (by decide))

theorem magnitude_eq_zero_iff (x : Binary64) : x.magnitude = 0 ↔ x.absWord = 0 := by
  have hpos := x.magnitude_pos_iff
  rw [isZero, decide_eq_false_iff_not] at hpos
  omega

theorem natAbs_units (x : Binary64) : x.units.natAbs = x.magnitude := by
  unfold units
  split <;> simp

/-- The integer part is that of the division of the units. -/
theorem truncate_eq_tdiv (x : Binary64) : x.truncate = x.units.tdiv unitsPerOne := by
  unfold truncate units truncateNat
  split
  · rw [Int.neg_tdiv, Int.ofNat_tdiv]
  · rw [Int.ofNat_tdiv]

/-! ## Words from their fields -/

section

variable (negative : Bool) {w : ℕ} (hw : w < signBit)

include hw

theorem word_withSign :
    (withSign negative w).word = if negative then signBit + w else w := by
  unfold signBit at hw
  apply UInt64.toNat_ofNat_of_lt'
  unfold signBit
  change _ < 2 ^ 64
  split <;> omega

theorem absWord_withSign : (withSign negative w).absWord = w := by
  rw [absWord, word_withSign negative hw]
  unfold signBit at *
  split <;> omega

theorem isNegative_withSign : (withSign negative w).isNegative = negative := by
  rw [isNegative, word_withSign negative hw]
  unfold signBit at *
  cases negative with
  | false => simpa using hw
  | true => simp

end

/-- A word has one significand and one power. -/
theorem fields_of_absWord {x : Binary64} {p m : ℕ} (h : x.absWord = p * hiddenBit + m)
    (hm : m < 2 * hiddenBit) (hp : p ≠ 0 → hiddenBit ≤ m) : x.power = p ∧ x.significand = m := by
  have hsig := x.significand_lt
  have hhidden := x.hiddenBit_le_significand
  rw [x.absWord_eq] at h
  unfold hiddenBit at *
  omega

/-- The size of a finite number determines its word. -/
theorem absWord_eq_of_magnitude_eq {x y : Binary64} (hx : x.isFinite = true)
    (hy : y.isFinite = true) (h : x.magnitude = y.magnitude) : x.absWord = y.absWord := by
  have hround {z : Binary64} (hz : z.isFinite = true) : roundRatio z.magnitude 1 = z.absWord := by
    apply IsNearest.roundRatio_eq_absWord hz Nat.one_pos
    rw [Nat.cast_one, div_one]
    exact z.isNearest_magnitude
  rw [← hround hx, ← hround hy, h]

theorem rank_eq_iff {x y : Binary64} (hx : x.isFinite = true) (hy : y.isFinite = true) :
    x.rank = y.rank ↔ x.units = y.units := by
  have hword : x.absWord = y.absWord ↔ x.magnitude = y.magnitude := by
    refine ⟨fun h ↦ ?_, absWord_eq_of_magnitude_eq hx hy⟩
    have hfields := fields_of_absWord (h.trans y.absWord_eq) y.significand_lt
      y.hiddenBit_le_significand
    rw [magnitude, magnitude, hfields.1, hfields.2]
  have hzero := x.magnitude_eq_zero_iff
  have hzero' := y.magnitude_eq_zero_iff
  unfold rank units
  split <;> split <;> omega

/-! ## Numbers of units that are doubles -/

/-- So many units are a double. -/
def IsRepresentable (n : ℕ) : Prop := ∃ m p : ℕ, m < 2 ^ 53 ∧ p ≤ 2045 ∧ n = m * 2 ^ p

/-- The double is finite and has so many units. -/
structure HasUnits (x : Binary64) (i : ℤ) : Prop where
  isFinite : x.isFinite = true
  units : x.units = i

/-- A number of units has the fields of a double if it is below `2 ^ 53` times a
power of two that divides it. -/
theorem IsRepresentable.exists_fields {n : ℕ} (h : IsRepresentable n) :
    ∃ m p : ℕ, m < 2 * hiddenBit ∧ p ≤ 2045 ∧ (p ≠ 0 → hiddenBit ≤ m) ∧ n = m * 2 ^ p := by
  obtain ⟨m, p, hm, hp, rfl⟩ := h
  -- The power is lowered until the significand is full.
  induction p generalizing m with
  | zero => exact ⟨m, 0, hm, hp, fun h ↦ absurd rfl h, rfl⟩
  | succ p ih =>
      by_cases hfull : hiddenBit ≤ m
      · exact ⟨m, p + 1, hm, hp, fun _ ↦ hfull, rfl⟩
      · have hdouble : 2 * m < 2 ^ 53 := by
          unfold hiddenBit at hfull
          omega
        obtain ⟨m', p', hm', hp', hfull', heq⟩ := ih (2 * m) hdouble (by omega)
        refine ⟨m', p', hm', hp', hfull', ?_⟩
        rw [← heq, Nat.pow_succ]
        ring

/-- What is a double is rounded to itself. -/
theorem hasUnits_ofUnits (negative : Bool) {n : ℕ} (h : IsRepresentable n) :
    (ofUnits negative n 1).HasUnits (if negative then -n else n) := by
  obtain ⟨m, p, hm, hp, hfull, heq⟩ := h.exists_fields
  have hword : p * hiddenBit + m < infinityWord := by
    unfold infinityWord hiddenBit at *
    omega
  have hsign : p * hiddenBit + m < signBit := Nat.lt_trans hword (by decide)
  have habs {s : Bool} : (withSign s (p * hiddenBit + m)).absWord = p * hiddenBit + m :=
    absWord_withSign s hsign
  have hfinite {s : Bool} : (withSign s (p * hiddenBit + m)).isFinite = true := by
    rw [Binary64.isFinite, habs]
    exact decide_eq_true hword
  have hmagnitude {s : Bool} : (withSign s (p * hiddenBit + m)).magnitude = n := by
    obtain ⟨hpower, hsig⟩ := fields_of_absWord habs hm hfull
    rw [magnitude, hpower, hsig, heq]
    rfl
  have hround : roundRatio n 1 = p * hiddenBit + m := by
    rw [← habs (s := negative)]
    apply IsNearest.roundRatio_eq_absWord hfinite Nat.one_pos
    rw [Nat.cast_one, div_one, ← hmagnitude (s := negative)]
    exact isNearest_magnitude _
  rw [ofUnits, hround]
  refine ⟨hfinite, ?_⟩
  rw [Binary64.units, isNegative_withSign negative hsign, hmagnitude]

theorem isRepresentable_magnitude {x : Binary64} (hx : x.isFinite = true) :
    IsRepresentable x.magnitude := by
  refine ⟨x.significand, x.power, x.significand_lt, ?_, rfl⟩
  have hpower := x.power_lt hx
  omega

theorem isRepresentable_integer {n : ℕ} (hn : n < 2 ^ 53) : IsRepresentable (n * unitsPerOne) :=
  ⟨n, 1074, hn, by decide, rfl⟩

/-- The units of an integer of up to fifty-three bits. -/
theorem hasUnits_ofInt {i : ℤ} (hi : i.natAbs < 2 ^ 53) : (ofInt i).HasUnits (i * unitsPerOne) := by
  have h := hasUnits_ofUnits (decide (i < 0)) (isRepresentable_integer hi)
  have hunits : i * unitsPerOne =
      if decide (i < 0) then -((i.natAbs * unitsPerOne : ℕ) : ℤ)
      else (i.natAbs * unitsPerOne : ℕ) := by
    push_cast
    split <;> rename_i hneg
    · rw [abs_of_neg (of_decide_eq_true hneg), neg_mul, neg_neg]
    · rw [abs_of_nonneg (not_lt.1 (of_decide_eq_false (Bool.eq_false_iff.2 hneg)))]
  rw [hunits]
  exact h

/-! ## Integer part -/

theorem truncateNat_lt {x : Binary64} (hpower : x.power ≤ 1074) :
    x.truncateNat < 2 ^ 53 := by
  rw [truncateNat, Nat.div_lt_iff_lt_mul zero_lt_unitsPerOne]
  calc
    x.significand * 2 ^ x.power ≤ x.significand * unitsPerOne := by
      rw [unitsPerOne_eq]
      exact Nat.mul_le_mul_left _ (Nat.pow_le_pow_right (by decide) hpower)
    _ < 2 ^ 53 * unitsPerOne :=
      Nat.mul_lt_mul_of_pos_right x.significand_lt zero_lt_unitsPerOne

theorem isRepresentable_truncateNat {x : Binary64} (hx : x.isFinite = true) :
    IsRepresentable (x.truncateNat * unitsPerOne) := by
  rcases Nat.le_total x.power 1074 with hpower | hpower
  · exact isRepresentable_integer (truncateNat_lt hpower)
  · -- From here on doubles have no fraction.
    have hdvd : unitsPerOne ∣ x.magnitude := by
      rw [unitsPerOne_eq]
      exact Nat.dvd_mul_left_of_dvd (Nat.pow_dvd_pow 2 hpower) _
    rw [truncateNat, Nat.div_mul_cancel hdvd]
    exact isRepresentable_magnitude hx

theorem hasUnits_trunc {x : Binary64} (hx : x.isFinite = true) :
    x.trunc.HasUnits (x.truncate * unitsPerOne) := by
  rw [trunc, if_pos hx]
  convert hasUnits_ofUnits x.isNegative (isRepresentable_truncateNat hx) using 1
  unfold truncate
  split <;> push_cast <;> ring

/-! ## Remainders and sums -/

/-- A remainder is a multiple of the finer of the two units, and below both numbers. -/
theorem isRepresentable_mod {x y : Binary64} (hx : x.isFinite = true) (hy : y.isFinite = true)
    (hzero : y.isZero = false) : IsRepresentable (x.magnitude % y.magnitude) := by
  have hlt : x.magnitude % y.magnitude < y.magnitude :=
    Nat.mod_lt _ (y.magnitude_pos_iff.2 hzero)
  have hle : x.magnitude % y.magnitude ≤ x.magnitude := Nat.mod_le _ _
  have hdvd {p : ℕ} (hpx : p ≤ x.power) (hpy : p ≤ y.power) :
      2 ^ p ∣ x.magnitude % y.magnitude := by
    rw [Nat.dvd_mod_iff]
    · exact Nat.dvd_mul_left_of_dvd (Nat.pow_dvd_pow 2 hpx) _
    · exact Nat.dvd_mul_left_of_dvd (Nat.pow_dvd_pow 2 hpy) _
  have hfits {z : Binary64} (hz : z.isFinite = true)
      (hpow : 2 ^ z.power ∣ x.magnitude % y.magnitude)
      (hle : x.magnitude % y.magnitude ≤ z.magnitude) :
      IsRepresentable (x.magnitude % y.magnitude) := by
    obtain ⟨m, hm⟩ := hpow
    have hpower := z.power_lt hz
    refine ⟨m, z.power, ?_, by omega, by rw [hm, Nat.mul_comm]⟩
    refine Nat.lt_of_le_of_lt ?_ z.significand_lt
    rw [hm, Nat.mul_comm] at hle
    exact Nat.le_of_mul_le_mul_right hle (Nat.pow_pos (by decide))
  rcases Nat.le_total x.power y.power with hpower | hpower
  · exact hfits hx (hdvd le_rfl hpower) hle
  · exact hfits hy (hdvd hpower le_rfl) hlt.le

theorem not_isNaN {x : Binary64} (hx : x.isFinite = true) : x.isNaN = false := by
  have hword : x.absWord < infinityWord := of_decide_eq_true hx
  exact decide_eq_false hword.le.not_gt

theorem not_isInfinite {x : Binary64} (hx : x.isFinite = true) : x.isInfinite = false := by
  have hword : x.absWord < infinityWord := of_decide_eq_true hx
  exact decide_eq_false hword.ne

/-- The remainder is exact. -/
theorem hasUnits_rem {x y : Binary64} (hx : x.isFinite = true) (hy : y.isFinite = true)
    (hzero : y.isZero = false) : (x.rem y).HasUnits (x.units.tmod y.units) := by
  have hunits := hasUnits_ofUnits x.isNegative (isRepresentable_mod hx hy hzero)
  have htmod : x.units.tmod y.units =
      if x.isNegative then -((x.magnitude % y.magnitude : ℕ) : ℤ)
      else ((x.magnitude % y.magnitude : ℕ) : ℤ) := by
    unfold Binary64.units
    split <;> split <;> simp [Int.tmod_eq_emod_of_nonneg]
  rw [rem, if_neg (by simp [not_isNaN hx, not_isNaN hy, not_isInfinite hx, hzero]),
    if_neg (by simp [not_isInfinite hy]), htmod]
  exact hunits

/-- A sum that is a double is exact. -/
theorem hasUnits_add {x y : Binary64} (hx : x.isFinite = true) (hy : y.isFinite = true)
    (hsum : IsRepresentable (x.units + y.units).natAbs) :
    (x.add y).HasUnits (x.units + y.units) := by
  rw [add, if_neg (by simp [not_isNaN hx, not_isNaN hy]), if_neg (by simp [not_isInfinite hx]),
    if_neg (by simp [not_isInfinite hy])]
  dsimp only
  split
  · rename_i htotal
    rw [htotal]
    generalize (x.isZero && x.isNegative && y.isNegative) = negative
    cases negative <;> exact ⟨by decide, by decide⟩
  · have hunits := hasUnits_ofUnits (decide (x.units + y.units < 0)) hsum
    convert hunits using 1
    split <;> rename_i hneg
    · have hneg := of_decide_eq_true hneg
      omega
    · have hneg := of_decide_eq_false (Bool.eq_false_iff.2 hneg)
      omega

/-- A finite number is below zero exactly when its units are. -/
theorem lessThan?_zero {x : Binary64} (hx : x.isFinite = true) :
    x.lessThan? zero = some true ↔ x.units < 0 := by
  have hzero := x.magnitude_eq_zero_iff
  have hnan : zero.isNaN = false := by decide
  have hrank : zero.rank = 0 := by decide
  rw [lessThan?, if_neg (by simp [not_isNaN hx, hnan]), hrank]
  simp only [Option.some.injEq, decide_eq_true_eq]
  unfold rank units
  split <;> omega

end Binary64

end Ecma
