import Ecma.Proofs.Number.SafeIntegers

/-!
# The tag of the 32-bit integers

The integer part of a double, its remainder by `2 ^ 32` and the sum that makes
the remainder positive are doubles again, so reducing a double with double
arithmetic is reducing its exact value.  A number is tagged as a 32-bit integer
if and only if it is one, and the conversions that look at the tag give what
those on the plain double give.
-/

namespace Ecma

namespace Binary64

/-! ## Integers -/

section

variable {x : Binary64} {i : ℤ} (hx : x.HasUnits (i * unitsPerOne))

include hx

theorem HasUnits.truncate_eq : x.truncate = i := by
  rw [truncate_eq_tdiv, hx.units]
  exact Int.mul_tdiv_cancel _ (by exact_mod_cast zero_lt_unitsPerOne.ne')

theorem HasUnits.magnitude_eq : x.magnitude = i.natAbs * unitsPerOne := by
  rw [← natAbs_units, hx.units, Int.natAbs_mul, Int.natAbs_natCast]

theorem HasUnits.isZero_iff : x.isZero = true ↔ i = 0 := by
  have hpos := x.magnitude_pos_iff
  rw [hx.magnitude_eq, Nat.mul_pos_iff_of_pos_right zero_lt_unitsPerOne] at hpos
  cases hzero : x.isZero with
  | false => simpa [hzero] using hpos
  | true => simpa [hzero] using hpos

theorem HasUnits.clampTo_eq {low high : ℤ} (hlow : low ≤ i) (hhigh : i ≤ high) :
    x.clampTo low high = i := by
  rw [clampTo, if_neg (by simp [not_isNaN hx.isFinite]), hx.truncate_eq]
  omega

theorem HasUnits.toInt_saturateInt32 (hlow : -2 ^ 31 ≤ i) (hhigh : i < 2 ^ 31) :
    x.saturateInt32.toInt = i := by
  rw [saturateInt32, hx.clampTo_eq (by omega) (by omega)]
  exact Int32.toInt_ofInt_of_le (by omega) (by omega)

theorem HasUnits.toNat_saturateUInt32 (hlow : 0 ≤ i) (hhigh : i < 2 ^ 32) :
    (x.saturateUInt32.toNat : ℤ) = i := by
  have hmod : (i % 2 ^ 32).toNat < UInt32.size := by
    change _ < 2 ^ 32
    omega
  rw [saturateUInt32, hx.clampTo_eq (by omega) (by omega), UInt32.ofInt,
    UInt32.toNat_ofNat_of_lt' hmod]
  omega

end

theorem hasUnits_ofInt32 (i : Int32) : (ofInt32 i).HasUnits (i.toInt * unitsPerOne) := by
  have hlow := i.le_toInt
  have hhigh := i.toInt_lt
  apply hasUnits_ofInt
  omega

/-! ## Residues -/

theorem hasUnits_wordSize : wordSize.HasUnits (2 ^ 32 * unitsPerOne) :=
  ⟨by decide, by decide +kernel⟩

/-- The remainder of an integer, made positive. -/
theorem HasUnits.remEuclid {x : Binary64} {i : ℤ} (hx : x.HasUnits (i * unitsPerOne)) :
    (x.remEuclid wordSize).HasUnits (i % 2 ^ 32 * unitsPerOne) := by
  have hunits : (0 : ℤ) < unitsPerOne := by exact_mod_cast zero_lt_unitsPerOne
  have hrem : (x.rem wordSize).HasUnits (i.tmod (2 ^ 32) * unitsPerOne) := by
    have hrem := hasUnits_rem hx.isFinite hasUnits_wordSize.isFinite (by decide)
    rwa [hx.units, hasUnits_wordSize.units, mul_comm i, mul_comm (2 ^ 32),
      Int.mul_tmod_mul_of_pos _ _ hunits, mul_comm _ (i.tmod _)] at hrem
  have hsign : i.tmod (2 ^ 32) * unitsPerOne < 0 ↔ i.tmod (2 ^ 32) < 0 := by
    rw [mul_neg_iff]
    omega
  have htmod := Int.tmod_eq_emod (a := i) (b := 2 ^ 32)
  have hlow := Int.emod_nonneg i (by decide : (2 : ℤ) ^ 32 ≠ 0)
  have hhigh := Int.emod_lt_of_pos i (by decide : (0 : ℤ) < 2 ^ 32)
  unfold Binary64.remEuclid
  dsimp only
  split
  · rename_i hneg
    rw [lessThan?_zero hrem.isFinite, hrem.units, hsign] at hneg
    have hresidue : i.tmod (2 ^ 32) + 2 ^ 32 = i % 2 ^ 32 := by
      split at htmod <;> omega
    have hsum : (x.rem wordSize).units + wordSize.units = i % 2 ^ 32 * unitsPerOne := by
      rw [hrem.units, hasUnits_wordSize.units, ← add_mul, hresidue]
    have habs : wordSize.abs = wordSize := by decide
    rw [habs, ← hsum]
    apply hasUnits_add hrem.isFinite hasUnits_wordSize.isFinite
    rw [hsum, Int.natAbs_mul, Int.natAbs_natCast]
    apply isRepresentable_integer
    omega
  · rename_i hnonneg
    rw [lessThan?_zero hrem.isFinite, hrem.units, hsign] at hnonneg
    have hresidue : i.tmod (2 ^ 32) = i % 2 ^ 32 := by
      split at htmod <;> omega
    rwa [← hresidue]

/-- The integer part of a finite number, modulo `2 ^ 32`. -/
theorem toNat_toUInt32 {x : Binary64} (hx : x.isFinite = true) :
    (x.toUInt32.toNat : ℤ) = x.truncate % 2 ^ 32 := by
  unfold toUInt32
  cases hzero : x.isZero with
  | true =>
      have hmagnitude : x.magnitude = 0 := x.magnitude_eq_zero_iff.2 (of_decide_eq_true hzero)
      have htruncate : x.truncate = 0 := by simp [truncate, truncateNat, hmagnitude]
      simp [htruncate]
  | false =>
      rw [if_neg (by simp [hx])]
      apply (hasUnits_trunc hx).remEuclid.toNat_saturateUInt32
      · exact Int.emod_nonneg _ (by decide)
      · exact Int.emod_lt_of_pos _ (by decide)

theorem toInt_toInt32 {x : Binary64} (hx : x.isFinite = true) :
    x.toInt32.toInt = x.truncate.bmod (2 ^ 32) := by
  have hbmod : x.toInt32.toInt = (x.toUInt32.toNat : ℤ).bmod (2 ^ 32) :=
    BitVec.toInt_eq_toNat_bmod _
  rw [hbmod, toNat_toUInt32 hx]
  exact Int.emod_bmod ..

theorem toNat_toUInt16 {x : Binary64} (hx : x.isFinite = true) :
    (x.toUInt16.toNat : ℤ) = x.truncate % 2 ^ 16 := by
  have hmod : x.toUInt16.toNat = x.toUInt32.toNat % 2 ^ 16 := UInt32.toNat_toUInt16 _
  have hword := toNat_toUInt32 hx
  rw [hmod]
  omega

theorem toUInt32_of_not_isFinite {x : Binary64} (hx : x.isFinite = false) : x.toUInt32 = 0 := by
  simp [toUInt32, hx]

/-! ## The tag -/

theorem isNegativeZero_iff (x : Binary64) :
    x.isNegativeZero = true ↔ x.isNegative = true ∧ x.isZero = true := by
  have hword : x.word < 2 * signBit := x.bits.toNat_lt
  have hzero : x.isZero = true ↔ x.word % signBit = 0 := decide_eq_true_iff
  rw [hzero, isNegativeZero, isNegative, decide_eq_true_iff, decide_eq_true_iff]
  unfold signBit at *
  omega

/-- The tag is set on the integers from `-2 ^ 31` to below `2 ^ 31`, without negative zero. -/
theorem isInt32_iff (x : Binary64) : x.isInt32 = true ↔ x.isNegativeZero = false ∧
    ∃ i : ℤ, -2 ^ 31 ≤ i ∧ i < 2 ^ 31 ∧ x.HasUnits (i * unitsPerOne) := by
  have hsaturated := hasUnits_ofInt32 x.saturateInt32
  have hlow := x.saturateInt32.le_toInt
  have hhigh := x.saturateInt32.toInt_lt
  simp only [isInt32, equal, Bool.and_eq_true, Bool.not_eq_true', decide_eq_true_eq]
  constructor
  · rintro ⟨⟨-, hrank⟩, hzero⟩
    have hfinite : x.isFinite = true := by
      have hword : (ofInt32 x.saturateInt32).absWord < infinityWord :=
        of_decide_eq_true hsaturated.isFinite
      apply decide_eq_true
      unfold rank at hrank
      split at hrank <;> split at hrank <;> omega
    refine ⟨hzero, x.saturateInt32.toInt, by omega, by omega, hfinite, ?_⟩
    rw [← hsaturated.units]
    exact ((rank_eq_iff hsaturated.isFinite hfinite).1 hrank).symm
  · rintro ⟨hzero, i, hlow', hhigh', hx⟩
    refine ⟨⟨⟨not_isNaN hsaturated.isFinite, not_isNaN hx.isFinite⟩, ?_⟩, hzero⟩
    rw [rank_eq_iff hsaturated.isFinite hx.isFinite, hsaturated.units, hx.units,
      hx.toInt_saturateInt32 hlow' hhigh']

theorem isNegativeZero_ofInt32 (i : Int32) : (ofInt32 i).isNegativeZero = false := by
  by_contra hne
  have hzero := (isNegativeZero_iff _).1 (Bool.not_eq_false _ ▸ hne)
  have hi : i.toInt = 0 := (hasUnits_ofInt32 i).isZero_iff.1 hzero.2
  have hsign : (ofInt32 i).isNegative = false := by
    rw [ofInt32, hi]
    decide +kernel
  exact absurd hzero.1 (Bool.eq_false_iff.1 hsign)

theorem isInt32_ofInt32 (i : Int32) : (ofInt32 i).isInt32 = true := by
  have hlow := i.le_toInt
  have hhigh := i.toInt_lt
  exact (isInt32_iff _).2
    ⟨isNegativeZero_ofInt32 i, i.toInt, by omega, by omega, hasUnits_ofInt32 i⟩

/-- The text of a small integer. -/
theorem toText_of_integer {x : Binary64} {i : ℤ} (hx : x.HasUnits (i * unitsPerOne))
    (hi : i.natAbs < 2 ^ 53) : x.toText = toString i := by
  rw [toText, if_neg (by simp [not_isNaN hx.isFinite])]
  split
  · rename_i hzero
    rw [hx.isZero_iff.1 hzero]
    rfl
  · rw [if_neg (by simp [not_isInfinite hx.isFinite]),
      if_pos (x.isSafeInteger_iff.2 ⟨hx.isFinite, _, hi, hx.magnitude_eq⟩), hx.truncate_eq]

end Binary64

namespace Numeric

open Binary64

/-- The number was made from a double or from an integer. -/
inductive IsMade : Numeric → Prop
  | ofBinary64 (x : Binary64) : IsMade (.ofBinary64 x)
  | ofInt32 (i : Int32) : IsMade (.ofInt32 i)

theorem IsMade.isInteger_eq {n : Numeric} (hn : n.IsMade) : n.isInteger = n.value.isInt32 := by
  cases hn with
  | ofBinary64 x => rfl
  | ofInt32 i => exact (isInt32_ofInt32 i).symm

/-- A tag gives the integer that the number is. -/
theorem IsMade.int32?_cases {n : Numeric} (hn : n.IsMade) :
    n.int32? = none ∨
      ∃ j : Int32, n.int32? = some j ∧ n.value.HasUnits (j.toInt * unitsPerOne) := by
  unfold int32?
  split
  · rename_i htag
    rw [hn.isInteger_eq] at htag
    obtain ⟨-, i, hlow, hhigh, hvalue⟩ := (isInt32_iff _).1 htag
    refine .inr ⟨_, rfl, ?_⟩
    rwa [hvalue.toInt_saturateInt32 hlow hhigh]
  · exact .inl rfl

/-- The residue of a 32-bit integer is the integer. -/
theorem toInt32_of_hasUnits {x : Binary64} {j : Int32}
    (hx : x.HasUnits (j.toInt * unitsPerOne)) : x.toInt32 = j := by
  have hlow := j.le_toInt
  have hhigh := j.toInt_lt
  apply Int32.toInt_inj.1
  rw [toInt_toInt32 hx.isFinite, hx.truncate_eq]
  apply Int.bmod_eq_of_le_mul_two <;> push_cast <;> omega

section

variable {n : Numeric} (hn : n.IsMade)

include hn

theorem IsMade.toText_eq : n.toText = n.value.toText := by
  unfold toText
  obtain hnone | ⟨j, hsome, hj⟩ := hn.int32?_cases
  · rw [hnone]
  · have hlow := j.le_toInt
    have hhigh := j.toInt_lt
    rw [hsome, toText_of_integer hj (by omega)]

theorem IsMade.toInt32_eq : n.toInt32 = n.value.toInt32 := by
  unfold toInt32
  obtain hnone | ⟨j, hsome, hj⟩ := hn.int32?_cases
  · rw [hnone, Option.getD_none]
  · rw [hsome, Option.getD_some, toInt32_of_hasUnits hj]

theorem IsMade.toUInt32_eq : n.toUInt32 = n.value.toUInt32 := by
  unfold toUInt32
  obtain hnone | ⟨j, hsome, hj⟩ := hn.int32?_cases
  · rw [hnone]
  · rw [hsome]
    exact congrArg Int32.toUInt32 (toInt32_of_hasUnits hj).symm

theorem IsMade.toUInt16_eq : n.toUInt16 = n.value.toUInt16 := by
  have hword := hn.toUInt32_eq
  unfold toUInt16
  unfold toUInt32 at hword
  obtain hnone | ⟨j, hsome, hj⟩ := hn.int32?_cases
  · rw [hnone]
  · rw [hsome] at hword ⊢
    exact congrArg UInt32.toUInt16 hword

end

/-- The tag says whether a number is a 32-bit integer and changes no conversion;
and the conversions reduce the exact value of a double, towards zero, modulo
`2 ^ 32` or `2 ^ 16`. -/
theorem integer_tag_is_unobservable :
    (∀ n : Numeric, n.IsMade →
      (n.isInteger = true ↔ n.value.isNegativeZero = false ∧
        ∃ i : ℤ, -2 ^ 31 ≤ i ∧ i < 2 ^ 31 ∧ n.value.HasUnits (i * unitsPerOne)) ∧
      n.toText = n.value.toText ∧
      n.toInt32 = n.value.toInt32 ∧
      n.toUInt32 = n.value.toUInt32 ∧
      n.toUInt16 = n.value.toUInt16) ∧
    ∀ x : Binary64,
      (x.isFinite = true →
        x.toInt32.toInt = (x.units.tdiv unitsPerOne).bmod (2 ^ 32) ∧
        (x.toUInt32.toNat : ℤ) = x.units.tdiv unitsPerOne % 2 ^ 32 ∧
        (x.toUInt16.toNat : ℤ) = x.units.tdiv unitsPerOne % 2 ^ 16) ∧
      (x.isFinite = false → x.toInt32 = 0 ∧ x.toUInt32 = 0 ∧ x.toUInt16 = 0) := by
  constructor
  · intro n hn
    refine ⟨?_, hn.toText_eq, hn.toInt32_eq, hn.toUInt32_eq, hn.toUInt16_eq⟩
    rw [hn.isInteger_eq]
    exact isInt32_iff _
  · intro x
    rw [← truncate_eq_tdiv]
    constructor
    · intro hx
      exact ⟨toInt_toInt32 hx, toNat_toUInt32 hx, toNat_toUInt16 hx⟩
    · intro hx
      have hword := toUInt32_of_not_isFinite hx
      rw [Binary64.toInt32, Binary64.toUInt16, hword]
      exact ⟨rfl, rfl, rfl⟩

/-- Negative zero, an integer with its tag, and a double beyond all integers. -/
theorem integer_tag_is_unobservable_extremes :
    (ofBinary64 negativeZero).isInteger = false ∧
      (ofInt32 (-7)).toText = "-7" ∧ (ofInt32 (-7)).value.toText = "-7" ∧
      (⟨0xc44b1ae4d6e2ef50⟩ : Binary64).toInt32 = 559939584 := by
  obtain ⟨hmade, hresidue⟩ := integer_tag_is_unobservable
  have hzero := (hmade _ (.ofBinary64 negativeZero)).1
  have htext := (hmade _ (.ofInt32 (-7))).2.1
  have hword := ((hresidue ⟨0xc44b1ae4d6e2ef50⟩).1 (by decide)).1
  have hshown : (ofInt32 (-7)).toText = "-7" := by decide +kernel
  refine ⟨?_, hshown, htext.symm.trans hshown, ?_⟩
  · apply Bool.eq_false_iff.2
    intro htag
    exact absurd (hzero.1 htag).1 (by decide)
  · apply Int32.toInt_inj.1
    rw [hword]
    decide +kernel

end Numeric

end Ecma
