import Ecma.Proofs.Number.ClosestDigits
import Ecma.Proofs.Number.Exactness

/-!
# The boundaries are midpoints, and exact

The boundaries of a double are computed in 64-bit words, which wrap around.
The same computation with words that refuse to is compared with it first: it
always yields a result, so no bit is lost on the way.  What it yields is then
compared with the neighbours of the double among all doubles.
-/

namespace Ecma

/-! ## Words that do not wrap around -/

/-- A number as a word, if it is small enough. -/
def ofNat64? (n : ℕ) : Option UInt64 := if n < 2 ^ 64 then some (UInt64.ofNat n) else none

/-- The sum, if it is a word. -/
def add64? (a b : UInt64) : Option UInt64 :=
  if a.toNat + b.toNat < 2 ^ 64 then some (a + b) else none

/-- The difference, if it is not below zero. -/
def sub64? (a b : UInt64) : Option UInt64 :=
  if b.toNat ≤ a.toNat then some (a - b) else none

/-- Moves the bits up, if the count is one of a word and no bit is lost. -/
def shiftLeft64? (a : UInt64) (n : ℤ) : Option UInt64 :=
  if 0 ≤ n ∧ n < 64 ∧ a.toNat * 2 ^ n.toNat < 2 ^ 64 then some (a <<< UInt64.ofNat n.toNat)
  else none

theorem ofNat64?_eq_some {n : ℕ} (h : n < 2 ^ 64) : ofNat64? n = some (UInt64.ofNat n) :=
  if_pos h

theorem add64?_eq_some {a b : UInt64} (h : a.toNat + b.toNat < 2 ^ 64) :
    add64? a b = some (a + b) :=
  if_pos h

theorem sub64?_eq_some {a b : UInt64} (h : b.toNat ≤ a.toNat) : sub64? a b = some (a - b) :=
  if_pos h

theorem shiftLeft64?_eq_some {a : UInt64} {n : ℤ} {k : ℕ} (hn : n = k) (hk : k < 64)
    (h : a.toNat * 2 ^ k < 2 ^ 64) : shiftLeft64? a n = some (a <<< UInt64.ofNat k) := by
  subst hn
  exact if_pos ⟨by omega, by omega, h⟩

namespace BinaryFraction

/-- How many bits above the top one that is set are clear. -/
def leadingZeros (a : UInt64) : ℕ := if a = 0 then 64 else 63 - a.toNat.log2

def normalize? (w : BinaryFraction) : Option BinaryFraction := do
  let shift := leadingZeros w.significand
  return ⟨← shiftLeft64? w.significand shift, w.exponent - shift⟩

def ofBinary64? (x : Binary64) : Option BinaryFraction := do
  return ⟨← ofNat64? x.significand, minExponent + x.power⟩

def upperMidpoint? (w : BinaryFraction) : Option BinaryFraction := do
  normalize? ⟨← add64? (← shiftLeft64? w.significand 1) 1, w.exponent - 1⟩

def lowerMidpoint? (w : BinaryFraction) : Option BinaryFraction :=
  if w.lowerIsCloser then do
    return ⟨← sub64? (← shiftLeft64? w.significand 2) 1, w.exponent - 2⟩
  else do return ⟨← sub64? (← shiftLeft64? w.significand 1) 1, w.exponent - 1⟩

/-- The boundaries, unless a step on the way does not stay within the words. -/
def boundaries? (x : Binary64) : Option (BinaryFraction × BinaryFraction) := do
  let w ← ofBinary64? x
  let high ← upperMidpoint? w
  let low ← lowerMidpoint? w
  return (⟨← shiftLeft64? low.significand (low.exponent - high.exponent), high.exponent⟩, high)

theorem normalize?_eq_some {w : BinaryFraction} (hw : w.significand ≠ 0) :
    w.normalize? = some w.normalize := by
  have hshift := shiftLeft64?_eq_some rfl (Nat.sub_lt_succ 63 w.significand.toNat.log2)
    (mul_two_pow_lt w.significand.toNat_lt)
  simp only [normalize?, leadingZeros, if_neg hw, hshift]
  rfl

section

variable (x : Binary64)

theorem ofBinary64?_eq_some : ofBinary64? x = some (ofBinary64 x) := by
  have hlt := x.significand_lt
  unfold Binary64.hiddenBit at hlt
  simp only [ofBinary64?, ofNat64?_eq_some (show x.significand < 2 ^ 64 by omega)]
  rfl

/-- There is room for two more bits than a significand has. -/
theorem significand_mul_lt {k : ℕ} (hk : k ≤ 2) :
    (ofBinary64 x).significand.toNat * 2 ^ k < 2 ^ 63 := by
  have hlt := x.significand_lt
  unfold Binary64.hiddenBit at hlt
  rw [toNat_significand_ofBinary64]
  calc
    x.significand * 2 ^ k ≤ x.significand * 2 ^ 2 :=
      Nat.mul_le_mul_left _ (Nat.pow_le_pow_right (by decide) hk)
    _ < 2 ^ 63 := by omega

theorem shiftLeft64?_significand {k : ℕ} (hk : k ≤ 2) :
    shiftLeft64? (ofBinary64 x).significand k =
      some ((ofBinary64 x).significand <<< UInt64.ofNat k) :=
  shiftLeft64?_eq_some rfl (by omega) ((significand_mul_lt x hk).trans (by decide))

theorem toNat_significand_shiftLeft {k : ℕ} (hk : k ≤ 2) :
    ((ofBinary64 x).significand <<< UInt64.ofNat k).toNat =
      (ofBinary64 x).significand.toNat * 2 ^ k :=
  toNat_shiftLeft (by omega) ((significand_mul_lt x hk).trans (by decide))

theorem upperWord_ne_zero : ((ofBinary64 x).significand <<< 1) + 1 ≠ 0 := by
  intro hzero
  have hupper := toNat_upper x
  rw [hzero] at hupper
  cases hupper

theorem upperMidpoint?_eq_some : (ofBinary64 x).upperMidpoint? =
    some (ofBinary64 x).upperMidpoint := by
  have hword := toNat_significand_shiftLeft x (k := 1) (by decide)
  have hroom := significand_mul_lt x (k := 1) (by decide)
  have hadd : add64? ((ofBinary64 x).significand <<< UInt64.ofNat 1) 1 =
      some ((ofBinary64 x).significand <<< UInt64.ofNat 1 + 1) :=
    add64?_eq_some (by rw [hword]; exact Nat.lt_trans (Nat.succ_lt_succ hroom) (by decide))
  have hnormal := normalize?_eq_some
    (w := ⟨(ofBinary64 x).significand <<< 1 + 1, (ofBinary64 x).exponent - 1⟩) (upperWord_ne_zero x)
  have hshift := shiftLeft64?_significand x (k := 1) (by decide)
  simp only [Nat.cast_one] at hshift
  simp only [upperMidpoint?, hshift, Option.bind_eq_bind, Option.bind_some, hadd]
  exact hnormal

theorem lowerMidpoint?_eq_some (hx : 0 < x.significand) :
    (ofBinary64 x).lowerMidpoint? = some (ofBinary64 x).lowerMidpoint := by
  have hsub {k : ℕ} (hk : k ≤ 2) :
      sub64? ((ofBinary64 x).significand <<< UInt64.ofNat k) 1 =
        some ((ofBinary64 x).significand <<< UInt64.ofNat k - 1) := by
    refine sub64?_eq_some ?_
    rw [toNat_significand_shiftLeft x hk, toNat_significand_ofBinary64]
    exact Nat.mul_pos hx (Nat.two_pow_pos k)
  have hone := shiftLeft64?_significand x (k := 1) (by decide)
  have htwo := shiftLeft64?_significand x (k := 2) (by decide)
  simp only [Nat.cast_one, Nat.cast_ofNat] at hone htwo
  unfold lowerMidpoint? lowerMidpoint
  split
  · simp only [htwo, Option.bind_eq_bind, Option.bind_some, hsub (k := 2) le_rfl]
    rfl
  · simp only [hone, Option.bind_eq_bind, Option.bind_some, hsub (k := 1) (by decide)]
    rfl

/-- No step leaves the words. -/
theorem boundaries?_eq_some (hx : 0 < x.significand) : boundaries? x = some (boundaries x) := by
  have hshift := shiftLeft64?_eq_some (exponent_lowerMidpoint_sub x) (lowerShift_lt x)
    (toNat_lowerMidpoint_mul_lt x hx)
  have hcount : ((ofBinary64 x).lowerMidpoint.exponent -
      (ofBinary64 x).upperMidpoint.exponent).toNat = upperShift x + 1 - lowerBits x := by
    rw [exponent_lowerMidpoint_sub]
    rfl
  simp only [boundaries?, boundaries, ofBinary64?_eq_some, upperMidpoint?_eq_some,
    lowerMidpoint?_eq_some x hx, hshift, Option.bind_eq_bind, Option.bind_some, withExponent,
    hcount]
  rfl

theorem two_pow_le_normalize {w : BinaryFraction} (hw : w.significand ≠ 0) :
    2 ^ 63 ≤ w.normalize.significand.toNat := by
  have hpos : w.significand.toNat ≠ 0 := fun hzero ↦ hw (UInt64.toNat_inj.1 hzero)
  have hlog : w.significand.toNat.log2 < 64 := (Nat.log2_lt hpos).2 w.significand.toNat_lt
  have hshift := toNat_shiftLeft (a := w.significand) (by omega)
    (mul_two_pow_lt w.significand.toNat_lt)
  rw [normalize, hshift]
  calc
    2 ^ 63 = 2 ^ w.significand.toNat.log2 * 2 ^ (63 - w.significand.toNat.log2) := by
      rw [← Nat.pow_add, Nat.add_sub_cancel' (by omega)]
    _ ≤ w.significand.toNat * 2 ^ (63 - w.significand.toNat.log2) :=
      Nat.mul_le_mul_right _ (Nat.log2_self_le hpos)

/-- The upper boundary has its top bit set. -/
theorem two_pow_le_boundaries_snd : 2 ^ 63 ≤ (boundaries x).2.significand.toNat :=
  two_pow_le_normalize (upperWord_ne_zero x)

end

end BinaryFraction

/-! ## The neighbours of a double -/

namespace Binary64

/-- The number that a finite double is. -/
def rational (x : Binary64) : ℚ := x.units / unitsPerOne

/-- The finite doubles, and next to the largest of them `2 ^ 1024`. -/
def grid : Set ℚ := {q | ∃ x : Binary64, x.isFinite = true ∧ x.rational = q} ∪ {2 ^ 1024}

section

variable {x y : Binary64}

theorem magnitude_eq_of_absWord_eq (h : x.absWord = y.absWord) : x.magnitude = y.magnitude := by
  obtain ⟨hpower, hsig⟩ := fields_of_absWord (h.trans y.absWord_eq) y.significand_lt
    y.hiddenBit_le_significand
  rw [magnitude, magnitude, hpower, hsig]

/-- Larger words are larger numbers, across the binades too. -/
theorem magnitude_lt_of_absWord_lt (h : x.absWord < y.absWord) : x.magnitude < y.magnitude := by
  have hx := x.significand_lt
  have hy := y.significand_lt
  rw [x.absWord_eq, y.absWord_eq] at h
  unfold magnitude
  simp only [Nat.pow_eq]
  rcases lt_trichotomy x.power y.power with hlt | heq | hgt
  · have hhidden := y.hiddenBit_le_significand (by omega)
    calc
      x.significand * 2 ^ x.power < 2 * hiddenBit * 2 ^ x.power :=
        Nat.mul_lt_mul_of_pos_right hx (Nat.two_pow_pos _)
      _ = hiddenBit * 2 ^ (x.power + 1) := by ring
      _ ≤ hiddenBit * 2 ^ y.power := Nat.mul_le_mul_left _ (Nat.pow_le_pow_right (by decide) hlt)
      _ ≤ y.significand * 2 ^ y.power := Nat.mul_le_mul_right _ hhidden
  · rw [heq] at h ⊢
    exact Nat.mul_lt_mul_of_pos_right (by omega) (Nat.two_pow_pos _)
  · have hhidden := x.hiddenBit_le_significand (by omega)
    have hbinade : (y.power + 1) * hiddenBit ≤ x.power * hiddenBit := Nat.mul_le_mul_right _ hgt
    rw [Nat.add_one_mul] at hbinade
    omega

theorem magnitude_le_of_absWord_le (h : x.absWord ≤ y.absWord) : x.magnitude ≤ y.magnitude := by
  rcases h.lt_or_eq with hlt | heq
  · exact (magnitude_lt_of_absWord_lt hlt).le
  · exact (magnitude_eq_of_absWord_eq heq).le

theorem absWord_lt_of_magnitude_lt (h : x.magnitude < y.magnitude) : x.absWord < y.absWord := by
  by_contra hle
  exact absurd (magnitude_le_of_absWord_le (Nat.le_of_not_lt hle)) (Nat.not_le_of_lt h)

theorem rational_of_not_isNegative (hx : x.isNegative = false) :
    x.rational = x.magnitude / unitsPerOne := by
  simp only [rational, units, hx, Bool.false_eq_true, if_false, Int.cast_natCast]

theorem rational_nonpos (hx : x.isNegative = true) : x.rational ≤ 0 := by
  have hmagnitude : (0 : ℚ) ≤ x.magnitude := Nat.cast_nonneg _
  simp only [rational, units, hx, if_true, Int.cast_neg, Int.cast_natCast]
  exact div_nonpos_of_nonpos_of_nonneg (neg_nonpos.2 hmagnitude) unitsPerOne_pos.le

theorem div_units_nonneg (m : ℕ) : (0 : ℚ) ≤ m / unitsPerOne :=
  div_nonneg (Nat.cast_nonneg m) unitsPerOne_pos.le

theorem rational_le_magnitude (x : Binary64) : x.rational ≤ x.magnitude / unitsPerOne := by
  cases hx : x.isNegative with
  | false => exact (rational_of_not_isNegative hx).le
  | true => exact (rational_nonpos hx).trans (div_units_nonneg _)

theorem div_units_lt_iff {m n : ℕ} : (m / unitsPerOne : ℚ) < n / unitsPerOne ↔ m < n := by
  rw [div_lt_div_iff_of_pos_right unitsPerOne_pos]
  exact Nat.cast_lt

theorem div_units_le_iff {m n : ℕ} : (m / unitsPerOne : ℚ) ≤ n / unitsPerOne ↔ m ≤ n := by
  rw [div_le_div_iff_of_pos_right unitsPerOne_pos]
  exact Nat.cast_le

/-- Read as a number, the word of infinity is the end of the grid. -/
theorem magnitude_infinity : (infinity.magnitude : ℚ) / unitsPerOne = 2 ^ 1024 := by
  have hsig : infinity.significand = 2 ^ 52 := by decide
  have hpower : infinity.power = 2046 := by decide
  rw [div_eq_iff unitsPerOne_pos.ne', magnitude_cast, hsig, hpower, unitsPerOne_cast, ← pow_add,
    Nat.cast_pow, Nat.cast_ofNat, ← pow_add]

theorem absWord_infinity : infinity.absWord = infinityWord := by decide

theorem lt_signBit_of_le_infinityWord {w : ℕ} (hw : w ≤ infinityWord) : w < signBit :=
  Nat.lt_of_le_of_lt hw (by decide)

section

variable (hfinite : x.isFinite = true) (hpositive : x.isNegative = false)

include hfinite

theorem magnitude_lt_infinity : x.magnitude < infinity.magnitude := by
  apply magnitude_lt_of_absWord_lt
  rw [absWord_infinity]
  exact of_decide_eq_true hfinite

include hpositive

theorem rational_lt_end : x.rational < 2 ^ 1024 := by
  rw [rational_of_not_isNegative hpositive, ← magnitude_infinity]
  exact div_units_lt_iff.2 (magnitude_lt_infinity hfinite)

/-- The word below is that of the next smaller double. -/
theorem isGreatest_below {b : Binary64} (hb : b.isNegative = false)
    (hword : x.absWord = b.absWord + 1) :
    IsGreatest {q ∈ grid | q < x.rational} (b.magnitude / unitsPerOne) := by
  have hbfinite : b.isFinite = true := by
    have hlt : x.absWord < infinityWord := of_decide_eq_true hfinite
    exact decide_eq_true (by omega)
  refine ⟨⟨.inl ⟨b, hbfinite, rational_of_not_isNegative hb⟩, ?_⟩, ?_⟩
  · rw [rational_of_not_isNegative hpositive]
    exact div_units_lt_iff.2 (magnitude_lt_of_absWord_lt (by omega))
  · rintro q ⟨⟨y, hy, rfl⟩ | rfl, hlt⟩
    · cases hsign : y.isNegative with
      | true =>
          exact (rational_nonpos hsign).trans (div_units_nonneg _)
      | false =>
          rw [rational_of_not_isNegative hsign, rational_of_not_isNegative hpositive,
            div_units_lt_iff] at hlt
          have hwords := absWord_lt_of_magnitude_lt hlt
          rw [rational_of_not_isNegative hsign]
          exact div_units_le_iff.2 (magnitude_le_of_absWord_le (by omega))
    · exact absurd hlt (rational_lt_end hfinite hpositive).not_gt

/-- The word above is that of the next larger double, or of infinity. -/
theorem isLeast_above {a : Binary64} (ha : a.isNegative = false)
    (hword : a.absWord = x.absWord + 1) :
    IsLeast {q ∈ grid | x.rational < q} (a.magnitude / unitsPerOne) := by
  have hle : a.absWord ≤ infinity.absWord := by
    have hlt : x.absWord < infinityWord := of_decide_eq_true hfinite
    rw [absWord_infinity]
    omega
  refine ⟨⟨?_, ?_⟩, ?_⟩
  · rcases hle.lt_or_eq with hlt | heq
    · rw [absWord_infinity] at hlt
      exact .inl ⟨a, decide_eq_true hlt, rational_of_not_isNegative ha⟩
    · rw [magnitude_eq_of_absWord_eq heq, magnitude_infinity]
      exact .inr rfl
  · rw [rational_of_not_isNegative hpositive]
    exact div_units_lt_iff.2 (magnitude_lt_of_absWord_lt (by omega))
  · rintro q ⟨⟨y, hy, rfl⟩ | rfl, hlt⟩
    · rw [rational_of_not_isNegative hpositive] at hlt
      have hwords := absWord_lt_of_magnitude_lt
        (div_units_lt_iff.1 (hlt.trans_le y.rational_le_magnitude))
      have hsign : y.isNegative = false := by
        by_contra hsign
        have hnonpos := rational_nonpos (Bool.not_eq_false _ ▸ hsign)
        exact absurd (hlt.trans_le hnonpos) (div_units_nonneg _).not_gt
      rw [rational_of_not_isNegative hsign]
      exact div_units_le_iff.2 (magnitude_le_of_absWord_le (by omega))
    · rw [← magnitude_infinity]
      exact div_units_le_iff.2 (magnitude_le_of_absWord_le hle)

end

end

end Binary64

/-! ## Midpoints -/

namespace BinaryFraction

/-- The boundaries of a finite positive double are computed without leaving the words.  They
are written with one exponent, the upper one with its top bit set, and are the midpoints to
the next smaller and the next larger double; zero is below the smallest, and `2 ^ 1024` counts
as the one above the largest. -/
theorem boundaries_are_midpoints (x : Binary64) (hfinite : x.isFinite = true)
    (hpositive : x.isNegative = false) (hzero : x.isZero = false) :
    ∃ (low high : UInt64) (e : ℤ) (below above : ℚ),
      boundaries? x = some (⟨low, e⟩, ⟨high, e⟩) ∧ boundaries x = (⟨low, e⟩, ⟨high, e⟩) ∧
      2 ^ 63 ≤ high.toNat ∧
      IsGreatest {q ∈ Binary64.grid | q < x.rational} below ∧
      IsLeast {q ∈ Binary64.grid | x.rational < q} above ∧
      low.toNat * (2 : ℚ) ^ e = (below + x.rational) / 2 ∧
      high.toNat * (2 : ℚ) ^ e = (x.rational + above) / 2 := by
  have hsig := x.significand_pos hzero
  have hword : x.absWord ≠ 0 := of_decide_eq_false hzero
  have hlt : x.absWord < Binary64.infinityWord := of_decide_eq_true hfinite
  have hbound := Binary64.lt_signBit_of_le_infinityWord (w := x.absWord - 1) (by omega)
  have habound := Binary64.lt_signBit_of_le_infinityWord (w := x.absWord + 1) (by omega)
  let b := Binary64.withSign false (x.absWord - 1)
  let a := Binary64.withSign false (x.absWord + 1)
  have hb : x.absWord = b.absWord + 1 := by
    rw [Binary64.absWord_withSign false hbound]
    omega
  have ha : a.absWord = x.absWord + 1 := Binary64.absWord_withSign false habound
  refine ⟨(boundaries x).1.significand, (boundaries x).2.significand, (boundaries x).2.exponent,
    b.magnitude / Binary64.unitsPerOne, a.magnitude / Binary64.unitsPerOne,
    boundaries?_eq_some x hsig, rfl, two_pow_le_boundaries_snd x,
    Binary64.isGreatest_below hfinite hpositive (Binary64.isNegative_withSign false hbound) hb,
    Binary64.isLeast_above hfinite hpositive (Binary64.isNegative_withSign false habound) ha,
    ?_, ?_⟩
  · have hvalue := value_boundaries_fst x hsig
    rw [Binary64.lowerGap_succ hb] at hvalue
    rw [Binary64.rational_of_not_isNegative hpositive]
    refine Eq.trans hvalue ?_
    rw [Binary64.magnitude_succ hb]
    ring
  · have hvalue := value_boundaries_snd x
    rw [Binary64.rational_of_not_isNegative hpositive, Binary64.magnitude_succ ha]
    refine Eq.trans hvalue ?_
    rw [Binary64.upperGap]
    ring

theorem boundaries_are_midpoints_largest :
    ∃ (low high : UInt64) (e : ℤ) (below above : ℚ),
      boundaries? ⟨0x7fefffffffffffff⟩ = some (⟨low, e⟩, ⟨high, e⟩) ∧
      boundaries ⟨0x7fefffffffffffff⟩ = (⟨low, e⟩, ⟨high, e⟩) ∧
      2 ^ 63 ≤ high.toNat ∧
      IsGreatest {q ∈ Binary64.grid | q < Binary64.rational ⟨0x7fefffffffffffff⟩} below ∧
      IsLeast {q ∈ Binary64.grid | Binary64.rational ⟨0x7fefffffffffffff⟩ < q} above ∧
      low.toNat * (2 : ℚ) ^ e = (below + Binary64.rational ⟨0x7fefffffffffffff⟩) / 2 ∧
      high.toNat * (2 : ℚ) ^ e = (Binary64.rational ⟨0x7fefffffffffffff⟩ + above) / 2 :=
  boundaries_are_midpoints ⟨0x7fefffffffffffff⟩ (by decide) (by decide) (by decide)

end BinaryFraction

end Ecma
