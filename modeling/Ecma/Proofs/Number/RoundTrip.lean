import Ecma.Number.Text
import Ecma.Proofs.Number.Reading

/-!
# A number is read back from its text

Each layout of the shortest digits spells the number the digits denote, which
is in the rounding interval of the double; the text of a safe integer spells
the integer itself.  Reading rounds what is spelled, and so gives the double
back with its sign.
-/

namespace Ecma

open Binary64

namespace Decimal

/-! ## Exponents -/

theorem toList_exponentText (e : ℤ) :
    (exponentText e).toList = 'e' :: (if e < 0 then '-' else '+') :: Nat.toDigits 10 e.natAbs := by
  unfold exponentText
  split <;> simp [Nat.toString_eq_repr, Nat.toList_repr]

theorem areDigits_toDigits (n : ℕ) : AreDigits (Nat.toDigits 10 n) := by
  obtain ⟨ds, hdigits, hwritten, _⟩ := exists_toDigits n
  rw [hdigits]
  exact areDigits_map hwritten.lt_ten

theorem readExponent?_exponentText {e : ℤ} (he : e.natAbs < exponentLimit) :
    readExponent? (exponentText e).toList = some e := by
  obtain ⟨_, _, _, hvalue⟩ := exists_toDigits e.natAbs
  have hread : exponentValue (Nat.toDigits 10 e.natAbs) = e.natAbs := by
    rw [exponentValue_eq (by rwa [hvalue]), hvalue]
  have hne : Nat.toDigits 10 e.natAbs ≠ [] := Nat.toDigits_ne_nil
  have hall : (Nat.toDigits 10 e.natAbs).all (isDigit 10) = true :=
    List.all_eq_true.2 (areDigits_toDigits _)
  rw [toList_exponentText]
  split
  · rename_i hneg
    have habs : (e.natAbs : ℤ) = -e := by omega
    simp [readExponent?, readSign, hne, hall, hread, habs]
  · rename_i hneg
    have habs : (e.natAbs : ℤ) = e := by omega
    simp [readExponent?, readSign, hne, hall, hread, habs]

theorem isNumeral_exponentText (e : ℤ) : ∀ c ∈ (exponentText e).toList, isNumeral c = true := by
  rw [toList_exponentText]
  refine List.forall_mem_cons.2 ⟨by decide, List.forall_mem_cons.2 ⟨?_, ?_⟩⟩
  · split <;> decide
  · exact fun c hc ↦ isNumeral_of_isDigit (areDigits_toDigits _ c hc)

/-! ## Layouts -/

theorem fraction_replicate_append (n : ℕ) (ds : List ℕ) :
    fraction (List.replicate n 0 ++ ds) * 10 ^ n = fraction ds := by
  induction n with
  | zero => simp
  | succ n ih =>
      rw [List.replicate_succ, List.cons_append, fraction_cons, ← ih, pow_succ]
      push_cast
      ring

theorem toList_digitText (ds : List ℕ) : (digitText ds).toList = ds.map Nat.digitChar := by
  simp [digitText]

theorem toList_zeros (n : ℕ) : (zeros n).toList = (List.replicate n 0).map Nat.digitChar := by
  simp [zeros]

theorem IsWritten.append {ds es : List ℕ} (hds : IsWritten ds) (hes : ∀ e ∈ es, e < 10) :
    IsWritten (ds ++ es) :=
  ⟨by simp [hds.ne_nil], List.forall_mem_append.2 ⟨hds.lt_ten, hes⟩⟩

theorem IsWritten.take {ds : List ℕ} (hds : IsWritten ds) {n : ℕ} (hn : n ≠ 0) :
    IsWritten (ds.take n) :=
  ⟨by simp [hds.ne_nil, hn], fun d hd ↦ hds.lt_ten d (List.mem_of_mem_take hd)⟩

section

variable {d : Decimal} (hwritten : IsWritten d.digits)

include hwritten

theorem exists_spelling_integer (hcount : (d.digits.length : ℤ) ≤ d.point) :
    ∃ s : Spelling, s.number = d.number ∧
      s.chars = (digitText d.digits ++ zeros (d.point - d.digits.length).toNat).toList := by
  obtain ⟨n, hn⟩ := Int.eq_ofNat_of_zero_le (sub_nonneg.2 hcount)
  have hzeros : ∀ z ∈ List.replicate n 0, z = 0 := fun z hz ↦ List.eq_of_mem_replicate hz
  have hwhole : IsWritten (d.digits ++ List.replicate n 0) :=
    hwritten.append fun z hz ↦ by simp [hzeros z hz]
  refine ⟨⟨d.digits ++ List.replicate n 0, [], [], 0, hwhole, by simp, rfl, by simp⟩, ?_, ?_⟩
  · rw [Spelling.number, List.append_nil, fraction_append_zeros _ _ hzeros, number]
    congr 2
    simp
    omega
  · simp [Spelling.chars, Spelling.wholeChars, Spelling.fractionDigits, fractionChars,
      toList_digitText, toList_zeros, hn]

theorem exists_spelling_point (hpos : 0 < d.point) (hcount : d.point < d.digits.length) :
    ∃ s : Spelling, s.number = d.number ∧
      s.chars = (digitText (d.digits.take d.point.toNat) ++ "." ++
        digitText (d.digits.drop d.point.toNat)).toList := by
  obtain ⟨n, hn⟩ := Int.eq_ofNat_of_zero_le hpos.le
  have hwhole := hwritten.take (n := n) (by omega)
  have hlength : (d.digits.take n).length = n := by
    rw [List.length_take]
    omega
  have hrest : ¬d.digits.length ≤ n := by omega
  refine ⟨⟨d.digits.take n, d.digits.drop n, [], 0, hwhole, ?_, rfl, by simp⟩, ?_, ?_⟩
  · exact fun e he ↦ hwritten.lt_ten e (List.mem_of_mem_drop he)
  · rw [Spelling.number, List.take_append_drop, number, hlength, hn, add_zero]
  · simp [Spelling.chars, Spelling.wholeChars, Spelling.fractionDigits, fractionChars,
      toList_digitText, hn, hrest]

theorem exists_spelling_small (hpoint : d.point ≤ 0) :
    ∃ s : Spelling, s.number = d.number ∧
      s.chars = ("0." ++ zeros (-d.point).toNat ++ digitText d.digits).toList := by
  obtain ⟨n, hn⟩ := Int.eq_ofNat_of_zero_le (neg_nonneg.2 hpoint)
  refine ⟨⟨[0], List.replicate n 0 ++ d.digits, [], 0, ⟨by simp, by simp⟩, ?_, rfl, by simp⟩,
    ?_, ?_⟩
  · refine List.forall_mem_append.2 ⟨?_, hwritten.lt_ten⟩
    intro z hz
    simp [List.eq_of_mem_replicate hz]
  · obtain hpoint : d.point = -n := by omega
    rw [Spelling.number, number, hpoint, ← fraction_replicate_append n d.digits, zpow_neg,
      zpow_natCast]
    simp
  · simp [Spelling.chars, Spelling.wholeChars, Spelling.fractionDigits, fractionChars,
      toList_digitText, toList_zeros, hn, hwritten.ne_nil]

theorem exists_spelling_exponent (hpoint : (d.point - 1).natAbs < exponentLimit) :
    ∃ s : Spelling, s.number = d.number ∧
      s.chars = (digitText (d.digits.take 1) ++
        (if (d.digits.drop 1).isEmpty then "" else "." ++ digitText (d.digits.drop 1)) ++
        exponentText (d.point - 1)).toList := by
  have hlength : (d.digits.take 1).length = 1 := by
    have hne := List.length_pos_iff.2 hwritten.ne_nil
    rw [List.length_take]
    omega
  refine ⟨⟨d.digits.take 1, d.digits.drop 1, (exponentText (d.point - 1)).toList, d.point - 1,
    hwritten.take one_ne_zero, ?_, readExponent?_exponentText hpoint,
    isNumeral_exponentText _⟩, ?_, ?_⟩
  · exact fun e he ↦ hwritten.lt_ten e (List.mem_of_mem_drop he)
  · rw [Spelling.number, List.take_append_drop, number, hlength, Nat.cast_one, add_sub_cancel]
  · simp only [Spelling.chars, Spelling.wholeChars, Spelling.fractionDigits, fractionChars,
      List.isEmpty_map]
    split <;> simp [toList_digitText]

/-- Whatever the layout, the text spells what the digits denote. -/
theorem exists_spelling_layout (hpoint : (d.point - 1).natAbs < exponentLimit) :
    ∃ s : Spelling, s.number = d.number ∧ s.chars = d.layout.toList := by
  unfold layout
  simp only
  split
  · rename_i hcase
    exact exists_spelling_integer hwritten hcase.1
  · rename_i hinteger
    split
    · rename_i hcase
      apply exists_spelling_point hwritten hcase.1
      omega
    · split
      · rename_i hcase
        exact exists_spelling_small hwritten hcase.2
      · exact exists_spelling_exponent hwritten hpoint

end

end Decimal

namespace Binary64

/-! ## Signs -/

theorem ofWord_word (x : Binary64) : ofWord x.word = x := by
  simp [ofWord, word]

theorem withSign_absWord (x : Binary64) : withSign x.isNegative x.absWord = x := by
  have hword : (if x.isNegative then signBit + x.absWord else x.absWord) = x.word := by
    have hlt : x.word < 2 ^ 64 := x.bits.toNat_lt
    unfold isNegative absWord signBit
    split
    · rename_i hneg
      have hle := of_decide_eq_true hneg
      omega
    · rename_i hneg
      have hle := of_decide_eq_false (Bool.eq_false_iff.2 hneg)
      omega
  rw [withSign, hword, ofWord_word]

theorem word_abs (x : Binary64) : x.abs.word = x.absWord := by
  have hlt : x.absWord < 2 ^ 64 := by
    unfold absWord signBit
    omega
  exact UInt64.toNat_ofNat_of_lt' hlt

theorem absWord_abs (x : Binary64) : x.abs.absWord = x.absWord := by
  rw [absWord, word_abs, absWord, Nat.mod_mod]

theorem isFinite_abs (x : Binary64) : x.abs.isFinite = x.isFinite := by
  rw [isFinite, absWord_abs, isFinite]

theorem isZero_abs (x : Binary64) : x.abs.isZero = x.isZero := by
  rw [isZero, absWord_abs, isZero]

/-! ## Finite numbers -/

theorem exists_spelling_natural (n : ℕ) :
    ∃ s : Spelling, s.number = n ∧ s.chars = Nat.toDigits 10 n := by
  obtain ⟨ds, hdigits, hwritten, hvalue⟩ := exists_toDigits n
  refine ⟨⟨ds, [], [], 0, hwritten, by simp, rfl, by simp⟩, ?_, ?_⟩
  · rw [hdigits] at hvalue
    rw [Spelling.number, List.append_nil, add_zero, zpow_natCast, ← digitsValue_map hwritten.lt_ten,
      hvalue]
  · simp [Spelling.chars, Spelling.wholeChars, Spelling.fractionDigits, fractionChars, hdigits]

theorem toList_toString_truncate {x : Binary64} (hpos : x.truncateNat ≠ 0) :
    (toString x.truncate).toList = signChars x.isNegative ++ Nat.toDigits 10 x.truncateNat := by
  rw [Int.toString_eq_repr, Int.repr_eq_if, truncate]
  cases x.isNegative with
  | false => simp [signChars, Nat.toList_repr]
  | true => simp [signChars, Nat.toList_repr, hpos]

/-- A safe integer is written as the integer it is. -/
theorem ofText_safeInteger {x : Binary64} (hx : x.isFinite = true) (hzero : x.isZero = false)
    (hintegral : x.isIntegral = true) : ofText (Text.ofString (toString x.truncate)) = x := by
  have hunits : x.truncateNat * unitsPerOne = x.magnitude :=
    Nat.div_mul_cancel (Nat.dvd_of_mod_eq_zero (of_decide_eq_true hintegral))
  have hmagnitude : 0 < x.magnitude :=
    Nat.mul_pos (x.significand_pos hzero) (Nat.two_pow_pos x.power)
  have hpos : x.truncateNat ≠ 0 := by
    intro hzero
    rw [hzero, Nat.zero_mul] at hunits
    omega
  obtain ⟨s, hnumber, hchars⟩ := exists_spelling_natural x.truncateNat
  have hnearest : x.IsNearest (s.number * unitsPerOne) := by
    rw [hnumber, ← Nat.cast_mul, hunits]
    exact x.isNearest_magnitude
  have htext := toList_toString_truncate hpos
  rw [← hchars] at htext
  rw [s.ofText_eq htext hx hnearest, withSign_absWord]

/-- Any other finite number is written with its shortest digits. -/
theorem ofText_layout {x : Binary64} (hx : x.isFinite = true) (hzero : x.isZero = false) :
    ofText (Text.ofString ((if x.isNegative then "-" else "") ++ (Decimal.shortest x.abs).layout)) =
      x := by
  have hfinite : x.abs.isFinite = true := by rwa [isFinite_abs]
  have hpos : 0 < x.abs.significand := significand_pos _ (by rwa [isZero_abs])
  have hpoint := Decimal.point_shortestFrom (Decimal.estimatePoint x.abs) hpos hfinite
  obtain ⟨s, hnumber, hchars⟩ := Decimal.exists_spelling_layout
    (Decimal.isWritten_shortestFrom (Decimal.estimatePoint x.abs) hpos)
    (by unfold exponentLimit; omega)
  have hnearest : x.abs.IsNearest (s.number * unitsPerOne) := by
    rw [hnumber]
    exact Decimal.isNearest_shortestFrom _ hpos
  have htext : ((if x.isNegative then "-" else "") ++ (Decimal.shortest x.abs).layout).toList =
      signChars x.isNegative ++ s.chars := by
    rw [hchars, String.toList_append]
    cases x.isNegative <;> rfl
  rw [s.ofText_eq htext hfinite hnearest, absWord_abs, withSign_absWord]

/-! ## Every number -/

theorem eq_zero_of_isZero {x : Binary64} (hzero : x.isZero = true)
    (hnegative : x.isNegativeZero = false) : x = zero := by
  have habs : x.absWord = 0 := of_decide_eq_true hzero
  have hword : x.word ≠ signBit := of_decide_eq_false hnegative
  have hlt : x.word < 2 ^ 64 := x.bits.toNat_lt
  have hnone : x.word = 0 := by
    unfold absWord at habs
    unfold signBit at habs hword
    omega
  rw [← x.ofWord_word, hnone]
  rfl

theorem isNegativeZero_eq_false {x : Binary64} (hzero : x.isZero = false) :
    x.isNegativeZero = false := by
  have habs : x.absWord ≠ 0 := of_decide_eq_false hzero
  apply decide_eq_false
  intro hword
  rw [absWord, hword, Nat.mod_self] at habs
  exact habs rfl

theorem ofText_infinite {x : Binary64} (hx : x.isInfinite = true) :
    ofText (Text.ofString (if x.isNegative then "-Infinity" else "Infinity")) = x := by
  have habs : x.absWord = infinityWord := of_decide_eq_true hx
  have hsign := x.withSign_absWord
  rw [habs] at hsign
  rw [ofText, Text.chars_ofString]
  refine Eq.trans ?_ hsign
  cases x.isNegative <;> rfl

/-- Reading the text of a number gives the number back, bit for bit, but for
the zero that is written without its sign and the NaNs, which are written alike. -/
theorem ofText_toText (x : Binary64) :
    ofText (Text.ofString x.toText) =
      if x.isNaN then nan else if x.isNegativeZero then zero else x := by
  unfold toText
  split
  · rw [ofText, Text.chars_ofString]
    rfl
  · rename_i hnan
    split
    · rename_i hzero
      have htext : ofText (Text.ofString "0") = zero := by
        rw [ofText, Text.chars_ofString]
        rfl
      rw [htext]
      split
      · rfl
      · rename_i hnegative
        exact (eq_zero_of_isZero hzero (Bool.eq_false_iff.2 hnegative)).symm
    · rename_i hzero
      have hzero := Bool.eq_false_iff.2 hzero
      rw [if_neg (Bool.eq_false_iff.1 (isNegativeZero_eq_false hzero))]
      split
      · rename_i hinfinite
        exact ofText_infinite hinfinite
      · rename_i hinfinite
        have hfinite : x.isFinite = true := by
          have hle : ¬infinityWord < x.absWord := fun h ↦ hnan (decide_eq_true h)
          have hne : ¬x.absWord = infinityWord := fun h ↦ hinfinite (decide_eq_true h)
          exact decide_eq_true (by omega)
        split
        · rename_i hsafe
          simp only [isSafeInteger, Bool.and_eq_true] at hsafe
          exact ofText_safeInteger hfinite hzero hsafe.1.2
        · exact ofText_layout hfinite hzero

end Binary64

end Ecma
