import Ecma.Number.Literal
import Ecma.Proofs.Number.ShortestDigits
import Mathlib.Data.List.Induction

/-!
# Reading decimal texts

A text comes back from its code units, and the decimal literals are read part
by part: a sign, the digits before the point, those after it, and an exponent
that takes what is left.  The number read is the correctly rounded value of the
literal: where the range of the doubles is left, the short cuts give what
rounding gives.
-/

namespace Ecma

/-! ## Characters of a text -/

namespace Text

theorem not_surrogate (c : Char) : c.toNat < 0xd800 ∨ 0xdfff < c.toNat ∧ c.toNat < 0x110000 :=
  c.valid

theorem decodeUnits_cons {u : UInt16} (hu : isHighSurrogate u = false) (us : List UInt16) :
    decodeUnits (u :: us) = charOfUnit u :: decodeUnits us := by
  match us with
  | [] => rfl
  | v :: us => simp [decodeUnits, hu]

theorem decodeUnits_encodeChar (c : Char) (us : List UInt16) :
    decodeUnits (encodeChar c ++ us) = c :: decodeUnits us := by
  have hvalid := not_surrogate c
  unfold encodeChar
  split
  · rename_i hsmall
    have hunit : (UInt16.ofNat c.toNat).toNat = c.toNat := UInt16.toNat_ofNat_of_lt' hsmall
    have hhigh : isHighSurrogate (UInt16.ofNat c.toNat) = false := by
      simp only [isHighSurrogate, hunit, decide_eq_false_iff_not]
      omega
    have hlow : isLowSurrogate (UInt16.ofNat c.toNat) = false := by
      simp only [isLowSurrogate, hunit, decide_eq_false_iff_not]
      omega
    rw [List.singleton_append, decodeUnits_cons hhigh, charOfUnit, hhigh, hlow, hunit]
    simp
  · rename_i hlarge
    have hupper : (UInt16.ofNat (0xd800 + (c.toNat - 0x10000) / 0x400)).toNat =
        0xd800 + (c.toNat - 0x10000) / 0x400 := by
      apply UInt16.toNat_ofNat_of_lt'
      change _ < 65536
      omega
    have hlower : (UInt16.ofNat (0xdc00 + (c.toNat - 0x10000) % 0x400)).toNat =
        0xdc00 + (c.toNat - 0x10000) % 0x400 := by
      apply UInt16.toNat_ofNat_of_lt'
      change _ < 65536
      omega
    have hpair : isHighSurrogate (UInt16.ofNat (0xd800 + (c.toNat - 0x10000) / 0x400)) &&
        isLowSurrogate (UInt16.ofNat (0xdc00 + (c.toNat - 0x10000) % 0x400)) := by
      simp only [isHighSurrogate, isLowSurrogate, hupper, hlower, Bool.and_eq_true,
        decide_eq_true_eq]
      omega
    have hjoin : 0x10000 + (0xd800 + (c.toNat - 0x10000) / 0x400 - 0xd800) * 0x400 +
        (0xdc00 + (c.toNat - 0x10000) % 0x400 - 0xdc00) = c.toNat := by
      omega
    simp only [List.cons_append, List.nil_append, decodeUnits, hpair, if_true, joinPair, hupper,
      hlower, hjoin, Char.ofNat_toNat]

theorem chars_ofString (s : String) : (ofString s).chars = s.toList := by
  have hdecode (cs : List Char) : decodeUnits (cs.flatMap encodeChar) = cs := by
    induction cs with
    | nil => rfl
    | cons c cs ih => rw [List.flatMap_cons, decodeUnits_encodeChar, ih]
  exact hdecode s.toList

theorem trimBlank_eq {cs : List Char} (h : ∀ c ∈ cs, isBlank c = false) : trimBlank cs = cs := by
  have hdrop (ds : List Char) (hds : ∀ d ∈ ds, isBlank d = false) : ds.dropWhile isBlank = ds := by
    match ds with
    | [] => rfl
    | d :: ds => rw [List.dropWhile_cons_of_neg (by simp [hds d])]
  rw [trimBlank, hdrop cs h, hdrop cs.reverse, List.reverse_reverse]
  exact fun c hc ↦ h c (List.mem_reverse.1 hc)

end Text

namespace Binary64

/-! ## Digits -/

/-- Decimal digits only. -/
def AreDigits (cs : List Char) : Prop := ∀ c ∈ cs, isDigit 10 c = true

theorem digitValue?_digitChar {d : ℕ} (hd : d < 10) :
    digitValue? 10 (Nat.digitChar d) = some d := by
  have hall : ∀ d : Fin 10, digitValue? 10 (Nat.digitChar d) = some d.1 := by decide
  exact hall ⟨d, hd⟩

theorem areDigits_map {ds : List ℕ} (hds : ∀ d ∈ ds, d < 10) :
    AreDigits (ds.map Nat.digitChar) := by
  intro c hc
  obtain ⟨d, hd, rfl⟩ := List.mem_map.1 hc
  simp [isDigit, digitValue?_digitChar (hds d hd)]

/-- Digits after `n` continue it. -/
theorem foldl_digits (ds : List ℕ) (hds : ∀ d ∈ ds, d < 10) (n : ℕ) :
    (((ds.map Nat.digitChar).foldl (fun n c ↦ (digitValue? 10 c).getD 0 + 10 * n) n : ℕ) : ℚ) =
      (n + Decimal.fraction ds) * 10 ^ ds.length := by
  induction ds generalizing n with
  | nil => simp
  | cons d ds ih =>
      obtain ⟨hd, hds⟩ := List.forall_mem_cons.1 hds
      rw [List.map_cons, List.foldl_cons, ih hds, digitValue?_digitChar hd]
      push_cast [Option.getD_some, Decimal.fraction_cons, List.length_cons]
      ring

theorem digitsValue_map {ds : List ℕ} (hds : ∀ d ∈ ds, d < 10) :
    (digitsValue 10 (ds.map Nat.digitChar) : ℚ) = Decimal.fraction ds * 10 ^ ds.length := by
  rw [digitsValue_eq_foldl, foldl_digits ds hds, Nat.cast_zero, zero_add]

theorem digitsValue_append_singleton (radix : ℕ) (cs : List Char) (c : Char) :
    digitsValue radix (cs ++ [c]) =
      (digitValue? radix c).getD 0 + radix * digitsValue radix cs := by
  simp only [digitsValue_eq_foldl, List.foldl_append, List.foldl_cons, List.foldl_nil]

theorem digitValue_lt {radix : ℕ} (hradix : 0 < radix) (c : Char) :
    (digitValue? radix c).getD 0 < radix := by
  cases hvalue : digitValue? radix c with
  | none => exact hradix
  | some v => simpa using (Option.filter_eq_some_iff.1 hvalue).2

theorem digitsValue_lt {radix : ℕ} (hradix : 0 < radix) (cs : List Char) :
    digitsValue radix cs < radix ^ cs.length := by
  induction cs using List.reverseRecOn with
  | nil => simp [digitsValue_eq_foldl]
  | append_singleton cs c ih =>
      have hdigit := digitValue_lt hradix c
      rw [digitsValue_append_singleton, List.length_append, List.length_singleton, Nat.pow_succ]
      have hle : radix * (digitsValue radix cs + 1) ≤ radix * radix ^ cs.length :=
        Nat.mul_le_mul_left radix ih
      rw [Nat.mul_succ] at hle
      rw [Nat.mul_comm (radix ^ cs.length)]
      omega

/-- The decimal text of a natural number has digits only, and is read as that number. -/
theorem exists_toDigits (n : ℕ) :
    ∃ ds, Nat.toDigits 10 n = ds.map Nat.digitChar ∧ Decimal.IsWritten ds ∧
      digitsValue 10 (Nat.toDigits 10 n) = n := by
  induction n using Nat.strong_induction_on with
  | _ n ih =>
      rw [Nat.toDigits_eq_if (by decide)]
      split
      · rename_i hn
        refine ⟨[n], rfl, ⟨by simp, by simpa using hn⟩, ?_⟩
        simp [digitsValue_eq_foldl, digitValue?_digitChar hn]
      · rename_i hn
        obtain ⟨ds, hdigits, hwritten, hvalue⟩ := ih (n / 10) (by omega)
        have hlast : n % 10 < 10 := Nat.mod_lt n (by decide)
        refine ⟨ds ++ [n % 10], by simp [hdigits], ⟨by simp, ?_⟩, ?_⟩
        · intro d hd
          rcases List.mem_append.1 hd with hd | hd
          · exact hwritten.lt_ten d hd
          · rw [List.mem_singleton.1 hd]
            exact hlast
        · rw [digitsValue_append_singleton, hvalue, digitValue?_digitChar hlast, Option.getD_some]
          omega

/-- An exponent below the limit is read digit by digit like any integer. -/
theorem exponentValue_eq {cs : List Char} (h : digitsValue 10 cs < exponentLimit) :
    exponentValue cs = digitsValue 10 cs := by
  induction cs using List.reverseRecOn with
  | nil => simp [exponentValue, digitsValue_eq_foldl]
  | append_singleton cs c ih =>
      rw [digitsValue_append_singleton] at h ⊢
      have hbefore : digitsValue 10 cs < exponentLimit := by omega
      have hread := ih hbefore
      unfold exponentValue at hread ⊢
      rw [List.foldl_append, hread, List.foldl_cons, List.foldl_nil, if_pos hbefore]
      omega

/-! ## Correct rounding -/

theorem decimal_ratio (n : ℕ) (e : ℤ) :
    ((n * Nat.pow 10 e.toNat * unitsPerOne : ℕ) : ℚ) / (Nat.pow 10 (-e).toNat : ℕ) =
      n * 10 ^ e * unitsPerOne := by
  have hpow := cast_pow_div_pow (b := 10) (by decide) e
  rw [Nat.cast_ofNat] at hpow
  rw [← hpow, Nat.cast_mul, Nat.cast_mul]
  ring

theorem decimal_le_half {n digits : ℕ} {e : ℤ} (hn : n < 10 ^ digits)
    (hsmall : digits + e < -330) : (n * 10 ^ e * unitsPerOne : ℚ) ≤ 1 / 2 := by
  have hnQ : (n : ℚ) ≤ 10 ^ (digits : ℤ) := by exact_mod_cast hn.le
  have hten : (10 : ℚ) ≠ 0 := by norm_num
  have hpos := unitsPerOne_pos
  have hunits : (unitsPerOne : ℚ) ≤ 10 ^ (324 : ℤ) := by
    rw [unitsPerOne_cast]
    exact two_pow_lt_ten_pow_324.le
  generalize (unitsPerOne : ℚ) = u at hpos hunits ⊢
  calc
    n * 10 ^ e * u ≤ 10 ^ (digits : ℤ) * 10 ^ e * u := by gcongr
    _ = 10 ^ (digits + e) * u := by rw [zpow_add₀ hten]
    _ ≤ 10 ^ (-325 : ℤ) * 10 ^ (324 : ℤ) := by
      gcongr
      · norm_num
      · omega
    _ = 10 ^ (-325 + 324 : ℤ) := (zpow_add₀ hten _ _).symm
    _ ≤ 1 / 2 := by norm_num

theorem two_pow_le_decimal {n : ℕ} {e : ℤ} (hn : 0 < n) (hlarge : 310 < e) :
    (2 : ℚ) ^ (1025 + 1074) ≤ n * 10 ^ e * unitsPerOne := by
  have hnQ : (1 : ℚ) ≤ n := by exact_mod_cast hn
  have hpow : (10 : ℚ) ^ (310 : ℤ) ≤ 10 ^ e := zpow_le_zpow_right₀ (by norm_num) hlarge.le
  rw [unitsPerOne_cast, pow_add]
  refine mul_le_mul_of_nonneg_right ?_ (by positivity)
  calc
    (2 : ℚ) ^ 1025 ≤ 10 ^ e := two_pow_lt_ten_pow_310.le.trans hpow
    _ ≤ n * 10 ^ e := le_mul_of_one_le_left (by positivity) hnQ

/-- Beyond the range of the doubles rounding gives zero or infinity, so the
power need not be computed there. -/
theorem ofDecimal_eq_ofUnits (negative : Bool) {n digits : ℕ} (hn : n < 10 ^ digits) (e : ℤ) :
    ofDecimal negative n digits e =
      ofUnits negative (n * Nat.pow 10 e.toNat * unitsPerOne) (Nat.pow 10 (-e).toNat) := by
  have hd : 0 < Nat.pow 10 (-e).toNat := Nat.pow_pos (by decide)
  have hratio := decimal_ratio n e
  unfold ofDecimal ofUnits
  split
  · rename_i hsmall
    have hhalf : (n * 10 ^ e * unitsPerOne : ℚ) ≤ 1 / 2 := by
      rcases hsmall with hzero | hsmall
      · rw [hzero, Nat.cast_zero, zero_mul, zero_mul]
        norm_num
      · exact decimal_le_half hn hsmall
    have hnearest := isNearest_zero
      (div_nonneg (Nat.cast_nonneg _) (Nat.cast_nonneg _)) (hratio.le.trans hhalf)
    rw [hnearest.roundRatio_eq_absWord (by decide) hd]
    rfl
  · rename_i hsmall
    split
    · rename_i hlarge
      have hpos : 0 < n := by omega
      have hbeyond := (two_pow_le_decimal hpos hlarge).trans hratio.ge
      rw [roundRatio_eq_infinityWord hd (by decide) hbeyond]
    · rfl

/-- The number a literal denotes. -/
def DecimalLiteral.number (d : DecimalLiteral) : ℚ :=
  digitsValue 10 (d.whole ++ d.fraction) * 10 ^ (d.exponent - d.fraction.length)

/-- A literal is read as the double whose rounding interval its number is in. -/
theorem DecimalLiteral.value_of_isNearest {d : DecimalLiteral} {x : Binary64}
    (hx : x.isFinite = true) (h : x.IsNearest (d.number * unitsPerOne)) :
    d.value = withSign d.negative x.absWord := by
  rw [number, ← decimal_ratio] at h
  rw [value, ofDecimal_eq_ofUnits d.negative (digitsValue_lt (by decide) _), ofUnits]
  exact congrArg _ (h.roundRatio_eq_absWord hx (Nat.pow_pos (by decide)))

/-! ## Numerals

The texts of finite numbers are made of few characters; none of these is blank
or marks a radix. -/

theorem isDigit_iff (c : Char) : isDigit 10 c = true ↔ 48 ≤ c.toNat ∧ c.toNat ≤ 57 := by
  have hle (a b : Char) : a ≤ b ↔ a.toNat ≤ b.toNat := Iff.rfl
  unfold isDigit digitValue?
  simp only [hle]
  split
  · rename_i h
    simp at h ⊢
    omega
  · rename_i h
    split
    · rename_i hlower
      simp at h hlower ⊢
      omega
    · split
      · rename_i hupper
        simp at h hupper ⊢
        omega
      · simp at h ⊢
        omega

def isNumeral (c : Char) : Bool :=
  isDigit 10 c || c == '.' || c == '-' || c == '+' || c == 'e'

theorem isNumeral_of_isDigit {c : Char} (hc : isDigit 10 c = true) : isNumeral c = true := by
  simp [isNumeral, hc]

theorem isBlank_of_isNumeral {c : Char} (hc : isNumeral c = true) : Text.isBlank c = false := by
  simp only [isNumeral, Bool.or_eq_true, beq_iff_eq, isDigit_iff] at hc
  rcases hc with (((hc | rfl) | rfl) | rfl) | rfl
  · simp [Text.isBlank]
    omega
  all_goals decide

theorem ne_of_isNumeral {c d : Char} (hc : isNumeral c = true) (hd : isNumeral d = false) :
    c ≠ d := by
  rintro rfl
  rw [hc] at hd
  cases hd

theorem radixOf?_of_isNumeral {c : Char} (hc : isNumeral c = true) : radixOf? c = none := by
  have hne {d : Char} (hd : isNumeral d = false) : c ≠ d := ne_of_isNumeral hc hd
  simp [radixOf?, hne (d := 'x') (by decide), hne (d := 'X') (by decide),
    hne (d := 'o') (by decide), hne (d := 'O') (by decide), hne (d := 'b') (by decide),
    hne (d := 'B') (by decide)]

theorem ofTrimmed_of_numerals (r : Reader) {cs : List Char} (hne : cs ≠ [])
    (h : ∀ c ∈ cs, isNumeral c = true) : r.ofTrimmed cs = r.ofDecimalChars cs := by
  have hinfinity (ds : List Char) (hds : 'I' ∈ ds) : cs ≠ ds := by
    rintro rfl
    exact ne_of_isNumeral (h 'I' hds) (by decide) rfl
  have hpositive : ¬(cs = "Infinity".toList ∨ cs = "+Infinity".toList) :=
    not_or.2 ⟨hinfinity _ (by simp), hinfinity _ (by simp)⟩
  have hnegative : ¬cs = "-Infinity".toList := hinfinity _ (by simp)
  have hempty : ¬cs.isEmpty = true := by simpa using hne
  unfold Reader.ofTrimmed
  rw [if_neg hempty, if_neg hpositive, if_neg hnegative]
  split
  · rename_i c rest
    rw [radixOf?_of_isNumeral (h c (by simp))]
  · rfl

theorem ofDecimalChars_standard {cs : List Char} {d : DecimalLiteral}
    (h : DecimalLiteral.read? cs = some d) : Reader.standard.ofDecimalChars cs = d.value := by
  simp [Reader.ofDecimalChars, Reader.standard, h]

theorem ofText_of_numerals {s : String} (hne : s.toList ≠ [])
    (h : ∀ c ∈ s.toList, isNumeral c = true) :
    ofText (Text.ofString s) = Reader.standard.ofDecimalChars s.toList := by
  have hblank : ∀ c ∈ s.toList, Text.isBlank c = false := fun c hc ↦ isBlank_of_isNumeral (h c hc)
  rw [ofText, Text.chars_ofString, Text.trimBlank_eq hblank, ofTrimmed_of_numerals _ hne h]

/-! ## Parts of a literal -/

theorem spanDigits_append {cs rest : List Char} (hcs : AreDigits cs)
    (hrest : ∀ c ∈ rest.head?, isDigit 10 c = false) : spanDigits (cs ++ rest) = (cs, rest) := by
  have hstop : rest.takeWhile (isDigit 10) = [] ∧ rest.dropWhile (isDigit 10) = rest := by
    match rest with
    | [] => exact ⟨rfl, rfl⟩
    | c :: rest => simp [hrest c (by simp)]
  rw [spanDigits, List.span_eq_takeWhile_dropWhile, List.takeWhile_append_of_pos hcs,
    List.dropWhile_append_of_pos hcs, hstop.1, hstop.2, List.append_nil]

/-- An exponent is empty or begins with its mark. -/
theorem readExponent?_head {cs : List Char} {e : ℤ} (h : readExponent? cs = some e) :
    ∀ c ∈ cs.head?, c = 'e' ∨ c = 'E' := by
  intro c hc
  match cs with
  | d :: cs =>
      obtain rfl : d = c := by simpa using hc
      by_contra hmark
      rw [readExponent?, if_neg hmark] at h
      cases h

/-- The fraction with its point, nothing when there are no digits. -/
def fractionChars (fraction : List Char) : List Char :=
  if fraction.isEmpty then [] else '.' :: fraction

theorem readFraction_append {fraction exponent : List Char} {e : ℤ} (hfraction : AreDigits fraction)
    (hexponent : readExponent? exponent = some e) :
    readFraction (fractionChars fraction ++ exponent) = (fraction, exponent) := by
  have hhead := readExponent?_head hexponent
  match fraction with
  | [] =>
      change readFraction exponent = _
      unfold readFraction
      split
      · exact absurd (hhead '.' rfl) (by decide)
      · rfl
  | c :: cs =>
      apply spanDigits_append hfraction
      intro d hd
      rcases hhead d hd with rfl | rfl <;> decide

theorem head?_fractionChars_append (fraction : List Char) {exponent : List Char} {e : ℤ}
    (hexponent : readExponent? exponent = some e) :
    ∀ c ∈ (fractionChars fraction ++ exponent).head?, isDigit 10 c = false := by
  intro c hc
  match fraction with
  | [] => rcases readExponent?_head hexponent c hc with rfl | rfl <;> decide
  | d :: ds =>
      obtain rfl : '.' = c := by simpa [fractionChars] using hc
      decide

/-- The characters of a sign. -/
def signChars (negative : Bool) : List Char := if negative then ['-'] else []

theorem readSign_append (negative : Bool) {c : Char} (hc : isDigit 10 c = true) (cs : List Char) :
    readSign (signChars negative ++ c :: cs) = (negative, c :: cs) := by
  cases negative with
  | true => rfl
  | false =>
      change readSign (c :: cs) = _
      unfold readSign
      split
      · rename_i heq
        obtain rfl : c = '+' := (List.cons.inj heq).1
        exact absurd hc (by decide)
      · rename_i heq
        obtain rfl : c = '-' := (List.cons.inj heq).1
        exact absurd hc (by decide)
      · rfl

theorem DecimalLiteral.read?_append (negative : Bool) {whole fraction exponent : List Char} {e : ℤ}
    (hwhole : AreDigits whole) (hne : whole ≠ []) (hfraction : AreDigits fraction)
    (hexponent : readExponent? exponent = some e) :
    read? (signChars negative ++ (whole ++ (fractionChars fraction ++ exponent))) =
      some ⟨negative, whole, fraction, e⟩ := by
  have hsign : readSign (signChars negative ++ (whole ++ (fractionChars fraction ++ exponent))) =
      (negative, whole ++ (fractionChars fraction ++ exponent)) := by
    match whole, hne with
    | c :: cs, _ => exact readSign_append negative (hwhole c (by simp)) _
  have hspan := spanDigits_append hwhole (head?_fractionChars_append fraction hexponent)
  unfold read?
  simp only [hsign, hspan, readFraction_append hfraction hexponent, hexponent]
  simp [hne]

/-! ## Spellings -/

/-- An unsigned literal with digits before the point, and an exponent of which
only its value matters. -/
structure Spelling where
  whole : List ℕ
  fraction : List ℕ
  tail : List Char
  exponent : ℤ
  whole_isWritten : Decimal.IsWritten whole
  fraction_lt_ten : ∀ d ∈ fraction, d < 10
  readExponent?_tail : readExponent? tail = some exponent
  isNumeral_tail : ∀ c ∈ tail, isNumeral c = true

namespace Spelling

variable (s : Spelling)

def wholeChars : List Char := s.whole.map Nat.digitChar

def fractionDigits : List Char := s.fraction.map Nat.digitChar

def chars : List Char := s.wholeChars ++ (fractionChars s.fractionDigits ++ s.tail)

def number : ℚ := Decimal.fraction (s.whole ++ s.fraction) * 10 ^ (s.whole.length + s.exponent)

theorem areDigits_whole : AreDigits s.wholeChars := areDigits_map s.whole_isWritten.lt_ten

theorem areDigits_fraction : AreDigits s.fractionDigits := areDigits_map s.fraction_lt_ten

theorem wholeChars_ne_nil : s.wholeChars ≠ [] := by
  simpa [wholeChars] using s.whole_isWritten.ne_nil

theorem isNumeral_chars : ∀ c ∈ s.chars, isNumeral c = true := by
  intro c hc
  rcases List.mem_append.1 hc with hc | hc
  · exact isNumeral_of_isDigit (s.areDigits_whole c hc)
  · rcases List.mem_append.1 hc with hc | hc
    · unfold fractionChars at hc
      split at hc
      · cases hc
      · rcases List.mem_cons.1 hc with rfl | hc
        · decide
        · exact isNumeral_of_isDigit (s.areDigits_fraction c hc)
    · exact s.isNumeral_tail c hc

theorem number_literal (negative : Bool) :
    DecimalLiteral.number ⟨negative, s.wholeChars, s.fractionDigits, s.exponent⟩ = s.number := by
  have hten : (10 : ℚ) ≠ 0 := by norm_num
  have hdigits : ∀ d ∈ s.whole ++ s.fraction, d < 10 := by
    intro d hd
    rcases List.mem_append.1 hd with hd | hd
    · exact s.whole_isWritten.lt_ten d hd
    · exact s.fraction_lt_ten d hd
  rw [DecimalLiteral.number, wholeChars, fractionDigits, ← List.map_append, digitsValue_map hdigits,
    number, List.length_append, List.length_map, mul_assoc, ← zpow_natCast, ← zpow_add₀ hten]
  push_cast
  congr 2
  ring

/-- A signed spelling is read as the double whose interval its number is in. -/
theorem ofText_eq {text : String} {negative : Bool}
    (htext : text.toList = signChars negative ++ s.chars) {x : Binary64} (hx : x.isFinite = true)
    (hnumber : x.IsNearest (s.number * unitsPerOne)) :
    ofText (Text.ofString text) = withSign negative x.absWord := by
  have hsign : ∀ c ∈ signChars negative, isNumeral c = true := by
    intro c hc
    cases negative with
    | false => cases hc
    | true =>
        rw [List.mem_singleton.1 hc]
        decide
  have hnumeral : ∀ c ∈ text.toList, isNumeral c = true := by
    rw [htext]
    exact List.forall_mem_append.2 ⟨hsign, s.isNumeral_chars⟩
  have hne : text.toList ≠ [] := by
    rw [htext, chars]
    simp [s.wholeChars_ne_nil]
  have hread : DecimalLiteral.read? text.toList =
      some ⟨negative, s.wholeChars, s.fractionDigits, s.exponent⟩ := by
    rw [htext]
    exact DecimalLiteral.read?_append negative s.areDigits_whole s.wholeChars_ne_nil
      s.areDigits_fraction s.readExponent?_tail
  rw [ofText_of_numerals hne hnumeral, ofDecimalChars_standard hread]
  apply DecimalLiteral.value_of_isNearest hx
  rwa [number_literal]

end Spelling

end Binary64

end Ecma
