import Ecma.Proofs.Number.IntegerTags
import Ecma.Proofs.OwnProperties

/-!
# Texts of array indices

A text is read as an array index digit by digit, with a bound on its length, no
zero in front of other digits and a bound on the number.  The texts that pass are
the decimal forms of the numbers below the bound, each read as the number that it
is the form of; and the decimal form is what the number is written as when it is
a double.
-/

namespace Ecma

namespace Text

/-! ## Decimal units -/

/-- The unit of a decimal digit. -/
def unitOfDigit (d : ℕ) : UInt16 := UInt16.ofNat (0x30 + d)

/-- The units of the decimal form of a number. -/
def decimalUnits (n : ℕ) : List UInt16 := (Nat.toDigits 10 n).flatMap encodeChar

theorem ofString_toString (n : ℕ) : ofString (toString n) = ⟨decimalUnits n⟩ := by
  simp [ofString, decimalUnits, Nat.toString_eq_repr, Nat.toList_repr]

theorem encodeChar_digitChar {d : ℕ} (hd : d < 10) :
    encodeChar (Nat.digitChar d) = [unitOfDigit d] := by
  have hall : ∀ d : Fin 10, encodeChar (Nat.digitChar d) = [unitOfDigit d] := by decide
  exact hall ⟨d, hd⟩

theorem digitOfUnit?_unitOfDigit {d : ℕ} (hd : d < 10) :
    digitOfUnit? (unitOfDigit d) = some d := by
  have hall : ∀ d : Fin 10, digitOfUnit? (unitOfDigit d) = some d.1 := by decide
  exact hall ⟨d, hd⟩

theorem digitOfUnit?_eq_some_iff {u : UInt16} {d : ℕ} :
    digitOfUnit? u = some d ↔ d < 10 ∧ u = unitOfDigit d := by
  constructor
  · intro h
    unfold digitOfUnit? at h
    split at h
    next hu =>
      cases h
      refine ⟨by omega, UInt16.toNat_inj.1 ?_⟩
      rw [unitOfDigit, UInt16.toNat_ofNat']
      omega
    next => cases h
  · rintro ⟨hd, rfl⟩
    exact digitOfUnit?_unitOfDigit hd

/-- Each digit of the decimal form is one unit. -/
theorem exists_digits (n : ℕ) : ∃ ds : List ℕ, (∀ d ∈ ds, d < 10) ∧
    Nat.toDigits 10 n = ds.map Nat.digitChar ∧ decimalUnits n = ds.map unitOfDigit := by
  obtain ⟨ds, hdigits, hwritten, -⟩ := Binary64.exists_toDigits n
  have hunits : ∀ d ∈ ds, encodeChar (Nat.digitChar d) = [unitOfDigit d] :=
    fun d hd ↦ encodeChar_digitChar (hwritten.lt_ten d hd)
  refine ⟨ds, hwritten.lt_ten, hdigits, ?_⟩
  rw [decimalUnits, hdigits, List.flatMap_map, List.flatMap_congr hunits, List.map_eq_flatMap]

theorem length_decimalUnits (n : ℕ) : (decimalUnits n).length = (Nat.toDigits 10 n).length := by
  obtain ⟨ds, -, hchars, hunits⟩ := exists_digits n
  rw [hchars, hunits, List.length_map, List.length_map]

theorem decimalUnits_ne_nil (n : ℕ) : decimalUnits n ≠ [] := by
  rw [← List.length_pos_iff, length_decimalUnits]
  exact List.length_pos_iff.2 Nat.toDigits_ne_nil

theorem not_mem_decimalUnits {u : UInt16} (hu : digitOfUnit? u = none) (n : ℕ) :
    u ∉ decimalUnits n := by
  obtain ⟨ds, hds, -, hunits⟩ := exists_digits n
  intro hmem
  rw [hunits] at hmem
  obtain ⟨d, hd, rfl⟩ := List.mem_map.1 hmem
  rw [digitOfUnit?_unitOfDigit (hds d hd)] at hu
  cases hu

theorem decimalUnits_inj {m n : ℕ} : decimalUnits m = decimalUnits n ↔ m = n := by
  refine ⟨fun h ↦ ?_, fun h ↦ h ▸ rfl⟩
  have hchars : (ofString (toString m)).chars = (ofString (toString n)).chars := by
    rw [ofString_toString, ofString_toString, h]
  rw [chars_ofString, chars_ofString] at hchars
  have hdigits : Nat.toDigits 10 m = Nat.toDigits 10 n := by
    simpa [Nat.toString_eq_repr, Nat.toList_repr] using hchars
  rw [← Nat.ofDigitChars_ten_toDigits (n := m), hdigits, Nat.ofDigitChars_ten_toDigits]

theorem decimalUnits_of_lt {d : ℕ} (hd : d < 10) : decimalUnits d = [unitOfDigit d] := by
  rw [decimalUnits, Nat.toDigits_of_lt_base hd, List.flatMap_singleton, encodeChar_digitChar hd]

/-- A further digit is written after those of the number before it. -/
theorem decimalUnits_append {n d : ℕ} (hn : 0 < n) (hd : d < 10) :
    decimalUnits (n * 10 + d) = decimalUnits n ++ [unitOfDigit d] := by
  rw [← decimalUnits_of_lt hd, decimalUnits, decimalUnits, decimalUnits, ← List.flatMap_append,
    Nat.toDigits_append_toDigits (by decide) hn hd, Nat.mul_comm]

/-- Only zero is written with a zero in front. -/
theorem head?_decimalUnits {n : ℕ} (hn : 0 < n) : (decimalUnits n).head? ≠ some 0x30 := by
  induction n using Nat.strong_induction_on with
  | _ n ih =>
      by_cases hsmall : n < 10
      · have hall : ∀ d : Fin 10, 0 < d.1 → [unitOfDigit d.1].head? ≠ some 0x30 := by decide
        rw [decimalUnits_of_lt hsmall]
        exact hall ⟨n, hsmall⟩ hn
      · have hfront : 0 < n / 10 := by omega
        have hsplit : n = n / 10 * 10 + n % 10 := by omega
        rw [hsplit, decimalUnits_append hfront (Nat.mod_lt n (by decide)),
          List.head?_append_of_ne_nil _ (decimalUnits_ne_nil _)]
        exact ih (n / 10) (by omega) hfront

/-! ## Reading digits -/

/-- Reading on from a number gives the number whose decimal form goes on so. -/
theorem readDigits?_eq_some_iff {m n : ℕ} (hm : 0 < m) (us : List UInt16) :
    readDigits? m us = some n ↔ decimalUnits n = decimalUnits m ++ us := by
  induction us generalizing m with
  | nil => rw [readDigits?, Option.some_inj, List.append_nil, decimalUnits_inj, eq_comm]
  | cons u us ih =>
      rw [readDigits?]
      cases hu : digitOfUnit? u with
      | some d =>
          obtain ⟨hd, rfl⟩ := digitOfUnit?_eq_some_iff.1 hu
          dsimp only
          rw [ih (by omega), decimalUnits_append hm hd, List.append_assoc, List.singleton_append]
      | none => exact iff_of_false nofun fun h ↦ not_mem_decimalUnits hu n (by simp [h])

/-- Digits without a zero in front are read as the number that is written so. -/
theorem readDigits?_zero_eq_some_iff {us : List UInt16} (hne : us ≠ [])
    (hfront : 1 < us.length → us.head? ≠ some 0x30) {n : ℕ} :
    readDigits? 0 us = some n ↔ decimalUnits n = us := by
  obtain ⟨u, us, rfl⟩ := List.exists_cons_of_ne_nil hne
  rw [readDigits?]
  cases hu : digitOfUnit? u with
  | some d =>
      obtain ⟨hd, rfl⟩ := digitOfUnit?_eq_some_iff.1 hu
      dsimp only
      rw [Nat.zero_mul, Nat.zero_add]
      rcases Nat.eq_zero_or_pos d with rfl | hpos
      · obtain rfl : us = [] := by
          by_contra hmore
          exact hfront (by simpa [List.length_pos_iff] using hmore) rfl
        rw [readDigits?, Option.some_inj, ← decimalUnits_of_lt hd, decimalUnits_inj, eq_comm]
      · rw [readDigits?_eq_some_iff hpos, decimalUnits_of_lt hd, List.singleton_append]
  | none => exact iff_of_false nofun fun h ↦ not_mem_decimalUnits hu n (by simp [h])

/-- The texts of array indices are the decimal forms of the numbers below the limit. -/
theorem arrayIndex?_eq_some_iff {t : Text} {i : ℕ} :
    t.arrayIndex? = some i ↔ i < indexLimit ∧ ofString (toString i) = t := by
  obtain ⟨us⟩ := t
  rw [ofString_toString, Text.mk.injEq]
  simp only [arrayIndex?, Bool.or_eq_true, Bool.and_eq_true, decide_eq_true_eq, beq_iff_eq]
  simp only [isEmpty, length, List.isEmpty_iff]
  split
  next hrefused =>
    refine iff_of_false nofun ?_
    rintro ⟨hi, rfl⟩
    rcases hrefused with (hempty | hlong) | ⟨hmore, hzero⟩
    · exact decimalUnits_ne_nil i hempty
    · have hle : (Nat.toDigits 10 i).length ≤ 10 :=
        (Nat.length_toDigits_le_iff (by decide) (by decide)).2 (Nat.lt_trans hi (by decide))
      rw [length_decimalUnits] at hlong
      omega
    · rcases Nat.eq_zero_or_pos i with rfl | hpos
      · simp [decimalUnits_of_lt] at hmore
      · exact head?_decimalUnits hpos hzero
  next hpassed =>
    simp only [not_or, not_and] at hpassed
    rw [Option.filter_eq_some_iff, readDigits?_zero_eq_some_iff hpassed.1.1 hpassed.2, and_comm,
      decide_eq_true_eq]

end Text

namespace PropertyKey

/-! ## Index keys -/

theorem index_same_index {i j : ℕ} : (index i).same (index j) = true ↔ i = j := by
  rw [index, index, same_string_iff, Text.ofString_toString, Text.ofString_toString,
    Text.mk.injEq, Text.decimalUnits_inj]

/-- A text with a character that is no digit is not an index. -/
theorem ofString_same_index {s : String} {c : Char} (hc : c ∈ s.toList)
    (hdigit : Binary64.isDigit 10 c = false) (i : ℕ) : (ofString s).same (index i) = false := by
  rw [Bool.eq_false_iff]
  intro h
  have hchars := congrArg Text.chars (same_string_iff.1 h)
  rw [Text.chars_ofString, Text.chars_ofString] at hchars
  have hdigits : s.toList = Nat.toDigits 10 i := by
    simpa [Nat.toString_eq_repr, Nat.toList_repr] using hchars
  rw [hdigits] at hc
  rw [Decimal.areDigits_toDigits i c hc] at hdigit
  cases hdigit

/-- The key of an index is the text of the number. -/
theorem index_eq_toText {i : ℕ} (hi : i < 2 ^ 53) :
    index i = .string (Text.ofString (Numeric.ofBinary64 (.ofNat i)).toText) := by
  have hvalue : (Binary64.ofNat i).HasUnits ((i : ℤ) * Binary64.unitsPerOne) := by
    have hunits := Binary64.hasUnits_ofUnits false (Binary64.isRepresentable_integer hi)
    exact_mod_cast hunits
  have htext := Binary64.toText_of_integer hvalue (by simpa using hi)
  rw [(Numeric.IsMade.ofBinary64 _).toText_eq, index]
  exact congrArg (fun s ↦ string (Text.ofString s)) htext.symm

end PropertyKey

end Ecma
