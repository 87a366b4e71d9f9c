import Ecma.Proofs.Number.CorrectRounding
import Mathlib.Data.Nat.Digits.Defs

/-!
# Numeric literals

The grammar of the texts that denote a number, with the number each of them
denotes: infinities, integers with a radix mark, and decimals.  The scanner
takes a text part by part, each part as far as it goes; that it accepts the
texts of the grammar and no others is shown part by part, in both directions.

How digits become a double is left to a reader.  The one in use rounds
correctly wherever an exponent is below its limit and an integer has at most
sixty-four bits.
-/

namespace Ecma

/-! ## Trimming -/

namespace Text

/-- What is left of a text without the blanks at its ends. -/
def TrimsTo (cs t : List Char) : Prop :=
  ∃ front back, cs = front ++ (t ++ back) ∧
    (∀ c ∈ front, isBlank c = true) ∧ (∀ c ∈ back, isBlank c = true) ∧
    (∀ c ∈ t.head?, isBlank c = false) ∧ ∀ c ∈ t.getLast?, isBlank c = false

theorem dropWhile_isBlank {front t : List Char} (hfront : ∀ c ∈ front, isBlank c = true)
    (ht : ∀ c ∈ t.head?, isBlank c = false) : (front ++ t).dropWhile isBlank = t := by
  rw [List.dropWhile_append_of_pos hfront]
  match t with
  | [] => rfl
  | c :: t =>
      have hc := ht c rfl
      rw [List.dropWhile_cons_of_neg (by simp [hc])]

theorem TrimsTo.trimBlank_eq {cs t : List Char} (h : TrimsTo cs t) : trimBlank cs = t := by
  obtain ⟨front, back, rfl, hfront, hback, hhead, hlast⟩ := h
  have hback' : ∀ c ∈ back.reverse, isBlank c = true := fun c hc ↦ hback c (List.mem_reverse.1 hc)
  unfold trimBlank
  match t with
  | [] =>
      have hall : ∀ c ∈ front ++ ([] ++ back), isBlank c = true := by
        rw [List.nil_append]
        exact List.forall_mem_append.2 ⟨hfront, hback⟩
      rw [List.dropWhile_eq_nil_iff.2 hall]
      rfl
  | c :: t =>
      rw [dropWhile_isBlank hfront (by simpa using hhead), List.reverse_append,
        dropWhile_isBlank hback' (by rwa [List.head?_reverse]), List.reverse_reverse]

theorem isBlank_head_dropWhile (cs : List Char) :
    ∀ c ∈ (cs.dropWhile isBlank).head?, isBlank c = false := by
  intro c hc
  have hhead := List.head?_dropWhile_not isBlank cs
  rw [hc] at hhead
  exact hhead

theorem trimsTo_trimBlank (cs : List Char) : TrimsTo cs (trimBlank cs) := by
  have hsplit := List.takeWhile_append_dropWhile (p := isBlank) (l := cs)
  have hhead := isBlank_head_dropWhile cs
  unfold trimBlank
  generalize cs.dropWhile isBlank = rest at *
  have hsplit' : (rest.reverse.dropWhile isBlank).reverse ++
      (rest.reverse.takeWhile isBlank).reverse = rest := by
    rw [← List.reverse_append, List.takeWhile_append_dropWhile, List.reverse_reverse]
  refine ⟨cs.takeWhile isBlank, (rest.reverse.takeWhile isBlank).reverse, ?_, ?_, ?_, ?_, ?_⟩
  · rw [hsplit', hsplit]
  · intro c hc
    exact List.mem_takeWhile_imp hc
  · intro c hc
    exact List.mem_takeWhile_imp (List.mem_reverse.1 hc)
  · intro c hc
    apply hhead
    rw [← hsplit', List.head?_append_of_ne_nil _ (List.ne_nil_of_mem (List.mem_of_mem_head? hc))]
    exact hc
  · intro c hc
    rw [List.getLast?_reverse] at hc
    exact isBlank_head_dropWhile _ c hc

/-- What trimming leaves is what the blanks at the ends are around of. -/
theorem trimsTo_iff {cs t : List Char} : TrimsTo cs t ↔ trimBlank cs = t := by
  constructor
  · exact TrimsTo.trimBlank_eq
  · rintro rfl
    exact trimsTo_trimBlank cs

end Text

namespace Binary64

/-! ## The grammar -/

/-- The character is the digit of a value; letters are of either case. -/
def IsDigitOf (radix : ℕ) (c : Char) (v : ℕ) : Prop :=
  v < radix ∧ (c = Nat.digitChar v ∨ c = (Nat.digitChar v).toUpper)

/-- The digits write an integer, the most significant first. -/
def Writes (radix : ℕ) (cs : List Char) (n : ℕ) : Prop :=
  ∃ ds, List.Forall₂ (IsDigitOf radix) cs ds ∧ n = Nat.ofDigits radix ds.reverse

/-- An optional sign, and whether it is a minus. -/
inductive IsSign : List Char → Bool → Prop
  | none : IsSign [] false
  | plus : IsSign ['+'] false
  | minus : IsSign ['-'] true

/-- An infinity. -/
inductive IsInfinity : List Char → Bool → Prop
  | mk {sign : List Char} {negative : Bool} (hsign : IsSign sign negative) :
      IsInfinity (sign ++ "Infinity".toList) negative

inductive IsRadixMark : Char → ℕ → Prop
  | hexadecimal {c : Char} (hc : c = 'x' ∨ c = 'X') : IsRadixMark c 16
  | octal {c : Char} (hc : c = 'o' ∨ c = 'O') : IsRadixMark c 8
  | binary {c : Char} (hc : c = 'b' ∨ c = 'B') : IsRadixMark c 2

/-- An integer with a radix mark; it has no sign. -/
inductive IsRadixLiteral : List Char → ℕ → Prop
  | mk {c : Char} {radix n : ℕ} {digits : List Char} (hmark : IsRadixMark c radix)
      (hne : digits ≠ []) (hdigits : Writes radix digits n) :
      IsRadixLiteral ('0' :: c :: digits) n

/-- Digits with an optional point, at least one of them on one of its sides. -/
inductive IsMantissa : List Char → ℚ → Prop
  | whole {w : List Char} {n : ℕ} (hne : w ≠ []) (hw : Writes 10 w n) : IsMantissa w n
  | point {w f : List Char} {n m : ℕ} (hne : w ≠ [] ∨ f ≠ []) (hw : Writes 10 w n)
      (hf : Writes 10 f m) : IsMantissa (w ++ '.' :: f) (n + m / 10 ^ f.length)

/-- An optional exponent. -/
inductive IsExponent : List Char → ℤ → Prop
  | none : IsExponent [] 0
  | mark {c : Char} {sign digits : List Char} {negative : Bool} {n : ℕ} (hc : c = 'e' ∨ c = 'E')
      (hsign : IsSign sign negative) (hne : digits ≠ []) (hdigits : Writes 10 digits n) :
      IsExponent (c :: (sign ++ digits)) (if negative then -n else n)

/-- A signed decimal, which denotes `q · 10 ^ e`. -/
inductive IsDecimal : List Char → Bool → ℚ → ℤ → Prop
  | mk {sign mantissa exponent : List Char} {negative : Bool} {q : ℚ} {e : ℤ}
      (hsign : IsSign sign negative) (hmantissa : IsMantissa mantissa q)
      (hexponent : IsExponent exponent e) :
      IsDecimal (sign ++ (mantissa ++ exponent)) negative q e

/-! ## Digits -/

theorem digitValue?_eq_some_iff {radix : ℕ} (hradix : radix ≤ 16) {c : Char} {v : ℕ} :
    digitValue? radix c = some v ↔ IsDigitOf radix c v := by
  have hwider {r r' w : ℕ} (h : digitValue? r c = some w) (hw : w < r') :
      digitValue? r' c = some w :=
    Option.filter_eq_some_iff.2 ⟨(Option.filter_eq_some_iff.1 h).1, by simpa using hw⟩
  constructor
  · intro h
    have hv : v < radix := by simpa using (Option.filter_eq_some_iff.1 h).2
    have hsmall : c.toNat < 123 := by
      by_contra hlarge
      have hle (d : Char) : c ≤ d ↔ c.toNat ≤ d.toNat := Iff.rfl
      have hnone := (Option.filter_eq_some_iff.1 h).1
      rw [if_neg, if_neg, if_neg] at hnone
      · cases hnone
      all_goals
        rw [hle]
        simp
        omega
    have hall : ∀ k : Fin 123, ∀ w ∈ digitValue? 16 (Char.ofNat k),
        Char.ofNat k = Nat.digitChar w ∨ Char.ofNat k = (Nat.digitChar w).toUpper := by
      decide +kernel
    have hchar := hall ⟨c.toNat, hsmall⟩ v
    rw [Char.ofNat_toNat] at hchar
    exact ⟨hv, hchar (hwider h (hv.trans_le hradix))⟩
  · rintro ⟨hv, hchar⟩
    have hall : ∀ w : Fin 16, digitValue? 16 (Nat.digitChar w) = some w.1 ∧
        digitValue? 16 (Nat.digitChar w).toUpper = some w.1 := by decide +kernel
    obtain ⟨hlower, hupper⟩ := hall ⟨v, hv.trans_le hradix⟩
    rcases hchar with rfl | rfl
    · exact hwider hlower hv
    · exact hwider hupper hv

theorem digitsValue_eq_ofDigits (radix : ℕ) (cs : List Char) :
    digitsValue radix cs =
      Nat.ofDigits radix (cs.map fun c ↦ (digitValue? radix c).getD 0).reverse := by
  rw [digitsValue, joinDigits_eq_horner, horner, Nat.ofDigits_eq_foldr, List.map_reverse]
  rfl

/-- The digits that are scanned are those of the grammar, with the value they have there. -/
theorem writes_iff {radix : ℕ} (hradix : radix ≤ 16) {cs : List Char} {n : ℕ} :
    Writes radix cs n ↔ (∀ c ∈ cs, isDigit radix c = true) ∧ n = digitsValue radix cs := by
  rw [digitsValue_eq_ofDigits]
  constructor
  · rintro ⟨ds, hds, rfl⟩
    suffices hmap : (∀ c ∈ cs, isDigit radix c = true) ∧
        cs.map (fun c ↦ (digitValue? radix c).getD 0) = ds by
      rw [hmap.2]
      exact ⟨hmap.1, rfl⟩
    induction hds with
    | nil => simp
    | cons hd _ ih =>
        have hvalue := (digitValue?_eq_some_iff hradix).2 hd
        rw [List.forall_mem_cons, List.map_cons, hvalue, ih.2, isDigit, hvalue]
        exact ⟨⟨rfl, ih.1⟩, rfl⟩
  · rintro ⟨hcs, rfl⟩
    refine ⟨_, ?_, rfl⟩
    rw [List.forall₂_map_right_iff, List.forall₂_same]
    intro c hc
    obtain ⟨v, hv⟩ := Option.isSome_iff_exists.1 (hcs c hc)
    rw [hv, Option.getD_some]
    exact (digitValue?_eq_some_iff hradix).1 hv

theorem Writes.unique {radix : ℕ} (hradix : radix ≤ 16) {cs : List Char} {n m : ℕ}
    (hn : Writes radix cs n) (hm : Writes radix cs m) : n = m := by
  rw [((writes_iff hradix).1 hn).2, ((writes_iff hradix).1 hm).2]

theorem writes_ten_iff {cs : List Char} {n : ℕ} :
    Writes 10 cs n ↔ AreDigits cs ∧ n = digitsValue 10 cs :=
  writes_iff (by decide)

theorem digitsValue_append (radix : ℕ) (cs ds : List Char) :
    digitsValue radix (cs ++ ds) =
      digitsValue radix cs * radix ^ ds.length + digitsValue radix ds := by
  induction ds using List.reverseRecOn with
  | nil => simp [digitsValue_eq_foldl]
  | append_singleton ds d ih =>
      rw [← List.append_assoc, digitsValue_append_singleton, digitsValue_append_singleton, ih,
        List.length_append, List.length_singleton, pow_succ]
      ring

/-! ## Signs and exponents -/

theorem exists_isSign_readSign (cs : List Char) :
    ∃ sign, IsSign sign (readSign cs).1 ∧ cs = sign ++ (readSign cs).2 := by
  unfold readSign
  split
  · exact ⟨_, .plus, rfl⟩
  · exact ⟨_, .minus, rfl⟩
  · exact ⟨_, .none, rfl⟩

theorem IsSign.readSign_append {sign : List Char} {negative : Bool} (h : IsSign sign negative)
    {cs : List Char} (hcs : ∀ c ∈ cs.head?, c ≠ '+' ∧ c ≠ '-') :
    readSign (sign ++ cs) = (negative, cs) := by
  cases h with
  | plus => rfl
  | minus => rfl
  | none =>
      rw [List.nil_append]
      unfold readSign
      split
      · exact absurd rfl (hcs '+' rfl).1
      · exact absurd rfl (hcs '-' rfl).2
      · rfl

theorem not_sign_of_isDigit {c : Char} (hc : isDigit 10 c = true) : c ≠ '+' ∧ c ≠ '-' := by
  constructor <;> rintro rfl <;> exact absurd hc (by decide)

theorem AreDigits.head {cs : List Char} (hcs : AreDigits cs) :
    ∀ c ∈ cs.head?, isDigit 10 c = true :=
  fun c hc ↦ hcs c (List.mem_of_mem_head? hc)

/-- What was read below the limit is exact. -/
theorem exponentValue_eq_of_lt {cs : List Char} (h : exponentValue cs < exponentLimit) :
    exponentValue cs = digitsValue 10 cs := by
  induction cs using List.reverseRecOn with
  | nil => simp [exponentValue, digitsValue_eq_foldl]
  | append_singleton cs c ih =>
      unfold exponentValue at ih h ⊢
      rw [List.foldl_append, List.foldl_cons, List.foldl_nil] at h ⊢
      split at h
      · rename_i hbefore
        rw [if_pos hbefore, ih hbefore, digitsValue_append_singleton]
        ring
      · rename_i hbefore
        exact absurd h hbefore

/-- An exponent is scanned; below the limit it is read exactly. -/
theorem IsExponent.readExponent?_eq {cs : List Char} {e : ℤ} (h : IsExponent cs e) :
    ∃ e', readExponent? cs = some e' ∧ (e'.natAbs < exponentLimit → e' = e) := by
  cases h with
  | none => exact ⟨0, rfl, fun _ ↦ rfl⟩
  | @mark c sign digits negative n hc hsign hne hdigits =>
      obtain ⟨hare, rfl⟩ := writes_ten_iff.1 hdigits
      have hread := hsign.readSign_append fun c hc ↦ not_sign_of_isDigit (hare.head c hc)
      have hall : digits.all (isDigit 10) = true := List.all_eq_true.2 hare
      refine ⟨if negative then -(exponentValue digits : ℤ) else exponentValue digits, ?_, ?_⟩
      · rw [readExponent?, if_pos hc, hread]
        simp [hall, hne]
      · intro hlimit
        have hvalue : exponentValue digits = digitsValue 10 digits := by
          apply exponentValue_eq_of_lt
          split at hlimit
          · rwa [Int.natAbs_neg, Int.natAbs_natCast] at hlimit
          · rwa [Int.natAbs_natCast] at hlimit
        rw [hvalue]

theorem exists_isExponent_of_readExponent? {cs : List Char} {e : ℤ}
    (h : readExponent? cs = some e) : ∃ e', IsExponent cs e' := by
  match cs with
  | [] => exact ⟨0, .none⟩
  | c :: cs =>
      have hmark := readExponent?_head h c rfl
      obtain ⟨sign, hsign, hcs⟩ := exists_isSign_readSign cs
      rw [readExponent?, if_pos hmark] at h
      generalize readSign cs = read at *
      obtain ⟨negative, digits⟩ := read
      dsimp only at h hcs hsign
      have hdigits : digits ≠ [] ∧ AreDigits digits := by
        by_contra hbad
        rw [if_pos] at h
        · cases h
        · rw [Bool.or_eq_true, List.isEmpty_iff, Bool.not_eq_true', ← Bool.not_eq_true,
            List.all_eq_true]
          exact not_and_or.1 hbad |>.imp_left not_not.1
      subst hcs
      exact ⟨_, .mark hmark hsign hdigits.1 (writes_ten_iff.2 ⟨hdigits.2, rfl⟩)⟩

/-! ## Decimals -/

/-- The parts that are scanned, where each ends where the next begins. -/
theorem DecimalLiteral.read?_of_parts {sign whole tail fraction exponent : List Char}
    {negative : Bool} {e : ℤ} (hsign : IsSign sign negative) (hwhole : AreDigits whole)
    (htail : ∀ c ∈ tail.head?, isDigit 10 c = false ∧ c ≠ '+' ∧ c ≠ '-')
    (hfraction : readFraction tail = (fraction, exponent)) (hne : whole ≠ [] ∨ fraction ≠ [])
    (hexponent : readExponent? exponent = some e) :
    read? (sign ++ (whole ++ tail)) = some ⟨negative, whole, fraction, e⟩ := by
  have hread : readSign (sign ++ (whole ++ tail)) = (negative, whole ++ tail) := by
    apply hsign.readSign_append
    intro c hc
    match whole with
    | [] => exact (htail c hc).2
    | d :: ds => exact not_sign_of_isDigit (hwhole.head c hc)
  have hspan := spanDigits_append hwhole fun c hc ↦ (htail c hc).1
  have hempty : ¬(whole.isEmpty && fraction.isEmpty) = true := by
    simpa [imp_iff_not_or] using hne
  unfold read?
  simp only [hread, hspan, hfraction, if_neg hempty, hexponent, Option.map_some]

theorem IsExponent.head {cs : List Char} {e : ℤ} (h : IsExponent cs e) :
    ∀ c ∈ cs.head?, c ≠ '.' ∧ isDigit 10 c = false ∧ c ≠ '+' ∧ c ≠ '-' := by
  intro c hc
  obtain ⟨e', he', -⟩ := h.readExponent?_eq
  rcases readExponent?_head he' c hc with rfl | rfl <;> decide

/-- A decimal is scanned; where its exponent is read exactly, so is its number. -/
theorem IsDecimal.read?_eq {cs : List Char} {negative : Bool} {q : ℚ} {e : ℤ}
    (h : IsDecimal cs negative q e) :
    ∃ d, DecimalLiteral.read? cs = some d ∧ d.negative = negative ∧
      (d.exponent.natAbs < exponentLimit → d.number = q * 10 ^ e) := by
  obtain ⟨hsign, hmantissa, hexponent⟩ := h
  rename_i sign mantissa exponent
  obtain ⟨e', he', hvalue⟩ := hexponent.readExponent?_eq
  cases hmantissa with
  | @whole w n hne hw =>
      obtain ⟨hwhole, rfl⟩ := writes_ten_iff.1 hw
      have hfraction : readFraction exponent = ([], exponent) := by
        unfold readFraction
        split
        · exact absurd rfl (hexponent.head '.' rfl).1
        · rfl
      refine ⟨_, DecimalLiteral.read?_of_parts hsign hwhole (fun c hc ↦ (hexponent.head c hc).2)
        hfraction (.inl hne) he', rfl, fun hlimit ↦ ?_⟩
      rw [DecimalLiteral.number, hvalue hlimit]
      simp
  | @point w f n m hne hw hf =>
      obtain ⟨hwhole, rfl⟩ := writes_ten_iff.1 hw
      obtain ⟨hdigits, rfl⟩ := writes_ten_iff.1 hf
      have hfraction : readFraction ('.' :: (f ++ exponent)) = (f, exponent) :=
        spanDigits_append hdigits fun c hc ↦ (hexponent.head c hc).2.1
      have htail : ∀ c ∈ ('.' :: (f ++ exponent)).head?,
          isDigit 10 c = false ∧ c ≠ '+' ∧ c ≠ '-' := by
        intro c hc
        obtain rfl : '.' = c := by simpa using hc
        decide
      refine ⟨⟨negative, w, f, e'⟩, ?_, rfl, fun hlimit ↦ ?_⟩
      · have hread := DecimalLiteral.read?_of_parts hsign hwhole htail hfraction hne he'
        rwa [List.append_assoc]
      · have hten : (10 : ℚ) ≠ 0 := by norm_num
        rw [DecimalLiteral.number, hvalue hlimit, digitsValue_append, zpow_sub₀ hten, zpow_natCast]
        push_cast
        field_simp

theorem spanDigits_spec (cs : List Char) :
    cs = (spanDigits cs).1 ++ (spanDigits cs).2 ∧ AreDigits (spanDigits cs).1 := by
  rw [spanDigits, List.span_eq_takeWhile_dropWhile]
  refine ⟨List.takeWhile_append_dropWhile.symm, fun c hc ↦ ?_⟩
  exact List.mem_takeWhile_imp hc

theorem exists_isDecimal_of_read? {cs : List Char} {d : DecimalLiteral}
    (h : DecimalLiteral.read? cs = some d) : ∃ negative q e, IsDecimal cs negative q e := by
  obtain ⟨sign, hsign, hcs⟩ := exists_isSign_readSign cs
  unfold DecimalLiteral.read? at h
  generalize readSign cs = read at *
  obtain ⟨negative, rest⟩ := read
  obtain ⟨hrest, hwhole⟩ := spanDigits_spec rest
  dsimp only at h hcs hsign
  generalize spanDigits rest = span at *
  obtain ⟨whole, tail⟩ := span
  dsimp only at h hrest hwhole
  subst hcs hrest
  have hw : Writes 10 whole _ := writes_ten_iff.2 ⟨hwhole, rfl⟩
  unfold readFraction at h
  split at h
  · rename_i cs
    obtain ⟨hcs, hfraction⟩ := spanDigits_spec cs
    generalize spanDigits cs = span at *
    obtain ⟨fraction, exponent⟩ := span
    dsimp only at h hcs hfraction
    subst hcs
    split at h
    · cases h
    · rename_i hne
      obtain ⟨e, he, -⟩ := Option.map_eq_some_iff.1 h
      obtain ⟨e', he'⟩ := exists_isExponent_of_readExponent? he
      have hmantissa := IsMantissa.point (by simpa [imp_iff_not_or] using hne) hw
        (writes_ten_iff.2 ⟨hfraction, rfl⟩)
      have hdecimal := IsDecimal.mk hsign hmantissa he'
      rw [List.append_assoc] at hdecimal
      exact ⟨_, _, _, hdecimal⟩
  · split at h
    · cases h
    · rename_i hne
      obtain ⟨e, he, -⟩ := Option.map_eq_some_iff.1 h
      obtain ⟨e', he'⟩ := exists_isExponent_of_readExponent? he
      exact ⟨_, _, _, .mk hsign (.whole (by simpa using hne) hw) he'⟩

/-- The decimals are the texts that are scanned. -/
theorem isSome_read?_iff {cs : List Char} :
    (DecimalLiteral.read? cs).isSome = true ↔ ∃ negative q e, IsDecimal cs negative q e := by
  constructor
  · intro h
    obtain ⟨d, hd⟩ := Option.isSome_iff_exists.1 h
    exact exists_isDecimal_of_read? hd
  · rintro ⟨negative, q, e, h⟩
    obtain ⟨d, hd, -⟩ := h.read?_eq
    rw [hd]
    rfl

theorem DecimalLiteral.rounds_value (d : DecimalLiteral) :
    d.value.Rounds d.negative d.number := by
  rw [value, ofDecimal_eq_ofUnits d.negative (digitsValue_lt (by decide) _)]
  apply rounds_ofUnits _ (Nat.pow_pos (by decide))
  exact (decimal_ratio _ _).symm

/-! ## Radix marks and infinities -/

theorem radixOf?_eq_some_iff {c : Char} {radix : ℕ} :
    radixOf? c = some radix ↔ IsRadixMark c radix := by
  constructor
  · intro h
    unfold radixOf? at h
    split at h
    · cases h
      exact .hexadecimal ‹_›
    · split at h
      · cases h
        exact .octal ‹_›
      · split at h
        · cases h
          exact .binary ‹_›
        · cases h
  · intro h
    cases h with
    | hexadecimal hc => rcases hc with rfl | rfl <;> rfl
    | octal hc => rcases hc with rfl | rfl <;> rfl
    | binary hc => rcases hc with rfl | rfl <;> rfl

theorem IsRadixMark.le_sixteen {c : Char} {radix : ℕ} (h : IsRadixMark c radix) : radix ≤ 16 := by
  cases h <;> decide

theorem IsRadixMark.unique {c : Char} {radix radix' : ℕ} (h : IsRadixMark c radix)
    (h' : IsRadixMark c radix') : radix = radix' := by
  apply Option.some.inj
  rw [← radixOf?_eq_some_iff.2 h, ← radixOf?_eq_some_iff.2 h']

/-- A radix mark is no part of a decimal. -/
theorem read?_of_isRadixMark {c : Char} {radix : ℕ} (h : IsRadixMark c radix) (cs : List Char) :
    DecimalLiteral.read? ('0' :: c :: cs) = none := by
  have hc : isDigit 10 c = false ∧ c ≠ '.' ∧ ¬(c = 'e' ∨ c = 'E') := by
    cases h with
    | hexadecimal hc => rcases hc with rfl | rfl <;> decide
    | octal hc => rcases hc with rfl | rfl <;> decide
    | binary hc => rcases hc with rfl | rfl <;> decide
  have hspan : spanDigits ('0' :: c :: cs) = (['0'], c :: cs) := by
    change spanDigits (['0'] ++ c :: cs) = _
    apply spanDigits_append
    · exact List.all_eq_true.1 rfl
    · intro d hd
      obtain rfl : c = d := by simpa using hd
      exact hc.1
  have hfraction : readFraction (c :: cs) = ([], c :: cs) := by
    unfold readFraction
    split
    · rename_i heq
      exact absurd (List.cons.inj heq).1 hc.2.1
    · rfl
  have hexponent : readExponent? (c :: cs) = none := by
    rw [readExponent?, if_neg hc.2.2]
  unfold DecimalLiteral.read?
  have hsign : readSign ('0' :: c :: cs) = (false, '0' :: c :: cs) := rfl
  simp only [hsign, hspan, hfraction, hexponent]
  rfl

theorem isInfinity_iff {cs : List Char} {negative : Bool} : IsInfinity cs negative ↔
    if negative then cs = "-Infinity".toList
    else cs = "Infinity".toList ∨ cs = "+Infinity".toList := by
  constructor
  · rintro ⟨hsign⟩
    cases hsign with
    | none => exact .inl rfl
    | plus => exact .inr rfl
    | minus => rfl
  · intro h
    cases negative with
    | false =>
        rcases h with rfl | rfl
        · exact ⟨.none⟩
        · exact ⟨.plus⟩
    | true =>
        obtain rfl : cs = "-Infinity".toList := h
        exact ⟨.minus⟩

theorem IsRadixLiteral.ne_nil {cs : List Char} {n : ℕ} (h : IsRadixLiteral cs n) : cs ≠ [] := by
  cases h
  exact List.cons_ne_nil _ _

theorem IsRadixLiteral.not_isInfinity {cs : List Char} {n : ℕ} (h : IsRadixLiteral cs n)
    (negative : Bool) : ¬IsInfinity cs negative := by
  cases h
  intro hinf
  generalize hcs : '0' :: _ = cs at hinf
  obtain ⟨hsign⟩ := hinf
  cases hsign <;> exact absurd (List.cons.inj hcs).1 (by decide)

theorem IsDecimal.ne_nil {cs : List Char} {negative : Bool} {q : ℚ} {e : ℤ}
    (h : IsDecimal cs negative q e) : cs ≠ [] := by
  rintro rfl
  exact absurd (isSome_read?_iff.2 ⟨negative, q, e, h⟩) (by decide)

theorem IsDecimal.not_isInfinity {cs : List Char} {negative : Bool} {q : ℚ} {e : ℤ}
    (h : IsDecimal cs negative q e) (negative' : Bool) : ¬IsInfinity cs negative' := by
  have hscanned := isSome_read?_iff.2 ⟨negative, q, e, h⟩
  rintro ⟨hsign⟩
  cases hsign <;> exact absurd hscanned (by decide)

theorem IsDecimal.not_isRadixLiteral {cs : List Char} {negative : Bool} {q : ℚ} {e : ℤ}
    (h : IsDecimal cs negative q e) (n : ℕ) : ¬IsRadixLiteral cs n := by
  have hscanned := isSome_read?_iff.2 ⟨negative, q, e, h⟩
  rintro ⟨hmark, -, -⟩
  rw [read?_of_isRadixMark hmark] at hscanned
  cases hscanned

/-! ## Readers -/

namespace Reader

/-- The reader rounds correctly what the text denotes. -/
structure IsCorrectOn (r : Reader) (cs : List Char) : Prop where
  decimal : ∀ negative q e, IsDecimal cs negative q e →
    ∃ x, r.decimal cs = some x ∧ x.Rounds negative (q * 10 ^ e)
  integer : ∀ n, IsRadixLiteral cs n → (r.integer n).Rounds false n

variable {r : Reader} {cs : List Char}

/-- Exponents below the limit and integers of sixty-four bits are read correctly. -/
theorem isCorrectOn_standard
    (hexponent : ∀ d, DecimalLiteral.read? cs = some d → d.exponent.natAbs < exponentLimit)
    (hinteger : ∀ n, IsRadixLiteral cs n → n < 2 ^ 64) : standard.IsCorrectOn cs := by
  constructor
  · intro negative q e h
    obtain ⟨d, hd, rfl, hnumber⟩ := h.read?_eq
    refine ⟨d.value, by simp [standard, hd], ?_⟩
    rw [← hnumber (hexponent d hd)]
    exact d.rounds_value
  · intro n h
    change (ofNat (Sticky.coarsen n)).Rounds false n
    rw [Sticky.coarsen_eq_self (hinteger n h)]
    apply rounds_ofUnits false Nat.one_pos
    push_cast
    ring

theorem ofTrimmed_infinity {negative : Bool} (h : IsInfinity cs negative) :
    r.ofTrimmed cs = if negative then negativeInfinity else infinity := by
  obtain ⟨hsign⟩ := h
  cases hsign <;> rfl

theorem ofRadixDigits_eq {radix : ℕ} (hradix : radix ≤ 16) (digits : List Char) :
    (∃ n, digits ≠ [] ∧ Writes radix digits n ∧ r.ofRadixDigits radix digits = r.integer n) ∨
      (∀ n, digits ≠ [] → ¬Writes radix digits n) ∧ r.ofRadixDigits radix digits = nan := by
  unfold ofRadixDigits
  by_cases hdigits : digits ≠ [] ∧ ∀ c ∈ digits, isDigit radix c = true
  · refine .inl ⟨_, hdigits.1, (writes_iff hradix).2 ⟨hdigits.2, rfl⟩, if_neg ?_⟩
    simpa using hdigits
  · refine .inr ⟨fun n hne hwrites ↦ hdigits ⟨hne, ((writes_iff hradix).1 hwrites).1⟩, if_pos ?_⟩
    simpa [or_iff_not_imp_left] using hdigits

/-- What is neither empty nor an infinity is read by its radix where it has a radix mark, and
else as a decimal. -/
theorem ofTrimmed_cases (hne : cs ≠ []) (hinf : ∀ negative, ¬IsInfinity cs negative) :
    (∃ c radix digits, IsRadixMark c radix ∧ cs = '0' :: c :: digits ∧
      r.ofTrimmed cs = r.ofRadixDigits radix digits) ∨
    (∀ n, ¬IsRadixLiteral cs n) ∧ r.ofTrimmed cs = r.ofDecimalChars cs := by
  have hempty : ¬cs.isEmpty = true := by simpa using hne
  have hpositive : ¬(cs = "Infinity".toList ∨ cs = "+Infinity".toList) :=
    fun h ↦ hinf false (isInfinity_iff.2 h)
  have hnegative : ¬cs = "-Infinity".toList := fun h ↦ hinf true (isInfinity_iff.2 h)
  unfold ofTrimmed
  rw [if_neg hempty, if_neg hpositive, if_neg hnegative]
  split
  · rename_i c rest
    cases hmark : radixOf? c with
    | some radix => exact .inl ⟨c, radix, rest, radixOf?_eq_some_iff.1 hmark, rfl, rfl⟩
    | none =>
        refine .inr ⟨?_, rfl⟩
        rintro n ⟨hradix, -, -⟩
        rw [radixOf?_eq_some_iff.2 hradix] at hmark
        cases hmark
  · rename_i hshape
    refine .inr ⟨?_, rfl⟩
    rintro n ⟨-, -, -⟩
    exact hshape _ _ rfl

theorem ofTrimmed_radixLiteral (hr : r.IsCorrectOn cs) {n : ℕ} (h : IsRadixLiteral cs n) :
    (r.ofTrimmed cs).Rounds false n := by
  have hinteger := hr.integer n h
  rcases r.ofTrimmed_cases h.ne_nil h.not_isInfinity with
    ⟨c, radix, digits, hmark, rfl, heq⟩ | ⟨hnot, -⟩
  · obtain ⟨hmark', hne, hdigits⟩ := h
    obtain rfl := hmark.unique hmark'
    rcases r.ofRadixDigits_eq hmark.le_sixteen digits with ⟨m, -, hm, hvalue⟩ | ⟨hnot, -⟩
    · rw [heq, hvalue, hm.unique hmark.le_sixteen hdigits]
      exact hinteger
    · exact absurd hdigits (hnot _ hne)
  · exact absurd h (hnot n)

theorem ofTrimmed_decimal (hr : r.IsCorrectOn cs) {negative : Bool} {q : ℚ} {e : ℤ}
    (h : IsDecimal cs negative q e) : (r.ofTrimmed cs).Rounds negative (q * 10 ^ e) := by
  obtain ⟨x, hx, hrounds⟩ := hr.decimal negative q e h
  have hscanned := isSome_read?_iff.2 ⟨negative, q, e, h⟩
  rcases r.ofTrimmed_cases h.ne_nil h.not_isInfinity with
    ⟨c, radix, digits, hmark, rfl, -⟩ | ⟨-, heq⟩
  · rw [read?_of_isRadixMark hmark] at hscanned
    cases hscanned
  · rw [heq, ofDecimalChars, if_pos hscanned, hx]
    exact hrounds

theorem ofTrimmed_other (hne : cs ≠ []) (hinf : ∀ negative, ¬IsInfinity cs negative)
    (hradix : ∀ n, ¬IsRadixLiteral cs n) (hdecimal : ∀ negative q e, ¬IsDecimal cs negative q e) :
    r.ofTrimmed cs = nan := by
  rcases r.ofTrimmed_cases hne hinf with ⟨c, radix, digits, hmark, rfl, heq⟩ | ⟨-, heq⟩
  · rw [heq]
    rcases r.ofRadixDigits_eq hmark.le_sixteen digits with ⟨n, hne, hn, -⟩ | ⟨-, hvalue⟩
    · exact absurd (.mk hmark hne hn) (hradix n)
    · exact hvalue
  · have hscanned : ¬(DecimalLiteral.read? cs).isSome = true := by
      rw [isSome_read?_iff]
      rintro ⟨negative, q, e, h⟩
      exact hdecimal negative q e h
    rw [heq, ofDecimalChars, if_neg hscanned]

/-- A text, without the blanks at its ends, is read as a number exactly if it is a numeric
literal, and then as the number it denotes, correctly rounded by a reader that rounds
correctly. -/
theorem ofText_follows_grammar (r : Reader) (s : Text) {t : List Char}
    (ht : Text.TrimsTo s.chars t) (hr : r.IsCorrectOn t) :
    (t = [] → r.ofText s = zero) ∧
    (∀ negative, IsInfinity t negative →
      r.ofText s = if negative then negativeInfinity else infinity) ∧
    (∀ n, IsRadixLiteral t n → (r.ofText s).Rounds false n) ∧
    (∀ negative q e, IsDecimal t negative q e → (r.ofText s).Rounds negative (q * 10 ^ e)) ∧
    (t ≠ [] → (∀ negative, ¬IsInfinity t negative) → (∀ n, ¬IsRadixLiteral t n) →
      (∀ negative q e, ¬IsDecimal t negative q e) → r.ofText s = nan) := by
  have htrimmed : r.ofText s = r.ofTrimmed t := by rw [ofText, Text.trimsTo_iff.1 ht]
  rw [htrimmed]
  refine ⟨?_, ?_, ?_, ?_, ?_⟩
  · rintro rfl
    rfl
  · intro negative h
    exact ofTrimmed_infinity h
  · intro n h
    exact ofTrimmed_radixLiteral hr h
  · intro negative q e h
    exact ofTrimmed_decimal hr h
  · intro hne hinf hradix hdecimal
    exact ofTrimmed_other hne hinf hradix hdecimal

/-- A negative decimal between blanks. -/
theorem ofText_follows_grammar_decimal :
    Text.TrimsTo (Text.ofString "\t-12.5e1\n").chars "-12.5e1".toList ∧
      IsDecimal "-12.5e1".toList true (12 + 5 / 10) 1 ∧
      Binary64.ofText (Text.ofString "\t-12.5e1\n") = ⟨0xc05f400000000000⟩ := by
  have htrims : Text.TrimsTo (Text.ofString "\t-12.5e1\n").chars "-12.5e1".toList := by
    rw [Text.trimsTo_iff, Text.chars_ofString]
    decide
  have hdecimal : IsDecimal "-12.5e1".toList true (12 + 5 / 10) 1 := by
    have hmantissa : IsMantissa (['1', '2'] ++ '.' :: ['5']) ((12 : ℕ) + (5 : ℕ) / 10 ^ 1) := by
      apply IsMantissa.point (.inl (by decide))
      · exact writes_ten_iff.2 ⟨List.all_eq_true.1 rfl, rfl⟩
      · exact writes_ten_iff.2 ⟨List.all_eq_true.1 rfl, rfl⟩
    have hexponent : IsExponent ('e' :: ([] ++ ['1'])) ((1 : ℕ) : ℤ) := by
      apply IsExponent.mark (.inl rfl) .none (by decide)
      exact writes_ten_iff.2 ⟨List.all_eq_true.1 rfl, rfl⟩
    have hmk := IsDecimal.mk .minus hmantissa hexponent
    simpa using hmk
  have hcorrect : standard.IsCorrectOn "-12.5e1".toList := by
    apply isCorrectOn_standard
    · intro d hd
      have hread : DecimalLiteral.read? "-12.5e1".toList = some ⟨true, ['1', '2'], ['5'], 1⟩ := by
        decide
      rw [hread] at hd
      cases hd
      decide
    · intro n hn
      exact absurd hn (hdecimal.not_isRadixLiteral n)
  refine ⟨htrims, hdecimal, ?_⟩
  rw [ofText_eq]
  have hrounds := (ofText_follows_grammar standard _ htrims hcorrect).2.2.2.1 true _ _ hdecimal
  apply hrounds.unique (by norm_num)
  apply Rounds.finite (by decide) (by decide)
  have hmagnitude : (⟨0xc05f400000000000⟩ : Binary64).magnitude = 125 * unitsPerOne := by
    decide +kernel
  have hnearest := (⟨0xc05f400000000000⟩ : Binary64).isNearest_magnitude
  rw [hmagnitude] at hnearest
  convert hnearest using 1
  rw [Nat.cast_mul]
  generalize (unitsPerOne : ℚ) = u
  norm_num

end Reader

end Binary64

end Ecma
