import Ecma.Proofs.Number.ShortestDigits

/-!
# The loops that generate digits end, whatever the estimate

The two loops that correct an estimate and the one that takes digits are given
without the guards that make them total: each ends, where the guarded one does.
The windows that two estimates lead to have the same ratios, and the digits
depend on nothing else.
-/

namespace Ecma

namespace Decimal

/-! ## Loops -/

/-- `while test do body` ends, in the second state, when it starts in the first. -/
inductive WhileEnds {σ : Type} (test : σ → Bool) (body : σ → σ) : σ → σ → Prop
  | done {s : σ} : test s = false → WhileEnds test body s s
  | again {s t : σ} : test s = true → WhileEnds test body (body s) t → WhileEnds test body s t

theorem WhileEnds.keeps {σ : Type} {test : σ → Bool} {body : σ → σ} {s t : σ} {P : σ → Prop}
    (h : WhileEnds test body s t) (hbody : ∀ s, P s → P (body s)) (hs : P s) : P t := by
  induction h with
  | done => exact hs
  | again _ _ ih => exact ih (hbody _ hs)

namespace Window

variable {w w' : Window} {inclusive : Bool} {k : ℤ}

/-- The interval reaches one. -/
def isTooLarge (inclusive : Bool) (s : Window × ℤ) : Bool := reaches inclusive s.1.top s.1.scale

/-- The interval ends below a tenth. -/
def isTooSmall (inclusive : Bool) (s : Window × ℤ) : Bool :=
  !reaches inclusive (s.1.top * 10) s.1.scale

def enlargeScale (s : Window × ℤ) : Window × ℤ := ({ s.1 with scale := s.1.scale * 10 }, s.2 + 1)

def enlargeValue (s : Window × ℤ) : Window × ℤ := (s.1.advance, s.2 - 1)

theorem shrink_ends (hs : 0 < w.scale) (k : ℤ) :
    WhileEnds (isTooLarge inclusive) enlargeScale (w, k) (w.shrink inclusive k) := by
  fun_induction Window.shrink inclusive w k with
  | case1 w k hreach ih => exact .again hreach.2 (ih (Nat.mul_pos hs (by decide)))
  | case2 w k hreach =>
      apply WhileEnds.done
      exact Bool.eq_false_iff.2 fun htop ↦ hreach ⟨hs, htop⟩

theorem grow_ends (htop : 0 < w.top) (k : ℤ) :
    WhileEnds (isTooSmall inclusive) enlargeValue (w, k) (w.grow inclusive k) := by
  fun_induction Window.grow inclusive w k with
  | case1 w k hreach ih =>
      apply WhileEnds.again
      · simp [isTooSmall, hreach.2]
      · apply ih
        rw [top_advance]
        exact Nat.mul_pos htop (by decide)
  | case2 w k hreach =>
      apply WhileEnds.done
      by_contra hsmall
      exact hreach ⟨htop, by simpa [isTooSmall] using hsmall⟩

/-! ## The digit loop -/

/-- Zero is in the part of the interval that the next digit leaves over. -/
def withinLow (inclusive : Bool) (w : Window) : Bool := reaches inclusive w.leave.below w.leave.rest

/-- One is in the part of the interval that the next digit leaves over. -/
def withinHigh (inclusive : Bool) (w : Window) : Bool := reaches inclusive w.leave.top w.leave.scale

/-- Neither of the two possible last digits is in the interval. -/
def isUndecided (inclusive : Bool) (w : Window) : Bool :=
  !w.withinLow inclusive && !w.withinHigh inclusive

/-- The digit above the next one is nearer; a tie goes to the even digit. -/
def roundsUp (w : Window) : Bool :=
  decide (w.leave.scale < 2 * w.leave.rest) ||
    (decide (2 * w.leave.rest = w.leave.scale) && w.digit % 2 == 1)

def lastDigit (inclusive : Bool) (w : Window) : ℕ :=
  if w.withinHigh inclusive && (!w.withinLow inclusive || w.roundsUp) then w.digit + 1 else w.digit

theorem isUndecided_iff (h : w.IsOpen) : w.isUndecided inclusive = true ↔
    w.withinLow inclusive = false ∧ w.withinHigh inclusive = false ∧ 0 < w.below ∧ 0 < w.scale := by
  simp [isUndecided, h.below_pos, h.scale_pos]

theorem expand_eq (h : w.IsOpen) : w.expand inclusive =
    if w.isUndecided inclusive then w.digit :: w.leave.expand inclusive
    else [w.lastDigit inclusive] := by
  rw [Window.expand]
  refine dite_congr (propext (isUndecided_iff h).symm) (fun _ ↦ rfl) fun _ ↦ ?_
  exact (apply_ite (fun d ↦ [d]) _ _ _).symm

/-- What each digit taken keeps and the last one has, the digits have. -/
theorem expand_induction {motive : Window → List ℕ → Prop}
    (more : ∀ {w : Window}, w.IsOpen → w.isUndecided inclusive = true →
      motive w.leave (w.leave.expand inclusive) → motive w (w.digit :: w.leave.expand inclusive))
    (last : ∀ {w : Window}, w.IsOpen → w.isUndecided inclusive = false →
      motive w [w.lastDigit inclusive])
    (h : w.IsOpen) : motive w (w.expand inclusive) := by
  have hlast {w : Window} (h : w.IsOpen) (hstop : ¬w.isUndecided inclusive = true) :
      motive w (w.expand inclusive) := by
    rw [expand_eq h, if_neg hstop]
    exact last h (Bool.eq_false_iff.2 hstop)
  induction w using Window.expand.induct inclusive with
  | case1 w next rest withinLow withinHigh hmore ih =>
      have hundecided := (isUndecided_iff h).2 hmore
      rw [expand_eq h, if_pos hundecided]
      exact more h hundecided (ih h.leave)
  | case2 w next digit rest withinLow withinHigh nearer hstop _ =>
      exact hlast h fun hundecided ↦ hstop ((isUndecided_iff h).1 hundecided)
  | case3 w next digit rest withinLow withinHigh nearer hstop _ =>
      exact hlast h fun hundecided ↦ hstop ((isUndecided_iff h).1 hundecided)

def takeDigit (s : Window × List ℕ) : Window × List ℕ := (s.1.leave, s.2 ++ [s.1.digit])

theorem expand_ends (h : w.IsOpen) (taken : List ℕ) : ∃ last : Window × List ℕ,
    WhileEnds (fun s ↦ s.1.isUndecided inclusive) takeDigit (w, taken) last ∧
      last.2 ++ [last.1.lastDigit inclusive] = taken ++ w.expand inclusive := by
  refine expand_induction (motive := fun w ds ↦ ∀ taken, ∃ last : Window × List ℕ,
    WhileEnds (fun s ↦ s.1.isUndecided inclusive) takeDigit (w, taken) last ∧
      last.2 ++ [last.1.lastDigit inclusive] = taken ++ ds) ?_ ?_ h taken
  · intro w _ hundecided ih taken
    obtain ⟨last, hends, hlast⟩ := ih (taken ++ [w.digit])
    exact ⟨last, .again hundecided hends, by rw [hlast, List.append_assoc]; rfl⟩
  · intro w _ hdecided taken
    exact ⟨(w, taken), .done hdecided, rfl⟩

/-! ## The windows of all estimates -/

/-- The value and its distances `10 ^ a` times larger, the scale `10 ^ b` times. -/
def stretch (w : Window) (a b : ℕ) : Window :=
  ⟨w.rest * 10 ^ a, w.below * 10 ^ a, w.above * 10 ^ a, w.scale * 10 ^ b⟩

/-- The window is that of `w` for a point at the given position. -/
def IsMoved (w : Window) (s : Window × ℤ) : Prop := ∃ a b : ℕ, s.1 = w.stretch a b ∧ s.2 = b - a

theorem isMoved_scaleBy (w : Window) (k : ℤ) : w.IsMoved (w.scaleBy k, k) := by
  unfold Window.scaleBy
  split
  · exact ⟨0, k.toNat, by simp [stretch], by omega⟩
  · exact ⟨(-k).toNat, 0, by simp [stretch], by omega⟩

theorem IsMoved.enlargeScale {s : Window × ℤ} (h : w.IsMoved s) :
    w.IsMoved (Window.enlargeScale s) := by
  obtain ⟨a, b, hw, hk⟩ := h
  refine ⟨a, b + 1, ?_, ?_⟩
  · simp [Window.enlargeScale, hw, stretch, pow_succ, mul_assoc]
  · simp only [Window.enlargeScale, hk]
    omega

theorem IsMoved.enlargeValue {s : Window × ℤ} (h : w.IsMoved s) :
    w.IsMoved (Window.enlargeValue s) := by
  obtain ⟨a, b, hw, hk⟩ := h
  refine ⟨a + 1, b, ?_, ?_⟩
  · simp [Window.enlargeValue, hw, stretch, advance, pow_succ, mul_assoc]
  · simp only [Window.enlargeValue, hk]
    omega

/-- The same window over a scale `c` times larger. -/
def times (c : ℕ) (w : Window) : Window := ⟨c * w.rest, c * w.below, c * w.above, c * w.scale⟩

theorem times_stretch {a b a' b' : ℕ} (h : (b : ℤ) - a = b' - a') :
    (w.stretch a b).times (10 ^ b') = (w.stretch a' b').times (10 ^ b) := by
  have hpow : 10 ^ a * 10 ^ b' = 10 ^ a' * 10 ^ b := by
    rw [← pow_add, ← pow_add]
    congr 1
    omega
  have hswap (n : ℕ) : 10 ^ b' * (n * 10 ^ a) = 10 ^ b * (n * 10 ^ a') := by
    calc
      10 ^ b' * (n * 10 ^ a) = n * (10 ^ a * 10 ^ b') := by ring
      _ = 10 ^ b * (n * 10 ^ a') := by rw [hpow]; ring
  simp only [times, stretch, hswap]
  congr 1
  ring

section

variable {c : ℕ} (hc : 0 < c)

include hc

theorem reaches_times (m n : ℕ) : reaches inclusive (c * m) (c * n) = reaches inclusive m n := by
  unfold reaches
  simp [Nat.mul_le_mul_left_iff hc, Nat.mul_lt_mul_left hc]

theorem digit_times (w : Window) : (w.times c).digit = w.digit := by
  simp only [digit, advance, times, Nat.mul_assoc]
  exact Nat.mul_div_mul_left _ _ hc

omit hc in
theorem leave_times (w : Window) : (w.times c).leave = w.leave.times c := by
  simp only [leave, advance, times, Nat.mul_assoc, Nat.mul_mod_mul_left]

theorem withinLow_times (w : Window) :
    (w.times c).withinLow inclusive = w.withinLow inclusive := by
  rw [withinLow, leave_times]
  exact reaches_times hc _ _

theorem withinHigh_times (w : Window) :
    (w.times c).withinHigh inclusive = w.withinHigh inclusive := by
  rw [withinHigh, leave_times]
  simp only [top, times, ← Nat.mul_add]
  exact reaches_times hc _ _

theorem roundsUp_times (w : Window) : (w.times c).roundsUp = w.roundsUp := by
  rw [roundsUp, leave_times, digit_times hc]
  simp only [times, Nat.mul_left_comm 2 c, Nat.mul_lt_mul_left hc, Nat.mul_right_inj hc.ne']
  rfl

/-- The digits depend on the ratios of a window only. -/
theorem expand_times (h : w.IsOpen) : (w.times c).expand inclusive = w.expand inclusive := by
  have hopen {w : Window} (h : w.IsOpen) : (w.times c).IsOpen :=
    ⟨Nat.mul_pos hc h.below_pos, Nat.mul_pos hc h.above_pos, Nat.mul_pos hc h.scale_pos⟩
  have hundecided (w : Window) : (w.times c).isUndecided inclusive = w.isUndecided inclusive := by
    rw [isUndecided, withinLow_times hc, withinHigh_times hc]
    rfl
  refine expand_induction (motive := fun w ds ↦ (w.times c).expand inclusive = ds) ?_ ?_ h
  · intro w h hmore ih
    rw [expand_eq (hopen h), hundecided, if_pos hmore, digit_times hc, leave_times, ih]
  · intro w h hlast
    rw [expand_eq (hopen h), hundecided, hlast, lastDigit, withinLow_times hc, withinHigh_times hc,
      roundsUp_times hc, digit_times hc]
    rfl

end

end Window

/-! ## The digits of a double -/

section

variable {x : Binary64}

/-- Both loops that correct an estimate end, and give the window that digits
are taken from. -/
theorem start_ends (estimate : ℤ) (hx : 0 < x.significand) : ∃ shrunk : Window × ℤ,
    WhileEnds (Window.isTooLarge x.isEven) Window.enlargeScale
      ((windowOf x).scaleBy estimate, estimate) shrunk ∧
    WhileEnds (Window.isTooSmall x.isEven) Window.enlargeValue shrunk (start estimate x) := by
  have hframes := (windowOf_frames hx).scaleBy estimate
  obtain ⟨hshrunk, _⟩ := hframes.shrink x.isEven
  refine ⟨_, Window.shrink_ends hframes.scale_pos estimate, Window.grow_ends ?_ _⟩
  exact Nat.add_pos_right _ hshrunk.above_pos

theorem isMoved_start (estimate : ℤ) (hx : 0 < x.significand) :
    (windowOf x).IsMoved (start estimate x) := by
  obtain ⟨shrunk, hshrink, hgrow⟩ := start_ends estimate hx
  have hshrunk : (windowOf x).IsMoved shrunk :=
    hshrink.keeps (fun _ ↦ Window.IsMoved.enlargeScale) (Window.isMoved_scaleBy _ estimate)
  exact hgrow.keeps (fun _ ↦ Window.IsMoved.enlargeValue) hshrunk

/-- The position of the point does not depend on the estimate. -/
theorem start_point_le (estimate other : ℤ) (hx : 0 < x.significand) :
    (start estimate x).2 ≤ (start other x).2 := by
  obtain ⟨hframes, hbelow, habove⟩ := start_frames estimate hx
  obtain ⟨hframes', hbelow', habove'⟩ := start_frames other hx
  by_contra hlt
  obtain ⟨n, hn⟩ := Int.le.dest (Int.add_one_le_of_lt (not_le.1 hlt))
  apply hbelow'
  refine habove.trans_le ?_
  have hten : (10 : ℚ) ≠ 0 := by norm_num
  have hpow : (0 : ℚ) < 10 ^ (start other x).2 := by positivity
  have hone : (1 : ℚ) ≤ 10 ^ n := one_le_pow₀ (by norm_num)
  have hpos : 0 ≤ (start estimate x).1.high := by
    unfold Window.high
    positivity
  have heq := hframes.high_eq.trans hframes'.high_eq.symm
  rw [← hn, zpow_add₀ hten, zpow_add_one₀ hten, zpow_natCast] at heq
  have heq' : (start other x).1.high = (start estimate x).1.high * 10 * 10 ^ n := by
    apply mul_right_cancel₀ hpow.ne'
    rw [← heq]
    ring
  rw [heq']
  exact le_mul_of_one_le_right (by positivity) hone

/-- Neither the point nor the digits depend on the estimate. -/
theorem shortestFrom_congr (estimate other : ℤ) (hx : 0 < x.significand) :
    shortestFrom estimate x = shortestFrom other x := by
  have hpoint : (start estimate x).2 = (start other x).2 :=
    le_antisymm (start_point_le estimate other hx) (start_point_le other estimate hx)
  obtain ⟨a, b, hw, hk⟩ := isMoved_start estimate hx
  obtain ⟨a', b', hw', hk'⟩ := isMoved_start other hx
  have hopen := (start_frames estimate hx).1.toIsOpen
  have hopen' := (start_frames other hx).1.toIsOpen
  have hdigits : (start estimate x).1.expand x.isEven = (start other x).1.expand x.isEven := by
    rw [← Window.expand_times (Nat.pow_pos (n := b') (by decide : 0 < 10)) hopen,
      ← Window.expand_times (Nat.pow_pos (n := b) (by decide : 0 < 10)) hopen', hw, hw',
      Window.times_stretch]
    rw [← hk, ← hk', hpoint]
  rw [shortestFrom_eq, shortestFrom_eq, hdigits, hpoint]

end

end Decimal

end Ecma
