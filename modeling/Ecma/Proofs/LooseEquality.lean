import Ecma.Conversion.Comparison
import Ecma.Proofs.OwnPropertyRuns

/-!
# Loose equality

Two values are compared by comparing over and over: values of one type are
compared strictly, and others are told apart at once or replaced by values to be
compared in their place.  What a pair is replaced by and what its mirror image
is replaced by are mirror images, so that it makes no difference which of two
values is on the left.  The primitive value of an object is no object; hence a
pair is replaced three times at most.
-/

namespace Ecma

/-! ## Equality from either side -/

theorem Binary64.equal_comm (x y : Binary64) : x.equal y = y.equal x := by
  simp only [equal, Bool.and_comm, eq_comm]

namespace Value

theorem sameType_comm (x y : Value) : x.sameType y = y.sameType x := by
  cases x <;> cases y <;> rfl

theorem strictEqual_comm (x y : Value) : x.strictEqual y = y.strictEqual x := by
  cases x <;> cases y <;> simp only [strictEqual, Binary64.equal_comm, BEq.comm]

theorem equalAsNumbers_comm (x y : Value) : x.equalAsNumbers y = y.equalAsNumbers x := by
  cases x <;> cases y <;> simp only [equalAsNumbers, Binary64.equal_comm]

theorem looseEqual_comm (x y : Value) : x.looseEqual y = y.looseEqual x := by
  simp only [looseEqual, sameType_comm x, strictEqual_comm x, Bool.and_comm x.isNullish,
    equalAsNumbers_comm x.unboolean]

/-! ## One comparison -/

/-- What one comparison of two values comes to. -/
inductive Comparison where
  | answer (b : Bool)
  /-- Others are compared in their place. -/
  | instead (x y : Value)
  /-- The left one is an object, in whose place its primitive value is compared. -/
  | leftPrimitive
  | rightPrimitive

/-- The same with the values in each other's places. -/
def Comparison.swap : Comparison → Comparison
  | .answer b => .answer b
  | .instead x y => .instead y x
  | .leftPrimitive => .rightPrimitive
  | .rightPrimitive => .leftPrimitive

def compareOnce (x y : Value) : Comparison :=
  if x.sameType y then .answer (x.strictEqual y)
  else if x.isNullish && y.isNullish then .answer true
  else match x, y with
    | .number a, .string t => .answer (a.value.equal (.ofText t))
    | .string t, .number b => .answer ((Binary64.ofText t).equal b.value)
    | .boolean a, y => .instead (.ofInt32 (if a then 1 else 0)) y
    | x, .boolean b => .instead x (.ofInt32 (if b then 1 else 0))
    | .number _, .object _ | .string _, .object _ | .symbol _, .object _ => .rightPrimitive
    | .object _, .number _ | .object _, .string _ | .object _, .symbol _ => .leftPrimitive
    | _, _ => .answer false

/-- The mirror image of a pair comes to the mirror image of what the pair comes to. -/
theorem compareOnce_swap (x y : Value) : compareOnce y x = (compareOnce x y).swap := by
  unfold compareOnce
  rw [sameType_comm y, strictEqual_comm y, Bool.and_comm y.isNullish]
  cases x <;> cases y <;> simp [sameType, isNullish, Comparison.swap, Binary64.equal_comm]

end Value

namespace Conversion

open Value (Comparison compareOnce compareOnce_swap)

/-! ## Primitive values -/

theorem isObject_of_tryMethods {eng : Engine} {o : ObjectRef} {names : List String} {w : Value}
    {σ τ : State} (h : (tryMethods eng o names).run σ = (.ok w, τ)) : w.isObject = false := by
  induction names generalizing σ with
  | nil => cases h
  | cons name rest ih =>
      obtain ⟨method, σ₁, -, h⟩ := Action.run_bind_eq_ok h
      obtain ⟨callable, σ₂, -, h⟩ := Action.run_bind_eq_ok h
      split at h
      · obtain ⟨result, σ₃, -, h⟩ := Action.run_bind_eq_ok h
        split at h
        next => exact ih h
        next hresult =>
          cases h
          exact Bool.eq_false_iff.2 hresult
      · exact ih h

/-- The primitive value of a value is no object. -/
theorem isObject_of_toPrimitive {eng : Engine} {v w : Value} {hint : Hint} {σ τ : State}
    (h : (toPrimitive eng v hint).run σ = (.ok w, τ)) : w.isObject = false := by
  cases v with
  | object o =>
      obtain ⟨method, σ₁, -, h⟩ := Action.run_bind_eq_ok h
      cases method with
      | none => exact isObject_of_tryMethods h
      | some method =>
          obtain ⟨result, σ₂, -, h⟩ := Action.run_bind_eq_ok h
          split at h
          next => cases h
          next hresult =>
            cases h
            exact Bool.eq_false_iff.2 hresult
  | _ =>
      cases h
      rfl

/-! ## Comparing over and over -/

/-- Compares two values and then at most `n` more pairs, each in the place of the one before.  There
is no answer if that is not enough. -/
def compareWithin (eng : Engine) : Nat → Value → Value → Action (Option Bool)
  | 0, x, y =>
    match compareOnce x y with
    | .answer b => return some b
    | _ => return none
  | n + 1, x, y =>
    match compareOnce x y with
    | .answer b => return some b
    | .instead x y => compareWithin eng n x y
    | .leftPrimitive => do compareWithin eng n (← toPrimitive eng x .default) y
    | .rightPrimitive => do compareWithin eng n x (← toPrimitive eng y .default)

theorem compareWithin_comm (eng : Engine) (n : Nat) (x y : Value) :
    compareWithin eng n x y = compareWithin eng n y x := by
  induction n generalizing x y with
  | zero =>
      rw [compareWithin, compareWithin, compareOnce_swap x]
      cases compareOnce x y <;> rfl
  | succ n ih =>
      rw [compareWithin, compareWithin, compareOnce_swap x]
      cases compareOnce x y with
      | answer b => rfl
      | instead x' y' => exact ih x' y'
      | leftPrimitive => exact bind_congr fun w ↦ ih w y
      | rightPrimitive => exact bind_congr fun w ↦ ih x w

theorem looseEqual_comm (eng : Engine) (x y : Value) :
    looseEqual eng x y = looseEqual eng y x := by
  cases x <;> cases y <;>
    simp only [looseEqual, BEq.comm, Value.isNullish, Value.looseEqual_comm, Bool.false_eq_true,
      if_false]

theorem compareWithin_of_answer {x y : Value} {b : Bool} (h : compareOnce x y = .answer b)
    (eng : Engine) (n : Nat) : compareWithin eng n x y = pure (some b) := by
  cases n <;> rw [compareWithin, h]

/-- Primitive values are told apart at once, or after one of them has been replaced. -/
theorem compareOnce_of_primitive {x y : Value} (hx : x.isObject = false) (hy : y.isObject = false) :
    compareOnce x y = .answer (x.looseEqual y) ∨
      ∃ x' y', compareOnce x y = .instead x' y' ∧ compareOnce x' y' = .answer (x.looseEqual y) := by
  cases x <;> cases y <;>
    first
    | exact .inl rfl
    | exact .inr ⟨_, _, rfl, rfl⟩
    | contradiction

theorem compareWithin_of_primitive {x y : Value} (hx : x.isObject = false)
    (hy : y.isObject = false) (eng : Engine) (n : Nat) :
    compareWithin eng (n + 1) x y = pure (some (x.looseEqual y)) := by
  rcases compareOnce_of_primitive hx hy with h | ⟨x', y', h, h'⟩
  · exact compareWithin_of_answer h eng (n + 1)
  · rw [compareWithin, h]
    exact compareWithin_of_answer h' eng n

/-! ## Objects -/

theorem looseEqual_object (eng : Engine) (o : ObjectRef) {y : Value} (hy : y.isObject = false) :
    looseEqual eng (.object o) y =
      if y.isNullish then pure false
      else toPrimitive eng (.object o) .default >>= fun w ↦ pure (w.looseEqual y.unboolean) := by
  cases y <;> first | rfl | contradiction

theorem compareOnce_object (o : ObjectRef) {y : Value} (hy : y.isObject = false)
    (hboolean : y.isBoolean = false) :
    compareOnce (.object o) y = if y.isNullish then .answer false else .leftPrimitive := by
  cases y <;> first | rfl | contradiction

/-- The primitive value of the object is compared in its place. -/
theorem run_compareWithin_object (eng : Engine) (n : Nat) (o : ObjectRef) {y : Value}
    (hy : y.isObject = false) (hboolean : y.isBoolean = false) (σ : State) :
    (compareWithin eng (n + 2) (.object o) y).run σ =
      (some <$> looseEqual eng (.object o) y).run σ := by
  have hcompare := compareOnce_object o hy hboolean
  have hloose := looseEqual_object eng o hy
  cases hnull : y.isNullish with
  | true =>
      rw [hnull] at hcompare hloose
      rw [compareWithin_of_answer hcompare, hloose]
      rfl
  | false =>
      have hsame : y.unboolean = y := by cases y <;> first | rfl | contradiction
      rw [hnull] at hcompare hloose
      simp only [Bool.false_eq_true, if_false] at hcompare hloose
      rw [compareWithin, hcompare, hloose, hsame, map_bind]
      -- What is compared now is primitive on both sides, so that one replacement is left at most.
      refine Action.run_bind_congr fun w τ hw ↦ ?_
      rw [compareWithin_of_primitive (isObject_of_toPrimitive hw) hy, map_pure]

/-- A truth value is replaced before the object is. -/
theorem run_compareWithin_left (eng : Engine) (n : Nat) (o : ObjectRef) {y : Value}
    (hy : y.isObject = false) (σ : State) :
    (compareWithin eng (n + 3) (.object o) y).run σ =
      (some <$> looseEqual eng (.object o) y).run σ := by
  cases y with
  | boolean b =>
      have hnumber : (Value.ofInt32 (if b then 1 else 0)).isObject = false := rfl
      exact run_compareWithin_object eng n o hnumber rfl σ
  | _ => exact run_compareWithin_object eng (n + 1) o hy rfl σ

theorem looseEqual_of_primitive (eng : Engine) {x y : Value} (hx : x.isObject = false)
    (hy : y.isObject = false) : looseEqual eng x y = pure (x.looseEqual y) := by
  cases x <;> cases y <;> first | rfl | contradiction

/-- Three replacements are enough. -/
theorem run_compareWithin (eng : Engine) (n : Nat) (x y : Value) (σ : State) :
    (compareWithin eng (n + 3) x y).run σ = (some <$> looseEqual eng x y).run σ := by
  cases x with
  | object o =>
      cases y with
      | object o' => rfl
      | _ => exact run_compareWithin_left eng n o rfl σ
  | _ =>
      cases y with
      | object o =>
          -- The mirror image of what has been shown.
          rw [compareWithin_comm, looseEqual_comm]
          exact run_compareWithin_left eng n o rfl σ
      | _ =>
          rw [compareWithin_of_primitive rfl rfl, looseEqual_of_primitive eng rfl rfl, map_pure]

theorem looseEqual_of_sameType (eng : Engine) {x y : Value} (h : x.sameType y = true) :
    looseEqual eng x y = pure (x.strictEqual y) := by
  cases x <;> cases y <;> first | rfl | contradiction

/-- It makes no difference on which side of a comparison a value stands: both comparisons end alike
and leave the same state.  A pair is replaced three times at most, since the primitive value of a
value is no object; values of one type are compared strictly. -/
theorem looseEqual_is_symmetric (eng : Engine) (x y : Value) (σ : State) :
    (looseEqual eng x y).run σ = (looseEqual eng y x).run σ ∧
      (compareWithin eng 3 x y).run σ = (some <$> looseEqual eng x y).run σ ∧
      (x.sameType y = true → (looseEqual eng x y).run σ = (.ok (x.strictEqual y), σ)) ∧
      ∀ v hint w ρ τ, (toPrimitive eng v hint).run ρ = (.ok w, τ) → w.isObject = false := by
  refine ⟨?_, run_compareWithin eng 0 x y σ, ?_, fun v hint w ρ τ ↦ isObject_of_toPrimitive⟩
  · rw [looseEqual_comm]
  · intro h
    rw [looseEqual_of_sameType eng h]
    rfl

end Conversion

end Ecma
