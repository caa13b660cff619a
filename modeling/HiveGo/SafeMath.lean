import HiveGo.NumKind

/-! Arithmetic that reports when a result does not fit. The result is computed with wrap
around and then compared with the first operand. -/
namespace HiveGo.SafeMath
open NumKind

/-- The numbers of an integer type. -/
def Integer (kind : NumKind) : Type := { number : Int // kind.Holds number }

/-- The result of an operation in the type. -/
def ofInt (kind : NumKind) (number : Int) : Integer kind := ⟨kind.wrap number, kind.holds_wrap number⟩

/-- The variables that the errors wrap. -/
inductive Sentinel where
  | errIntegerOverflow
  | errIntegerDivisionByZero
  deriving Repr, DecidableEq

/-- `WithMessagef`: a variable with the operands beside it. -/
structure MathError where
  cause : Sentinel
  message : String
  deriving Repr, DecidableEq

variable {kind : NumKind}

def safeAdd (x y : Integer kind) : Except MathError (Integer kind) :=
  let result := ofInt kind (x.1 + y.1)
  if 0 < y.1 then
    if result.1 < x.1 then .error ⟨.errIntegerOverflow, s!"{x.1} + {y.1}"⟩ else .ok result
  else if x.1 < result.1 then .error ⟨.errIntegerOverflow, s!"{x.1} + {y.1}"⟩
  else .ok result

def safeSub (x y : Integer kind) : Except MathError (Integer kind) :=
  let result := ofInt kind (x.1 - y.1)
  if 0 < y.1 then
    if x.1 < result.1 then .error ⟨.errIntegerOverflow, s!"{x.1} - {y.1}"⟩ else .ok result
  else if result.1 < x.1 then .error ⟨.errIntegerOverflow, s!"{x.1} - {y.1}"⟩
  else .ok result

/-- The number itself if the type has it, and an overflow otherwise. -/
def exactly (kind : NumKind) (number : Int) (operation : String) : Except MathError (Integer kind) :=
  if held : kind.Holds number then .ok ⟨number, held⟩ else .error ⟨.errIntegerOverflow, operation⟩

theorem exactly_of_holds (held : kind.Holds number) :
    exactly kind number operation = .ok (ofInt kind number) := by
  rw [exactly, dif_pos held]
  exact congrArg Except.ok (Subtype.ext (wrap_of_holds held).symm)

theorem exactly_of_not_holds (out : ¬ kind.Holds number) :
    exactly kind number operation = .error ⟨.errIntegerOverflow, operation⟩ := dif_neg out

/-- A sum that does not fit is a period away from one that does, and the second operand is
smaller than a period: so the result lies on the wrong side of the first one. -/
theorem wrap_add_cases (held : kind.Holds x) (small : step.natAbs ≤ kind.period - 1) :
    (kind.Holds (x + step) ∧ kind.wrap (x + step) = x + step) ∨
      (¬ kind.Holds (x + step) ∧ 0 < step ∧ kind.wrap (x + step) < x) ∨
      (¬ kind.Holds (x + step) ∧ step < 0 ∧ x < kind.wrap (x + step)) := by
  rw [holds_iff] at held
  by_cases fits : kind.Holds (x + step)
  · exact .inl ⟨fits, wrap_of_holds fits⟩
  · have out := fits
    rw [holds_iff, not_and_or, Int.not_le, Int.not_lt] at out
    rcases out with below | above
    · have wrapped := wrap_of_below below (by omega)
      exact .inr (.inr ⟨fits, by omega, by omega⟩)
    · have wrapped := wrap_of_above above (by omega)
      exact .inr (.inl ⟨fits, by omega, by omega⟩)

/-- A number of the type is smaller than the period. -/
theorem natAbs_le (y : Integer kind) : y.1.natAbs ≤ kind.period - 1 := by
  have held := holds_iff.mp y.2
  have bounds := kind.lowest_bounds
  omega

theorem safeAdd_eq : safeAdd x y = exactly kind (x.1 + y.1) s!"{x.1} + {y.1}" := by
  unfold safeAdd
  rcases wrap_add_cases x.2 (natAbs_le y) with ⟨fits, same⟩ | ⟨out, pos, less⟩ | ⟨out, neg, more⟩
  · rw [exactly_of_holds fits]
    have result : (ofInt kind (x.1 + y.1)).1 = x.1 + y.1 := same
    split
    · rw [if_neg (by omega)]
    · rw [if_neg (by omega)]
  · rw [exactly_of_not_holds out, if_pos pos]
    exact if_pos less
  · rw [exactly_of_not_holds out, if_neg (by omega)]
    exact if_pos more

theorem safeSub_eq : safeSub x y = exactly kind (x.1 - y.1) s!"{x.1} - {y.1}" := by
  unfold safeSub
  have small : (-y.1).natAbs ≤ kind.period - 1 := by
    rw [Int.natAbs_neg]
    exact natAbs_le y
  have cases := wrap_add_cases x.2 small
  rw [← Int.sub_eq_add_neg] at cases
  rcases cases with ⟨fits, same⟩ | ⟨out, neg, less⟩ | ⟨out, pos, more⟩
  · rw [exactly_of_holds fits]
    have result : (ofInt kind (x.1 - y.1)).1 = x.1 - y.1 := same
    split
    · rw [if_neg (by omega)]
    · rw [if_neg (by omega)]
  · rw [exactly_of_not_holds out, if_neg (by omega)]
    exact if_pos less
  · rw [exactly_of_not_holds out, if_pos (by omega)]
    exact if_pos more

/-- What an exact operation returns: the number, or an overflow. -/
theorem exactly_spec :
    (kind.Holds num →
      ∃ result, exactly kind num operation = .ok result ∧ result.1 = num) ∧
    (¬ kind.Holds num →
      ∃ message, exactly kind num operation = .error ⟨.errIntegerOverflow, message⟩) := by
  constructor
  · intro held
    exact ⟨⟨num, held⟩, dif_pos held, rfl⟩
  · intro out
    exact ⟨operation, exactly_of_not_holds out⟩

/-- Sums and differences are the mathematical ones or reported as overflows. -/
theorem safeAdd_safeSub_exact (x y : Integer kind) :
    ((kind.Holds (x.1 + y.1) → ∃ result, safeAdd x y = .ok result ∧ result.1 = x.1 + y.1) ∧
      (¬ kind.Holds (x.1 + y.1) →
        ∃ message, safeAdd x y = .error ⟨.errIntegerOverflow, message⟩)) ∧
    (kind.Holds (x.1 - y.1) → ∃ result, safeSub x y = .ok result ∧ result.1 = x.1 - y.1) ∧
      (¬ kind.Holds (x.1 - y.1) →
        ∃ message, safeSub x y = .error ⟨.errIntegerOverflow, message⟩) := by
  rw [safeAdd_eq, safeSub_eq]
  exact ⟨exactly_spec, exactly_spec⟩

/-- Division cuts towards zero, and its result wraps around. -/
def safeDiv (x y : Integer kind) : Except MathError (Integer kind) :=
  if y.1 = 0 then .error ⟨.errIntegerDivisionByZero, s!"{x.1} / {y.1}"⟩
  else .ok (ofInt kind (x.1.tdiv y.1))

/-- A shift by the width of the type or more leaves nothing. -/
def safeLeftShift (val : Integer kind) (shift : UInt8) : Except MathError (Integer kind) :=
  let result := ofInt kind (val.1 * 2 ^ shift.toNat)
  if result.1 < val.1 then .error ⟨.errIntegerOverflow, s!"{val.1} << {shift}"⟩ else .ok result

/-- Without an error the result is the shifted number, and there is none if the type has it. -/
def ShiftExact (val : Integer kind) (shift : UInt8) : Prop :=
  (∀ result, safeLeftShift val shift = .ok result → result.1 = val.1 * 2 ^ shift.toNat) ∧
    (kind.Holds (val.1 * 2 ^ shift.toNat) → ∃ result, safeLeftShift val shift = .ok result)

/-- Without an error the result is the quotient. -/
def QuotientExact (x y : Integer kind) : Prop :=
  ∀ result, safeDiv x y = .ok result → result.1 = x.1.tdiv y.1

theorem ofInt_eq_iff : (ofInt kind num).1 = num ↔ kind.Holds num :=
  ⟨fun same => same ▸ kind.holds_wrap num, wrap_of_holds⟩

/-- Only a negative number gets smaller by a shift. -/
theorem shift_lt_iff (num : Int) : num * 2 ^ shift < num ↔ num < 0 ∧ shift ≠ 0 := by
  constructor
  · intro smaller
    refine ⟨?_, ?_⟩
    · by_contra natural
      have grows := le_mul_of_one_le_right (not_lt.mp natural) (one_le_pow₀ one_le_two (n := shift))
      exact not_lt.mpr grows smaller
    · rintro rfl
      simp at smaller
  · rintro ⟨neg, shifted⟩
    have grows : (1 : Int) < 2 ^ shift := one_lt_pow₀ one_lt_two shifted
    simpa using mul_lt_mul_of_neg_left grows neg

/-- A shift is exact where the comparison with the operand says whether the shifted number
fits, and a quotient is exact if it fits. -/
theorem safeLeftShift_safeDiv_exact_iff (x y : Integer kind) (shift : UInt8) :
    (ShiftExact x shift ↔
      if kind.Holds (x.1 * 2 ^ shift.toNat) then 0 ≤ x.1 ∨ shift = 0
      else kind.wrap (x.1 * 2 ^ shift.toNat) < x.1) ∧
    (QuotientExact x y ↔ y.1 = 0 ∨ kind.Holds (x.1.tdiv y.1)) := by
  constructor
  · unfold ShiftExact safeLeftShift
    by_cases fits : kind.Holds (x.1 * 2 ^ shift.toNat)
    · have zero : shift = 0 ↔ shift.toNat = 0 := UInt8.toNat_inj.symm
      simp only [ofInt_eq_iff.mpr fits, shift_lt_iff, fits, if_true, true_imp_iff, zero]
      split
      · simp
        omega
      · simp [ofInt_eq_iff, fits]
        omega
    · change _ ↔ if _ then _ else (ofInt kind (x.1 * 2 ^ shift.toNat)).1 < x.1
      simp only [fits, if_false, false_imp_iff, and_true]
      split
      · simp [*]
      · simp [*, ofInt_eq_iff]
  · unfold QuotientExact safeDiv
    split
    · simp [*]
    · simp [*, ofInt_eq_iff]

/-- A byte loses a bit and is still larger than the operand, a negative number gets smaller
although it fits, and the lowest number divided by −1 wraps around. -/
theorem shift_and_quotient_inexact : ¬ ShiftExact (ofInt .uint8 3) 7 ∧
    ¬ ShiftExact (ofInt .int8 (-1)) 1 ∧ ¬ QuotientExact (ofInt .int8 (-128)) (ofInt .int8 (-1)) := by
  refine ⟨fun kept => ?_, fun kept => ?_, fun kept => ?_⟩
  · exact absurd (kept.1 (ofInt .uint8 128) rfl) (by decide)
  · obtain ⟨_, done⟩ := kept.2 (by decide)
    cases done
  · exact absurd (kept (ofInt .int8 (-128)) rfl) (by decide)

end HiveGo.SafeMath
