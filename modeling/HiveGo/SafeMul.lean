import HiveGo.SafeMath
import HiveGo.Outcome

/-! Products that report when they do not fit. The generic one divides the wrapped product
by the first operand again; the 64-bit ones look at the high word of the full product. -/
namespace HiveGo.SafeMath
open Int NumKind MathError

/-- Division cuts towards zero. It wraps around when the lowest number of a signed type is
divided by −1. -/
def safeMul (x y : Integer kind) : Except MathError (Integer kind) :=
  if x.1 = 0 ∨ y.1 = 0 then .ok (ofInt kind 0)
  else
    let result := ofInt kind (x.1 * y.1)
    if (ofInt kind (result.1.tdiv x.1)).1 ≠ y.1 then
      .error ⟨.errIntegerOverflow, s!"{x.1} * {y.1}"⟩
    else .ok result

/-- `bits.Mul64`: the high and the low word of the product. -/
def mul64 (x y : Integer .uint64) : Integer .uint64 × Integer .uint64 :=
  (ofInt .uint64 (x.1 * y.1 / 2 ^ 64), ofInt .uint64 (x.1 * y.1))

/-- `bits.Div64`: quotient and remainder of two words by one. It panics when the quotient
does not fit into a word. -/
def div64 (hi lo y : Integer .uint64) : Outcome MathError (Integer .uint64 × Integer .uint64) :=
  if y.1 ≤ hi.1 then .panicked
  else
    let dividend := hi.1 * 2 ^ 64 + lo.1
    .ok (ofInt .uint64 (dividend / y.1), ofInt .uint64 (dividend % y.1))

def safeMulUint64 (x y : Integer .uint64) : Except MathError (Integer .uint64) :=
  if x.1 = 0 ∨ y.1 = 0 then .ok (ofInt .uint64 0)
  else
    let (hi, lo) := mul64 x y
    if hi.1 ≠ 0 then .error ⟨.errIntegerOverflow, s!"{x.1} * {y.1}"⟩ else .ok lo

/-- An operand without its sign. The lowest number is its own negative. -/
def unsigned (x : Integer .int64) : Integer .int64 :=
  if x.1 < 0 then ofInt .int64 (-x.1) else x

/-- The signs are put aside, the operands are multiplied as unsigned words, and the sign bit
of the low word is compared with the sign that the product has to have. The operands
in the messages are those without their signs. -/
def safeMulInt64 (x y : Integer .int64) : Except MathError (Integer .int64) :=
  if x.1 = 0 ∨ y.1 = 0 then .ok (ofInt .int64 0)
  else
    let resultIsPositive := ¬ (x.1 < 0 ∧ y.1 > 0) ∧ ¬ (y.1 < 0 ∧ x.1 > 0)
    let resultSign := if resultIsPositive then 1 else -1
    let x := unsigned x
    let y := unsigned y
    let (hi, lo) := mul64 (ofInt .uint64 x.1) (ofInt .uint64 y.1)
    if hi.1 ≠ 0 then .error ⟨.errIntegerOverflow, s!"{x.1} * {y.1}"⟩
    else
      let loSigned := ofInt .int64 ((ofInt .int64 lo.1).1 * resultSign)
      -- The arithmetic shift leaves the sign bit in every place, and `& 1` keeps the last.
      let signBitSet := (loSigned.1 >>> (63 : Nat)) % 2 = 1
      if resultIsPositive then
        if signBitSet then .error ⟨.errIntegerOverflow, s!"{x.1} * {y.1}"⟩ else .ok loSigned
      else if ¬ signBitSet then .error ⟨.errIntegerOverflow, s!"{x.1} * {y.1}"⟩
      else .ok loSigned

def safe64MulDiv (x y div : Integer .uint64) : Outcome MathError (Integer .uint64) :=
  if div.1 = 0 then
    .err ⟨.errIntegerDivisionByZero, s!"({x.1}*{y.1}) / {div.1}"⟩
  else
    let (prodHi, prodLo) := mul64 x y
    if div.1 ≤ prodHi.1 then
      .err ⟨.errIntegerOverflow, s!"({prodHi.1}*(2^64)+{prodLo.1}) / {div.1}"⟩
    else do
      let (quotient, _) ← div64 prodHi prodLo div
      return quotient

/-- A type with negative numbers has its bounds at half of its period. -/
theorem lowest_of_negative {x : Integer kind} (neg : x.1 < 0) : 2 * kind.lowest = -kind.period := by
  have lower := (holds_iff.mp x.2).1
  cases kind with
  | int8 | int16 | int32 | int64 => decide
  | uint8 | uint16 | uint32 | uint64 => exact absurd lower (not_le.mpr neg)

/-- Dividing a number of the type by one of it gives a number of the type, unless the divisor
is −1. -/
theorem holds_tdiv (x : Integer kind) (held : kind.Holds a) (apart : x.1 ≠ -1) :
    kind.Holds (a.tdiv x.1) := by
  rw [holds_iff] at held ⊢
  have size := natAbs_tdiv_le_natAbs a x.1
  by_cases neg : x.1 < 0
  · have half := lowest_of_negative neg
    have halved : (a.tdiv x.1).natAbs ≤ a.natAbs / 2 := by
      rw [natAbs_tdiv]
      exact Nat.div_le_div_left (by omega) (by decide)
    omega
  · have zero := kind.lowest_bounds
    have pos := not_lt.mp neg
    rcases le_total 0 a with nonneg | nonpos
    · have sign := Int.tdiv_nonneg nonneg pos
      omega
    · have sign := Int.tdiv_nonneg (Int.neg_nonneg_of_nonpos nonpos) pos
      rw [Int.neg_tdiv] at sign
      omega

/-- The wrapped number differs from the number by whole periods. -/
theorem exists_wrap_eq (kind : NumKind) (num : Int) :
    ∃ turns, kind.wrap num = num - kind.period * turns := by
  refine ⟨(num - kind.lowest) / kind.period, ?_⟩
  have parts := mul_ediv_add_emod (num - kind.lowest) kind.period
  rw [wrap_eq]
  omega

/-- The divide-back test. A quotient that equals the second operand leaves a rest smaller than
the first one, hence smaller than a period: no period was taken off the product. -/
theorem holds_of_divides_back {x y : Integer kind} (nonzero : x.1 ≠ 0)
    (back : (kind.wrap (x.1 * y.1)).tdiv x.1 = y.1) : kind.Holds (x.1 * y.1) := by
  obtain ⟨turns, wrapped⟩ := exists_wrap_eq kind (x.1 * y.1)
  have parts := mul_tdiv_add_tmod (kind.wrap (x.1 * y.1)) x.1
  have rest : ((kind.wrap (x.1 * y.1)).tmod x.1).natAbs < x.1.natAbs := by
    rw [natAbs_tmod]
    exact Nat.mod_lt _ (by omega)
  have small := natAbs_le x
  rw [back] at parts
  have zero : turns = 0 := by
    by_contra some
    have large : kind.period.natAbs ≤ (kind.period * turns).natAbs := by
      rw [natAbs_mul]
      exact Nat.le_mul_of_pos_right _ (by omega)
    omega
  rw [zero, mul_zero, sub_zero] at wrapped
  rw [← wrapped]
  exact kind.holds_wrap _

/-- Products are the mathematical ones or reported, but for −1 times the lowest number. -/
theorem safeMul_eq {x y : Integer kind} (apart : ¬ (x.1 = -1 ∧ y.1 = kind.lowest)) :
    safeMul x y = exactly kind (x.1 * y.1) s!"{x.1} * {y.1}" := by
  unfold safeMul
  split
  · rename_i zero
    have product := mul_eq_zero.mpr zero
    have held := holds_iff.mpr kind.lowest_bounds
    rw [product, exactly_of_holds held]
  · rename_i nonzero
    rw [not_or] at nonzero
    by_cases fits : kind.Holds (x.1 * y.1)
    · have same : (ofInt kind (x.1 * y.1)).1 = x.1 * y.1 := wrap_of_holds fits
      have back : (ofInt kind ((x.1 * y.1).tdiv x.1)).1 = y.1 := by
        rw [mul_tdiv_cancel_left _ nonzero.1]
        exact wrap_of_holds y.2
      rw [exactly_of_holds fits]
      dsimp only
      rw [same, if_neg (not_not.mpr back)]
    · rw [exactly_of_not_holds fits]
      have different : x.1 ≠ -1 := by
        intro neg
        apply fits
        have lower := holds_iff.mp y.2
        have half := lowest_of_negative (x := x) (by omega)
        rw [holds_iff, neg]
        omega
      have quotient := holds_tdiv x (kind.holds_wrap (x.1 * y.1)) different
      refine if_pos fun back => fits (holds_of_divides_back nonzero.1 ?_)
      exact (wrap_of_holds quotient).symm.trans back

theorem holds_uint64 : uint64.Holds number ↔ 0 ≤ number ∧ number < 2 ^ 64 := by
  rfl

theorem holds_int64 : int64.Holds number ↔ -2 ^ 63 ≤ number ∧ number < 2 ^ 63 := by
  rfl

theorem ofInt_uint64 : (ofInt .uint64 number).1 = number % 2 ^ 64 := by
  have wrapped := wrap_eq .uint64 number
  have lowest : lowest .uint64 = 0 := rfl
  rw [lowest, period, sub_zero, zero_add] at wrapped
  exact wrapped

theorem ofInt_int64 : (ofInt .int64 number).1 = -2 ^ 63 + (number + 2 ^ 63) % 2 ^ 64 := by
  have wrapped := wrap_eq .int64 number
  exact wrapped

theorem product_bounds (x y : Integer .uint64) : 0 ≤ x.1 * y.1 ∧ x.1 * y.1 / 2 ^ 64 < 2 ^ 64 := by
  have first := holds_uint64.mp x.2
  have second := holds_uint64.mp y.2
  refine ⟨mul_nonneg first.1 second.1, ?_⟩
  apply Int.ediv_lt_of_lt_mul (by decide)
  exact mul_lt_mul'' first.2 second.2 first.1 second.1

@[simp] theorem mul64_hi : (mul64 x y).1.1 = x.1 * y.1 / 2 ^ 64 := by
  have bounds := product_bounds x y
  exact ofInt_uint64.trans (emod_eq_of_lt (ediv_nonneg bounds.1 (by decide)) bounds.2)

@[simp] theorem mul64_lo : (mul64 x y).2.1 = x.1 * y.1 % 2 ^ 64 :=
  ofInt_uint64

theorem safeMulUint64_eq : safeMulUint64 x y = exactly .uint64 (x.1 * y.1) s!"{x.1} * {y.1}" := by
  unfold safeMulUint64
  split
  · rename_i zero
    have product := mul_eq_zero.mpr zero
    rw [product, exactly_of_holds (by decide)]
  · dsimp only
    rw [mul64_hi]
    split
    · rw [exactly_of_not_holds]
      rw [holds_uint64]
      omega
    · rw [exactly_of_holds (holds_uint64.mpr (by omega))]
      rfl

/-- An operand without its sign, as an unsigned word, is its absolute value. -/
theorem ofInt_unsigned : (ofInt .uint64 (unsigned x).1).1 = x.1.natAbs := by
  have bounds := holds_int64.mp x.2
  rw [ofInt_uint64]
  unfold unsigned
  split
  · rw [ofInt_int64]
    omega
  · omega

/-- The sign bit of a 64-bit number. -/
theorem signBit_iff (num : Integer .int64) : (num.1 >>> (63 : Nat)) % 2 = 1 ↔ num.1 < 0 := by
  have bounds := holds_int64.mp num.2
  rw [shiftRight_eq_div_pow]
  omega

/-- The operands have the same sign, so their product is that of their absolute values. -/
theorem mul_of_same_sign {x y : Int} (same : ¬ (x < 0 ∧ y > 0) ∧ ¬ (y < 0 ∧ x > 0)) :
    x * y = x.natAbs * y.natAbs := by
  have nonneg : 0 ≤ x * y := mul_nonneg_iff.mpr (by omega)
  rw [← natCast_mul, ← natAbs_mul, natAbs_of_nonneg nonneg]

theorem mul_of_opposite_sign {x y : Int} (opposite : ¬ (¬ (x < 0 ∧ y > 0) ∧ ¬ (y < 0 ∧ x > 0))) :
    x * y = -(x.natAbs * y.natAbs) := by
  have negated : x * -y = x.natAbs * (-y).natAbs := mul_of_same_sign (by omega)
  rw [natAbs_neg] at negated
  rw [← negated, mul_neg, neg_neg]

/-- Reading the low word as a signed number and correcting its sign gives what is left of the
number with that sign. -/
theorem ofInt_mul_sign (size : Int) {sign : Int} (unit : sign = 1 ∨ sign = -1) :
    ofInt .int64 ((ofInt .int64 (size % 2 ^ 64)).1 * sign) = ofInt .int64 (size * sign) := by
  apply Subtype.ext
  rw [ofInt_int64, ofInt_int64, ofInt_int64]
  rcases unit with rfl | rfl <;> omega

/-- A number whose absolute value fits into a word is a signed number exactly when what is left
of it has its sign. -/
theorem holds_iff_sign (fits : (number.natAbs : Int) < 2 ^ 64) :
    int64.Holds number ↔ ((ofInt .int64 number).1 < 0 ↔ number < 0) := by
  rw [holds_int64, ofInt_int64]
  omega

theorem safeMulInt64_eq :
    safeMulInt64 x y = exactly .int64 (x.1 * y.1) s!"{(unsigned x).1} * {(unsigned y).1}" := by
  unfold safeMulInt64
  split
  · rename_i zero
    have product := mul_eq_zero.mpr zero
    rw [product, exactly_of_holds (by decide)]
  · rename_i nonzero
    rw [← mul_eq_zero] at nonzero
    simp only [mul64_hi, mul64_lo, ofInt_unsigned, signBit_iff]
    rw [← natCast_mul, ← natAbs_mul]
    split
    · rw [exactly_of_not_holds]
      rw [holds_int64]
      omega
    · have sign : int64.Holds (x.1 * y.1) ↔ _ := holds_iff_sign (by omega)
      split
      · rename_i same
        have product := mul_of_same_sign same
        rw [← natCast_mul, ← natAbs_mul] at product
        rw [ofInt_mul_sign _ (.inl rfl), mul_one, ← product]
        split
        · rw [exactly_of_not_holds fun held => by have := sign.mp held; omega]
        · rename_i pos
          rw [exactly_of_holds (sign.mpr (by omega))]
      · rename_i same
        have product := mul_of_opposite_sign same
        rw [← natCast_mul, ← natAbs_mul] at product
        rw [ofInt_mul_sign _ (.inr rfl), mul_neg_one, ← product]
        split
        · rw [exactly_of_not_holds fun held => by have := sign.mp held; omega]
        · rw [exactly_of_holds (sign.mpr (by omega))]

/-- The product is divided without a loss, or the call says why that is not possible. -/
theorem safe64MulDiv_exact (x y div : Integer .uint64) :
    (div.1 = 0 →
      ∃ message, safe64MulDiv x y div = .err ⟨.errIntegerDivisionByZero, message⟩) ∧
    (div.1 ≠ 0 → x.1 * y.1 / div.1 < 2 ^ 64 →
      ∃ quotient, safe64MulDiv x y div = .ok quotient ∧ quotient.1 = x.1 * y.1 / div.1) ∧
    (div.1 ≠ 0 → ¬ x.1 * y.1 / div.1 < 2 ^ 64 →
      ∃ message, safe64MulDiv x y div = .err ⟨.errIntegerOverflow, message⟩) ∧
    safe64MulDiv x y div ≠ .panicked := by
  have bounds := product_bounds x y
  have divisor := holds_uint64.mp div.2
  unfold safe64MulDiv
  dsimp only
  split
  · rename_i zero
    refine ⟨fun _ => ⟨_, rfl⟩, fun nonzero => absurd zero nonzero,
      fun nonzero => absurd zero nonzero, by simp⟩
  · rename_i zero
    -- The high word is below the divisor exactly when the quotient fits into a word.
    have guard : x.1 * y.1 / 2 ^ 64 < div.1 ↔ x.1 * y.1 / div.1 < 2 ^ 64 := by
      rw [Int.ediv_lt_iff_lt_mul (by decide), Int.ediv_lt_iff_lt_mul (by omega), Int.mul_comm div.1]
    rw [mul64_hi]
    by_cases fits : x.1 * y.1 / div.1 < 2 ^ 64
    · have below : (mul64 x y).1.1 < div.1 := by
        rw [mul64_hi]
        exact guard.mpr fits
      rw [if_neg (by omega), div64, if_neg (by omega), mul64_hi, mul64_lo, Int.mul_comm, mul_ediv_add_emod]
      refine ⟨fun null => absurd null zero, fun _ _ => ⟨_, rfl, ?_⟩,
        fun _ large => absurd fits large, by simp⟩
      rw [ofInt_uint64]
      exact emod_eq_of_lt (ediv_nonneg bounds.1 divisor.1) fits
    · rw [if_pos (by omega)]
      exact ⟨fun null => absurd null zero, fun _ small => absurd small fits,
        fun _ _ => ⟨_, rfl⟩, by simp⟩

/-- The products of words and of signed words are the mathematical ones or reported. -/
theorem safeMul64_exact :
    (∀ x y : Integer .uint64,
      (uint64.Holds (x.1 * y.1) →
        ∃ result, safeMulUint64 x y = .ok result ∧ result.1 = x.1 * y.1) ∧
      (¬ uint64.Holds (x.1 * y.1) →
        ∃ message, safeMulUint64 x y = .error ⟨.errIntegerOverflow, message⟩)) ∧
    ∀ x y : Integer .int64,
      (int64.Holds (x.1 * y.1) →
        ∃ result, safeMulInt64 x y = .ok result ∧ result.1 = x.1 * y.1) ∧
      (¬ int64.Holds (x.1 * y.1) →
        ∃ message, safeMulInt64 x y = .error ⟨.errIntegerOverflow, message⟩) := by
  constructor
  · intro x y
    rw [safeMulUint64_eq]
    exact exactly_spec
  · intro x y
    rw [safeMulInt64_eq]
    exact exactly_spec

/-- Whether a result is exact does not depend on the text of the message. -/
theorem mapError_exactly :
    (exactly kind number operation).mapError cause =
      (exactly kind number other).mapError cause := by
  by_cases held : kind.Holds number
  · rw [exactly_of_holds held, exactly_of_holds held]
  · rw [exactly_of_not_holds held, exactly_of_not_holds held]
    rfl

/-- The lowest number of a signed type is returned as its own negative: dividing it by −1 wraps
around to the second operand. -/
theorem safeMul_lowest {x y : Integer kind} (neg : x.1 = -1) (lowest : y.1 = kind.lowest) :
    safeMul x y = .ok y ∧ ¬ kind.Holds (x.1 * y.1) := by
  have half := lowest_of_negative (x := x) (by omega)
  have held := holds_iff.mp x.2
  have product : x.1 * y.1 = kind.lowest + kind.period := by
    rw [neg]
    omega
  have wrapped : ofInt kind (x.1 * y.1) = y := by
    apply Subtype.ext
    change kind.wrap _ = _
    rw [product, wrap_of_above (by omega) (by omega)]
    omega
  have back : (ofInt kind (y.1.tdiv x.1)).1 = y.1 := by
    rw [neg, Int.tdiv_neg, Int.tdiv_one, ← neg_one_mul, ← neg]
    exact congrArg Subtype.val wrapped
  constructor
  · unfold safeMul
    rw [if_neg (by omega), wrapped]
    exact if_neg (not_not.mpr back)
  · rw [holds_iff, product]
    omega

/-- Products are the mathematical ones or reported as overflows, in every type and for all
operands but −1 and the lowest number of a signed type, where they are neither. -/
theorem safeMul_exact (kind : NumKind) (x y : Integer kind) :
    ((kind.Holds (x.1 * y.1) → ∃ result, safeMul x y = .ok result ∧ result.1 = x.1 * y.1) ∧
      (¬ kind.Holds (x.1 * y.1) → ∃ message, safeMul x y = .error ⟨.errIntegerOverflow, message⟩) ↔
      ¬ (x.1 = -1 ∧ y.1 = kind.lowest)) ∧
    (∀ x y : Integer .int64, (safeMul x y).mapError cause = (safeMulInt64 x y).mapError cause ↔
      ¬ (x.1 = -1 ∧ y.1 = int64.lowest)) ∧
    ∀ x y : Integer .uint64, (safeMul x y).mapError cause = (safeMulUint64 x y).mapError cause := by
  refine ⟨⟨?_, ?_⟩, fun x y => ⟨?_, ?_⟩, fun x y => ?_⟩
  · rintro spec ⟨neg, lowest⟩
    obtain ⟨returned, large⟩ := safeMul_lowest neg lowest
    obtain ⟨message, reported⟩ := spec.2 large
    rw [returned] at reported
    cases reported
  · intro apart
    rw [safeMul_eq apart]
    exact exactly_spec
  · rintro same ⟨neg, lowest⟩
    obtain ⟨returned, large⟩ := safeMul_lowest neg lowest
    rw [returned, safeMulInt64_eq, exactly_of_not_holds large] at same
    cases same
  · intro apart
    rw [safeMul_eq apart, safeMulInt64_eq]
    exact mapError_exactly
  · have unsigned : ¬ (x.1 = -1 ∧ y.1 = uint64.lowest) := by
      have bounds := holds_uint64.mp x.2
      omega
    rw [safeMul_eq unsigned, safeMulUint64_eq]

/-- The product of −1 and the lowest number is returned as the lowest number, without an error:
dividing it by −1 wraps around to the second operand. -/
theorem safeMul_wrong_at_lowest :
    safeMul (⟨-1, by decide⟩ : Integer .int8) ⟨-128, by decide⟩ = .ok ⟨-128, by decide⟩ ∧
    ¬ int8.Holds (-1 * -128) ∧
    safeMul (⟨-1, by decide⟩ : Integer .int64) ⟨-2 ^ 63, by decide⟩ = .ok ⟨-2 ^ 63, by decide⟩ ∧
    ∃ message, safeMulInt64 ⟨-1, by decide⟩ ⟨-2 ^ 63, by decide⟩ =
      .error ⟨.errIntegerOverflow, message⟩ := by
  refine ⟨by rfl, by decide, by rfl, _, by rfl⟩

end HiveGo.SafeMath
