import HiveGo.Outcome
import HiveGo.Radix

/-! Numbers in strings, in base 10 and 64 bits wide, as the standard library writes and
parses them. -/
namespace HiveGo

/-- Why a string is not a number. -/
inductive NumError where
  | errSyntax
  | errRange
  deriving Repr, DecidableEq

namespace Strconv

/-- A digit in base 10. -/
def digitByte (digit : Nat) : UInt8 := UInt8.ofNat (48 + digit)

/-- The digits of a number. -/
def formatUint (n : Nat) : Bytes := (Radix.digits 10 n).map digitByte

/-- The digits with a sign if the number is negative. -/
def formatInt (n : Int) : Bytes :=
  if n < 0 then 45 :: formatUint n.natAbs else formatUint n.natAbs

/-- The value of a digit; no letter is a digit in base 10. -/
def digitOf (c : UInt8) : Option Nat :=
  if 48 ≤ c.toNat ∧ c.toNat ≤ 57 then some (c.toNat - 48) else none

/-- The loop over the digits: an overflow ends it before a later bad digit is seen. -/
def parseDigits (maxVal : Nat) : Nat → Bytes → Except NumError Nat
  | n, [] => .ok n
  | n, c :: rest =>
    match digitOf c with
    | none => .error .errSyntax
    | some digit =>
      if maxVal < n * 10 + digit then .error .errRange
      else parseDigits maxVal (n * 10 + digit) rest

/-- A number of 64 bits without a sign. -/
def parseUint (s : Bytes) : Except NumError Nat :=
  if s.isEmpty then .error .errSyntax else parseDigits (2 ^ 64 - 1) 0 s

/-- The sign and the rest of a string. -/
def splitSign : Bytes → Bool × Bytes
  | 43 :: rest => (false, rest)
  | 45 :: rest => (true, rest)
  | s => (false, s)

/-- A number of 64 bits with or without a sign. -/
def parseInt (s : Bytes) : Except NumError Int :=
  if s.isEmpty then .error .errSyntax
  else
    let (neg, rest) := splitSign s
    match parseUint rest with
    | .error error => .error error
    | .ok un =>
      if neg then if 2 ^ 63 < un then .error .errRange else .ok (-un)
      else if 2 ^ 63 ≤ un then .error .errRange else .ok un

private theorem parseDigits_le (small : n ≤ maxVal) (parsed : parseDigits maxVal n s = .ok result) :
    result ≤ maxVal := by
  induction s generalizing n with
  | nil =>
    cases parsed
    exact small
  | cons c rest ih =>
    unfold parseDigits at parsed
    split at parsed
    · cases parsed
    · split at parsed
      · cases parsed
      · next fits => exact ih (Nat.le_of_not_lt fits) parsed

theorem parseUint_lt (parsed : parseUint s = .ok n) : n < 2 ^ 64 := by
  unfold parseUint at parsed
  split at parsed
  · cases parsed
  · have bound := parseDigits_le (Nat.zero_le _) parsed
    omega

theorem parseInt_bounds (parsed : parseInt s = .ok n) : -2 ^ 63 ≤ n ∧ n < 2 ^ 63 := by
  unfold parseInt at parsed
  split at parsed
  · cases parsed
  · dsimp only at parsed
    split at parsed
    · cases parsed
    · split at parsed
      · split at parsed
        · cases parsed
        · cases parsed
          omega
      · split at parsed
        · cases parsed
        · cases parsed
          omega

private theorem toNat_digitByte (small : digit < 10) : (digitByte digit).toNat = 48 + digit := by
  unfold digitByte
  rw [UInt8.toNat_ofNat']
  omega

private theorem digitOf_digitByte (small : digit < 10) :
    digitOf (digitByte digit) = some digit := by
  unfold digitOf
  rw [toNat_digitByte small, if_pos (by omega)]
  congr 1
  omega

private theorem parseDigits_map (small : ∀ digit ∈ digits, digit < 10)
    (fits : Radix.value 10 n digits ≤ maxVal) :
    parseDigits maxVal n (digits.map digitByte) = .ok (Radix.value 10 n digits) := by
  induction digits generalizing n with
  | nil => rfl
  | cons digit digits ih =>
    rw [List.forall_mem_cons] at small
    have later : n * 10 + digit ≤ Radix.value 10 (n * 10 + digit) digits :=
      Radix.le_value (by omega) _ _
    have step : Radix.value 10 n (digit :: digits) = Radix.value 10 (n * 10 + digit) digits := rfl
    rw [step] at fits ⊢
    rw [List.map_cons, parseDigits, digitOf_digitByte small.1]
    dsimp only
    rw [if_neg (by omega), ih small.2 fits]

theorem parseUint_formatUint (small : n < 2 ^ 64) : parseUint (formatUint n) = .ok n := by
  have read : Radix.value 10 0 (Radix.digits 10 n) = n := Radix.value_digits (by omega)
  have full : Radix.digits 10 n ≠ [] := Radix.digits_ne_nil (by omega)
  unfold parseUint formatUint
  rw [if_neg (by simpa using full), parseDigits_map (Radix.digits_lt (by omega)) (by omega), read]

/-- Digits are not signs. -/
private theorem splitSign_formatUint : splitSign (formatUint n) = (false, formatUint n) := by
  have small : ∀ digit ∈ Radix.digits 10 n, digit < 10 := Radix.digits_lt (by omega)
  unfold formatUint
  cases spelt : Radix.digits 10 n with
  | nil => rfl
  | cons digit digits =>
    rw [spelt, List.forall_mem_cons] at small
    have first := toNat_digitByte small.1
    unfold splitSign
    split
    · rename_i same
      rw [(List.cons.inj same).1] at first
      simp at first
      omega
    · rename_i same
      rw [(List.cons.inj same).1] at first
      simp at first
      omega
    · rfl

private theorem formatUint_ne_nil : formatUint n ≠ [] := by
  have full : Radix.digits 10 n ≠ [] := Radix.digits_ne_nil (by omega)
  simpa [formatUint] using full

theorem parseInt_formatInt (low : -2 ^ 63 ≤ n) (high : n < 2 ^ 63) :
    parseInt (formatInt n) = .ok n := by
  have read : parseUint (formatUint n.natAbs) = .ok n.natAbs := parseUint_formatUint (by omega)
  unfold parseInt formatInt
  by_cases neg : n < 0
  · simp only [neg, if_true, List.isEmpty_cons, Bool.false_eq_true, if_false, splitSign, read]
    rw [if_neg (by omega)]
    congr 1
    omega
  · have full : (formatUint n.natAbs).isEmpty = false := by simpa using formatUint_ne_nil
    simp only [neg, if_false, full, Bool.false_eq_true, splitSign_formatUint, read]
    rw [if_neg (by omega)]
    congr 1
    omega

end Strconv

end HiveGo
