import HiveGo.LittleEndian

/-! Numerals: the digits of a number in a base, the most significant one first, and the
reading of digits under a bound. -/
namespace HiveGo
open Nat List

namespace Radix

def digitsWithin (base : Nat) : Nat → Nat → List Nat
  | 0, _ => []
  | fuel + 1, n => if n < base then [n] else digitsWithin base fuel (n / base) ++ [n % base]

/-- The digits of a number; zero has one digit. -/
def digits (base n : Nat) : List Nat := digitsWithin base (n + 1) n

/-- The number that is read after `acc`. -/
def value (base acc : Nat) (digits : List Nat) : Nat :=
  digits.foldl (fun acc digit => acc * base + digit) acc

private theorem digitsWithin_spec (large : 2 ≤ base) (enough : n < fuel) :
    value base 0 (digitsWithin base fuel n) = n ∧ (∀ digit ∈ digitsWithin base fuel n, digit < base) ∧
      digitsWithin base fuel n ≠ [] := by
  induction fuel generalizing n with
  | zero => omega
  | succ fuel ih =>
    unfold digitsWithin
    split
    · rename_i small
      simp [value, small]
    · have less : n / base < n := div_lt_self (by omega) (by omega)
      obtain ⟨read, small, _⟩ := ih (n := n / base) (by omega)
      refine ⟨?_, ?_, by simp⟩
      · unfold value at read ⊢
        rw [foldl_append, read, foldl_cons, foldl_nil]
        exact div_add_mod' n base
      · intro digit mem
        rcases mem_append.mp mem with inside | last
        · exact small digit inside
        · rw [mem_singleton] at last
          rw [last]
          exact mod_lt _ (by omega)

private theorem digitsWithin_head (large : 2 ≤ base) (enough : n < fuel) (pos : 0 < n) :
    ∃ first rest, digitsWithin base fuel n = first :: rest ∧ 0 < first := by
  induction fuel generalizing n with
  | zero => omega
  | succ fuel ih =>
    unfold digitsWithin
    split
    · exact ⟨n, [], rfl, pos⟩
    · have less : n / base < n := div_lt_self pos (by omega)
      have more : 0 < n / base := div_pos (by omega) (by omega)
      obtain ⟨first, rest, spelt, leading⟩ := ih (show n / base < fuel by omega) more
      exact ⟨first, rest ++ [n % base], by rw [spelt]; rfl, leading⟩

private theorem length_digitsWithin (large : 0 < base) (small : n < base ^ (most + 1)) :
    (digitsWithin base fuel n).length ≤ most + 1 := by
  induction fuel generalizing n most with
  | zero => simp [digitsWithin]
  | succ fuel ih =>
    unfold digitsWithin
    split
    · simp
    · cases most with
      | zero =>
        rw [zero_add, pow_one] at small
        contradiction
      | succ most =>
        have less : n / base < base ^ (most + 1) := by
          rw [div_lt_iff_lt_mul large, ← pow_succ]
          exact small
        have length := ih less
        rw [length_append, length_singleton]
        omega

/-- Only zero has a leading zero. -/
theorem digits_head (large : 2 ≤ base) (pos : 0 < n) :
    ∃ first rest, digits base n = first :: rest ∧ 0 < first :=
  digitsWithin_head large (lt_succ_self n) pos

theorem length_digits (large : 0 < base) (small : n < base ^ (most + 1)) :
    (digits base n).length ≤ most + 1 := length_digitsWithin large small

theorem value_digits (large : 2 ≤ base) : value base 0 (digits base n) = n :=
  (digitsWithin_spec large (lt_succ_self n)).1

theorem digits_lt (large : 2 ≤ base) : ∀ digit ∈ digits base n, digit < base :=
  (digitsWithin_spec large (lt_succ_self n)).2.1

theorem digits_ne_nil (large : 2 ≤ base) : digits base n ≠ [] :=
  (digitsWithin_spec large (lt_succ_self n)).2.2

/-- Reading on never makes the number smaller. -/
theorem le_value (large : 1 ≤ base) (acc : Nat) (digits : List Nat) : acc ≤ value base acc digits := by
  induction digits generalizing acc with
  | nil => exact le_refl acc
  | cons digit digits ih =>
    have first := mul_le_mul_left acc large
    have later := ih (acc * base + digit)
    unfold value at later ⊢
    rw [foldl_cons]
    omega

end Radix

end HiveGo
