import HiveGo.Radix

/-! Hexadecimal strings that begin with `0x`: byte strings with two digits for every byte, and
numbers of up to 256 bits without leading zeros. -/
namespace HiveGo
open List

/-- Why a string is not hexadecimal. -/
inductive HexError where
  | errEmptyString
  | other (message : String)
  deriving Repr, DecidableEq

namespace Hexutil

def errSyntax : HexError := .other "invalid hex string"

def errMissingPrefix : HexError := .other "hex string without 0x prefix"

def errOddLength : HexError := .other "hex string of odd length"

def errEmptyNumber : HexError := .other "hex string \"0x\""

def errLeadingZero : HexError := .other "hex number with leading zero digits"

def errBig256Range : HexError := .other "hex number > 256 bits"

/-- A digit in lower case. -/
def digitByte (digit : Nat) : UInt8 := UInt8.ofNat (if digit < 10 then 48 + digit else 87 + digit)

/-- The value of a digit, in lower or upper case. -/
def nibble (c : UInt8) : Option Nat :=
  if 48 ≤ c.toNat ∧ c.toNat ≤ 57 then some (c.toNat - 48)
  else if 97 ≤ c.toNat ∧ c.toNat ≤ 102 then some (c.toNat - 87)
  else if 65 ≤ c.toNat ∧ c.toNat ≤ 70 then some (c.toNat - 55)
  else none

/-- The prefix `0x`. -/
def zeroX : Bytes := [48, 120]

/-- What follows the prefix. -/
def afterPrefix : Bytes → Except HexError Bytes
  | [] => .error .errEmptyString
  | 48 :: 120 :: rest | 48 :: 88 :: rest => .ok rest
  | _ => .error errMissingPrefix

/-- The bytes with their prefix. -/
def encode (b : Bytes) : Bytes :=
  zeroX ++ b.flatMap fun byte => [digitByte (byte.toNat / 16), digitByte (byte.toNat % 16)]

/-- A last digit without another one is only an error of the length if it is a digit. -/
def decodePairs : Bytes → Except HexError Bytes
  | [] => .ok []
  | [c] => .error (if (nibble c).isSome then errOddLength else errSyntax)
  | high :: low :: rest =>
    match nibble high, nibble low with
    | some a, some b =>
      match decodePairs rest with
      | .ok bytes => .ok (UInt8.ofNat (a * 16 + b) :: bytes)
      | .error error => .error error
    | _, _ => .error errSyntax

/-- The bytes behind the prefix. -/
def decode (s : Bytes) : Except HexError Bytes :=
  match afterPrefix s with
  | .error error => .error error
  | .ok rest => decodePairs rest

/-- The digits of a number, and a minus sign before the prefix. -/
def encodeBig (n : Int) : Bytes :=
  (if n < 0 then [45] else []) ++ zeroX ++ (Radix.digits 16 n.natAbs).map digitByte

/-- The values of all digits, if they are digits. -/
def nibbles : Bytes → Option (List Nat)
  | [] => some []
  | c :: rest =>
    match nibble c, nibbles rest with
    | some digit, some digits => some (digit :: digits)
    | _, _ => none

/-- A number of up to 64 digits; a sign is no prefix. -/
def decodeBig (s : Bytes) : Except HexError Int :=
  match afterPrefix s with
  | .error error => .error error
  | .ok raw =>
    if raw.isEmpty then .error errEmptyNumber
    else if 1 < raw.length ∧ raw.head? = some 48 then .error errLeadingZero
    else if 64 < raw.length then .error errBig256Range
    else
      match nibbles raw with
      | some digits => .ok (Radix.value 16 0 digits)
      | none => .error errSyntax

theorem toNat_digitByte (small : digit < 16) :
    (digitByte digit).toNat = if digit < 10 then 48 + digit else 87 + digit := by
  unfold digitByte
  rw [UInt8.toNat_ofNat']
  split <;> omega

theorem nibble_digitByte (small : digit < 16) : nibble (digitByte digit) = some digit := by
  have spelt := toNat_digitByte small
  unfold nibble
  split at spelt
  · rw [if_pos (by omega)]
    congr 1
    omega
  · rw [if_neg (by omega), if_pos (by omega)]
    congr 1
    omega

theorem decode_encode (b : Bytes) : decode (encode b) = .ok b := by
  have pairs : ∀ b, decodePairs (b.flatMap fun byte =>
      [digitByte (byte.toNat / 16), digitByte (byte.toNat % 16)]) = .ok b := by
    intro b
    induction b with
    | nil => rfl
    | cons byte b ih =>
      have bound := byte.toNat_lt
      have high := nibble_digitByte (show byte.toNat / 16 < 16 by omega)
      have low := nibble_digitByte (show byte.toNat % 16 < 16 by omega)
      have whole : byte.toNat / 16 * 16 + byte.toNat % 16 = byte.toNat := Nat.div_add_mod' _ 16
      simp [decodePairs, high, low, ih, whole]
  exact pairs b

theorem nibbles_map (small : ∀ digit ∈ digits, digit < 16) :
    nibbles (digits.map digitByte) = some digits := by
  induction digits with
  | nil => rfl
  | cons digit digits ih =>
    rw [forall_mem_cons] at small
    rw [map_cons, nibbles, nibble_digitByte small.1, ih small.2]

/-- A number with several digits does not begin with a zero. -/
theorem head_digits (several : 1 < (Radix.digits 16 n).length) :
    ((Radix.digits 16 n).map digitByte).head? ≠ some 48 := by
  have pos : 0 < n := by
    rcases Nat.eq_zero_or_pos n with rfl | pos
    · exact absurd several (by decide)
    · exact pos
  obtain ⟨first, rest, spelt, leading⟩ := Radix.digits_head (show 2 ≤ 16 by omega) pos
  have small : first < 16 := Radix.digits_lt (by omega) first (by rw [spelt]; exact mem_cons_self ..)
  rw [spelt, map_cons, head?_cons]
  intro zero
  have code := toNat_digitByte small
  rw [Option.some.inj zero] at code
  simp only [UInt8.reduceToNat] at code
  split at code <;> omega

theorem decodeBig_encodeBig (low : 0 ≤ n) (high : n < 2 ^ 256) :
    decodeBig (encodeBig n) = .ok n := by
  have bound : n.natAbs < 16 ^ (63 + 1) := by
    omega
  have full : Radix.digits 16 n.natAbs ≠ [] := Radix.digits_ne_nil (by omega)
  have read : Radix.value 16 0 (Radix.digits 16 n.natAbs) = n.natAbs := Radix.value_digits (by omega)
  have short := Radix.length_digits (show 0 < 16 by omega) bound
  have small := Radix.digits_lt (n := n.natAbs) (show 2 ≤ 16 by omega)
  have spelt : afterPrefix (encodeBig n) = .ok ((Radix.digits 16 n.natAbs).map digitByte) := by
    unfold encodeBig
    rw [if_neg (by omega)]
    rfl
  unfold decodeBig
  rw [spelt]
  dsimp only
  rw [if_neg (by simpa using full), if_neg, if_neg (by rw [length_map]; omega), nibbles_map small]
  · dsimp only
    rw [read, Int.natAbs_of_nonneg low]
  · rintro ⟨several, zero⟩
    rw [length_map] at several
    exact head_digits several zero

end Hexutil

end HiveGo
