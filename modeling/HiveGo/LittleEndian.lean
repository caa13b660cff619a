import Mathlib.Tactic.Ring

/-! Fixed-width little-endian numbers and their bytes. -/
namespace HiveGo

abbrev Bytes := List UInt8

/-- A name in an error text. -/
def spell (name : Bytes) : String := String.ofList (name.map fun byte => Char.ofNat byte.toNat)

namespace LittleEndian

/-- The low `width` bytes of a number, least significant first. -/
def put : Nat → Nat → Bytes
  | 0, _ => []
  | width + 1, number => UInt8.ofNat (number % 256) :: put width (number / 256)

/-- The number spelled by the bytes, least significant first. -/
def get : Bytes → Nat
  | [] => 0
  | byte :: rest => byte.toNat + 256 * get rest

@[simp] theorem length_put (width num : Nat) : (put width num).length = width := by
  induction width generalizing num with
  | zero => rfl
  | succ width ih => simp [put, ih]

theorem get_put : get (put width number) = number % 256 ^ width := by
  induction width generalizing number with
  | zero => simp [put, get, Nat.mod_one]
  | succ width ih =>
    have low : (UInt8.ofNat (number % 256)).toNat = number % 256 := by simp
    rw [put, get, ih, low, Nat.pow_succ, Nat.mul_comm (256 ^ width) 256, Nat.mod_mul]

theorem get_put_of_lt (small : number < 256 ^ width) : get (put width number) = number := by
  rw [get_put, Nat.mod_eq_of_lt small]

theorem put_get (bytes : Bytes) : put bytes.length (get bytes) = bytes := by
  induction bytes with
  | nil => rfl
  | cons byte rest ih =>
    have small : byte.toNat < 256 := byte.toNat_lt
    have low : (byte.toNat + 256 * get rest) % 256 = byte.toNat := by omega
    have high : (byte.toNat + 256 * get rest) / 256 = get rest := by omega
    rw [List.length_cons, put, get, low, high, ih]
    simp

theorem get_lt (bytes : Bytes) : get bytes < 256 ^ bytes.length := by
  induction bytes with
  | nil => simp [get]
  | cons byte rest ih =>
    have small : byte.toNat < 256 := byte.toNat_lt
    rw [get, List.length_cons, Nat.pow_succ]
    omega

/-- Reading the first `width` bytes of a sequence that starts with a number of
that width gives the number back. -/
theorem get_take_put (small : number < 256 ^ width) :
    get ((put width number ++ rest).take width) = number := by
  rw [List.take_left' (length_put width number), get_put_of_lt small]

/-- Any sequence that is long enough starts with the number its first bytes spell. -/
theorem put_get_take {bytes : Bytes} (long : width ≤ bytes.length) :
    put width (get (bytes.take width)) = bytes.take width := by
  have size : (bytes.take width).length = width := by rw [List.length_take]; omega
  have whole := put_get (bytes.take width)
  rwa [size] at whole

end LittleEndian

end HiveGo
