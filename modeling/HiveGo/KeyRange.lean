import HiveGo.KVMap
import Mathlib.Data.List.Induction

/-! The keys with a given prefix are an interval of the lexical order. It starts at the prefix
itself and ends before the upper bound, if there is one. -/
namespace HiveGo
open ByteOrder

namespace ByteOrder

theorem le_cons : Le (x :: xs) (y :: ys) ↔ x.toNat < y.toNat ∨ x = y ∧ Le xs ys := by
  simp only [Le, compare]
  rcases Nat.lt_trichotomy x.toNat y.toNat with less | same | greater
  · simp [less]
  · simp [UInt8.toNat_inj.mp same]
  · have apart : x ≠ y := by
      rintro rfl
      exact Nat.lt_irrefl _ greater
    simp [greater, Nat.not_lt_of_lt greater, apart]

theorem not_le_nil (x : UInt8) (xs : Bytes) : ¬ Le (x :: xs) [] := by simp [Le, compare]

theorem le_of_prefix (mem : start <+: key) : Le start key := by
  obtain ⟨rest, rfl⟩ := mem
  induction start with
  | nil => cases rest <;> simp [Le, compare]
  | cons first start ih => exact le_cons.mpr (.inr ⟨rfl, ih⟩)

/-- What lies between a string and one of its extensions is an extension as well. -/
theorem prefix_of_between (above : Le start key) (below : Le key (start ++ rest)) :
    start <+: key := by
  induction start generalizing key with
  | nil => exact List.nil_prefix
  | cons first start ih =>
    cases key with
    | nil => exact absurd above (not_le_nil first start)
    | cons head key =>
      rcases le_cons.mp above with less | ⟨rfl, tailAbove⟩
      · rcases le_cons.mp below with greater | ⟨rfl, -⟩ <;> omega
      · rcases le_cons.mp below with greater | ⟨-, tailBelow⟩
        · omega
        · exact List.cons_prefix_cons.mpr ⟨rfl, ih tailAbove tailBelow⟩

/-- There is nothing behind a string of the largest bytes but its extensions. -/
theorem prefix_of_replicate_le (above : Le (List.replicate count 255) key) :
    List.replicate count 255 <+: key := by
  induction count generalizing key with
  | zero => exact List.nil_prefix
  | succ count ih =>
    cases key with
    | nil => exact absurd above (not_le_nil 255 _)
    | cons head key =>
      rcases le_cons.mp above with less | ⟨rfl, above⟩
      · have small := head.toNat_lt
        have largest : (255 : UInt8).toNat = 255 := rfl
        omega
      · exact List.cons_prefix_cons.mpr ⟨rfl, ih above⟩

end ByteOrder

/-- The loop of `KeyPrefixUpperBound` from the last byte on, the bytes given in reverse. -/
def keyPrefixUpperBoundLoop : Bytes → Option Bytes
  | [] => none
  | last :: rest =>
    if last + 1 ≠ 0 then some ((last + 1) :: rest).reverse
    else keyPrefixUpperBoundLoop rest

def keyPrefixUpperBound (start : Bytes) : Option Bytes := keyPrefixUpperBoundLoop start.reverse

private theorem increment_eq_zero {byte : UInt8} : byte + 1 = 0 ↔ byte = 255 := by
  constructor
  · intro wrapped
    exact (UInt8.add_left_inj 1).mp wrapped
  · rintro rfl
    rfl

theorem keyPrefixUpperBound_concat :
    keyPrefixUpperBound (start ++ [last]) =
      if last = 255 then keyPrefixUpperBound start else some (start ++ [last + 1]) := by
  rw [keyPrefixUpperBound, List.reverse_append]
  simp only [List.reverse_singleton, List.singleton_append, keyPrefixUpperBoundLoop, ne_eq,
    increment_eq_zero, ite_not]
  by_cases largest : last = 255 <;> simp [largest, keyPrefixUpperBound]

/-- The upper bound increments the last byte that can be incremented and drops what follows. -/
theorem keyPrefixUpperBound_shape (small : keyPrefixUpperBound start = some bound) :
    ∃ front last count, last ≠ 255 ∧ start = front ++ last :: List.replicate count 255 ∧
      bound = front ++ [last + 1] := by
  induction start using List.reverseRecOn with
  | nil => cases small
  | append_singleton start last ih =>
    rw [keyPrefixUpperBound_concat] at small
    split at small
    · next largest =>
      obtain ⟨front, byte, count, room, shape, bound⟩ := ih small
      refine ⟨front, byte, count + 1, room, ?_, bound⟩
      rw [shape, largest, List.replicate_succ', List.append_assoc, List.cons_append]
    · next room =>
      cases small
      exact ⟨start, last, 0, room, rfl, rfl⟩

theorem prefix_iff_between (bounded : keyPrefixUpperBound start = some bound) :
    start <+: key ↔ ByteOrder.Le start key ∧ ByteOrder.Lt key bound := by
  obtain ⟨front, last, count, room, rfl, rfl⟩ := keyPrefixUpperBound_shape bounded
  have successor : (last + 1).toNat = last.toNat + 1 := by
    have small := last.toNat_lt
    have notLargest : last.toNat ≠ 255 := fun largest => room (UInt8.toNat_inj.mp largest)
    exact Nat.mod_eq_of_lt (by simp; omega)
  constructor
  · intro mem
    refine ⟨ le_of_prefix mem, ?_⟩
    obtain ⟨rest, rfl⟩ := mem
    rw [List.append_assoc, lt_append]
    have less : last.toNat < (last + 1).toNat := by omega
    refine ⟨le_cons.mpr (.inl less), fun same => ?_⟩
    have heads := (List.cons.inj same).1
    rw [← heads] at less
    exact Nat.lt_irrefl _ less
  · rintro ⟨above, below⟩
    -- The key is at least the front of the prefix and at most an extension of it.
    have inFront : front <+: key := by
      refine prefix_of_between ?_ below.1
      exact le_trans ( le_of_prefix (List.prefix_append ..)) above
    obtain ⟨tail, rfl⟩ := inFront
    rw [le_append] at above
    rw [lt_append] at below
    refine (List.prefix_append_right_inj front).mpr ?_
    cases tail with
    | nil => exact absurd above (not_le_nil last _)
    | cons head tail =>
      have atMost : ¬ last.toNat < head.toNat := by
        intro less
        rcases le_cons.mp below.1 with smaller | ⟨rfl, empty⟩
        · omega
        · cases tail with
          | nil => exact below.2 rfl
          | cons next tail => exact not_le_nil next tail empty
      rcases le_cons.mp above with less | ⟨rfl, tailAbove⟩
      · exact absurd less atMost
      · exact List.cons_prefix_cons.mpr ⟨rfl, prefix_of_replicate_le tailAbove⟩

/-- Only the strings of largest bytes have no upper bound. -/
theorem keyPrefixUpperBound_eq_none :
    keyPrefixUpperBound start = none ↔ ∀ byte ∈ start, byte = 255 := by
  induction start using List.reverseRecOn with
  | nil => simp [keyPrefixUpperBound, keyPrefixUpperBoundLoop]
  | append_singleton start last ih =>
    rw [keyPrefixUpperBound_concat]
    split
    · next largest => simp [ih, largest, or_imp]
    · next room => simp [room]

/-- The keys with a prefix are exactly those from the prefix on up to its bound, and only a
string of largest bytes has no bound. -/
theorem keyPrefixUpperBound_exact (start : Bytes) :
    (keyPrefixUpperBound start = none ↔ ∀ byte ∈ start, byte = 255) ∧
      ∀ bound ∈ keyPrefixUpperBound start, ∀ key,
        start <+: key ↔ ByteOrder.Le start key ∧ ByteOrder.Lt key bound :=
  ⟨keyPrefixUpperBound_eq_none, fun _ small _ => prefix_iff_between small⟩

end HiveGo
