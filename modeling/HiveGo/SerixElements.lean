import HiveGo.OrderedMap
import HiveGo.SerixRegistry
import HiveGo.Strconv
import Mathlib.Tactic.Ring

/-! Finite double precision numbers, as far as their conversion to integers. -/
namespace HiveGo

/-- The number `mantissa * 2 ^ exponent`. -/
structure Float64 where
  mantissa : Int
  exponent : Int
  precise : mantissa.natAbs < 2 ^ 53
  notTiny : -1074 ≤ exponent
  notHuge : exponent ≤ 971
  deriving Repr

namespace Float64

/-- The number without its fraction. -/
def trunc (x : Float64) : Int :=
  if 0 ≤ x.exponent then x.mantissa * 2 ^ x.exponent.toNat
  else x.mantissa.tdiv (2 ^ (-x.exponent).toNat)

/-- The number is the given integer. -/
def Represents (x : Float64) (n : Int) : Prop :=
  if 0 ≤ x.exponent then x.mantissa * 2 ^ x.exponent.toNat = n
  else x.mantissa = n * 2 ^ (-x.exponent).toNat

theorem trunc_eq {x : Float64} (models : x.Represents n) : x.trunc = n := by
  unfold Represents at models
  unfold trunc
  split
  · rwa [if_pos ‹_›] at models
  · rw [if_neg ‹_›] at models
    rw [models]
    exact Int.mul_tdiv_cancel n (pow_ne_zero _ (by decide))

/-- Integers of up to 53 bits are numbers. -/
def ofInt (n : Int) (small : n.natAbs < 2 ^ 53) : Float64 where
  mantissa := n
  exponent := 0
  precise := small
  notTiny := by omega
  notHuge := by omega

theorem represents_ofInt : (ofInt n small).Represents n := by
  simp [Represents, ofInt]

end Float64

end HiveGo

/-! What the map format is made of: the elements of the ordered maps, the tree that JSON makes of
them, the keys of fields, and numbers and bytes in strings. -/
namespace HiveGo

open OrderedMap

/-- An element as the encoder makes it. Small integers and object codes are numbers of
their Go types. -/
inductive Ele where
  | bool (b : Bool)
  | int (n : Int)
  | code (objectType : ObjectType)
  | string (s : Bytes)
  | list (elems : List Ele)
  | object (entries : List (Bytes × Ele))
  deriving Repr

/-- A value as JSON gives it to the decoder. A single byte is not JSON, but is what
indexing a string gives. -/
inductive Any where
  | null
  | bool (b : Bool)
  | number (x : Float64)
  | string (s : Bytes)
  | byte (b : UInt8)
  | array (elems : List Any)
  | object (entries : List (Bytes × Any))
  deriving Repr

mutual

/-- The JSON view of an element: every number is a `float64`, and the entries of an object
come in any order. -/
def Views : Ele → Any → Prop
  | .bool b, .bool other => other = b
  | .int n, .number x => x.Represents n
  | .code objectType, .number x => x.Represents objectType.typeDenAndCode.2.toNat
  | .string s, .string other => other = s
  | .list elems, .array others => ViewsAll elems others
  | .object entries, .object others =>
    ∃ arranged, arranged.Perm others ∧ ViewsEntries entries arranged
  | _, _ => False

def ViewsAll : List Ele → List Any → Prop
  | [], [] => True
  | ele :: elems, other :: others => Views ele other ∧ ViewsAll elems others
  | _, _ => False

def ViewsEntries : List (Bytes × Ele) → List (Bytes × Any) → Prop
  | [], [] => True
  | (key, ele) :: entries, (other, any) :: others =>
    (key = other ∧ Views ele any) ∧ ViewsEntries entries others
  | _, _ => False

end

section

-- The equations of the family are generated here, once.
attribute [local simp] Views ViewsAll ViewsEntries

end

theorem viewsAll_iff : ViewsAll elems others ↔ List.Forall₂ Views elems others := by
  induction elems generalizing others with
  | nil => cases others <;> simp [ViewsAll]
  | cons ele elems ih => cases others <;> simp [ViewsAll, ih]

theorem viewsEntries_iff : ViewsEntries entries others ↔
      List.Forall₂ (fun entry other => entry.1 = other.1 ∧ Views entry.2 other.2) entries others := by
  induction entries generalizing others with
  | nil => cases others <;> simp [ViewsEntries]
  | cons entry entries ih => cases others <;> simp [ViewsEntries, ih]

/-- Looking up a key gives corresponding results on both sides. -/
theorem Views.get (views : Views (.object entries) (.object others)) (nodup : Distinct entries)
    (key : Bytes) : Option.Rel Views (OrderedMap.get key entries) (OrderedMap.get key others) := by
  obtain ⟨arranged, perm, rel⟩ := views
  rw [viewsEntries_iff] at rel
  have also : Distinct arranged := by
    unfold Distinct
    rwa [keys_forall₂ rel]
  rw [← get_perm perm also]
  exact get_forall₂ rel

end HiveGo
