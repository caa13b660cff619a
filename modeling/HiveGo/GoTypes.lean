import HiveGo.NumKind
import HiveGo.Serializer

/-! The part of Go's type system that reflection shows to serix: types with their
kinds, values, and the equality of map keys. Floating point types are left out. -/
namespace HiveGo
open List

/-- A Go type. Types that have a name are told apart by it; what they are made of is
in the declarations of the program. -/
inductive GoType where
  | bool
  | num (kind : NumKind)
  | string
  | slice (elem : GoType)
  | array (length : Nat) (elem : GoType)
  | map (key elem : GoType)
  | ptr (elem : GoType)
  | bigInt
  | time
  | named (name : String)
  deriving Repr, DecidableEq

namespace GoType

abbrev uint8 : GoType := .num .uint8

/-- `reflect.Type.String`. -/
def str : GoType → String
  | bool => "bool"
  | num .int8 => "int8"
  | num .int16 => "int16"
  | num .int32 => "int32"
  | num .int64 => "int64"
  | num .uint8 => "uint8"
  | num .uint16 => "uint16"
  | num .uint32 => "uint32"
  | num .uint64 => "uint64"
  | string => "string"
  | slice elem => "[]" ++ elem.str
  | array length elem => "[" ++ toString length ++ "]" ++ elem.str
  | map key elem => "map[" ++ key.str ++ "]" ++ elem.str
  | ptr elem => "*" ++ elem.str
  | bigInt => "big.Int"
  | time => "time.Time"
  | named name => name

end GoType

/-- A value as reflection sees it, next to its type. A nil pointer, slice, map or
interface is `nil`; a struct holds the fields that have a serix tag, in their
order; the entries of a map are in some order of iteration. -/
inductive Value where
  | bool (b : Bool)
  | num (n : Int)
  | string (s : Bytes)
  | bytes (b : Bytes)
  | byteArray (b : Bytes)
  | slice (elems : List Value)
  | array (elems : List Value)
  | map (entries : List (Value × Value))
  | nil
  | ptr (elem : Value)
  | struct (fields : List Value)
  | iface (type : GoType) (elem : Value)
  | bigInt (n : Int)
  | time (t : Time)
  deriving Repr

namespace Value

/-- Induction over values, with the hypothesis for every value inside. -/
theorem induction {P : Value → Prop} (bool : ∀ b, P (.bool b)) (num : ∀ n, P (.num n))
    (string : ∀ s, P (.string s)) (bytes : ∀ b, P (.bytes b)) (byteArray : ∀ b, P (.byteArray b))
    (slice : ∀ elems, (∀ elem ∈ elems, P elem) → P (.slice elems))
    (array : ∀ elems, (∀ elem ∈ elems, P elem) → P (.array elems))
    (map : ∀ entries, (∀ entry ∈ entries, P entry.1 ∧ P entry.2) → P (.map entries))
    (nil : P .nil) (ptr : ∀ elem, P elem → P (.ptr elem))
    (struct : ∀ fields, (∀ field ∈ fields, P field) → P (.struct fields))
    (iface : ∀ type elem, P elem → P (.iface type elem)) (bigInt : ∀ n, P (.bigInt n))
    (time : ∀ t, P (.time t)) (value : Value) : P value :=
  @Value.rec P (fun elems => ∀ elem ∈ elems, P elem)
    (fun entries => ∀ entry ∈ entries, P entry.1 ∧ P entry.2) (fun entry => P entry.1 ∧ P entry.2)
    bool num string bytes byteArray slice array map nil ptr struct iface bigInt time
    (by simp) (fun _ _ first later => forall_mem_cons.mpr ⟨first, later⟩)
    (by simp) (fun _ _ first later => forall_mem_cons.mpr ⟨first, later⟩)
    (fun _ _ key elem => ⟨key, elem⟩) value

/-- The values directly inside a value. -/
def parts : Value → List Value
  | slice elems | array elems | struct elems => elems
  | map entries => entries.flatMap fun entry => [entry.1, entry.2]
  | ptr inner | iface _ inner => [inner]
  | _ => []

theorem induction_parts {P : Value → Prop}
    (step : ∀ value, (∀ part ∈ value.parts, P part) → P value) (value : Value) : P value := by
  induction value using induction with
  | slice _ ih | array _ ih | struct _ ih => exact step _ ih
  | map entries ih =>
    refine step _ fun part mem => ?_
    simp only [parts, mem_flatMap, mem_cons, not_mem_nil, or_false] at mem
    obtain ⟨entry, inside, rfl | rfl⟩ := mem
    · exact (ih entry inside).1
    · exact (ih entry inside).2
  | ptr _ ih | iface _ _ ih => exact step _ (by simpa [parts] using ih)
  | _ => exact step _ (by simp [parts])

theorem parts_map {P : Value → Prop} (each : ∀ part ∈ (map entries).parts, P part) :
    ∀ entry ∈ entries, P entry.1 ∧ P entry.2 := by
  intro entry inside
  have within : ∀ part ∈ [entry.1, entry.2], part ∈ (map entries).parts :=
    fun part mem => mem_flatMap.mpr ⟨entry, inside, mem⟩
  exact ⟨each _ (within _ (by simp)), each _ (within _ (by simp))⟩

/-- The length of an array, map, slice or string. -/
def len : Value → Nat
  | string s => s.length
  | bytes b => b.length
  | byteArray b => b.length
  | slice elems => elems.length
  | array elems => elems.length
  | map entries => entries.length
  | _ => 0

def isNil : Value → Bool
  | nil => true
  | _ => false

mutual

/-- The equality of map keys. Pointers are equal when they are the same pointer;
the two sides here never share one. -/
def goEq : Value → Value → Bool
  | bool a, bool b => a == b
  | num a, num b => a == b
  | string a, string b => a == b
  | byteArray a, byteArray b => a == b
  | array as, array bs => goEqAll as bs
  | struct as, struct bs => goEqAll as bs
  | iface τ a, iface σ b => τ == σ && goEq a b
  | bigInt a, bigInt b => a == b
  | time a, time b => a == b
  | nil, nil => true
  | _, _ => false

def goEqAll : List Value → List Value → Bool
  | [], [] => true
  | a :: as, b :: bs => goEq a b && goEqAll as bs
  | _, _ => false

end

private theorem goEqAll_comm (each : ∀ elem ∈ left, ∀ other, goEq elem other = goEq other elem)
    (right : List Value) : goEqAll left right = goEqAll right left := by
  induction left generalizing right with
  | nil => cases right <;> rfl
  | cons a as ih =>
    rw [forall_mem_cons] at each
    cases right with
    | nil => rfl
    | cons b bs => rw [goEqAll, goEqAll, each.1 b, ih each.2 bs]

theorem goEq_comm : goEq left right = goEq right left := by
  induction left using Value.induction generalizing right with
  | array as ih =>
    cases right <;> simp only [goEq]
    exact goEqAll_comm ih _
  | struct as ih =>
    cases right <;> simp only [goEq]
    exact goEqAll_comm ih _
  | iface τ a ih =>
    cases right <;> simp only [goEq]
    rw [ih, Bool.beq_comm]
  | bool | num | string | byteArray | bigInt | time =>
    cases right <;> simp only [goEq]
    exact Bool.beq_comm
  | _ => cases right <;> simp [goEq]

end Value

end HiveGo
