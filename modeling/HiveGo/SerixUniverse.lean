import HiveGo.SerixFormat

/-! The types that the results about the binary format speak of. Types may be recursive, so a
universe is a set of types that is closed under taking them apart. -/
namespace HiveGo

namespace API

variable (api : API)

/-- A length prefix that the writer and the reader implement. -/
def Prefixed (ts : TypeSettings) : Prop :=
  ∀ lenType, ts.lengthPrefixType = some lenType → lenType ≠ .asUint64

section Closure

variable (mem : TypeSettings → GoType → Prop) (structs : GoType → Prop)

/-- A type of the keys or of the elements of a map, with the settings that are looked up
on its zero value. -/
def AdmitsPart (σ : GoType) : Prop :=
  ∀ ts, api.getByValue σ .nil = .ok ts → mem (api.settings ts σ) σ

/-- What a type is made of belongs to the universe. -/
def Admits (ts : TypeSettings) (τ : GoType) : Prop :=
  match api.shape τ with
  | .bool | .num _ | .time => True
  | .bigInt => False
  | .string => Prefixed ts
  | .slice elem => Prefixed ts ∧ (elem ≠ .uint8 → mem (api.settings {} elem) elem)
  | .map key elem => Prefixed ts ∧ api.AdmitsPart mem key ∧ api.AdmitsPart mem elem
  | .array _ elem => elem = .uint8
  | .ptr elem => τ = .ptr .bigInt ∨ mem (api.pointed ts elem) elem
  | .struct _ => structs τ
  | .interface =>
    ∀ objects, api.interfaces τ = some objects →
      ∀ code σ, objects.fromCodeToType code = some σ → mem (api.settings ts σ) σ

/-- The fields of an embedded struct belong to the struct around it; every other field
has a type of its own. -/
def AdmitsField (field : StructField) : Prop :=
  if field.isEmbedded && !field.settings.inlined then structs (api.deRefPointer field.fType)
  else mem (api.settings field.settings.ts field.fType) field.fType

end Closure

/-- A set of types with their settings, and of struct types, closed under taking a type
apart. -/
structure Universe where
  mem : TypeSettings → GoType → Prop
  structs : GoType → Prop
  mem_closed : ∀ {ts τ}, mem ts τ → api.Admits mem structs ts τ
  structs_shape : ∀ {σ}, structs σ → ∃ fields, api.shape σ = .struct fields
  structs_closed : ∀ {σ fields}, structs σ → api.getStructFields σ = .ok fields →
    ∀ field ∈ fields, api.AdmitsField mem structs field

theorem ne_time {api : API} (shape : api.shape σ = .struct decls) : σ ≠ .time := by
  rintro rfl
  cases shape

/-- A struct that is taken apart is none of the structs of the standard library. -/
theorem structValue_eq {api : API} {σ : GoType} (shape : api.shape σ = .struct decls)
    (values : List Value) : structValue σ values = .struct values := by
  unfold structValue
  split
  · cases shape
  · cases shape
  · rfl

/-- The types that are written with an object code in front of them, if they have one:
structs, byte arrays and pointers to these. -/
def WritesCode (σ : GoType) : Prop :=
  match api.shape σ with
  | .struct _ => True
  | .array _ elem => elem = .uint8
  | .ptr elem =>
    σ ≠ .ptr .bigInt ∧
      match api.shape elem with
      | .struct _ => True
      | .array _ item => item = .uint8
      | _ => False
  | _ => False

/-- The code of a type that its registered settings give. -/
def registeredCode (σ : GoType) : Option (TypeDenotationType × UInt32) :=
  (api.getByType σ).bind fun ts => ts.objectType.map ObjectType.typeDenAndCode

/-- The interfaces know their objects by the codes that are in the settings of the objects. -/
def Consistent : Prop :=
  ∀ τ objects code σ, api.interfaces τ = some objects → objects.fromCodeToType code = some σ →
    objects.fromTypeToCode σ = some code ∧ api.registeredCode σ = some (objects.typeDen, code)

/-- The objects of the interfaces can be told apart by what is written for them. -/
structure Coded {api : API} (world : api.Universe) : Prop where
  consistent : api.Consistent
  unset : ∀ {ts τ}, world.mem ts τ → api.shape τ = .interface → ts.objectType = none
  writes : ∀ {ts τ objects code σ}, world.mem ts τ → api.shape τ = .interface →
    api.interfaces τ = some objects → objects.fromCodeToType code = some σ → api.WritesCode σ

/-- The settings of the keys and of the elements of maps can be looked up on zero values,
which fails for an interface, and for a pointer type without settings of its own. -/
def PartsFound {api : API} (world : api.Universe) : Prop :=
  ∀ {ts τ key elem}, world.mem ts τ → api.shape τ = .map key elem →
    (∃ ts, api.getByValue key .nil = .ok ts) ∧ ∃ ts, api.getByValue elem .nil = .ok ts

end API

namespace Value

mutual

/-- The nesting of a value. -/
def height : Value → Nat
  | slice elems => heightAll elems + 1
  | array elems => heightAll elems + 1
  | map entries => heightEntries entries + 1
  | ptr elem => height elem + 1
  | struct fields => heightAll fields + 1
  | iface _ elem => height elem + 1
  | _ => 0

def heightAll : List Value → Nat
  | [] => 0
  | value :: values => max (height value) (heightAll values)

def heightEntries : List (Value × Value) → Nat
  | [] => 0
  | (key, elem) :: entries => max (max (height key) (height elem)) (heightEntries entries)

end

end Value

end HiveGo
