import HiveGo.SerixMapDecode
import HiveGo.SerixValues

/-! The types that the round trip through maps speaks of, the keys that their values use, and
when a value has come back from it. -/
namespace HiveGo

open OrderedMap

mutual

/-- The second value is what is left of the first one after a round trip: nil slices and maps
may have become empty ones, and the entries of maps come in any order. -/
def Restored : Value → Value → Prop
  | .nil, other => other = .nil ∨ other = .bytes [] ∨ other = .slice [] ∨ other = .map []
  | .slice elems, .slice others => RestoredAll elems others
  | .array elems, .array others => RestoredAll elems others
  | .map entries, .map others =>
    ∃ arranged, arranged.Perm others ∧ RestoredEntries entries arranged
  | .ptr inner, .ptr other => Restored inner other
  | .struct values, .struct others => RestoredAll values others
  | .iface σ inner, .iface ρ other => ρ = σ ∧ Restored inner other
  | value, other => other = value

def RestoredAll : List Value → List Value → Prop
  | [], [] => True
  | value :: values, other :: others => Restored value other ∧ RestoredAll values others
  | _, _ => False

def RestoredEntries : List (Value × Value) → List (Value × Value) → Prop
  | [], [] => True
  | (key, elem) :: entries, (otherKey, otherElem) :: others =>
    (Restored key otherKey ∧ Restored elem otherElem) ∧ RestoredEntries entries others
  | _, _ => False

end

section

-- The equations of the family are generated here, once.
attribute [local simp] Restored RestoredAll RestoredEntries

end

theorem restoredAll_iff : RestoredAll values others ↔ List.Forall₂ Restored values others := by
  induction values generalizing others with
  | nil => cases others <;> simp [RestoredAll]
  | cons value values ih => cases others <;> simp [RestoredAll, ih]

theorem restoredEntries_iff : RestoredEntries entries others ↔
      List.Forall₂ (fun entry other => Restored entry.1 other.1 ∧ Restored entry.2 other.2)
        entries others := by
  induction entries generalizing others with
  | nil => cases others <;> simp [RestoredEntries]
  | cons entry entries ih => cases others <;> simp [RestoredEntries, ih]

namespace API

variable (api : API)

/-- The types whose values are encoded as the map of a struct. -/
def ObjectLike (τ : GoType) : Prop :=
  match api.shape τ with
  | .struct _ | .interface => True
  | .ptr elem =>
    match api.shape elem with
    | .struct _ => True
    | _ => False
  | _ => False

mutual

/-- A key that the map of an object may use. -/
inductive ObjectKey : TypeSettings → GoType → Bytes → Prop
  | code {ts : TypeSettings} {τ : GoType} (coded : ts.objectType ≠ none) : ObjectKey ts τ keyType
  | struct {ts : TypeSettings} {τ : GoType} {decls : List FieldDecl} {key : Bytes}
    (shaped : api.shape τ = .struct decls) (inside : FieldsKey τ key) : ObjectKey ts τ key
  | ptr {ts : TypeSettings} {τ elem : GoType} {key : Bytes} (shaped : api.shape τ = .ptr elem)
    (inside : FieldsKey elem key) : ObjectKey ts τ key
  | object {ts : TypeSettings} {τ σ : GoType} {objects : InterfaceObjects} {code : UInt32}
    {key : Bytes} (shaped : api.shape τ = .interface) (registered : api.interfaces τ = some objects)
    (known : objects.fromTypeToCode σ = some code)
    (inside : ObjectKey (api.settings {} σ) σ key) : ObjectKey ts τ key

/-- A key that the fields of a struct type may use. -/
inductive FieldsKey : GoType → Bytes → Prop
  | mk {σ : GoType} {fields : List StructField} {field : StructField} {key : Bytes}
    (parsed : api.getStructFields σ = .ok fields) (listed : field ∈ fields)
    (inside : FieldKey field key) : FieldsKey σ key

/-- A key that a field may use. -/
inductive FieldKey : StructField → Bytes → Prop
  | embedded {field : StructField} {key : Bytes}
    (isEmbedded : (field.isEmbedded && !field.settings.inlined) = true)
    (inside : FieldsKey (api.deRefPointer field.fType) key) : FieldKey field key
  | inlined {field : StructField} {key : Bytes} (isInlined : field.settings.inlined = true)
    (inside : ObjectKey (api.settings field.settings.ts field.fType) field.fType key) :
    FieldKey field key
  | own {field : StructField} (notEmbedded : (field.isEmbedded && !field.settings.inlined) = false)
    (notInlined : field.settings.inlined = false) : FieldKey field field.key

end

section Closure

variable (mem : TypeSettings → GoType → Prop) (structs : GoType → Prop)

/-- The object code does not share its key with a field. -/
def CodeApart (ts : TypeSettings) (σ : GoType) : Prop :=
  ts.objectType ≠ none → ¬ api.FieldsKey σ keyType

/-- The types of map keys that are encoded as strings. -/
def StringKey (key : GoType) : Prop :=
  match api.shape key with
  | .string | .num .int64 | .num .uint64 => True
  | .array _ elem => elem = .uint8
  | _ => False

/-- What a type is made of belongs to the universe. -/
def MapAdmits (ts : TypeSettings) (τ : GoType) : Prop :=
  match api.shape τ with
  | .bool | .num _ | .string => True
  | .bigInt | .time => False
  | .slice elem => ts.objectType = none ∧ (elem ≠ .uint8 → mem (api.settings {} elem) elem)
  | .map key elem =>
    api.StringKey key ∧ api.AdmitsPart mem key ∧ api.AdmitsPart mem elem ∧
      (∃ ts, api.getByValue key .nil = .ok ts) ∧ ∃ ts, api.getByValue elem .nil = .ok ts
  | .array _ elem => elem = .uint8 ∧ ts.objectType = none
  | .ptr elem =>
    τ = .ptr .bigInt ∨
      match api.shape elem with
      | .struct _ => structs elem ∧ api.CodeApart ts elem
      | .array _ _ | .bigInt | .time => False
      | _ => True
  | .struct _ => structs τ ∧ api.CodeApart ts τ
  | .interface =>
    ts.objectType = none ∧ ∀ objects, api.interfaces τ = some objects →
        ∀ σ code, objects.fromTypeToCode σ = some code →
          (∃ elem decls, api.shape σ = .ptr elem ∧ api.shape elem = .struct decls) ∧
            mem (api.settings {} σ) σ

/-- An embedded struct can be set, an inlined field has no key, is never left out and is
encoded as the map of a struct, and every other field has a type of its own. -/
def MapAdmitsField (field : StructField) : Prop :=
  if field.isEmbedded && !field.settings.inlined then
    structs (api.deRefPointer field.fType) ∧
      ((api.shape field.fType).isPtr = true → field.isUnexported = false)
  else
    mem (api.settings field.settings.ts field.fType) field.fType ∧
      (field.settings.inlined = true → field.settings.fieldKey = none ∧
        field.settings.isOptional = false ∧ field.settings.omitEmpty = false ∧
        api.ObjectLike field.fType)

end Closure

/-- A set of types with their settings, and of struct types, closed under taking a type apart.
No two fields of a struct use the same key. -/
structure MapUniverse where
  mem : TypeSettings → GoType → Prop
  structs : GoType → Prop
  mem_closed : ∀ {ts τ}, mem ts τ → api.MapAdmits mem structs ts τ
  structs_shape : ∀ {σ}, structs σ → ∃ decls, api.shape σ = .struct decls
  structs_parsed : ∀ {σ}, structs σ → ∃ fields, api.getStructFields σ = .ok fields
  structs_closed : ∀ {σ fields}, structs σ → api.getStructFields σ = .ok fields →
    ∀ field ∈ fields, api.MapAdmitsField mem structs field
  keys_apart : ∀ {σ fields}, structs σ → api.getStructFields σ = .ok fields →
    fields.Pairwise fun first second => ∀ key, api.FieldKey first key → ¬ api.FieldKey second key

mutual

/-- Every big integer in the value is an unsigned one of 256 bits and every embedded pointer
is set, as far as they are not left out. -/
def Whole : Value → GoType → Prop
  | .bigInt n, _ => 0 ≤ n ∧ n < 2 ^ 256
  | .slice elems, τ =>
    match api.shape τ with
    | .slice elem => WholeAll elems elem
    | _ => True
  | .map entries, τ =>
    match api.shape τ with
    | .map key elem => WholeEntries entries key elem
    | _ => True
  | .ptr inner, τ => Whole inner (api.deRefPointer τ)
  | .struct values, τ =>
    match api.getStructFields τ with
    | .ok fields => WholeFields values fields
    | _ => True
  | .iface σ inner, _ => Whole inner σ
  | _, _ => True

def WholeAll : List Value → GoType → Prop
  | [], _ => True
  | value :: values, elem => Whole value elem ∧ WholeAll values elem

def WholeEntries : List (Value × Value) → GoType → GoType → Prop
  | [], _, _ => True
  | (keyValue, elemValue) :: entries, key, elem =>
    (Whole keyValue key ∧ Whole elemValue elem) ∧ WholeEntries entries key elem

def WholeFields : List Value → List StructField → Prop
  | value :: values, field :: fields =>
    (if field.isEmbedded && !field.settings.inlined then value ≠ .nil ∧ Whole value field.fType
      else if leftOut field value then True
      else Whole value field.fType) ∧ WholeFields values fields
  | _, _ => True

end

section

-- The equations of the family are generated here, once.
attribute [local simp] Whole WholeAll WholeEntries WholeFields

end

variable {api}

theorem wholeAll_iff : api.WholeAll elems elem ↔ ∀ value ∈ elems, api.Whole value elem := by
  induction elems with
  | nil => simp [WholeAll]
  | cons value values ih => simp [WholeAll, ih]

theorem wholeEntries_iff : api.WholeEntries entries key elem ↔
      ∀ entry ∈ entries, api.Whole entry.1 key ∧ api.Whole entry.2 elem := by
  induction entries with
  | nil => simp [WholeEntries]
  | cons entry entries ih => simp [WholeEntries, ih]

end API

end HiveGo
