import HiveGo.SerixDecode
import HiveGo.DeserializerReads

/-! The binary format as a relation between values and byte strings. It says which byte strings
stand for a value of a type; encoder and decoder are related to it separately. -/
namespace HiveGo
open LittleEndian Deserializer

namespace API

variable (api : API) (opts : Options)

/-- The object code in front of a value, if its settings have one. -/
def codeBytes (ts : TypeSettings) : Bytes :=
  match ts.objectType with
  | some objectType => objectType.bytes
  | none => []

/-- The bytes of an object type are those of its code. -/
theorem codePiece_objectType (objectType : ObjectType) :
    codePiece objectType.typeDenAndCode.1 objectType.typeDenAndCode.2 =
      objectType.bytes := by
  cases objectType with
  | uint8 code =>
    simp [codePiece, ObjectType.typeDenAndCode, ObjectType.bytes, put]
  | uint32 code => rfl

/-- `b` is a length prefix for `count` followed by `body`. -/
def Counted (ts : TypeSettings) (count : Nat) (body b : Bytes) : Prop :=
  ∃ lenType size, ts.lengthPrefixType = some lenType ∧ lenType.size = some size ∧
    count < 256 ^ size ∧ b = put size count ++ body

/-- A length within bounds that are set when positive. -/
def InBounds (bounds : Int × Int) (length : Nat) : Prop :=
  Serializer.tooLong length bounds.2 = false ∧ Serializer.tooShort length bounds.1 = false

/-- `b` is a collection of elements that are spelled by `data`. -/
def Collection (ts : TypeSettings) (data : List Bytes) (b : Bytes) : Prop :=
  Counted ts data.length data.flatten b ∧
    (opts.validation = true → ts.rules.checkBounds data.length = .ok () ∧
      ∃ seen, ts.rules.validateElements {} 0 (data.map some) = .ok seen)

/-- The keys of a map: comparable, and no two of them equal. -/
def DistinctKeys (key : GoType) (entries : List (Value × Value)) : Prop :=
  (∀ entry ∈ entries, api.hashable entry.1 key = true) ∧
    entries.Pairwise fun first second => Value.goEq first.1 second.1 = false

/-- The settings under which the element of a pointer is read. Simple kinds and further
pointers merge their own. -/
def pointed (ts : TypeSettings) (elem : GoType) : TypeSettings :=
  match api.shape elem with
  | .ptr _ | .string | .bool | .num _ => api.settings ts elem
  | _ => ts

mutual

/-- `b` stands for the value, whose type has the settings `ts`. -/
def Denotes : Value → TypeSettings → GoType → Bytes → Prop
  | value, ts, τ, b =>
    match api.shape τ, value with
    | .bool, .bool v => b = [if v then 1 else 0]
    | .num kind, .num n => kind.Holds n ∧ b = put kind.size (kind.toWord n)
    | .string, .string s =>
      Counted ts s.length s b ∧
        (opts.validation = true → InBounds ts.minMaxLen s.length ∧ validUTF8 s = true)
    | .slice elem, .bytes s =>
      elem = .uint8 ∧ Counted ts s.length s b ∧ InBounds ts.minMaxLen s.length
    | .slice elem, .slice elems =>
      elem ≠ .uint8 ∧ (∃ data, DenotesElems elems elem data ∧ Collection opts ts data b) ∧
        (opts.validation = true → api.checkArrayMustOccur ts elem elems = .ok ())
    | .map key elem, .map entries =>
      (∃ data, DenotesEntries entries key elem data ∧ Collection opts ts.ensureOrdering data b) ∧
        api.DistinctKeys key entries ∧
        (opts.validation = true → api.checkMinMaxBounds ts.ensureOrdering τ (.map entries) = .ok ())
    | .array length elem, .byteArray s => elem = .uint8 ∧ s.length = length ∧ b = codeBytes ts ++ s
    | .ptr elem, .ptr inner =>
      if τ = .ptr .bigInt then
        ∃ n : Nat, inner = .bigInt n ∧ n < 256 ^ 32 ∧ b = put 32 n
      else Denotes inner (api.pointed ts elem) elem b
    | .struct _, .struct values =>
      ∃ fields body, api.getStructFields τ = .ok fields ∧ b = codeBytes ts ++ body ∧
        DenotesFields values fields body
    | .time, .time t =>
      ∃ word, word < 256 ^ 8 ∧ t = timeOfNanoseconds word ∧ b = put 8 word
    | .interface, .iface σ inner =>
      (∃ objects code, api.interfaces τ = some objects ∧ objects.fromCodeToType code = some σ) ∧
        Denotes inner (api.settings ts σ) σ b
    | _, _ => False

/-- `b` stands for the fields of a struct. -/
def DenotesFields : List Value → List StructField → Bytes → Prop
  | [], [], b => b = []
  | value :: values, field :: fields, b =>
    ∃ first later, b = first ++ later ∧ DenotesFields values fields later ∧
      if field.isEmbedded && !field.settings.inlined then
        DenotesEmbedded value field.isUnexported field.fType first
      else if field.settings.isOptional then
        (value = .nil ∧ first = put 4 0) ∨
          ∃ body, first = put 4 body.length ++ body ∧ 0 < body.length ∧ body.length < 256 ^ 4 ∧
            Denotes value (api.settings field.settings.ts field.fType) field.fType body
      else Denotes value (api.settings field.settings.ts field.fType) field.fType first
  | _, _, _ => False

/-- `b` stands for an embedded struct, or for what an embedded pointer points to. -/
def DenotesEmbedded : Value → Bool → GoType → Bytes → Prop
  | value, isUnexported, τ, b =>
    match api.shape τ, value with
    | .ptr elem, .ptr inner => isUnexported = false ∧ (api.shape elem).isPtr = false ∧
        DenotesEmbedded inner isUnexported elem b
    | .struct _, .struct values => ∃ fields, api.getStructFields τ = .ok fields ∧
        DenotesFields values fields b
    | _, _ => False

/-- Each byte string stands for the element at its place. -/
def DenotesElems : List Value → GoType → List Bytes → Prop
  | [], _, [] => True
  | value :: values, elem, b :: data =>
    Denotes value (api.settings {} elem) elem b ∧ DenotesElems values elem data
  | _, _, _ => False

/-- Each byte string stands for the key and the element of the entry at its place. -/
def DenotesEntries : List (Value × Value) → GoType → GoType → List Bytes → Prop
  | [], _, _, [] => True
  | (keyValue, elemValue) :: entries, key, elem, b :: data =>
    (∃ keyBytes elemBytes keySettings elemSettings, b = keyBytes ++ elemBytes ∧
      api.getByValue key .nil = .ok keySettings ∧ api.getByValue elem .nil = .ok elemSettings ∧
      Denotes keyValue (api.settings keySettings key) key keyBytes ∧
      Denotes elemValue (api.settings elemSettings elem) elem elemBytes) ∧
      DenotesEntries entries key elem data
  | _, _, _, _ => False

end

section

-- The equations of the family are generated here, once.
attribute [local simp] Denotes DenotesFields DenotesEmbedded DenotesElems DenotesEntries

end

/-- `b` stands for one field of a struct. -/
def DenotesField (value : Value) (field : StructField) (b : Bytes) : Prop :=
  if field.isEmbedded && !field.settings.inlined then
    api.DenotesEmbedded opts value field.isUnexported field.fType b
  else if field.settings.isOptional then
    (value = .nil ∧ b = put 4 0) ∨ ∃ body, b = put 4 body.length ++ body ∧ 0 < body.length ∧
        body.length < 256 ^ 4 ∧
        api.Denotes opts value (api.settings field.settings.ts field.fType) field.fType body
  else api.Denotes opts value (api.settings field.settings.ts field.fType) field.fType b

variable {api opts} in
theorem denotesFields_cons : api.DenotesFields opts (value :: values) (field :: fields) b ↔
      ∃ first later, b = first ++ later ∧ api.DenotesFields opts values fields later ∧
        api.DenotesField opts value field first := by
  rfl

variable {api opts} in
theorem denotesElems_iff : api.DenotesElems opts elems elem data ↔
      List.Forall₂ (fun value b => api.Denotes opts value (api.settings {} elem) elem b) elems data := by
  induction elems generalizing data with
  | nil => cases data <;> simp [DenotesElems]
  | cons value elems ih => cases data <;> simp [DenotesElems, ih]

/-- `b` stands for the key and the element of one entry of a map. -/
def DenotesEntry (key elem : GoType) (entry : Value × Value) (b : Bytes) : Prop :=
  ∃ keyBytes elemBytes keySettings elemSettings, b = keyBytes ++ elemBytes ∧
    api.getByValue key .nil = .ok keySettings ∧ api.getByValue elem .nil = .ok elemSettings ∧
    api.Denotes opts entry.1 (api.settings keySettings key) key keyBytes ∧
    api.Denotes opts entry.2 (api.settings elemSettings elem) elem elemBytes

variable {api opts} in
theorem denotesEntries_iff : api.DenotesEntries opts entries key elem data ↔
      List.Forall₂ (api.DenotesEntry opts key elem) entries data := by
  induction entries generalizing data with
  | nil => cases data <;> simp [DenotesEntries]
  | cons entry entries ih =>
    cases data with
    | nil => simp [DenotesEntries]
    | cons b data => rw [DenotesEntries, List.forall₂_cons, ih, DenotesEntry]

variable {api opts} in
/-- Embedded are a struct, and a pointer to one. -/
theorem embedded_cases (spelt : api.DenotesEmbedded opts value isUnexported τ b) :
    (∃ elem inner, api.shape τ = .ptr elem ∧ value = .ptr inner ∧ isUnexported = false ∧
      (api.shape elem).isPtr = false ∧ api.DenotesEmbedded opts inner isUnexported elem b) ∨
    ∃ decls values fields, api.shape τ = .struct decls ∧ value = .struct values ∧
      api.getStructFields τ = .ok fields ∧ api.DenotesFields opts values fields b := by
  unfold DenotesEmbedded at spelt
  split at spelt
  · rename_i elem inner shape
    exact .inl ⟨elem, inner, shape, rfl, spelt⟩
  · rename_i decls values shape
    obtain ⟨fields, parsed, spelt⟩ := spelt
    exact .inr ⟨decls, values, fields, shape, rfl, parsed, spelt⟩
  · exact spelt.elim

/-- The ways in which bytes stand for a value whose type has the settings `ts`. -/
inductive Form (ts : TypeSettings) (τ : GoType) : Value → Bytes → Prop
  | bool (shaped : api.shape τ = .bool) (v : Bool) : Form ts τ (.bool v) [if v then 1 else 0]
  | num (shaped : api.shape τ = .num kind) (held : kind.Holds n) :
    Form ts τ (.num n) (put kind.size (kind.toWord n))
  | string (shaped : api.shape τ = .string) (counted : Counted ts s.length s b)
    (valid : opts.validation = true → InBounds ts.minMaxLen s.length ∧ validUTF8 s = true) :
    Form ts τ (.string s) b
  | bytes (shaped : api.shape τ = .slice .uint8) (counted : Counted ts s.length s b)
    (inside : InBounds ts.minMaxLen s.length) : Form ts τ (.bytes s) b
  | slice (shaped : api.shape τ = .slice elem) (notBytes : elem ≠ .uint8)
    (formatted : api.DenotesElems opts elems elem data) (collection : Collection opts ts data b)
    (occur : opts.validation = true → api.checkArrayMustOccur ts elem elems = .ok ()) :
    Form ts τ (.slice elems) b
  | map (shaped : api.shape τ = .map key elem)
    (formatted : api.DenotesEntries opts entries key elem data)
    (collection : Collection opts ts.ensureOrdering data b)
    (distinct : api.DistinctKeys key entries)
    (bounded : opts.validation = true →
      api.checkMinMaxBounds ts.ensureOrdering τ (.map entries) = .ok ()) : Form ts τ (.map entries) b
  | byteArray (shaped : api.shape τ = .array s.length .uint8) :
    Form ts τ (.byteArray s) (codeBytes ts ++ s)
  | uint256 {n : Nat} (number : τ = .ptr .bigInt) (small : n < 256 ^ 32) :
    Form ts τ (.ptr (.bigInt n)) (put 32 n)
  | ptr {inner : Value} (shaped : api.shape τ = .ptr elem) (other : τ ≠ .ptr .bigInt)
    (formatted : api.Denotes opts inner (api.pointed ts elem) elem b) : Form ts τ (.ptr inner) b
  | struct (shaped : api.shape τ = .struct decls) (parsed : api.getStructFields τ = .ok fields)
    (formatted : api.DenotesFields opts values fields body) :
    Form ts τ (.struct values) (codeBytes ts ++ body)
  | time (shaped : api.shape τ = .time) (small : word < 256 ^ 8) :
    Form ts τ (.time (timeOfNanoseconds word)) (put 8 word)
  | iface {inner : Value} (shaped : api.shape τ = .interface) (registered : api.interfaces τ = some objects)
    (known : objects.fromCodeToType code = some σ)
    (formatted : api.Denotes opts inner (api.settings ts σ) σ b) : Form ts τ (.iface σ inner) b

variable {api opts} in
theorem form (spelt : api.Denotes opts value ts τ b) : api.Form opts ts τ value b := by
  unfold Denotes at spelt
  split at spelt
  · next v shape => exact spelt ▸ .bool shape v
  · next shape => exact spelt.2 ▸ .num shape spelt.1
  · next shape => exact .string shape spelt.1 spelt.2
  · next shape => exact .bytes (spelt.1 ▸ shape) spelt.2.1 spelt.2.2
  · next shape =>
    obtain ⟨notBytes, ⟨data, spelt, collection⟩, occur⟩ := spelt
    exact .slice shape notBytes spelt collection occur
  · next shape =>
    obtain ⟨⟨data, spelt, collection⟩, distinct, bounded⟩ := spelt
    exact .map shape spelt collection distinct bounded
  · next shape =>
    obtain ⟨rfl, rfl, rfl⟩ := spelt
    exact .byteArray shape
  · next shape =>
    split at spelt
    · next num =>
      obtain ⟨n, rfl, small, rfl⟩ := spelt
      exact .uint256 num small
    · next other => exact .ptr shape other spelt
  · next shape =>
    obtain ⟨fields, body, parsed, rfl, spelt⟩ := spelt
    exact .struct shape parsed spelt
  · next shape =>
    obtain ⟨word, small, rfl, rfl⟩ := spelt
    exact .time shape small
  · next shape =>
    obtain ⟨⟨objects, code, registered, known⟩, spelt⟩ := spelt
    exact .iface shape registered known spelt
  · exact spelt.elim

variable {api opts} in
theorem Form.denotes (form : api.Form opts ts τ value b) : api.Denotes opts value ts τ b := by
  unfold Denotes
  cases form with
  | uint256 number small =>
    subst number
    exact (if_pos rfl).mpr ⟨_, rfl, small, rfl⟩
  | ptr shape other spelt =>
    simp only [shape]
    exact (if_neg other).mpr spelt
  | bool shape => simp only [shape]
  | num shape | string shape | bytes shape | byteArray shape =>
    simp only [shape]
    trivial
  | time shape small =>
    simp only [shape]
    exact ⟨_, small, rfl, rfl⟩
  | slice shape | map shape | struct shape | iface shape =>
    simp only [shape]
    grind

end API

end HiveGo
