import HiveGo.Hexutil
import HiveGo.SerixElements
import HiveGo.SerixEncode

/-! Encoding into ordered maps. The value drives the recursion as in the binary format, but the
fields of embedded and of inlined structs are set in the map of the struct around them. -/
namespace HiveGo

open OrderedMap

/-- What the map format takes from elsewhere: the hexadecimal codec, what the conversion of a
number to an integer type gives for a number that is not one of the type, and what `fmt` prints
with `%d`. -/
structure Platform where
  encode : Bytes → Bytes
  decode : Bytes → Except HexError Bytes
  encodeBig : Int → Bytes
  decodeBig : Bytes → Except HexError Int
  outOfRange : (kind : NumKind) → Float64 → { n : Int // kind.Holds n }
  sprintf : Any → String

/-- The codec is a correct one. Integers have up to 256 bits. -/
structure Platform.Correct (platform : Platform) : Prop where
  decode_encode : ∀ b, platform.decode (platform.encode b) = .ok b
  decode_empty : platform.decode [] = .error .errEmptyString
  decodeBig_encodeBig : ∀ n, 0 ≤ n → n < 2 ^ 256 → platform.decodeBig (platform.encodeBig n) = .ok n

/-- The key under which the object code is written. -/
def keyType : Bytes := [116, 121, 112, 101]

/-- The key used when no key is defined for types which are slices or arrays of bytes. -/
def keyDefaultSliceArray : Bytes := [100, 97, 116, 97]

/-- `strings.ReplaceAll`, with the number of bytes still to be skipped. -/
def replaceAll (old new : Bytes) : Nat → Bytes → Bytes
  | _, [] => []
  | skip + 1, _ :: rest => replaceAll old new skip rest
  | 0, byte :: rest =>
    if old.isPrefixOf (byte :: rest) then new ++ replaceAll old new (old.length - 1) rest
    else byte :: replaceAll old new 0 rest

/-- `strings.ToLower` of a single byte. A byte of a longer character is not one by itself and
becomes the replacement character. -/
def lowerByte (byte : UInt8) : Bytes :=
  if 65 ≤ byte.toNat ∧ byte.toNat ≤ 90 then [byte + 32]
  else if 128 ≤ byte.toNat then [0xEF, 0xBF, 0xBD]
  else [byte]

/-- The keywords `ID`, `NFT`, `URL` and `HRP` with what they are replaced by. -/
def keywords : List (Bytes × Bytes) :=
  [([73, 68], [73, 100]), ([78, 70, 84], [78, 102, 116]), ([85, 82, 76], [85, 114, 108]),
    ([72, 82, 80], [72, 114, 112])]

/-- The name of a field in camel case. A field has a name, so the empty string does not
occur. -/
def fieldKeyString (str : Bytes) : Bytes :=
  match keywords.foldl (fun str keyword => replaceAll keyword.1 keyword.2 0 str) str with
  | [] => []
  | first :: rest => lowerByte first ++ rest

/-- The key of a field that is neither embedded nor inlined. -/
def StructField.key (field : StructField) : Bytes :=
  field.settings.fieldKey.getD (fieldKeyString field.name)

namespace Value

mutual

/-- `reflect.Value.IsZero`. -/
def isZero : Value → Bool
  | bool b => !b
  | num n => n == 0
  | string s => s.isEmpty
  | byteArray b => b.all (· == 0)
  | array elems => allZero elems
  | struct fields => allZero fields
  | nil => true
  | bigInt n => n == 0
  | time t => t == ⟨-62135596800, 0⟩
  | bytes _ | slice _ | map _ | ptr _ | iface _ _ => false

def allZero : List Value → Bool
  | [] => true
  | value :: values => isZero value && allZero values

end

/-- A slice of length zero is empty, too. -/
def isValueEmpty (value : Value) : Bool :=
  value.isZero ||
    match value with
    | bytes b => b.isEmpty
    | slice elems => elems.isEmpty
    | _ => false

end Value

namespace API

variable (platform : Platform) (api : API) (opts : Options)

def encodeHex (b : Bytes) : Bytes := if b.isEmpty then [] else platform.encode b

/-- `reflect.Value.Bytes` of a slice that is not a `[]byte`: its elements have to be of the
same kind. -/
def sliceBytes (elem : GoType) (elems : List Value) : Outcome Err Bytes :=
  match api.shape elem with
  | .num .uint8 =>
    .ok (elems.map fun value => match value with | .num n => UInt8.ofNat n.toNat | _ => 0)
  | _ => .panicked

/-- A slice or array with an object code. -/
def mapEncodeCoded (objectType : ObjectType) (ts : TypeSettings) (b : Bytes) : Ele :=
  .object (set (ts.fieldKey.getD keyDefaultSliceArray) (.string (encodeHex platform b))
    (set keyType (.code objectType) []))

/-- A slice of bytes. -/
def mapEncodeBytes (ts : TypeSettings) (b : Bytes) : Outcome Err Ele :=
  match ts.objectType with
  | some objectType => .ok (mapEncodeCoded platform objectType ts b)
  | none => do
    if opts.validation then
      (ts.checkMinMaxBoundsLength b.length).mapErr (.wrap · "can't serialize 'slice' type")
    return .string (encodeHex platform b)

/-- A slice of anything but bytes, given what encodes its elements. -/
def mapEncodeObjects (ts : TypeSettings) (elem : GoType) (elems : List Value)
    (encodeElems : Outcome Err (List Ele)) : Outcome Err Ele :=
  match ts.objectType with
  | some objectType => do
    let b ← api.sliceBytes elem elems
    return mapEncodeCoded platform objectType ts b
  | none => do
    if opts.validation then
      (ts.checkMinMaxBoundsLength elems.length).mapErr (.wrap · "can't serialize 'slice' type")
    if opts.validation then
      (api.checkArrayMustOccur ts elem elems).mapErr (.wrap · "can't serialize 'slice' type")
    let data ← encodeElems
    return .list data

/-- A map, given what sets its entries. -/
def mapEncodeMap (τ : GoType) (value : Value) (ts : TypeSettings)
    (encodeEntries : Outcome Err (List (Bytes × Ele))) : Outcome Err Ele := do
  if opts.validation then api.checkMinMaxBounds ts τ value
  let m ← encodeEntries
  return .object m

def mapEncodeString (ts : TypeSettings) (str : Bytes) : Outcome Err Ele := do
  if opts.validation then
    (ts.checkMinMaxBoundsLength str.length).mapErr (.wrap · "can't serialize 'string' type")
  if opts.validation && !validUTF8 str then .err (.sentinel .errNonUTF8String)
  else return .string str

/-- Integers of 64 bits are strings, smaller ones are numbers. -/
def mapEncodeNum (kind : NumKind) (n : Int) : Ele :=
  match kind with
  | .int64 => .string (Strconv.formatInt n)
  | .uint64 => .string (Strconv.formatUint n.toNat)
  | _ => .int n

def mapEncodeTime (t : Time) : Ele := .string (Strconv.formatUint t.toUint64)

/-- The map of a struct begins with the object code, if one is set. -/
def mapEncodeStruct (τ : GoType) (ts : TypeSettings)
    (encodeFields : List (Bytes × Ele) → List StructField → Outcome Err (List (Bytes × Ele))) :
    Outcome Err Ele := do
  let name := τ.str
  let obj :=
    match ts.objectType with
    | some objectType => set keyType (.code objectType) []
    | none => []
  let fields ← (api.getStructFields τ).mapErr (.wrap · s!"can't parse struct type {name}")
  let obj ← encodeFields obj fields
  return .object obj

/-- The element of an interface value has the settings of its own type. -/
def mapEncodeInterface (τ σ : GoType) (encodeElem : TypeSettings → Outcome Err Ele) :
    Outcome Err Ele :=
  api.encodeInterface τ σ (encodeElem ((api.getByType σ).getD {}))

/-- Set what was encoded for a field. A field key comes before the inlining. -/
def setField (obj : List (Bytes × Ele)) (field : StructField) (eleOut : Ele) :
    Outcome Err (List (Bytes × Ele)) :=
  match field.settings.fieldKey with
  | some fieldKey => .ok (set fieldKey eleOut obj)
  | none =>
    if field.settings.inlined then
      match eleOut with
      | .object entries => .ok (setAll obj entries)
      | _ =>
        let name := spell field.name
        .err (.text s!"failed to cast inlined struct field {name} to map")
    else .ok (set (fieldKeyString field.name) eleOut obj)

/-- A field that is left out. -/
def leftOut (field : StructField) (value : Value) : Bool :=
  (field.settings.omitEmpty && value.isValueEmpty) || (field.settings.isOptional && value.isNil)

mutual

/-- `mapEncodeBasedOnType`; there are no types that encode themselves. -/
def mapEncode : Value → TypeSettings → GoType → Outcome Err Ele
  | value, given, τ =>
    let ts := api.settings given τ
    match api.shape τ, value with
    | .ptr _, .nil =>
      let name := τ.str
      if τ = .ptr .bigInt then .panicked
      else .err (.text s!"unexpected nil pointer for type {name}")
    | .ptr elem, .ptr inner =>
      if τ = .ptr .bigInt then
        match inner with
        | .bigInt n => .ok (.string (platform.encodeBig n))
        | _ => unsupported τ
      else
        match api.shape elem, inner with
        | .struct _, .struct values => api.mapEncodeStruct elem ts (mapEncodeStructFields values)
        | .time, .time t => .ok (mapEncodeTime t)
        | .bigInt, .bigInt _ => api.mapEncodeStruct elem ts fun obj _ => .ok obj
        | .array _ item, .byteArray b =>
          if item = .uint8 then mapEncodeBytes platform opts ((api.getByType τ).getD {}) b
          else unsupported τ
        | .array _ item, .array elems =>
          api.mapEncodeObjects platform opts ((api.getByType τ).getD {}) item elems
            (mapEncodeElems elems (.slice item) item 0)
        | _, _ => unsupported τ
    | .struct _, .struct values => api.mapEncodeStruct τ ts (mapEncodeStructFields values)
    | .time, .time t => .ok (mapEncodeTime t)
    | .bigInt, .bigInt _ => api.mapEncodeStruct τ ts fun obj _ => .ok obj
    | .slice elem, .bytes b =>
      if elem = .uint8 then mapEncodeBytes platform opts ts b else unsupported τ
    | .slice elem, .nil =>
      if elem = .uint8 then mapEncodeBytes platform opts ts []
      else api.mapEncodeObjects platform opts ts elem [] (.ok [])
    | .slice elem, .slice elems =>
      if elem = .uint8 then unsupported τ
      else api.mapEncodeObjects platform opts ts elem elems (mapEncodeElems elems τ elem 0)
    | .map _ _, .nil => api.mapEncodeMap opts τ .nil ts (.ok [])
    | .map key elem, .map entries =>
      api.mapEncodeMap opts τ (.map entries) ts (mapEncodeEntries entries key elem [])
    | .array _ item, .byteArray b =>
      if item = .uint8 then mapEncodeBytes platform opts ts b else unsupported τ
    | .array _ item, .array elems =>
      api.mapEncodeObjects platform opts ts item elems (mapEncodeElems elems (.slice item) item 0)
    | .interface, .nil =>
      let name := τ.str
      .err (.text s!"can't serialize interface {name} it must have underlying value")
    | .interface, .iface σ inner => api.mapEncodeInterface τ σ (mapEncode inner · σ)
    | .string, .string str => mapEncodeString opts ts str
    | .bool, .bool b => .ok (.bool b)
    | .num kind, .num n => .ok (mapEncodeNum kind n)
    | _, _ => unsupported τ

/-- The fields of a struct value, next to the fields of its type. -/
def mapEncodeStructFields :
    List Value → List (Bytes × Ele) → List StructField → Outcome Err (List (Bytes × Ele))
  | value :: values, obj, field :: fields => do
    let name := spell field.name
    if field.isEmbedded && !field.settings.inlined then
      let obj ← (mapEncodeEmbedded value obj field.fType).mapErr
        (.wrap · s!"can't serialize embedded struct {name}")
      mapEncodeStructFields values obj fields
    else if leftOut field value then mapEncodeStructFields values obj fields
    else
      let eleOut ← (mapEncode value field.settings.ts field.fType).mapErr
        (.wrap · s!"failed to serialize optional struct field {name}")
      let obj ← setField obj field eleOut
      mapEncodeStructFields values obj fields
  | _, obj, _ => .ok obj

/-- The fields of an embedded struct are set in place; a nil embedded pointer is skipped. -/
def mapEncodeEmbedded : Value → List (Bytes × Ele) → GoType → Outcome Err (List (Bytes × Ele))
  | .struct values, obj, τ => do
    let name := τ.str
    let fields ← (api.getStructFields τ).mapErr (.wrap · s!"can't parse struct type {name}")
    mapEncodeStructFields values obj fields
  | .ptr inner, obj, τ => mapEncodeEmbedded inner obj (api.deRefPointer τ)
  | _, obj, _ => .ok obj

def mapEncodeElems : List Value → GoType → GoType → Nat → Outcome Err (List Ele)
  | [], _, _, _ => .ok []
  | value :: values, sliceType, elem, index => do
    let name := sliceType.str
    let first ← (mapEncode value {} elem).mapErr
      (.wrap · s!"failed to encode element with index {index} of slice {name}")
    let later ← mapEncodeElems values sliceType elem (index + 1)
    return first :: later

/-- The entries of a map. A key that is not encoded as a string does not pass the assertion
that it is one. -/
def mapEncodeEntries : List (Value × Value) → GoType → GoType → List (Bytes × Ele) →
    Outcome Err (List (Bytes × Ele))
  | [], _, _, m => .ok m
  | (key, elem) :: entries, keyType, elemType, m => do
    let keyTypeSettings ← api.getByValue keyType key
    let valueTypeSettings ← api.getByValue elemType elem
    let keyName := keyType.str
    let elemName := elemType.str
    let k ← (mapEncode key keyTypeSettings keyType).mapErr
      (.wrap · s!"failed to encode map key of type {keyName}")
    let v ← (mapEncode elem valueTypeSettings elemType).mapErr
      (.wrap · s!"failed to encode map element of type {elemName}")
    match k with
    | .string s => mapEncodeEntries entries keyType elemType (set s v m)
    | _ => .panicked

end

section

-- The equations of the family are generated here, once.
attribute [local simp] mapEncode mapEncodeStructFields mapEncodeEmbedded mapEncodeElems
  mapEncodeEntries

end

/-- `MapEncode` of a value of the type. -/
def mapEncodeTop (value : Value) (τ : GoType) : Outcome Err (List (Bytes × Ele)) := do
  match ← api.mapEncode platform opts value opts.ts τ with
  | .object m => return m
  | _ => .err (.text "failed to cast to *orderedmap.OrderedMap")

end API

end HiveGo
