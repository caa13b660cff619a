import HiveGo.SerixRegistry

/-! Binary encoding. The value drives the recursion; the type and the settings decide
what is written for it. -/
namespace HiveGo

/-- UTF-8 validity of a byte string, as the standard library defines it. -/
def validUTF8 : Bytes → Bool
  | [] => true
  | b0 :: rest =>
    let cont (low high : Nat) (b : UInt8) : Bool := low ≤ b.toNat && b.toNat ≤ high
    if b0.toNat < 0x80 then validUTF8 rest
    else
      match rest with
      | b1 :: rest =>
        if 0xC2 ≤ b0.toNat && b0.toNat ≤ 0xDF then cont 0x80 0xBF b1 && validUTF8 rest
        else
          match rest with
          | b2 :: rest =>
            if 0xE0 ≤ b0.toNat && b0.toNat ≤ 0xEF then
              cont (if b0.toNat = 0xE0 then 0xA0 else 0x80) (if b0.toNat = 0xED then 0x9F else 0xBF) b1
                && cont 0x80 0xBF b2 && validUTF8 rest
            else
              match rest with
              | b3 :: rest =>
                (0xF0 ≤ b0.toNat && b0.toNat ≤ 0xF4)
                  && cont (if b0.toNat = 0xF0 then 0x90 else 0x80)
                      (if b0.toNat = 0xF4 then 0x8F else 0xBF) b1
                  && cont 0x80 0xBF b2 && cont 0x80 0xBF b3 && validUTF8 rest
              | [] => false
          | [] => false
      | [] => false

namespace API

variable (api : API) (opts : Options)

/-- A writer that starts with the object code, if one is set. -/
def codeWriter (ts : TypeSettings) : Serializer :=
  match ts.objectType with
  | some objectType => ({} : Serializer).writeBytes objectType.bytes
  | none => {}

/-- A byte slice of length zero is what an unused buffer returns: nil. -/
def bufferBytes (b : Bytes) : Option Bytes := if b.isEmpty then none else some b

def encodeSliceOfBytes (data : List Bytes) (τ : GoType) (ts : TypeSettings) : Outcome Err Bytes :=
  let name := τ.str
  match ts.lengthPrefixType with
  | none => .err (.text s!"no LengthPrefixType was provided for type {name}")
  | some lenType => do
    let seri ← ({} : Serializer).writeSliceOfByteSlices (data.map bufferBytes) (ts.toMode opts)
      lenType ts.rules (.wrap · s!"serializer failed to write {name} as slice of bytes")
    seri.serialize

/-- A slice of anything but bytes, given what encodes its elements. -/
def encodeObjects (sliceType elem : GoType) (elems : List Value) (ts : TypeSettings)
    (encodeElems : Outcome Err (List Bytes)) : Outcome Err Bytes := do
  if opts.validation then
    (api.checkArrayMustOccur ts elem elems).mapErr (.wrap · "can't serialize 'slice' type")
  let data ← encodeElems
  encodeSliceOfBytes opts data sliceType ts

/-- A map, given what encodes its entries. -/
def encodeMap (τ : GoType) (value : Value) (ts : TypeSettings)
    (encodeEntries : Outcome Err (List Bytes)) : Outcome Err Bytes := do
  if opts.validation then api.checkMinMaxBounds ts τ value
  let data ← encodeEntries
  encodeSliceOfBytes opts data τ ts.ensureOrdering

def encodeBytes (τ : GoType) (ts : TypeSettings) (b : Bytes) : Outcome Err Bytes :=
  let name := τ.str
  match ts.lengthPrefixType with
  | none => .err (.text s!"no LengthPrefixType was provided for slice type {name}")
  | some lenType => do
    let seri ← ({} : Serializer).writeVariableByteSlice b lenType
      (.wrap · "failed to write bytes to serializer") ts.minMaxLen.1 ts.minMaxLen.2
    seri.serialize

def encodeString (ts : TypeSettings) (str : Bytes) : Outcome Err Bytes :=
  match ts.lengthPrefixType with
  | none => .err (.text "can't serialize 'string' type: no LengthPrefixType was provided")
  | some lenType =>
    if opts.validation && !validUTF8 str then
      .err (.wrap (.sentinel .errNonUTF8String) "can't serialize 'string' type")
    else do
      let (minLen, maxLen) := if opts.validation then ts.minMaxLen else (0, 0)
      let seri ← ({} : Serializer).writeString str lenType
        (.wrap · "failed to write string value to serializer") minLen maxLen
      seri.serialize

def encodeByteArray (ts : TypeSettings) (b : Bytes) : Outcome Err Bytes :=
  ((codeWriter ts).writeBytes b).serialize

def encodeBigInt (num : Option Int) : Outcome Err Bytes :=
  (({} : Serializer).writeUint256 num (.wrap · "failed to write math big int to serializer")).serialize

/-- A struct, given what writes its fields. -/
def encodeStruct (τ : GoType) (ts : TypeSettings)
    (encodeFields : Serializer → List StructField → Outcome Err Serializer) : Outcome Err Bytes := do
  let name := τ.str
  let fields ← (api.getStructFields τ).mapErr (.wrap · s!"can't parse struct type {name}")
  let seri ← encodeFields (codeWriter ts) fields
  seri.serialize

/-- The check of an interface value before its element is encoded. -/
def encodeInterface (τ σ : GoType) (encodeElem : Outcome Err α) : Outcome Err α :=
  let name := τ.str
  let elemName := σ.str
  match api.interfaces τ with
  | none => .err (.text s!"interface {name} isn't registered")
  | some objects =>
    match objects.fromTypeToCode σ with
    | none => .err (.wrap (.sentinel .errInterfaceUnderlyingTypeNotRegistered)
        s!"type: {elemName}, interface: {name}")
    | some _ => encodeElem.mapErr (.wrap · s!"failed to encode interface element {elemName}")

/-- A value of a type that serix does not encode. -/
def unsupported (τ : GoType) : Outcome Err α :=
  let name := τ.str
  .err (.text s!"can't encode: unsupported type {name}")

def nilPointer (τ : GoType) : Outcome Err Bytes :=
  let name := τ.str
  .err (.text s!"unexpected nil pointer for type {name}")

/-- Write one field that is not embedded. -/
def writeField (s : Serializer) (field : StructField) (isNil : Bool)
    (encodeValue : Outcome Err Bytes) : Outcome Err Serializer :=
  let name := spell field.name
  if field.settings.isOptional then
    if isNil then .ok (s.writePayloadLength 0)
    else do
      let fieldBytes ← encodeValue.mapErr
        (.wrap · s!"failed to serialize optional struct field {name}")
      return (s.writePayloadLength fieldBytes.length).writeBytes fieldBytes
  else do
    let fieldBytes ← encodeValue.mapErr (.wrap · s!"failed to serialize struct field {name}")
    return s.writeBytes fieldBytes

mutual

/-- `encodeBasedOnType`; there are no types that encode themselves. -/
def encode : Value → TypeSettings → GoType → Outcome Err Bytes
  | value, given, τ => do
    let ts := api.settings given τ
    if opts.validation then api.checkMinMaxBounds ts τ value
    match api.shape τ, value with
    | .ptr _, .nil => if τ = .ptr .bigInt then encodeBigInt none else nilPointer τ
    | .ptr elem, .ptr inner =>
      if τ = .ptr .bigInt then
        match inner with
        | .bigInt n => encodeBigInt (some n)
        | _ => unsupported τ
      else
        match api.shape elem, inner with
        | .array _ item, .byteArray b =>
          if item = .uint8 then encodeByteArray ts b else unsupported τ
        | .array _ item, .array elems =>
          api.encodeObjects opts (.slice item) item elems ts (encodeElems elems (.slice item) item 0)
        | .struct _, .struct values => api.encodeStruct elem ts (encodeStructFields values)
        | .time, .time t => (({} : Serializer).writeTime t).serialize
        | .bigInt, .bigInt _ => api.encodeStruct elem ts fun s _ => .ok s
        | _, _ => unsupported τ
    | .struct _, .struct values => api.encodeStruct τ ts (encodeStructFields values)
    | .time, .time t => (({} : Serializer).writeTime t).serialize
    | .bigInt, .bigInt _ => api.encodeStruct τ ts fun s _ => .ok s
    | .slice elem, .bytes b => if elem = .uint8 then encodeBytes τ ts b else unsupported τ
    | .slice elem, .nil =>
      if elem = .uint8 then encodeBytes τ ts [] else api.encodeObjects opts τ elem [] ts (.ok [])
    | .slice elem, .slice elems =>
      if elem = .uint8 then unsupported τ
      else api.encodeObjects opts τ elem elems ts (encodeElems elems τ elem 0)
    | .map _ _, .nil => api.encodeMap opts τ .nil ts (.ok [])
    | .map key elem, .map entries =>
      api.encodeMap opts τ (.map entries) ts (encodeEntries entries key elem)
    | .array _ item, .byteArray b =>
      if item = .uint8 then encodeByteArray ts b else unsupported τ
    | .array _ item, .array elems =>
      api.encodeObjects opts (.slice item) item elems ts (encodeElems elems (.slice item) item 0)
    | .interface, .nil =>
      let name := τ.str
      .err (.text s!"can't serialize interface {name} it must have underlying value")
    | .interface, .iface σ inner => api.encodeInterface τ σ (encode inner ts σ)
    | .string, .string str => encodeString opts ts str
    | .bool, .bool b => (({} : Serializer).writeBool b).serialize
    | .num kind, .num n => (({} : Serializer).writeNum kind.size (kind.toWord n)).serialize
    | _, _ => unsupported τ

/-- The fields of a struct value, next to the fields of its type. -/
def encodeStructFields : List Value → Serializer → List StructField → Outcome Err Serializer
  | value :: values, s, field :: fields => do
    if field.isEmbedded && !field.settings.inlined then
      let name := spell field.name
      let s ← (encodeEmbedded value s field.fType).mapErr
        (.wrap · s!"can't serialize embedded struct {name}")
      encodeStructFields values s fields
    else
      let s ← writeField s field value.isNil (encode value field.settings.ts field.fType)
      encodeStructFields values s fields
  | _, s, _ => .ok s

/-- The fields of an embedded struct are written in place; a nil embedded pointer is
skipped. -/
def encodeEmbedded : Value → Serializer → GoType → Outcome Err Serializer
  | .struct values, s, τ => do
    let name := τ.str
    let fields ← (api.getStructFields τ).mapErr (.wrap · s!"can't parse struct type {name}")
    encodeStructFields values s fields
  | .ptr inner, s, τ => encodeEmbedded inner s (api.deRefPointer τ)
  | _, s, _ => .ok s

def encodeElems : List Value → GoType → GoType → Nat → Outcome Err (List Bytes)
  | [], _, _, _ => .ok []
  | value :: values, sliceType, elem, index => do
    let name := sliceType.str
    let first ← (encode value {} elem).mapErr
      (.wrap · s!"failed to encode element with index {index} of slice {name}")
    let later ← encodeElems values sliceType elem (index + 1)
    return first :: later

def encodeEntries : List (Value × Value) → GoType → GoType → Outcome Err (List Bytes)
  | [], _, _ => .ok []
  | (key, elem) :: entries, keyType, elemType => do
    let keySettings ← api.getByValue keyType key
    let elemSettings ← api.getByValue elemType elem
    let keyName := keyType.str
    let elemName := elemType.str
    let keyBytes ← (encode key keySettings keyType).mapErr
      (.wrap · s!"failed to encode map key of type {keyName}")
    let elemBytes ← (encode elem elemSettings elemType).mapErr
      (.wrap · s!"failed to encode map element of type {elemName}")
    let later ← encodeEntries entries keyType elemType
    return (keyBytes ++ elemBytes) :: later

end

section

-- The equations of the family are generated here, once.
attribute [local simp] encode encodeStructFields encodeEmbedded encodeElems encodeEntries

end

end API

end HiveGo
