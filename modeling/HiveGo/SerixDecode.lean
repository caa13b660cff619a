import HiveGo.SerixEncode
import HiveGo.Deserializer

/-! Binary decoding into a zero value. The types drive the recursion and need not be well founded,
so the decoders have a budget of nested calls; one layer is written over the layer below. -/
namespace HiveGo
open Deserializer

namespace API

variable (api : API) (opts : Options)

mutual

/-- Whether a map takes the value as a key. A dynamic type that cannot be compared is
found out only when the key is hashed. -/
def hashable : Value → GoType → Bool
  | .slice _, _ | .bytes _, _ | .map _, _ => false
  | .nil, τ =>
    match api.shape τ with
    | .slice _ | .map _ _ => false
    | _ => true
  | .array elems, τ =>
    match api.shape τ with
    | .array _ elem => hashableAll elems (elems.map fun _ => elem)
    | _ => true
  | .struct values, τ =>
    match api.getStructFields τ with
    | .ok fields => hashableAll values (fields.map StructField.fType)
    | _ => true
  | .iface σ value, _ => hashable value σ
  | _, _ => true

def hashableAll : List Value → List GoType → Bool
  | value :: values, τ :: types => hashable value τ && hashableAll values types
  | _, _ => true

end

/-- The zero values of the fields of a struct. -/
def zeroFields (zero : GoType → Outcome Err Value) : List StructField → Outcome Err (List Value)
  | [] => .ok []
  | field :: fields => do
    let first ← zero field.fType
    let later ← zeroFields zero fields
    return first :: later

/-- The zero value of a type, given those of the types that it is made of. -/
def zeroValue (zero : GoType → Outcome Err Value) (τ : GoType) : Outcome Err Value :=
  match api.shape τ with
  | .bool => .ok (.bool false)
  | .num _ => .ok (.num 0)
  | .string => .ok (.string [])
  | .array length elem =>
    if elem = .uint8 then .ok (.byteArray (List.replicate length 0))
    else do
      let first ← zero elem
      return .array (List.replicate length first)
  | .struct _ =>
    match api.getStructFields τ with
    | .ok fields => do
      let values ← zeroFields zero fields
      return .struct values
    | _ => .ok (.struct [])
  | .bigInt => .ok (.bigInt 0)
  | .time => .ok (.time ⟨-62135596800, 0⟩)
  | .slice _ | .map _ _ | .ptr _ | .interface => .ok .nil

/-- The decoders of one layer: a value of a type, the fields of a struct type, and the
zero value of a type. -/
structure Decoders where
  value : Bytes → TypeSettings → GoType → Outcome Err (Value × Nat)
  fields : Deserializer → GoType → Outcome Err (Deserializer × List Value)
  zero : GoType → Outcome Err Value

/-- End a read: the value with the number of bytes it took. -/
def finish {α : Type} (mk : α → Value) (read : Outcome Err (Deserializer × α)) :
    Outcome Err (Value × Nat) := do
  let (deseri, result) ← read
  let bytesRead ← deseri.done
  return (mk result, bytesRead)

/-- A length error also counts as the corresponding error about the elements. -/
def lengthError (message : String) (error : Err) : Err :=
  let error := Err.wrap error message
  if error.is .errDeserializationLengthMinNotReached then
    .join error (.sentinel .errArrayValidationMinElementsNotReached)
  else if error.is .errDeserializationLengthMaxExceeded then
    .join error (.sentinel .errArrayValidationMaxElementsExceeded)
  else error

def decodeString (b : Bytes) (ts : TypeSettings) : Outcome Err (Value × Nat) :=
  match ts.lengthPrefixType with
  | none => .err (.text "can't deserialize 'string' type: no LengthPrefixType was provided")
  | some lenType => do
    let (minLen, maxLen) := if opts.validation then ts.minMaxLen else (0, 0)
    let (deseri, str) ← readString { src := b } [] lenType
      (lengthError "failed to read string value from the deserializer") minLen maxLen
    if opts.validation && !validUTF8 str then
      .err (.wrap (.sentinel .errNonUTF8String) "can't deserialize 'string' type")
    else finish .string (.ok (deseri, str))

/-- Read the object code, if one is set. -/
def checkObjectType (deseri : Deserializer) (ts : TypeSettings) : Outcome Err Deserializer :=
  match ts.objectType with
  | none => .ok deseri
  | some objectType =>
    deseri.checkTypePrefix objectType.typeDenAndCode.2 objectType.typeDenAndCode.1
      (.wrap · "failed to check object type")

def decodeByteArray (b : Bytes) (ts : TypeSettings) (length : Nat) : Outcome Err (Value × Nat) := do
  let deseri ← checkObjectType { src := b } ts
  finish .byteArray (deseri.readBytesInPlace (List.replicate length 0)
    (.wrap · "failed to read array of bytes from the deserializer"))

def decodeBytes (b : Bytes) (τ : GoType) (ts : TypeSettings) : Outcome Err (Value × Nat) :=
  let name := τ.str
  match ts.lengthPrefixType with
  | none => .err (.text s!"no LengthPrefixType was provided for slice type {name}")
  | some lenType =>
    finish .bytes (readVariableByteSlice { src := b } [] lenType
      (lengthError "failed to read bytes from the deserializer") ts.minMaxLen.1 ts.minMaxLen.2)

def decodeSequence {σ : Type} (b : Bytes) (acc : σ) (item : σ → Bytes → Outcome Err (σ × Nat))
    (τ : GoType) (ts : TypeSettings) : Outcome Err (σ × Nat) :=
  let name := τ.str
  match ts.lengthPrefixType with
  | none => .err (.text s!"no LengthPrefixType was provided for type {name}")
  | some lenType => do
    let (deseri, acc) ← readSequenceOfObjects { src := b } acc item (ts.toMode opts)
      lenType ts.rules (.wrap · s!"failed to read sequence of objects {name} from the deserialized")
    let bytesRead ← deseri.done
    return (acc, bytesRead)

/-- One element of a slice. -/
def decodeElem (rec : Decoders) (elem : GoType) (elems : List Value) (b : Bytes) :
    Outcome Err (List Value × Nat) := do
  let (value, bytesRead) ← rec.value b {} elem
  return (elems ++ [value], bytesRead)

/-- A slice of anything but bytes. -/
def decodeObjects (rec : Decoders) (b : Bytes) (τ elem : GoType) (ts : TypeSettings) :
    Outcome Err (Value × Nat) := do
  let (elems, bytesRead) ← decodeSequence opts b [] (decodeElem rec elem) τ ts
  if opts.validation then
    (api.checkArrayMustOccur ts elem elems).mapErr (.wrap · "can't deserialize 'slice' type")
  return (.slice elems, bytesRead)

/-- An array of anything but bytes is copied into a slice that cannot be set, so that
the first element panics. -/
def decodeObjectArray (rec : Decoders) (b : Bytes) (τ elem : GoType) (length : Nat)
    (ts : TypeSettings) : Outcome Err (Value × Nat) := do
  let item (elems : List Value) (b : Bytes) : Outcome Err (List Value × Nat) := do
    let _ ← decodeElem rec elem elems b
    .panicked
  let zero ← rec.zero elem
  let (elems, bytesRead) ← decodeSequence opts b (List.replicate length zero) item τ ts
  if opts.validation then
    (api.checkArrayMustOccur ts elem elems).mapErr (.wrap · "can't deserialize 'slice' type")
  return (.array elems, bytesRead)

/-- One entry of a map. -/
def decodeMapKVPair (rec : Decoders) (key elem : GoType) (entries : List (Value × Value))
    (b : Bytes) : Outcome Err (List (Value × Value) × Nat) := do
  let keySettings ← api.getByValue key .nil
  let elemSettings ← api.getByValue elem .nil
  let keyName := key.str
  let elemName := elem.str
  let (keyValue, keyBytesRead) ← (rec.value b keySettings key).mapErr
    (.wrap · s!"failed to decode map key of type {keyName}")
  let b ← sliceFrom b keyBytesRead
  let (elemValue, elemBytesRead) ← (rec.value b elemSettings elem).mapErr
    (.wrap · s!"failed to decode map element of type {elemName}")
  if !api.hashable keyValue key then .panicked
  else if entries.any (fun entry => Value.goEq entry.1 keyValue) then
    let shown := api.sprintf 'v' key keyValue
    .err (.wrap (.sentinel .errMapValidationViolatesUniqueness)
      s!"map entry with key {shown} already exists")
  else return (entries ++ [(keyValue, elemValue)], keyBytesRead + elemBytesRead)

def decodeMap (rec : Decoders) (b : Bytes) (τ key elem : GoType) (ts : TypeSettings) :
    Outcome Err (Value × Nat) := do
  let ts := ts.ensureOrdering
  let (entries, bytesRead) ← decodeSequence opts b [] (api.decodeMapKVPair rec key elem) τ ts
  if opts.validation then api.checkMinMaxBounds ts τ (.map entries)
  return (.map entries, bytesRead)

def decodeInterface (rec : Decoders) (b : Bytes) (τ : GoType) (ts : TypeSettings) :
    Outcome Err (Value × Nat) :=
  let name := τ.str
  match api.interfaces τ with
  | none => .err (.text s!"interface {name} hasn't been registered")
  | some objects => do
    let objectCode ← getObjectType { src := b } objects.typeDen
    match objects.fromCodeToType objectCode with
    | none => .err (.wrap (.sentinel .errInterfaceUnderlyingTypeNotRegistered)
        s!"object code: {objectCode}, interface: {name}")
    | some σ => do
      let (value, bytesRead) ← rec.value b ts σ
      return (.iface σ value, bytesRead)

/-- The value of a struct type with the given fields. The structs of the standard
library keep their zero value. -/
def structValue (τ : GoType) (values : List Value) : Value :=
  match τ with
  | .bigInt => .bigInt 0
  | .time => .time ⟨-62135596800, 0⟩
  | _ => .struct values

def decodeStruct (rec : Decoders) (b : Bytes) (τ : GoType) (ts : TypeSettings) :
    Outcome Err (Value × Nat) :=
  if τ = .time then
    finish .time (readTime { src := b } ⟨-62135596800, 0⟩
      (.wrap · "failed to read time from the deserializer"))
  else do
    let deseri ← checkObjectType { src := b } ts
    finish (structValue τ) (rec.fields deseri τ)

/-- A field that holds a value of its own, followed by the move behind it. -/
def decodeFieldValue (rec : Decoders) (deseri : Deserializer) (field : StructField)
    (check : Nat → Outcome Err Unit) (message : String) : Outcome Err (Deserializer × Value) := do
  let rest ← deseri.remainingBytes
  let (value, bytesRead) ← (rec.value rest field.settings.ts field.fType).mapErr (.wrap · message)
  check bytesRead
  let deseri ← deseri.skip bytesRead
    (.wrap · "failed to skip amount of bytes read for the struct field")
  return (deseri, value)

/-- An optional value has to be as long as the length in front of it says. -/
def checkPayloadLength (payloadLength bytesRead : Nat) : Outcome Err Unit :=
  if bytesRead ≠ payloadLength then
    .err (.wrapNil s!"optional object length isn't equal to the amount of bytes read; length={payloadLength}, bytesRead={bytesRead}")
  else .ok ()

def decodeOptional (rec : Decoders) (deseri : Deserializer) (field : StructField) :
    Outcome Err (Deserializer × Value) := do
  let name := spell field.name
  let (deseri, payloadLength) ← deseri.readPayloadLength.mapErr
    (.wrap · "can't read payload length from the deserializer")
  if payloadLength = 0 then return (deseri, .nil)
  else
    decodeFieldValue rec deseri field (checkPayloadLength payloadLength)
      s!"failed to deserialize optional struct field {name}"

/-- An embedded struct is read in place; an embedded pointer is set first, which reflection
forbids for an unexported field. -/
def decodeEmbedded (rec : Decoders) (deseri : Deserializer) (field : StructField) :
    Outcome Err (Deserializer × Value) :=
  let name := spell field.name
  match api.shape field.fType with
  | .ptr elem =>
    if field.isUnexported then
      .err (.text s!"embedded field {name} is a nil pointer, can't initialize because it's unexported")
    else do
      let (deseri, values) ← (rec.fields deseri elem).mapErr
        (.wrap · s!"can't deserialize embedded struct {name}")
      return (deseri, .ptr (structValue elem values))
  | _ => do
    let (deseri, values) ← (rec.fields deseri field.fType).mapErr
      (.wrap · s!"can't deserialize embedded struct {name}")
    return (deseri, structValue field.fType values)

def decodeField (rec : Decoders) (deseri : Deserializer) (field : StructField) :
    Outcome Err (Deserializer × Value) :=
  let name := spell field.name
  if field.isEmbedded && !field.settings.inlined then api.decodeEmbedded rec deseri field
  else if field.settings.isOptional then decodeOptional rec deseri field
  else decodeFieldValue rec deseri field (fun _ => .ok ())
    s!"failed to deserialize struct field {name}"

/-- The loop over the fields. -/
def decodeFieldList (rec : Decoders) :
    Deserializer → List StructField → Outcome Err (Deserializer × List Value)
  | deseri, [] => .ok (deseri, [])
  | deseri, field :: fields => do
    let (deseri, value) ← api.decodeField rec deseri field
    let (deseri, values) ← decodeFieldList rec deseri fields
    return (deseri, value :: values)

def decodeStructFields (rec : Decoders) (deseri : Deserializer) (τ : GoType) :
    Outcome Err (Deserializer × List Value) := do
  let name := τ.str
  let fields ← (api.getStructFields τ).mapErr (.wrap · s!"can't parse struct type {name}")
  api.decodeFieldList rec deseri fields

/-- The kinds that are read with the settings that were merged for them. -/
def decodeKind (rec : Decoders) (b : Bytes) (τ : GoType) (ts : TypeSettings) :
    Outcome Err (Value × Nat) :=
  match api.shape τ with
  | .struct _ | .bigInt | .time => decodeStruct rec b τ ts
  | .slice elem =>
    if elem = .uint8 then decodeBytes b τ ts else api.decodeObjects opts rec b τ elem ts
  | .map key elem => api.decodeMap opts rec b τ key elem ts
  | .array length elem =>
    if elem = .uint8 then decodeByteArray b ts length
    else api.decodeObjectArray opts rec b (.slice elem) elem length ts
  | .interface => api.decodeInterface rec b τ ts
  | .string => decodeString opts b ts
  | .bool => finish .bool (readBool { src := b } false
      (.wrap · "failed to read bool value from the deserializer"))
  | .num kind => finish .num (readNum { src := b } 0 kind.size kind.ofWord
      (.wrap · "failed to read number value from the serializer"))
  | .ptr _ =>
    let name := τ.str
    .err (.text s!"can't decode: unsupported type {name}")

/-- A pointer is set to a new element, which is read with the settings of the pointer. -/
def decodePtr (rec : Decoders) (b : Bytes) (elem : GoType) (ts : TypeSettings) :
    Outcome Err (Value × Nat) := do
  let (value, bytesRead) ←
    match api.shape elem with
    | .ptr _ | .string | .bool | .num _ => rec.value b ts elem
    | _ => api.decodeKind opts rec b elem ts
  return (.ptr value, bytesRead)

/-- The kinds together with pointers, for settings that are merged already. -/
def decodeMerged (rec : Decoders) (b : Bytes) (ts : TypeSettings) (τ : GoType) :
    Outcome Err (Value × Nat) :=
  match api.shape τ with
  | .ptr elem =>
    if τ = .ptr .bigInt then
      finish (fun (n : Nat) => .ptr (.bigInt n)) (readUint256 { src := b } 0
        (.wrap · "failed to read big.Int from deserializer"))
    else api.decodePtr opts rec b elem ts
  | _ => api.decodeKind opts rec b τ ts

/-- `decodeBasedOnType`; there are no types that decode themselves. -/
def decodeValue (rec : Decoders) (b : Bytes) (given : TypeSettings) (τ : GoType) :
    Outcome Err (Value × Nat) :=
  api.decodeMerged opts rec b (api.settings given τ) τ

/-- The decoders with a budget of nested calls. -/
def decoders : Nat → Decoders
  | 0 =>
    { value := fun _ _ _ => .timeout
      fields := fun _ _ => .timeout
      zero := fun _ => .timeout }
  | fuel + 1 =>
    { value := api.decodeValue opts (decoders fuel)
      fields := api.decodeStructFields (decoders fuel)
      zero := api.zeroValue (decoders fuel).zero }

/-- `Decode` into a new value of the type. A `big.Int` itself is not addressable at the
top level. -/
def decode (fuel : Nat) (b : Bytes) (τ : GoType) : Outcome Err (Value × Nat) :=
  if τ = .bigInt then .panicked
  else do
    match ← (api.decoders opts fuel).value b opts.ts (.ptr τ) with
    | (.ptr value, bytesRead) => return (value, bytesRead)
    | _ => .panicked

end API

end HiveGo
