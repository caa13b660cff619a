import HiveGo.SerixDecode
import HiveGo.SerixMapEncode

/-! Decoding from JSON maps into a zero value. As in the binary format the decoders have a budget
of nested calls. A type assertion that fails is a panic. -/
namespace HiveGo

open OrderedMap

/-- The type of what JSON gave, in an error text. -/
def Any.goType : Any → String
  | null => "<nil>"
  | bool _ => "bool"
  | number _ => "float64"
  | string _ => "string"
  | byte _ => "uint8"
  | array _ => "[]interface \x7b\x7d"
  | object _ => "map[string]interface \x7b\x7d"

namespace API

variable (platform : Platform) (api : API) (opts : Options)

def hexError : HexError → Err
  | .errEmptyString => .text "empty hex string"
  | .other message => .text message

/-- `DecodeHex`: the empty string is the empty byte string. -/
def decodeHex (s : Bytes) : Outcome Err Bytes :=
  match platform.decode s with
  | .ok b => .ok b
  | .error .errEmptyString => .ok []
  | .error error => .err (hexError error)

/-- The conversion of a number to an integer type. -/
def convert (kind : NumKind) (x : Float64) : Int :=
  if kind.Holds x.trunc then x.trunc else (platform.outOfRange kind x).1

/-- What a string that is not a number of 64 bits gives. -/
def numError (function : String) (s : Bytes) : NumError → Err
  | .errSyntax =>
    let str := spell s
    .text s!"strconv.{function}: parsing {str}: invalid syntax"
  | .errRange =>
    let str := spell s
    .text s!"strconv.{function}: parsing {str}: value out of range"

def parseInt (s : Bytes) : Outcome Err Int :=
  match Strconv.parseInt s with
  | .ok n => .ok n
  | .error error => .err (numError "ParseInt" s error)

def parseUint (s : Bytes) : Outcome Err Nat :=
  match Strconv.parseUint s with
  | .ok n => .ok n
  | .error error => .err (numError "ParseUint" s error)

/-- An array of the length with the bytes copied into it. -/
def fillArray (length : Nat) (b : Bytes) : Bytes :=
  b.take length ++ List.replicate (length - b.length) 0

/-- The decoders of one layer: a value of a type, the fields of a struct type, and the
zero value of a type. -/
structure MapDecoders where
  value : Any → TypeSettings → GoType → Outcome Err Value
  fields : List (Bytes × Any) → GoType → Outcome Err (List Value)
  zero : GoType → Outcome Err Value

def mapDecodeString (mapVal : Any) (ts : TypeSettings) : Outcome Err Value :=
  match mapVal with
  | .string str => do
    if opts.validation then
      (ts.checkMinMaxBoundsLength str.length).mapErr (.wrap · "can't deserialize 'string' type")
    if opts.validation && !validUTF8 str then .err (.sentinel .errNonUTF8String)
    else return .string str
  | _ => .err (.text "non string value for string field")

def mapDecodeBool (mapVal : Any) : Outcome Err Value :=
  match mapVal with
  | .bool b => .ok (.bool b)
  | _ => .panicked

/-- Integers of 64 bits come from strings, smaller ones from numbers. -/
def mapDecodeNum (mapVal : Any) (kind : NumKind) : Outcome Err Value :=
  match kind, mapVal with
  | .int64, .string s => do
    let n ← parseInt s
    return .num n
  | .uint64, .string s => do
    let n ← parseUint s
    return .num n
  | .int64, _ | .uint64, _ => .panicked
  | kind, .number x => .ok (.num (convert platform kind x))
  | _, _ => .panicked

def mapDecodeBigInt (mapVal : Any) : Outcome Err Value :=
  match mapVal with
  | .string s =>
    match platform.decodeBig s with
    | .ok n => .ok (.ptr (.bigInt n))
    | .error error => .err (.wrap (hexError error) "failed to read big.Int from map")
  | _ =>
    let got := mapVal.goType
    .err (.text s!"non string value in map when decoding a big.Int, got {got} instead")

/-- A string of hexadecimal digits. -/
def mapDecodeHex (mapVal : Any) : Outcome Err Bytes :=
  match mapVal with
  | .string s => (decodeHex platform s).mapErr (.wrap · "failed to read byte slice from map")
  | _ => .panicked

def mapDecodeBytes (mapVal : Any) (ts : TypeSettings) : Outcome Err Value := do
  let byteSlice ← mapDecodeHex platform mapVal
  if opts.validation then
    (ts.checkMinMaxBoundsLength byteSlice.length).mapErr (.wrap · "can't deserialize 'slice' type")
  return .bytes byteSlice

def mapDecodeByteArray (mapVal : Any) (length : Nat) : Outcome Err Value := do
  let byteSlice ← mapDecodeHex platform mapVal
  return .byteArray (fillArray length byteSlice)

/-- The array that a pointer points to is read from a map, under the key of the settings
that are registered for the pointer. -/
def mapDecodeByteArrayPtr (mapVal : Any) (τ : GoType) (ts : TypeSettings) (length : Nat) :
    Outcome Err Value :=
  match api.getByType τ with
  | none =>
    let name := τ.str
    .err (.text s!"missing type settings for interface {name}")
  | some innerTS =>
    match mapVal with
    | .object m =>
      match get (innerTS.fieldKey.getD keyDefaultSliceArray) m with
      | some fieldVal => do
        let byteSlice ← mapDecodeHex platform fieldVal
        if opts.validation then
          (ts.checkMinMaxBoundsLength byteSlice.length).mapErr
            (.wrap · "can't deserialize 'ptr' type")
        return .ptr (.byteArray (fillArray length byteSlice))
      | none => .panicked
    | _ => .panicked

/-- The elements that reflection finds by index. A map has a length, but no elements. -/
def refElems : Any → Outcome Err (List Any)
  | .array elems => .ok elems
  | .string s => .ok (s.map .byte)
  | .object [] => .ok []
  | _ => .panicked

def mapDecodeElems (rec : MapDecoders) (elem : GoType) : List Any → Outcome Err (List Value)
  | [] => .ok []
  | mapVal :: mapVals => do
    let first ← rec.value mapVal {} elem
    let later ← mapDecodeElems rec elem mapVals
    return first :: later

/-- The checks of a slice after its elements were read. -/
def checkElems (ts : TypeSettings) (elem : GoType) (length : Nat) (values : List Value) :
    Outcome Err Unit := do
  if opts.validation then
    (ts.checkMinMaxBoundsLength length).mapErr fun error =>
      .wrap (.wrap error "can't serialize 'slice' type") "can't serialize 'slice' type"
  if opts.validation then
    (api.checkArrayMustOccur ts elem values).mapErr (.wrap · "can't deserialize 'slice' type")

/-- A slice of anything but bytes. -/
def mapDecodeObjects (rec : MapDecoders) (mapVal : Any) (elem : GoType) (ts : TypeSettings) :
    Outcome Err Value := do
  let elems ← refElems mapVal
  let values ← mapDecodeElems rec elem elems
  api.checkElems opts ts elem values.length values
  return .slice values

/-- An array of anything but bytes is copied into a slice that cannot be set, so that the
first element panics. -/
def mapDecodeObjectArray (rec : MapDecoders) (mapVal : Any) (elem : GoType) (length : Nat)
    (ts : TypeSettings) : Outcome Err Value := do
  match ← refElems mapVal with
  | [] =>
    let zero ← rec.zero elem
    api.checkElems opts ts elem length (List.replicate length zero)
    return .array (List.replicate length zero)
  | first :: _ =>
    let _ ← rec.value first {} elem
    .panicked

/-- One entry of a map. -/
def mapDecodeEntry (rec : MapDecoders) (key elem : GoType) (entries : List (Value × Value))
    (k : Bytes) (v : Any) : Outcome Err (Value × Value) := do
  let keyTypeSettings ← api.getByValue key .nil
  let valueTypeSettings ← api.getByValue elem .nil
  let keyName := key.str
  let elemName := elem.str
  let keyValue ← (rec.value (.string k) keyTypeSettings key).mapErr
    (.wrap · s!"failed to map decode map key of type {keyName}")
  if !api.hashable keyValue key then .panicked
  else if entries.any (fun entry => Value.goEq entry.1 keyValue) then
    let shown := api.sprintf 'v' key keyValue
    .err (.wrap (.sentinel .errMapValidationViolatesUniqueness)
      s!"map entry with key {shown} already exists")
  else
    let elemValue ← (rec.value v valueTypeSettings elem).mapErr
      (.wrap · s!"failed to map decode map element of type {elemName}")
    return (keyValue, elemValue)

/-- The entries of a map, in the order of the iteration. -/
def mapDecodeEntries (rec : MapDecoders) (key elem : GoType) :
    List (Value × Value) → List (Bytes × Any) → Outcome Err (List (Value × Value))
  | entries, [] => .ok entries
  | entries, (k, v) :: m => do
    let entry ← api.mapDecodeEntry rec key elem entries k v
    mapDecodeEntries rec key elem (entries ++ [entry]) m

/-- The text of a value that is no map. -/
def nonMap (mapVal : Any) : Err :=
  let got := mapVal.goType
  .text s!"non map[string]any in struct map decode, got {got} instead"

def mapDecodeMap (rec : MapDecoders) (mapVal : Any) (τ key elem : GoType) (ts : TypeSettings) :
    Outcome Err Value :=
  match mapVal with
  | .object m => do
    let entries ← api.mapDecodeEntries rec key elem [] m
    if opts.validation then api.checkMinMaxBounds ts τ (.map entries)
    return .map entries
  | _ => .err (nonMap mapVal)

def mapDecodeInterface (rec : MapDecoders) (mapVal : Any) (τ : GoType) (ts : TypeSettings) :
    Outcome Err Value :=
  let name := τ.str
  match api.interfaces τ with
  | none => .err (.text s!"interface {name} hasn't been registered")
  | some objects =>
    match mapVal with
    | .object m =>
      match get keyType m with
      | none => .err (.text s!"no object type defined in map for interface {name}")
      | some (.number x) =>
        let objectCode := UInt32.ofNat (convert platform .uint32 x).toNat
        match objects.fromCodeToType objectCode with
        | none => .err (.wrap (.sentinel .errInterfaceUnderlyingTypeNotRegistered)
            s!"object code: {objectCode}, interface: {name}")
        | some σ => do
          let value ← rec.value (.object m) ts σ
          return .iface σ value
      | some _ => .panicked
    | _ => .err (nonMap mapVal)

/-- The object code in a map, for a struct type with a code. -/
def checkMapObjectCode (m : List (Bytes × Any)) (ts : TypeSettings) : Outcome Err Unit :=
  match ts.objectType with
  | none => .ok ()
  | some objectType =>
    let objectCode := objectType.typeDenAndCode.2
    let differs (mapObjectCode : Any) : Err :=
      let shown := platform.sprintf mapObjectCode
      .text s!"map type key ({shown}) not equal registered object code ({objectCode})"
    match get keyType m with
    | none => .err (.wrapNil "missing type key in struct")
    | some (.number x) =>
      if UInt32.ofNat (convert platform .uint32 x).toNat ≠ objectCode then
        .err (differs (.number x))
      else .ok ()
    | some mapObjectCode => .err (differs mapObjectCode)

def mapDecodeStruct (rec : MapDecoders) (mapVal : Any) (τ : GoType) (ts : TypeSettings) :
    Outcome Err Value :=
  if τ = .time then
    match mapVal with
    | .string strVal => do
      let str := spell strVal
      let nanoTime ← (parseUint strVal).mapErr (.wrap · s!"unable to parse time {str} map value")
      return .time (Time.ofUnixNano (wrapInt64 nanoTime))
    | _ => .panicked
  else
    match mapVal with
    | .object m => do
      checkMapObjectCode platform m ts
      let values ← rec.fields m τ
      return structValue τ values
    | _ => .err (nonMap mapVal)

/-- An embedded struct is read from the map of the struct around it; an embedded pointer is
set first, which reflection forbids for an unexported field. -/
def mapDecodeEmbedded (rec : MapDecoders) (m : List (Bytes × Any)) (field : StructField) :
    Outcome Err Value :=
  let name := spell field.name
  match api.shape field.fType with
  | .ptr elem =>
    if field.isUnexported then
      .err (.text s!"embedded field {name} is a nil pointer, can't initialize because it's unexported")
    else do
      let values ← (rec.fields m elem).mapErr (.wrap · s!"can't deserialize embedded struct {name}")
      return .ptr (structValue elem values)
  | _ => do
    let values ← (rec.fields m field.fType).mapErr
      (.wrap · s!"can't deserialize embedded struct {name}")
    return structValue field.fType values

/-- A field that may be missing and is: an empty slice, or else the zero value. -/
def missingField (rec : MapDecoders) (τ : GoType) : Outcome Err Value :=
  match api.shape τ with
  | .slice elem => .ok (if elem = .uint8 then .bytes [] else .slice [])
  | _ => rec.zero τ

def mapDecodeField (rec : MapDecoders) (m : List (Bytes × Any)) (field : StructField) :
    Outcome Err Value :=
  let name := spell field.name
  if field.isEmbedded && !field.settings.inlined then api.mapDecodeEmbedded rec m field
  else if field.settings.inlined then
    (rec.value (.object m) field.settings.ts field.fType).mapErr
      (.wrap · s!"failed to deserialize inlined struct field {name}")
  else
    match get field.key m with
    | none =>
      if field.settings.isOptional || field.settings.omitEmpty then api.missingField rec field.fType
      else .err (.text s!"missing map entry for field {name}")
    | some mapVal =>
      (rec.value mapVal field.settings.ts field.fType).mapErr
        (.wrap · s!"failed to deserialize struct field {name}")

/-- The loop over the fields. -/
def mapDecodeFieldList (rec : MapDecoders) (m : List (Bytes × Any)) :
    List StructField → Outcome Err (List Value)
  | [] => .ok []
  | field :: fields => do
    let value ← api.mapDecodeField rec m field
    let values ← mapDecodeFieldList rec m fields
    return value :: values

def mapDecodeStructFields (rec : MapDecoders) (m : List (Bytes × Any)) (τ : GoType) :
    Outcome Err (List Value) := do
  let name := τ.str
  let fields ← (api.getStructFields τ).mapErr (.wrap · s!"can't parse struct type {name}")
  api.mapDecodeFieldList rec m fields

/-- A value of a type that serix does not decode. -/
def mapDecodeUnsupported (τ : GoType) : Outcome Err Value :=
  let name := τ.str
  .err (.text s!"can't map decode: unsupported type {name}")

/-- A pointer is set to a new element, which is read with the settings of the pointer. -/
def mapDecodePtr (rec : MapDecoders) (mapVal : Any) (τ elem : GoType) (ts : TypeSettings) :
    Outcome Err Value :=
  match api.shape elem with
  | .struct _ | .bigInt | .time => do
    let value ← mapDecodeStruct platform rec mapVal elem ts
    return .ptr value
  | .interface => do
    let value ← api.mapDecodeInterface platform rec mapVal elem ts
    return .ptr value
  | .array length item =>
    if item = .uint8 then api.mapDecodeByteArrayPtr platform opts mapVal τ ts length
    else do
      let value ← api.mapDecodeObjectArray opts rec mapVal item length ts
      return .ptr value
  | _ => mapDecodeUnsupported τ

/-- The kinds, for settings that are merged already. -/
def mapDecodeMerged (rec : MapDecoders) (mapVal : Any) (ts : TypeSettings) (τ : GoType) :
    Outcome Err Value :=
  match api.shape τ with
  | .ptr elem =>
    if τ = .ptr .bigInt then mapDecodeBigInt platform mapVal
    else api.mapDecodePtr platform opts rec mapVal τ elem ts
  | .struct _ | .bigInt | .time => mapDecodeStruct platform rec mapVal τ ts
  | .slice elem =>
    if elem = .uint8 then mapDecodeBytes platform opts mapVal ts
    else api.mapDecodeObjects opts rec mapVal elem ts
  | .map key elem => api.mapDecodeMap opts rec mapVal τ key elem ts
  | .array length elem =>
    if elem = .uint8 then mapDecodeByteArray platform mapVal length
    else api.mapDecodeObjectArray opts rec mapVal elem length ts
  | .interface => api.mapDecodeInterface platform rec mapVal τ ts
  | .string => mapDecodeString opts mapVal ts
  | .bool => mapDecodeBool mapVal
  | .num kind => mapDecodeNum platform mapVal kind

/-- `mapDecodeBasedOnType`; there are no types that decode themselves. -/
def mapDecodeValue (rec : MapDecoders) (mapVal : Any) (given : TypeSettings) (τ : GoType) :
    Outcome Err Value :=
  api.mapDecodeMerged platform opts rec mapVal (api.settings given τ) τ

/-- The decoders with a budget of nested calls. -/
def mapDecoders : Nat → MapDecoders
  | 0 =>
    { value := fun _ _ _ => .timeout
      fields := fun _ _ => .timeout
      zero := fun _ => .timeout }
  | fuel + 1 =>
    { value := api.mapDecodeValue platform opts (mapDecoders fuel)
      fields := api.mapDecodeStructFields (mapDecoders fuel)
      zero := api.zeroValue (mapDecoders fuel).zero }

/-- `MapDecode` into a new value of the type. -/
def mapDecode (fuel : Nat) (m : List (Bytes × Any)) (τ : GoType) : Outcome Err Value := do
  match ← (api.mapDecoders platform opts fuel).value (.object m) opts.ts (.ptr τ) with
  | .ptr value => return value
  | _ => .panicked

end API

end HiveGo
