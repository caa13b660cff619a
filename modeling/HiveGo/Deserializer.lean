import HiveGo.Serializer

/-! The byte reader. A destination that a failed read leaves alone is passed in and
comes back unchanged. -/
namespace HiveGo
open LittleEndian

/-- The reader: its source, the position in it and the first error. -/
structure Deserializer where
  src : Bytes
  offset : Nat := 0
  err : Option Err := none
  deriving Repr, DecidableEq

/-- The slice expression `b[:n]`, which panics outside of `b`. -/
def sliceTo (b : Bytes) (n : Nat) : Outcome Err Bytes :=
  if n ≤ b.length then .ok (b.take n) else .panicked

/-- The slice expression `b[n:]`, which panics outside of `b`. -/
def sliceFrom (b : Bytes) (n : Nat) : Outcome Err Bytes :=
  if n ≤ b.length then .ok (b.drop n) else .panicked

namespace Deserializer

def remainingBytes (d : Deserializer) : Outcome Err Bytes := sliceFrom d.src d.offset

/-- Keep an error unless there is one already. -/
def fail (d : Deserializer) (error : Err) : Deserializer :=
  match d.err with
  | some _ => d
  | none => { d with err := some error }

def done (d : Deserializer) : Outcome Err Nat :=
  match d.err with
  | some error => .err error
  | none => .ok d.offset

def skip (d : Deserializer) (n : Nat) (errProducer : Err → Err) : Outcome Err Deserializer :=
  match d.err with
  | some _ => .ok d
  | none => do
    let rest ← d.remainingBytes
    if rest.length < n then
      return d.fail (errProducer (.sentinel .errDeserializationNotEnoughData))
    else return { d with offset := d.offset + n }

/-- Read `width` bytes if there are that many. -/
def readFixed {α : Type} (d : Deserializer) (dest : α) (width : Nat) (value : Bytes → α)
    (errProducer : Err → Err) : Outcome Err (Deserializer × α) :=
  match d.err with
  | some _ => .ok (d, dest)
  | none => do
    let rest ← d.remainingBytes
    if rest.length < width then
      return (d.fail (errProducer (.sentinel .errDeserializationNotEnoughData)), dest)
    else
      let data ← sliceTo rest width
      return ({ d with offset := d.offset + width }, value data)

def readBool (d : Deserializer) (dest : Bool) (errProducer : Err → Err) :
    Outcome Err (Deserializer × Bool) :=
  match d.err with
  | some _ => .ok (d, dest)
  | none => do
    match ← d.remainingBytes with
    | [] => return (d.fail (errProducer (.sentinel .errDeserializationNotEnoughData)), dest)
    | byte :: _ =>
      if byte = 0 then return ({ d with offset := d.offset + 1 }, false)
      else if byte = 1 then return ({ d with offset := d.offset + 1 }, true)
      else return (d.fail (errProducer (.sentinel .errDeserializationInvalidBoolValue)), dest)

def readUint256 (d : Deserializer) (dest : Nat) (errProducer : Err → Err) :
    Outcome Err (Deserializer × Nat) :=
  d.readFixed dest 32 get errProducer

/-- Read a number of the given width; `value` is the conversion to its type. -/
def readNum (d : Deserializer) (dest : Int) (width : Nat) (value : Nat → Int)
    (errProducer : Err → Err) : Outcome Err (Deserializer × Int) :=
  d.readFixed dest width (fun data => value (get data)) errProducer

/-- Fill a byte array of the length of `dest`. -/
def readBytesInPlace (d : Deserializer) (dest : Bytes) (errProducer : Err → Err) :
    Outcome Err (Deserializer × Bytes) :=
  d.readFixed dest dest.length id errProducer

/-- The time spelled by a 64-bit number of nanoseconds. -/
def timeOfNanoseconds (nanoseconds : Nat) : Time :=
  let nanoseconds : Int :=
    if (nanoseconds / 1000000000 : Int) > maxNanoTimestampInt64Seconds then maxInt64
    else nanoseconds
  Time.ofUnixNano (wrapInt64 nanoseconds)

def readTime (d : Deserializer) (dest : Time) (errProducer : Err → Err) :
    Outcome Err (Deserializer × Time) :=
  d.readFixed dest 8 (fun data => timeOfNanoseconds (get data)) errProducer

/-- The length of a collection. Unlike the other readers this one returns its error
instead of keeping it. -/
def readSliceLength (d : Deserializer) (lenType : SeriLengthPrefixType) (errProducer : Err → Err) :
    Outcome Err (Deserializer × Nat) := do
  let rest ← d.remainingBytes
  match lenType.size with
  | none => .panicked
  | some size =>
    if rest.length < size then .err (errProducer (.sentinel .errDeserializationNotEnoughData))
    else
      let data ← sliceTo rest size
      return ({ d with offset := d.offset + size }, get data)

def readPayloadLength (d : Deserializer) : Outcome Err (Deserializer × Nat) := do
  let rest ← d.remainingBytes
  if rest.length < 4 then
    .err (.wrap (.sentinel .errDeserializationNotEnoughData)
      "data is smaller than payload length denotation")
  else
    let data ← sliceTo rest 4
    return ({ d with offset := d.offset + 4 }, get data)

/-- Keep the error of a call that returns one, and go on with its value otherwise. -/
def keeping {α β : Type} (d : Deserializer) (dest : β) (call : Outcome Err α)
    (rest : α → Outcome Err (Deserializer × β)) : Outcome Err (Deserializer × β) :=
  match call with
  | .ok value => rest value
  | .err error => .ok (d.fail error, dest)
  | .panicked => .panicked
  | .timeout => .timeout

/-- A length out of bounds is kept as an error; the bytes are read all the same. -/
def checkLength (d : Deserializer) (length : Nat) (minLen maxLen : Int) (tooLongText tooShortText : String)
    (errProducer : Err → Err) : Deserializer :=
  if Serializer.tooLong length maxLen then
    d.fail (errProducer (.wrap (.sentinel .errDeserializationLengthMaxExceeded) tooLongText))
  else if Serializer.tooShort length minLen then
    d.fail (errProducer (.wrap (.sentinel .errDeserializationLengthMinNotReached) tooShortText))
  else d

/-- The bytes behind a length that was read. That there are too few of them replaces an
error about the length. -/
def readBody (d : Deserializer) (dest : Bytes) (length : Nat) (tooFew : Nat → Err) :
    Outcome Err (Deserializer × Bytes) := do
  let rest ← d.remainingBytes
  if rest.length < length then return ({ d with err := some (tooFew rest.length) }, dest)
  else
    let data ← sliceTo rest length
    return ({ d with offset := d.offset + length }, data)

def readVariableByteSlice (d : Deserializer) (dest : Bytes) (lenType : SeriLengthPrefixType)
    (errProducer : Err → Err) (minLen maxLen : Int) : Outcome Err (Deserializer × Bytes) :=
  match d.err with
  | some _ => .ok (d, dest)
  | none => d.keeping dest (d.readSliceLength lenType errProducer) fun (d, sliceLength) =>
    let d := d.checkLength sliceLength minLen maxLen
      s!"denoted {sliceLength} bytes, max allowed {maxLen} "
      s!"denoted {sliceLength} bytes, min required {minLen} " errProducer
    if sliceLength = 0 then .ok (d, [])
    else d.readBody dest sliceLength
      fun _ => errProducer (.sentinel .errDeserializationNotEnoughData)

def readString (d : Deserializer) (dest : Bytes) (lenType : SeriLengthPrefixType)
    (errProducer : Err → Err) (minLen maxLen : Int) : Outcome Err (Deserializer × Bytes) :=
  match d.err with
  | some _ => .ok (d, dest)
  | none => d.keeping dest (d.readSliceLength lenType errProducer) fun (d, strLen) =>
    let d := d.checkLength strLen minLen maxLen
      s!"string defined to be of {strLen} bytes length but max {maxLen} is allowed"
      s!"string defined to be of {strLen} bytes length but min {minLen} is required" errProducer
    d.readBody dest strLen fun left =>
      errProducer (.wrap (.sentinel .errDeserializationNotEnoughData)
        s!"data is smaller than ({left}) denoted string length of {strLen}")

/-- The type code in front of the position, which does not move. -/
def getObjectType (d : Deserializer) (typeDen : TypeDenotationType) : Outcome Err UInt32 := do
  let rest ← d.remainingBytes
  match typeDen with
  | .uint32 =>
    if rest.length < 4 then .err (.sentinel .errDeserializationNotEnoughData)
    else
      let data ← sliceTo rest 4
      return UInt32.ofNat (get data)
  | .byte =>
    if rest.length < 1 then .err (.sentinel .errDeserializationNotEnoughData)
    else
      let data ← sliceTo rest 1
      return UInt32.ofNat (get data)
  | .none => return 0

def checkType (data : Bytes) (shouldType : UInt32) : Outcome Err Unit :=
  if data.length < 4 then
    .err (.wrap (.sentinel .errDeserializationNotEnoughData) "can't check type denotation")
  else
    let actualType := get (data.take 4)
    if actualType ≠ shouldType.toNat then
      .err (.wrap (.sentinel .errDeserializationTypeMismatch)
        s!"type denotation must be {shouldType} but is {actualType}")
    else .ok ()

def checkTypeByte (data : Bytes) (shouldType : UInt8) : Outcome Err Unit :=
  match data with
  | [] => .err (.wrap (.sentinel .errDeserializationNotEnoughData) "can't check type byte")
  | actualType :: _ =>
    if actualType ≠ shouldType then
      .err (.wrap (.sentinel .errDeserializationTypeMismatch)
        s!"type denotation must be {shouldType} but is {actualType}")
    else .ok ()

/-- Read a type code that has to be the given one. -/
def checkTypePrefix (d : Deserializer) (code : UInt32) (typeDen : TypeDenotationType)
    (errProducer : Err → Err) : Outcome Err Deserializer :=
  match d.err with
  | some _ => .ok d
  | none => do
    let rest ← d.remainingBytes
    match typeDen with
    | .none => .panicked
    | .uint32 =>
      match checkType rest code with
      | .ok () => d.skip 4 id
      | .err error => return d.fail (errProducer error)
      | .panicked => .panicked
      | .timeout => .timeout
    | .byte =>
      match checkTypeByte rest code.toUInt8 with
      | .ok () => d.skip 1 id
      | .err error => return d.fail (errProducer error)
      | .panicked => .panicked
      | .timeout => .timeout

/-- The loop of `readSequenceOfObjects`: read an item, move behind it, and validate
the bytes that it was read from. -/
def readItems {σ : Type} (item : σ → Bytes → Outcome Err (σ × Nat)) (rules : Option ArrayRules)
    (errProducer : Err → Err) :
    Nat → Nat → ArrayRules.Seen → Deserializer → σ → Outcome Err (Deserializer × σ)
  | 0, _, _, d, acc => .ok (d, acc)
  | left + 1, index, seen, d, acc => do
    let srcBefore ← d.remainingBytes
    d.keeping acc ((item acc srcBefore).mapErr errProducer) fun (acc, bytesRead) => do
      let d := { d with offset := d.offset + bytesRead }
      match rules with
      | none => readItems item rules errProducer left (index + 1) seen d acc
      | some arrayRules =>
        let element ← sliceTo srcBefore bytesRead
        d.keeping acc
          ((arrayRules.elementValidationFunc seen index (some element)).mapErr errProducer)
          fun seen => readItems item rules errProducer left (index + 1) seen d acc

def readSequenceOfObjects {σ : Type} (d : Deserializer) (acc : σ)
    (item : σ → Bytes → Outcome Err (σ × Nat)) (deSeriMode : DeSerializationMode)
    (lenType : SeriLengthPrefixType) (arrayRules : ArrayRules) (errProducer : Err → Err) :
    Outcome Err (Deserializer × σ) :=
  match d.err with
  | some _ => .ok (d, acc)
  | none => d.keeping acc (d.readSliceLength lenType errProducer) fun (d, sliceLength) =>
    let bounds : Outcome Err Unit :=
      if deSeriMode.performValidation then (arrayRules.checkBounds sliceLength).mapErr errProducer
      else .ok ()
    d.keeping acc bounds fun () =>
      let validation := if deSeriMode.performValidation then some arrayRules else none
      readItems item validation errProducer sliceLength 0 {} d acc

end Deserializer

end HiveGo
