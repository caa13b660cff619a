import HiveGo.Serializable

/-! The byte writer and the byte reader. Both keep the first error and turn every later call into
a no-op; reading outside of the source is a panic. -/
namespace HiveGo

/-- How the length of a collection is written. A 64-bit length is declared but not
implemented: the writer and the reader panic on it. -/
inductive SeriLengthPrefixType where
  | asByte
  | asUint16
  | asUint32
  | asUint64
  deriving Repr, DecidableEq

/-- The number of bytes of an implemented length prefix. -/
def SeriLengthPrefixType.size : SeriLengthPrefixType → Option Nat
  | asByte => some 1
  | asUint16 => some 2
  | asUint32 => some 4
  | asUint64 => none

/-- The seconds that fit into a 64-bit nanosecond timestamp. -/
def maxNanoTimestampInt64Seconds : Int := 9223372036

def maxInt64 : Int := 9223372036854775807

/-- A 64-bit two's complement reading of a number. -/
def wrapInt64 (number : Int) : Int := (number + 2 ^ 63) % 2 ^ 64 - 2 ^ 63

/-- A point in time, as seconds since the epoch and nanoseconds within the second. -/
structure Time where
  sec : Int
  nsec : Nat
  deriving Repr, DecidableEq

namespace Time

def unixNano (time : Time) : Int := wrapInt64 (time.sec * 1000000000 + time.nsec)

/-- `time.Unix(0, nanoseconds)`. -/
def ofUnixNano (nanoseconds : Int) : Time :=
  ⟨nanoseconds / 1000000000, (nanoseconds % 1000000000).toNat⟩

/-- Times after the last representable one are cut to it, times before the epoch to
the epoch. -/
def toUint64 (time : Time) : Nat :=
  if time.sec > maxNanoTimestampInt64Seconds then maxInt64.toNat
  else if time.sec < 0 ∨ time.unixNano < 0 then 0
  else time.unixNano.toNat

end Time

/-- The writer: the bytes so far and the first error. -/
structure Serializer where
  buf : Bytes := []
  err : Option Err := none
  deriving Repr, DecidableEq

namespace Serializer

def serialize (s : Serializer) : Outcome Err Bytes :=
  match s.err with
  | some error => .err error
  | none => .ok s.buf

/-- Append bytes unless an error was kept. -/
def writeBytes (s : Serializer) (data : Bytes) : Serializer :=
  match s.err with
  | some _ => s
  | none => { s with buf := s.buf ++ data }

/-- Keep an error unless there is one already. -/
def fail (s : Serializer) (error : Err) : Serializer :=
  match s.err with
  | some _ => s
  | none => { s with err := some error }

def writeNum (s : Serializer) (width number : Nat) : Serializer :=
  s.writeBytes (LittleEndian.put width number)

def writeUint256 (s : Serializer) (num : Option Int) (errProducer : Err → Err) : Serializer :=
  match num with
  | none => s.fail (errProducer (.sentinel .errUint256Nil))
  | some num =>
    if num < 0 then s.fail (errProducer (.sentinel .errUint256NumNegative))
    else if num ≥ 2 ^ 256 then s.fail (errProducer (.sentinel .errUint256TooBig))
    else s.writeBytes (LittleEndian.put 32 num.toNat)

def writeBool (s : Serializer) (v : Bool) : Serializer := s.writeBytes [if v then 1 else 0]

def writeTime (s : Serializer) (timeToWrite : Time) : Serializer :=
  s.writeNum 8 timeToWrite.toUint64

def writePayloadLength (s : Serializer) (length : Nat) : Serializer := s.writeNum 4 length

/-- Write a length that has to fit into the prefix. -/
def writeSliceLength (s : Serializer) (l : Nat) (lenType : SeriLengthPrefixType)
    (errProducer : Err → Err) : Outcome Err Serializer :=
  match s.err with
  | some _ => .ok s
  | none =>
    match lenType.size with
    | none => .panicked
    | some size =>
      if l ≥ 256 ^ size then
        let largest := 256 ^ size - 1
        .ok (s.fail (errProducer (.text
          s!"unable to serialize collection length: length {l} is out of range (0-{largest})")))
      else .ok (s.writeNum size l)

/-- A length against bounds that are set when they are positive. -/
def tooLong (length : Nat) (maxLen : Int) : Bool := decide (0 < maxLen ∧ (length : Int) > maxLen)

def tooShort (length : Nat) (minLen : Int) : Bool := decide (0 < minLen ∧ (length : Int) < minLen)

def writeVariableByteSlice (s : Serializer) (data : Bytes) (lenType : SeriLengthPrefixType)
    (errProducer : Err → Err) (minLen maxLen : Int) : Outcome Err Serializer :=
  match s.err with
  | some _ => .ok s
  | none =>
    let sliceLen := data.length
    if tooLong sliceLen maxLen then
      .ok (s.fail (errProducer (.wrap (.sentinel .errSliceLengthTooLong)
        s!"slice (len {sliceLen}) exceeds max length of {maxLen} ")))
    else if tooShort sliceLen minLen then
      .ok (s.fail (errProducer (.wrap (.sentinel .errSliceLengthTooShort)
        s!"slice (len {sliceLen}) is less than min length of {minLen} ")))
    else do
      let s ← s.writeSliceLength sliceLen lenType errProducer
      return s.writeBytes data

def writeString (s : Serializer) (str : Bytes) (lenType : SeriLengthPrefixType)
    (errProducer : Err → Err) (minLen maxLen : Int) : Outcome Err Serializer :=
  match s.err with
  | some _ => .ok s
  | none =>
    let strLen := str.length
    if tooLong strLen maxLen then
      .ok (s.fail (errProducer (.wrap (.sentinel .errStringTooLong)
        s!"string (len {strLen}) exceeds max length of {maxLen} ")))
    else if tooShort strLen minLen then
      .ok (s.fail (errProducer (.wrap (.sentinel .errStringTooShort)
        s!"string (len {strLen}) is less than min length of {minLen}")))
    else do
      let s ← s.writeSliceLength strLen lenType errProducer
      return s.writeBytes str

/-- Validate and write the elements one after the other, up to the first that is
rejected. -/
def writeElements (rules : Option ArrayRules) (errProducer : Err → Err) :
    Serializer → ArrayRules.Seen → Nat → List (Option Bytes) → Outcome Err Serializer
  | s, _, _, [] => .ok s
  | s, seen, index, ele :: rest =>
    match rules with
    | none => writeElements rules errProducer (s.writeBytes (ArrayRules.contents ele)) seen
        (index + 1) rest
    | some arrayRules =>
      match arrayRules.elementValidationFunc seen index ele with
      | .ok seen => writeElements rules errProducer (s.writeBytes (ArrayRules.contents ele)) seen
          (index + 1) rest
      | .err error => .ok (s.fail (errProducer error))
      | .panicked => .panicked
      | .timeout => .timeout

/-- The elements in lexical order; a nil element sorts as an empty one. -/
def sortElements (data : List (Option Bytes)) : List (Option Bytes) :=
  ByteOrder.sortBy ArrayRules.contents data

/-- The order in which the elements are written: they are only sorted if the rules
require the order. -/
def arranged (mode : DeSerializationMode) (rules : ArrayRules) (data : List (Option Bytes)) :
    List (Option Bytes) :=
  if mode.performLexicalOrdering && rules.validationMode.lexicalOrdering then sortElements data
  else data

/-- The elements behind the length, unless writing it failed. -/
def writeAllElements (s : Serializer) (rules : Option ArrayRules) (errProducer : Err → Err)
    (data : List (Option Bytes)) : Outcome Err Serializer :=
  match s.err with
  | some _ => .ok s
  | none => writeElements rules errProducer s {} 0 data

def writeSliceOfByteSlices (s : Serializer) (data : List (Option Bytes))
    (deSeriMode : DeSerializationMode) (lenType : SeriLengthPrefixType) (sliceRules : ArrayRules)
    (errProducer : Err → Err) : Outcome Err Serializer :=
  match s.err with
  | some _ => .ok s
  | none =>
    match if deSeriMode.performValidation then sliceRules.checkBounds data.length else .ok () with
    | .err error => .ok (s.fail (errProducer error))
    | .panicked => .panicked
    | .timeout => .timeout
    | .ok () => do
      let s ← s.writeSliceLength data.length lenType errProducer
      s.writeAllElements (if deSeriMode.performValidation then some sliceRules else none)
        errProducer (arranged deSeriMode sliceRules data)

end Serializer

end HiveGo
