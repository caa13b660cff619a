import HiveGo.Serializer
import HiveGo.SafeMath

/-! The stream package: basic values, byte strings with their size in front, and collections. The
writer of a collection leaves room for the number of elements, writes them, and comes back. -/
namespace HiveGo.Stream
open SafeMath

/-- An operation on a stream: its result and the stream after it. An operation that fails may
have changed the stream. -/
def Op (σ α : Type) : Type := σ → Outcome Err α × σ

namespace Op

variable {σ α β : Type}

def bind (op : Op σ α) (next : α → Op σ β) : Op σ β := fun s =>
  match op s with
  | (.ok value, s) => next value s
  | (.err error, s) => (.err error, s)
  | (.panicked, s) => (.panicked, s)
  | (.timeout, s) => (.timeout, s)

instance : Monad (Op σ) where
  pure value := fun s => (.ok value, s)
  bind := bind

def fail (error : Err) : Op σ α := fun s => (.err error, s)

/-- A call that does not touch the stream. -/
def lift (call : Outcome Err α) : Op σ α := fun s => (call, s)

/-- Wrap the error of an operation. -/
def wrap (op : Op σ α) (message : String) : Op σ α := fun s =>
  ((op s).1.mapErr (.wrap · message), (op s).2)

theorem pure_eq (value : α) (s : σ) : (pure value : Op σ α) s = (.ok value, s) := rfl

theorem lift_of_ok (done : call = .ok value) (s : σ) :
    lift call s = (.ok value, s) := by rw [lift, done]

theorem bind_of_ok {op : Op σ α} {next : α → Op σ β} {s t : σ} {value : α}
    (done : op s = (.ok value, t)) : (op >>= next) s = next value t := by
  change bind op next s = _
  rw [bind, done]

theorem bind_of_err {op : Op σ α} {next : α → Op σ β} (failed : op s = (.err error, t)) :
    (op >>= next) s = (.err error, t) := by
  change bind op next s = _
  rw [bind, failed]

theorem wrap_of_ok {op : Op σ α}
    (done : op s = (.ok value, t)) : op.wrap message s = (.ok value, t) := by
  rw [wrap, done]
  rfl

theorem wrap_of_err {op : Op σ α} (failed : op s = (.err error, t)) :
    op.wrap message s = (.err (.wrap error message), t) := by
  rw [wrap, failed]
  rfl

end Op

/-- `io.Writer`. -/
class Writer (σ : Type) where
  write : Bytes → Op σ Nat

/-- What an offset is relative to. The last one stands for the numbers that have no name. -/
inductive Whence where
  | seekStart
  | seekCurrent
  | seekEnd
  | other
  deriving Repr, DecidableEq

/-- `io.Seeker`. -/
class Seeker (σ : Type) where
  seek : Int → Whence → Op σ Int

/-- `io.Reader`: the bytes that were read, at most as many as asked for, and an error. -/
class Reader (σ : Type) where
  read : Nat → σ → (Bytes × Option Err) × σ
  length_le : ∀ size s, (read size s).1.1.length ≤ size

/-- `io.EOF`. -/
def eof : Err := .text "EOF"

/-- `io.ErrUnexpectedEOF`. -/
def errUnexpectedEOF : Err := .text "unexpected EOF"

/-- An in-memory buffer with a position that may lie before or behind its end. -/
structure ByteBuffer where
  buf : Bytes
  pos : Nat
  deriving Repr, DecidableEq

namespace ByteBuffer

def newByteBuffer (initialLength : Nat) : ByteBuffer := ⟨List.replicate initialLength 0, 0⟩

/-- Fill up to the position, write over what is there, and append the rest. -/
def write (w : ByteBuffer) (p : Bytes) : Nat × ByteBuffer :=
  let buf := w.buf ++ List.replicate (w.pos - w.buf.length) 0
  let n := if w.pos < buf.length then min (buf.length - w.pos) p.length else 0
  let buf := buf.take w.pos ++ p.take n ++ buf.drop (w.pos + n)
  let rest := p.drop n
  (n + rest.length, ⟨buf ++ rest, w.pos + (n + rest.length)⟩)

/-- The place at an offset from another one. One beyond the 64-bit integers wraps around to a
negative number, for which −1 stands here: only its sign is looked at. -/
def moved (place : Nat) (offset : Int) : Int :=
  if 0 < offset ∧ maxInt64 < place + offset then -1 else place + offset

def seek (w : ByteBuffer) (offset : Int) (whence : Whence) : Outcome Err Int × ByteBuffer :=
  let newPos : Int :=
    match whence with
    | .seekStart => offset
    | .seekCurrent => moved w.pos offset
    | .seekEnd => moved w.buf.length offset
    | .other => 0
  if newPos < 0 then (.err (.text "negative result pos"), w)
  else (.ok newPos, { w with pos := newPos.toNat })

instance : Writer ByteBuffer where
  write p := fun w => (.ok (w.write p).1, (w.write p).2)

instance : Seeker ByteBuffer where
  seek offset whence := fun w => w.seek offset whence

end ByteBuffer

/-- `bytes.Reader`: the bytes and how many of them have been read. -/
structure ByteReader where
  s : Bytes
  i : Nat
  deriving Repr, DecidableEq

namespace ByteReader

def newByteReader (b : Bytes) : ByteReader := ⟨b, 0⟩

def read (size : Nat) (r : ByteReader) : (Bytes × Option Err) × ByteReader :=
  if r.s.length ≤ r.i then (([], some eof), r)
  else
    let data := (r.s.drop r.i).take size
    ((data, none), { r with i := r.i + data.length })

instance : Reader ByteReader where
  read := read
  length_le size r := by
    unfold read
    split
    · exact Nat.zero_le size
    · exact List.length_take_le size _

end ByteReader

/-- The lengths of the byte arrays among the basic types. -/
inductive ArrayLength where
  | of32
  | of36
  | of38
  deriving Repr, DecidableEq

def ArrayLength.size : ArrayLength → Nat
  | of32 => 32
  | of36 => 36
  | of38 => 38

/-- `allowedGenericTypes`. -/
inductive BasicType where
  | bool
  | num (kind : NumKind)
  | array (length : ArrayLength)
  deriving Repr, DecidableEq

namespace BasicType

/-- The values of the type. -/
@[reducible] def Value : BasicType → Type
  | bool => Bool
  | num kind => SafeMath.Integer kind
  | array length => Fin length.size → UInt8

def size : BasicType → Nat
  | bool => 1
  | num kind => kind.size
  | array length => length.size

/-- How `binary.Write` spells a value. -/
def put : (τ : BasicType) → τ.Value → Bytes
  | bool, value => bif value then [1] else [0]
  | num kind, value => LittleEndian.put kind.size (kind.toWord value.1)
  | array _, value => List.ofFn value

/-- What `binary.Read` makes of the bytes. -/
def get : (τ : BasicType) → Bytes → τ.Value
  | bool, data => (data.getD 0 0 != 0 : Bool)
  | num kind, data => ofInt kind (LittleEndian.get data)
  | array _, data => fun i => data.getD i 0

end BasicType

section

variable {σ γ : Type}

def write [Writer σ] (τ : BasicType) (value : τ.Value) : Op σ Unit := do
  let _ ← Writer.write (τ.put value)

/-- A length that has to be at most `bound`. -/
def writeBounded [Writer σ] (kind : NumKind) (bound : Int) (l : Int) : Op σ Unit :=
  if l > bound then
    .fail (.text s!"unable to serialize collection length: length {l} is out of range (0-{bound})")
  else (write (.num kind) (ofInt kind l)).wrap "unable to write length"

def writeFixedSize [Writer σ] (l : Int) : SeriLengthPrefixType → Op σ Unit
  | .asByte => writeBounded .uint8 255 l
  | .asUint16 => writeBounded .uint16 65535 l
  | .asUint32 => writeBounded .uint32 4294967295 l
  | .asUint64 => (write (.num .uint64) (ofInt .uint64 l)).wrap "unable to write length"

def writeBytesWithSize [Writer σ] (bytes : Bytes) (lenType : SeriLengthPrefixType) : Op σ Unit := do
  (writeFixedSize bytes.length lenType).wrap "failed to write bytes length"
  let _ ← (Writer.write bytes).wrap "failed to write bytes"

def writeObjectWithSize [Writer σ] (target : γ) (lenType : SeriLengthPrefixType)
    (objectToBytesFunc : γ → Outcome Err Bytes) : Op σ Unit := do
  let serializedBytes ← (Op.lift (objectToBytesFunc target)).wrap "failed to serialize object"
  (writeBytesWithSize serializedBytes lenType).wrap "failed to write serialized bytes"

def offset [Seeker σ] : Op σ Int := Seeker.seek 0 .seekCurrent

def goTo [Seeker σ] (offset : Int) : Op σ Int := Seeker.seek offset .seekStart

def writeCollection [Writer σ] [Seeker σ] (lenType : SeriLengthPrefixType)
    (writeCallback : Op σ Int) : Op σ Unit := do
  let startOffset ← offset.wrap "failed to get start offset"
  (writeFixedSize 0 lenType).wrap "failed to skip elements count"
  let elementsCount ← writeCallback.wrap "failed to write collection"
  let endOffset ← offset.wrap "failed to read end offset of collection"
  let _ ← (goTo startOffset).wrap "failed to seek to start of attestors"
  (writeFixedSize elementsCount lenType).wrap "failed to write elements count"
  let _ ← (goTo endOffset).wrap "failed to seek to end of attestors"

/-- The loop of `io.ReadFull`, which asks for the bytes that are missing until there are none or
an error comes. The budget counts the calls; one that brings neither bytes nor an error is
made again. -/
def readAtLeast [Reader σ] : (budget missing : Nat) → (got : Bytes) → Op σ Bytes
  | _, 0, got => pure got
  | 0, _ + 1, _ => fun s => (.timeout, s)
  | budget + 1, missing + 1, got => fun s =>
    match Reader.read (missing + 1) s with
    | ((data, none), s) => readAtLeast budget (missing + 1 - data.length) (got ++ data) s
    | ((data, some error), s) =>
      if missing + 1 ≤ data.length then (.ok (got ++ data), s)
      else if got ++ data ≠ [] ∧ error = eof then (.err errUnexpectedEOF, s)
      else (.err error, s)

def readFull [Reader σ] (size : Nat) : Op σ Bytes := readAtLeast size size []

def read [Reader σ] (τ : BasicType) : Op σ τ.Value := do
  let data ← readFull τ.size
  return τ.get data

/-- One call of `Read`. Making a slice of a negative length panics. -/
def readBytes [Reader σ] (length : Int) : Op σ Bytes := fun s =>
  if length < 0 then (.panicked, s)
  else
    match Reader.read length.toNat s with
    | ((_, some error), s) => (.err (.wrap error "failed to read serialized bytes"), s)
    | ((data, none), s) =>
      let nBytes := data.length
      if nBytes ≠ length then
        (.err (.text
          s!"failed to read serialized bytes: read bytes ({nBytes}) != size ({length})"), s)
      else (.ok data, s)

def readLength [Reader σ] (kind : NumKind) : Op σ Int := do
  let result ← (read (.num kind)).wrap "failed to read length prefix"
  return (ofInt .int64 result.1).1

def readFixedSize [Reader σ] : SeriLengthPrefixType → Op σ Int
  | .asByte => readLength .uint8
  | .asUint16 => readLength .uint16
  | .asUint32 => readLength .uint32
  | .asUint64 => readLength .uint64

def readBytesWithSize [Reader σ] (lenType : SeriLengthPrefixType) : Op σ Bytes := do
  let size ← (readFixedSize lenType).wrap "failed to read bytes size"
  if size = 0 then return []
  readBytes size

def readObject [Reader σ] (fixedLen : Int)
    (objectFromBytesFunc : Bytes → Outcome Err (γ × Int)) : Op σ γ := do
  let bytes ← (readBytes fixedLen).wrap "failed to read serialized bytes"
  let (result, consumedBytes) ← (Op.lift (objectFromBytesFunc bytes)).wrap
    "failed to parse bytes of objectFromBytesFunc"
  let nBytes := bytes.length
  if consumedBytes ≠ nBytes then
    .fail (.text s!"failed to parse objectFromBytesFunc: consumed bytes ({consumedBytes}) != read bytes ({nBytes})")
  else return result

def readObjectWithSize [Reader σ] (lenType : SeriLengthPrefixType)
    (objectFromBytesFunc : Bytes → Outcome Err (γ × Int)) : Op σ γ := do
  let size ← (readFixedSize lenType).wrap "failed to read object size"
  readObject size objectFromBytesFunc

/-- The calls of the callback for the elements from `i` on. -/
def readElements [Reader σ] (readCallback : Nat → γ → Op σ γ) : (count i : Nat) → γ → Op σ γ
  | 0, _, kept => pure kept
  | count + 1, i, kept => do
    let kept ← (readCallback i kept).wrap s!"failed to read element {i}"
    readElements readCallback count (i + 1) kept

/-- The callback reads the element with the given index. What it keeps in the variables around
it is handed from call to call. -/
def readCollection [Reader σ] (lenType : SeriLengthPrefixType) (readCallback : Nat → γ → Op σ γ)
    (kept : γ) : Op σ γ := do
  let elementsCount ← (readFixedSize lenType).wrap "failed to read collection count"
  readElements readCallback elementsCount.toNat 0 kept

end

end HiveGo.Stream
