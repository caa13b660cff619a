import HiveGo.Runs
import HiveGo.StreamCollections

/-! Objects in a stream, the buffer as a file, and readers that hand out their bytes in pieces. -/
namespace HiveGo.Stream
open List Op

variable {γ σ ρ : Type}

/-- An object that is written with its size is read back, and the reader stops behind it, exactly
if the object or what follows it has bytes: the bytes of the object are asked for even when there
are none, which is an error at the end. -/
theorem object_back {object : γ} {toBytes : γ → Outcome Err Bytes}
    {fromBytes : Bytes → Outcome Err (γ × Int)} {b : Bytes} {lenType : SeriLengthPrefixType}
    (serialized : toBytes object = .ok b) (fits : Fits lenType b.length)
    (parsed : fromBytes b = .ok (object, b.length)) (front rest : Bytes) :
    ∃ written, writeObjectWithSize object lenType toBytes (⟨front, front.length⟩ : ByteBuffer) =
        (.ok (), ⟨front ++ written, (front ++ written).length⟩) ∧
      (readObjectWithSize lenType fromBytes (⟨front ++ written ++ rest, front.length⟩ : ByteReader) =
        (.ok object, ⟨front ++ written ++ rest, (front ++ written).length⟩) ↔
        b ≠ [] ∨ rest ≠ []) := by
  refine ⟨lengthPrefix lenType b.length ++ b, ?_, ?_⟩
  · unfold writeObjectWithSize
    rw [bind_of_ok (wrap_of_ok (lift_of_ok serialized _))]
    exact (appends_writeBytesWithSize fits).wrap front
  · have size := reads_readFixedSize fits front (b ++ rest)
    simp only [append_assoc] at size ⊢
    unfold readObjectWithSize
    rw [bind_of_ok (wrap_of_ok size)]
    constructor
    · intro read
      by_contra gone
      rw [not_or, not_not, not_not] at gone
      obtain ⟨rfl, rfl⟩ := gone
      simp only [append_nil] at read
      unfold readObject at read
      rw [bind_of_err (wrap_of_err (readBytes_end _))] at read
      cases read
    · intro follows
      have payload := readBytes_eq (front ++ lengthPrefix lenType b.length) rest follows
      simp only [append_assoc] at payload
      unfold readObject
      rw [bind_of_ok (wrap_of_ok payload), bind_of_ok (wrap_of_ok (lift_of_ok parsed _))]
      exact congrFun (if_neg (not_not.mpr rfl)) _

/-- One byte as an object. -/
theorem byte_back :
    ∃ written, writeObjectWithSize 7 .asByte (fun byte => .ok [byte]) (⟨[], 0⟩ : ByteBuffer) =
        (.ok (), ⟨written, written.length⟩) ∧
      readObjectWithSize .asByte (fun data => .ok (data.headD 0, 1))
          (⟨written ++ [], 0⟩ : ByteReader) = (.ok 7, ⟨written ++ [], written.length⟩) := by
  obtain ⟨written, wrote, read⟩ := @object_back UInt8 7 (fun byte => .ok [byte])
    (fun data => .ok (data.headD 0, 1)) [7] .asByte rfl (by decide) rfl [] []
  exact ⟨written, wrote, read.mpr (.inl (by decide))⟩

/-- An object without bytes at the end of the stream is not read back. -/
theorem empty_object_not_read :
    writeObjectWithSize () .asByte (fun _ => .ok []) (ByteBuffer.newByteBuffer 0) =
        (.ok (), ⟨[0], 1⟩) ∧
      readObjectWithSize .asByte (fun _ => .ok ((), 0)) (ByteReader.newByteReader [0]) =
        (.err (.wrap (.wrap eof "failed to read serialized bytes")
          "failed to read serialized bytes"), ⟨[0], 1⟩) := ⟨rfl, rfl⟩

/-! The buffer as a file. -/

/-- A file with a place in it or behind its end. -/
structure File where
  content : Bytes
  pos : Nat

/-- A call on a file. An offset is a 64-bit integer. -/
inductive FileCall where
  | write (p : Bytes)
  | seek (offset : SafeMath.Integer .int64) (whence : Whence)

namespace File

/-- The file extended with zero bytes up to its place. -/
def extended (f : File) : Bytes := f.content ++ replicate (f.pos - f.content.length) 0

/-- The place that is asked for. -/
def place (f : File) (offset : Int) : Whence → Int
  | .seekStart => offset
  | .seekCurrent => f.pos + offset
  | .seekEnd => f.content.length + offset
  | .other => 0

/-- A call and the number that it reports, or none if it fails. A place before the file, or one
that an offset leads to behind the 64-bit integers, cannot be asked for. -/
def perform (f : File) : FileCall → Option Int × File
  | .write p => (some p.length,
    ⟨f.extended.take f.pos ++ p ++ f.extended.drop (f.pos + p.length), f.pos + p.length⟩)
  | .seek offset whence =>
    let place := f.place offset.1 whence
    if place < 0 ∨ (0 < offset.1 ∧ maxInt64 < place) then (none, f)
    else (some place, { f with pos := place.toNat })

end File

namespace ByteBuffer

/-- The number that a call reports, and the buffer after it. -/
def perform (w : ByteBuffer) : FileCall → Option Int × ByteBuffer
  | .write p => (some (w.write p).1, (w.write p).2)
  | .seek offset whence =>
    match w.seek offset.1 whence with
    | (.ok place, w) => (some place, w)
    | (_, w) => (none, w)

def file (w : ByteBuffer) : File := ⟨w.buf, w.pos⟩

/-- What is written over what is there and what is appended are one piece. -/
theorem write_eq (w : ByteBuffer) (p : Bytes) :
    w.write p = (p.length, ⟨w.file.extended.take w.pos ++ p ++ w.file.extended.drop (w.pos + p.length),
      w.pos + p.length⟩) := by
  have mem : w.pos ≤ w.file.extended.length := by
    simp only [File.extended, file, length_append, length_replicate]
    omega
  change (_, ByteBuffer.mk _ _) = _
  have split : (if w.pos < w.file.extended.length then
      min (w.file.extended.length - w.pos) p.length else 0) =
      min (w.file.extended.length - w.pos) p.length := by
    split <;> omega
  rw [show w.buf ++ replicate (w.pos - w.buf.length) 0 = w.file.extended from rfl, split]
  generalize w.file.extended = buf at mem ⊢
  by_cases short : p.length ≤ buf.length - w.pos
  · simp [Nat.min_eq_right short]
  · have past : buf.length ≤ w.pos + p.length := by omega
    rw [Nat.min_eq_left (by omega), Nat.add_sub_cancel' mem, drop_length, drop_of_length_le past]
    simp only [append_nil, append_assoc, take_append_drop, length_drop]
    rw [Nat.add_sub_cancel' (by omega)]

theorem perform_file (w : ByteBuffer) (call : FileCall) :
    (w.perform call).map id file = w.file.perform call := by
  cases call with
  | write p =>
    rw [perform, write_eq]
    rfl
  | seek offset whence =>
    have bound : _ ∧ offset.1 < 2 ^ 63 := offset.2
    have sought : w.seek offset.1 whence =
        if w.file.place offset.1 whence < 0 ∨
            (0 < offset.1 ∧ maxInt64 < w.file.place offset.1 whence) then
          (.err (.text "negative result pos"), w)
        else (.ok (w.file.place offset.1 whence),
          { w with pos := (w.file.place offset.1 whence).toNat }) := by
      cases whence with
      | seekStart =>
        have near : ¬ (0 < offset.1 ∧ maxInt64 < offset.1) := by
          unfold maxInt64
          omega
        simp only [seek, File.place, near, or_false]
      | seekCurrent | seekEnd =>
        simp only [seek, File.place, moved, file]
        split
        · next far => exact (if_pos (.inr far)).symm
        · next near => simp only [near, or_false]
      | other => simp [seek, File.place, maxInt64]
    rw [perform, sought, File.perform]
    by_cases fails : w.file.place offset.1 whence < 0 ∨
        (0 < offset.1 ∧ maxInt64 < w.file.place offset.1 whence)
    · rw [if_pos fails, if_pos fails]
      rfl
    · rw [if_neg fails, if_neg fails]
      rfl

/-- After every sequence of calls the buffer is the file, and the same numbers were reported. -/
theorem byteBuffer_refines (initialLength : Nat) (calls : List FileCall) :
    (calls.foldl (answering perform) (newByteBuffer initialLength, [])).map file id =
      calls.foldl (answering File.perform) (⟨replicate initialLength 0, 0⟩, []) :=
  foldl_answering perform_file calls _

end ByteBuffer

/-! Readers that hand out their bytes in pieces. -/

/-- The pending bytes come in pieces, at least one in every call that asks for some, and then comes
the end. -/
structure Delivers [Reader σ] (pending : σ → Bytes) : Prop where
  piece : ∀ size s, pending s ≠ [] → ∃ data t, Reader.read size s = ((data, none), t) ∧
    pending s = data ++ pending t ∧ (size ≠ 0 → data ≠ [])
  atEnd : ∀ size s, pending s = [] → ∃ t, Reader.read size s = (([], some eof), t) ∧ pending t = []

/-- What is read of the bytes when a number of them is missing. -/
def readOf (missing : Nat) (got pending : Bytes) : Outcome Err Bytes :=
  if missing ≤ pending.length then .ok (got ++ pending.take missing)
  else if got ++ pending = [] then .err eof
  else .err errUnexpectedEOF

/-- The results are the same, and so are the bytes that are pending afterwards. -/
def Same (p : σ → Bytes) (q : ρ → Bytes) (left : Outcome Err γ × σ) (right : Outcome Err γ × ρ) :
    Prop := left.1 = right.1 ∧ p left.2 = q right.2

namespace Same

variable {α : Type} {op : Op σ α} {other : Op ρ α} {p : σ → Bytes} {q : ρ → Bytes}

theorem wrap (same : Same p q (op s) (other t)) :
    Same p q (op.wrap message s) (other.wrap message t) :=
  ⟨congrArg (·.mapErr (.wrap · message)) same.1, same.2⟩

theorem bind {next : α → Op σ γ} {later : α → Op ρ γ} (same : Same p q (op s) (other t))
    (rest : ∀ value, (op s).1 = .ok value → Same p q (next value (op s).2) (later value (other t).2)) :
    Same p q ((op >>= next) s) ((other >>= later) t) := by
  change Same p q (op.bind next s) (other.bind later t)
  unfold Op.bind
  obtain ⟨results, pending⟩ := same
  generalize op s = done, other t = also at results pending rest
  obtain ⟨result, u⟩ := done
  obtain ⟨result, v⟩ := also
  cases results
  cases result with
  | ok value => exact rest value rfl
  | err error => exact ⟨rfl, pending⟩
  | panicked => exact ⟨rfl, pending⟩
  | timeout => exact ⟨rfl, pending⟩

end Same

section

variable [Reader σ] [Reader ρ] {p : σ → Bytes} {q : ρ → Bytes}

/-- The reader behind so many bytes, which are asked for until they have come. -/
def behind : (budget missing : Nat) → σ → σ
  | budget + 1, missing + 1, s => behind budget
    (missing + 1 - (Reader.read (missing + 1) s).1.1.length) (Reader.read (missing + 1) s).2
  | _, _, s => s

/-- `io.ReadFull` does not depend on the pieces. -/
theorem readAtLeast_eq (delivers : Delivers p) (enough : missing ≤ budget)
    (got : Bytes) (s : σ) : ∃ t, readAtLeast budget missing got s = (readOf missing got (p s), t) ∧
      p t = (p s).drop missing ∧ (missing ≤ (p s).length → t = behind budget missing s) := by
  induction budget generalizing missing got s with
  | zero =>
    obtain rfl := Nat.le_zero.mp enough
    exact ⟨s, by simp [readAtLeast, readOf, Op.pure_eq], rfl, fun _ => rfl⟩
  | succ budget ih =>
    cases missing with
    | zero => exact ⟨s, by simp [readAtLeast, readOf, Op.pure_eq], rfl, fun _ => rfl⟩
    | succ missing =>
      by_cases ended : p s = []
      · obtain ⟨t, read, rest⟩ := delivers.atEnd (missing + 1) s ended
        refine ⟨t, ?_, by rw [rest, ended]; rfl, by simp [ended]⟩
        simp only [readAtLeast, read, readOf, ended]
        by_cases empty : got = []
        · simp [empty]
        · simp [empty]
      · obtain ⟨data, t, read, split, filled⟩ := delivers.piece (missing + 1) s ended
        have short := Reader.length_le (missing + 1) s
        rw [read] at short
        have pos := length_pos_iff.mpr (filled (Nat.succ_ne_zero _))
        obtain ⟨u, ran, rest, same⟩ :=
          ih (show missing + 1 - data.length ≤ budget by omega) (got ++ data) t
        refine ⟨u, ?_, ?_, fun there => ?_⟩
        · simp only [readAtLeast, read]
          refine ran.trans ?_
          simp only [readOf, split, append_assoc, take_append, take_of_length_le short,
            length_append, Nat.sub_le_iff_le_add']
        · rw [rest, split, drop_append, drop_of_length_le short, nil_append]
        · rw [split, length_append] at there
          rw [behind, read]
          exact same (by omega)

/-- How many bytes the call for so many brings. A negative number is not asked for. -/
def answered (size : Int) (s : σ) : Nat :=
  if size < 0 then 0 else (Reader.read size.toNat s).1.1.length

/-- What one call makes of the pending bytes, if it brings so many of them. -/
def bytesOf (length : Int) (pending : Bytes) (count : Nat) : Outcome Err Bytes :=
  if length < 0 then .panicked
  else if pending = [] then .err (.wrap eof "failed to read serialized bytes")
  else if count ≠ length then
    .err (.text s!"failed to read serialized bytes: read bytes ({count}) != size ({length})")
  else .ok (pending.take count)

/-- `ReadBytes` depends on the pieces by the number of bytes that its one call brings. -/
theorem readBytes_pieces (delivers : Delivers p) (length : Int) (s : σ) :
    ∃ t, readBytes length s = (bytesOf length (p s) (answered length s), t) ∧
      p t = (p s).drop (answered length s) ∧ answered length s ≤ (p s).length := by
  unfold readBytes bytesOf answered
  by_cases negative : length < 0
  · exact ⟨s, by simp [negative], by simp [negative], by simp [negative]⟩
  · simp only [negative, if_false]
    by_cases ended : p s = []
    · obtain ⟨t, read, rest⟩ := delivers.atEnd length.toNat s ended
      exact ⟨t, by simp [read, ended], by simp [read, rest, ended], by simp [read]⟩
    · obtain ⟨data, t, read, split, -⟩ := delivers.piece length.toNat s ended
      refine ⟨t, ?_, by simp [read, split], by simp [read, split]⟩
      simp only [read, ended, if_false]
      split
      · rfl
      · simp [split]

/-- The size that the first of the bytes spell. -/
def spelledSize (lenType : SeriLengthPrefixType) (pending : Bytes) : Int :=
  (SafeMath.ofInt .int64 (BasicType.get (.num (kindOf lenType))
    (pending.take (kindOf lenType).size)).1).1

/-- The size does not depend on the pieces. -/
theorem readFixedSize_pieces (delivers : Delivers p) (lenType : SeriLengthPrefixType)
    (there : (kindOf lenType).size ≤ (p s).length) :
    readFixedSize lenType s = (.ok (spelledSize lenType (p s)),
      behind (kindOf lenType).size (kindOf lenType).size s) ∧
    p (behind (kindOf lenType).size (kindOf lenType).size s) = (p s).drop (kindOf lenType).size := by
  obtain ⟨t, ran, rest, same⟩ := readAtLeast_eq delivers le_rfl [] s
  rw [readOf, if_pos there] at ran
  obtain rfl := same there
  refine ⟨?_, rest⟩
  have word : read (.num (kindOf lenType)) s =
      (.ok (BasicType.get (.num (kindOf lenType)) ((p s).take (kindOf lenType).size)), _) :=
    bind_of_ok ran
  rw [readFixedSize_eq, readLength, bind_of_ok (wrap_of_ok word)]
  rfl

theorem readFixedSize_short (delivers : Delivers p) (lenType : SeriLengthPrefixType)
    (short : (p s).length < (kindOf lenType).size) : ∃ t, readFixedSize lenType s =
      (.err (.wrap (if p s = [] then eof else errUnexpectedEOF) "failed to read length prefix"), t) ∧
      p t = [] := by
  obtain ⟨t, ran, rest, -⟩ := readAtLeast_eq delivers le_rfl [] s
  rw [readOf, if_neg (not_le.mpr short), nil_append, ← apply_ite] at ran
  refine ⟨t, ?_, by rw [rest, drop_of_length_le short.le]⟩
  have word : read (.num (kindOf lenType)) s = (.err _, t) := bind_of_err ran
  rw [readFixedSize_eq, readLength, bind_of_err (wrap_of_err word)]

/-- Parsing the bytes does not touch the reader. -/
theorem readObject_snd (fixedLen : Int) (fromBytes : Bytes → Outcome Err (γ × Int)) (s : σ) :
    (readObject fixedLen fromBytes s).2 = (readBytes fixedLen s).2 := by
  change (Op.bind _ _ s).2 = _
  unfold Op.bind Op.wrap
  cases (readBytes fixedLen s).1 with
  | ok data =>
    change (Op.bind _ _ _).2 = _
    unfold Op.bind Op.lift
    cases fromBytes data with
    | ok result =>
      dsimp only [Outcome.mapErr]
      split <;> rfl
    | _ => rfl
  | _ => rfl

variable (delivers : Delivers p) (others : Delivers q)
include delivers others

theorem same_readBytes_iff (same : p s = q t) (length : Int) :
    (Same p q (readBytes length s) (readBytes length t) ↔ answered length s = answered length t) ∧
    (p (readBytes length s).2 = q (readBytes length t).2 → answered length s = answered length t) := by
  obtain ⟨u, left, rest, low⟩ := readBytes_pieces delivers length s
  obtain ⟨v, right, also, high⟩ := readBytes_pieces others length t
  rw [left, right]
  have lengths : p u = q v → answered length s = answered length t := by
    intro pending
    have lengths := congrArg List.length (rest.symm.trans (pending.trans also))
    rw [same, length_drop, length_drop] at lengths
    rw [same] at low
    omega
  refine ⟨⟨fun both => lengths both.2, fun equal => ?_⟩, lengths⟩
  rw [same, equal]
  exact ⟨rfl, by rw [rest, also, same, equal]⟩

theorem same_readObject_iff (same : p s = q t) (fixedLen : Int)
    (fromBytes : Bytes → Outcome Err (γ × Int)) :
    Same p q (readObject fixedLen fromBytes s) (readObject fixedLen fromBytes t) ↔
      answered fixedLen s = answered fixedLen t := by
  obtain ⟨iff, pending⟩ := same_readBytes_iff delivers others same fixedLen
  constructor
  · rintro ⟨-, after⟩
    rw [readObject_snd, readObject_snd] at after
    exact pending after
  · intro equal
    have read := iff.mpr equal
    refine read.wrap.bind fun data _ => ?_
    have parsed : Same p q (Op.lift (fromBytes data) (readBytes fixedLen s).2)
      (Op.lift (fromBytes data) (readBytes fixedLen t).2) := ⟨rfl, read.2⟩
    refine parsed.wrap.bind fun result _ => ?_
    dsimp only
    split
    · exact ⟨rfl, read.2⟩
    · exact ⟨rfl, read.2⟩

/-- Two readers of the same bytes: what is read, and what remains, is the same exactly if both
bring the same number of bytes in the one call for the bytes behind the size. The size may come
in any pieces. -/
theorem pieces_agree (same : p s = q t) (fromBytes : Bytes → Outcome Err (γ × Int)) :
    (∀ fixedLen,
      (Same p q (readBytes fixedLen s) (readBytes fixedLen t) ↔
        answered fixedLen s = answered fixedLen t) ∧
      (Same p q (readObject fixedLen fromBytes s) (readObject fixedLen fromBytes t) ↔
        answered fixedLen s = answered fixedLen t)) ∧
    ∀ lenType width size, width = (kindOf lenType).size → size = spelledSize lenType (p s) →
      (Same p q (readBytesWithSize lenType s) (readBytesWithSize lenType t) ↔
        (p s).length < width ∨ size = 0 ∨
          answered size (behind width width s) = answered size (behind width width t)) ∧
      (Same p q (readObjectWithSize lenType fromBytes s) (readObjectWithSize lenType fromBytes t) ↔
        (p s).length < width ∨
          answered size (behind width width s) = answered size (behind width width t)) := by
  refine ⟨fun fixedLen => ⟨(same_readBytes_iff delivers others same fixedLen).1,
    same_readObject_iff delivers others same fixedLen fromBytes⟩, ?_⟩
  rintro lenType _ _ rfl rfl
  by_cases short : (p s).length < (kindOf lenType).size
  · obtain ⟨u, left, rest⟩ := readFixedSize_short delivers lenType short
    obtain ⟨v, right, also⟩ := readFixedSize_short others lenType (same ▸ short)
    rw [← same] at right
    simp only [short, true_or, iff_true]
    unfold readBytesWithSize readObjectWithSize
    rw [bind_of_err (wrap_of_err left), bind_of_err (wrap_of_err right),
      bind_of_err (wrap_of_err left), bind_of_err (wrap_of_err right)]
    exact ⟨⟨rfl, rest.trans also.symm⟩, ⟨rfl, rest.trans also.symm⟩⟩
  · obtain ⟨left, rest⟩ := readFixedSize_pieces delivers lenType (not_lt.mp short)
    obtain ⟨right, also⟩ := readFixedSize_pieces others lenType (same ▸ not_lt.mp short)
    rw [← same] at right also
    have behindBoth := rest.trans also.symm
    simp only [short, false_or]
    unfold readBytesWithSize readObjectWithSize
    rw [bind_of_ok (wrap_of_ok left), bind_of_ok (wrap_of_ok right), bind_of_ok (wrap_of_ok left),
      bind_of_ok (wrap_of_ok right)]
    refine ⟨?_, same_readObject_iff delivers others behindBoth _ fromBytes⟩
    split
    · next empty => exact iff_of_true ⟨rfl, behindBoth⟩ (.inl empty)
    · next filled =>
      rw [(same_readBytes_iff delivers others behindBoth _).1]
      simp [filled]

end

/-- A reader that hands out at most so many bytes and one more in a call. -/
structure Pieces where
  more : Nat
  rest : Bytes

namespace Pieces

instance : Reader Pieces where
  read size s :=
    if s.rest = [] then (([], some eof), s)
    else ((s.rest.take (min size (s.more + 1)), none),
      { s with rest := s.rest.drop (min size (s.more + 1)) })
  length_le size s := by
    split
    · exact Nat.zero_le _
    · exact (length_take_le _ _).trans (Nat.min_le_left _ _)

theorem delivers : Delivers Pieces.rest where
  piece size s filled := by
    refine ⟨_, _, if_neg filled, (take_append_drop _ _).symm, fun pos => ?_⟩
    simpa [filled] using pos
  atEnd size s ended := ⟨s, if_pos ended, ended⟩

end Pieces

/-- The size comes in two pieces or in one. -/
theorem two_bytes_agree : Same Pieces.rest Pieces.rest
    (readBytesWithSize .asUint32 ⟨1, [2, 0, 0, 0, 7, 8]⟩)
    (readBytesWithSize .asUint32 ⟨5, [2, 0, 0, 0, 7, 8]⟩) :=
  ((pieces_agree Pieces.delivers Pieces.delivers (s := ⟨1, [2, 0, 0, 0, 7, 8]⟩)
    (t := ⟨5, [2, 0, 0, 0, 7, 8]⟩) rfl fun _ => (.panicked : Outcome Err (Unit × Int))).2
      .asUint32 4 2 rfl rfl).1.mpr (.inr (.inr rfl))

/-- The second byte comes with another call, which is not made. -/
theorem cut_bytes_not_read :
    readBytes 2 (⟨1, [1, 2]⟩ : Pieces) = (.ok [1, 2], ⟨1, []⟩) ∧
    readBytes 2 (⟨0, [1, 2]⟩ : Pieces) = (.err (.text
      "failed to read serialized bytes: read bytes (1) != size (2)"), ⟨0, [2]⟩) := ⟨rfl, rfl⟩

end HiveGo.Stream
