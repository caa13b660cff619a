import HiveGo.Deserializer
import HiveGo.LittleEndian
import HiveGo.Outcome

/-! Readers that take a prefix of their input and report how long it was. A reader is related to a
format, a relation between values and byte strings, by two inclusions, which make it independent
of what follows the prefix. -/
namespace HiveGo

namespace PrefixReader

variable {ε α σ : Type}

/-- The reader returns the value on every input that starts with the piece, and takes
exactly the piece. -/
def Takes (read : Bytes → Outcome ε (α × Nat)) (value : α) (piece : Bytes) : Prop :=
  ∀ rest, read (piece ++ rest) = .ok (value, piece.length)

/-- Everything the reader returns belongs to the format. -/
def Within (read : Bytes → Outcome ε (α × Nat)) (format : α → Bytes → Prop) : Prop :=
  ∀ input value n, read input = .ok (value, n) →
    ∃ piece rest, input = piece ++ rest ∧ n = piece.length ∧ format value piece

theorem Within.mono {read : Bytes → Outcome ε (α × Nat)}
    (within : Within read format) (implies : ∀ value piece, format value piece → other value piece) :
    Within read other := by
  intro input value n taken
  obtain ⟨piece, rest, split, size, spelt⟩ := within input value n taken
  exact ⟨piece, rest, split, size, implies value piece spelt⟩

/-- States connected by steps that are labelled with pieces. -/
def Chain (step : σ → Bytes → σ → Prop) : σ → List Bytes → σ → Prop
  | first, [], last => first = last
  | first, piece :: pieces, last => ∃ next, step first piece next ∧ Chain step next pieces last

end PrefixReader

end HiveGo

/-! What the reader does at a position. A reader without an error is described by the
bytes before its position and the bytes behind it. -/
namespace HiveGo

open PrefixReader Outcome LittleEndian List Serializer

namespace Deserializer

/-- A reader without an error, behind `before` and in front of `rest`. -/
def at_ (before rest : Bytes) : Deserializer := { src := before ++ rest, offset := before.length }

@[simp] theorem at_err : (at_ before rest).err = none := rfl

@[simp] theorem at_done : (at_ before rest).done = .ok before.length := rfl

theorem at_nil (b : Bytes) : ({ src := b } : Deserializer) = at_ [] b := rfl

@[simp] theorem remainingBytes_at (pre rest : Bytes) :
    (at_ pre rest).remainingBytes = .ok rest := by
  simp [remainingBytes, at_, sliceFrom]

/-- Moving over a piece. -/
theorem advance_at (pre piece rest : Bytes) (size : piece.length = n) :
    ({ src := (at_ pre (piece ++ rest)).src
       offset := (at_ pre (piece ++ rest)).offset + n } : Deserializer) =
      at_ (pre ++ piece) rest := by
  subst size
  simp [at_]

@[simp] theorem fail_at : ((at_ before rest).fail error).err = some error := rfl

variable {d : Deserializer}
variable {after : Deserializer}

theorem done_eq_ok : d.done = .ok n ↔ d.err = none ∧ d.offset = n := by
  unfold done
  cases d.err <;> simp

variable {input : Bytes}

private theorem split_at (long : ¬ input.length < width) :
    ∃ piece rest, input = piece ++ rest ∧ piece.length = width :=
  ⟨input.take width, input.drop width, (take_append_drop width input).symm,
    by rw [length_take]; omega⟩

private theorem split_number (long : ¬ input.length < width) :
    ∃ n rest, n < 256 ^ width ∧ input = put width n ++ rest := by
  obtain ⟨piece, rest, rfl, rfl⟩ := split_at long
  exact ⟨get piece, rest, get_lt piece, by rw [put_get]⟩

private theorem long_append (size : piece.length = n) (rest : Bytes) :
    ¬ (piece ++ rest).length < n := by
  simp [← size]

@[simp] theorem sliceTo_append (size : piece.length = n) :
    sliceTo (piece ++ rest) n = .ok piece := by
  subst size
  simp [sliceTo]

@[simp] theorem sliceFrom_append (piece rest : Bytes) (size : piece.length = n) :
    sliceFrom (piece ++ rest) n = .ok rest := by
  subst size
  simp [sliceFrom]

/-- Skipping over a piece. -/
theorem skip_at (pre piece rest : Bytes) (n : Nat) (size : piece.length = n) :
    (at_ pre (piece ++ rest)).skip n errProducer = .ok (at_ (pre ++ piece) rest) := by
  simp only [skip, at_err, remainingBytes_at, ok_bind, long_append size, if_false, pure_eq]
  rw [advance_at pre piece rest size]

/-- A reader that ends clean has started clean. -/
theorem skip_started (skipped : d.skip n errProducer = .ok after) (clean : after.err = none) :
    d.err = none := by
  cases kept : d.err with
  | none => rfl
  | some error =>
    simp only [skip, kept] at skipped
    cases skipped
    rw [kept] at clean
    cases clean

variable {α : Type}

/-- A fixed-width read takes its width. -/
theorem readFixed_at (size : piece.length = width) :
    (at_ before (piece ++ rest)).readFixed dest width value errProducer =
      .ok (at_ (before ++ piece) rest, value piece) := by
  simp only [readFixed, at_err, remainingBytes_at, ok_bind, long_append size, if_false,
    sliceTo_append size, pure_eq]
  rw [advance_at before piece rest size]

theorem readFixed_at_ok
    (read : (at_ before input).readFixed dest width value errProducer = .ok (d, result))
    (clean : d.err = none) : ∃ piece rest, input = piece ++ rest ∧ piece.length = width ∧
      d = at_ (before ++ piece) rest ∧ result = value piece := by
  by_cases short : input.length < width
  · simp only [readFixed, at_err, remainingBytes_at, ok_bind, short, if_true] at read
    cases read
    simp at clean
  · obtain ⟨piece, rest, rfl, size⟩ := split_at short
    rw [readFixed_at size] at read
    cases read
    exact ⟨piece, rest, rfl, size, rfl, rfl⟩

theorem readBool_at :
    (at_ before ((if v then 1 else 0) :: rest)).readBool dest errProducer =
      .ok (at_ (before ++ [if v then 1 else 0]) rest, v) := by
  have moved := advance_at before [if v then 1 else 0] rest rfl
  cases v with
  | false => simpa [readBool] using moved
  | true => simpa [readBool] using moved

theorem readBool_at_ok (read : (at_ before input).readBool dest errProducer = .ok (d, v))
    (clean : d.err = none) : ∃ rest, input = (if v then 1 else 0) :: rest ∧
      d = at_ (before ++ [if v then 1 else 0]) rest := by
  cases input with
  | nil =>
    simp only [readBool, at_err, remainingBytes_at, ok_bind] at read
    cases read
    simp at clean
  | cons byte rest =>
    by_cases zero : byte = 0
    · subst zero
      rw [show (0 : UInt8) = if false then 1 else 0 from rfl, readBool_at] at read
      cases read
      exact ⟨rest, rfl, rfl⟩
    · by_cases one : byte = 1
      · subst one
        rw [show (1 : UInt8) = if true then 1 else 0 from rfl, readBool_at] at read
        cases read
        exact ⟨rest, rfl, rfl⟩
      · simp only [readBool, at_err, remainingBytes_at, ok_bind, zero, one,
          if_false] at read
        cases read
        simp at clean

/-! Lengths. -/

theorem readSliceLength_at (known : lenType.size = some size) (small : n < 256 ^ size)
    (pre rest : Bytes) (errProducer : Err → Err) :
    (at_ pre (put size n ++ rest)).readSliceLength lenType errProducer =
      .ok (at_ (pre ++ put size n) rest, n) := by
  have width := length_put size n
  simp only [readSliceLength, remainingBytes_at, ok_bind, known, long_append width, if_false,
    sliceTo_append width, get_put_of_lt small, pure_eq, at_err]
  rw [advance_at pre _ rest width]

theorem readSliceLength_at_ok
    (read : (at_ before input).readSliceLength lenType errProducer = .ok (d, n)) :
    ∃ size rest, lenType.size = some size ∧ n < 256 ^ size ∧
      input = put size n ++ rest ∧ d = at_ (before ++ put size n) rest := by
  cases known : lenType.size with
  | none =>
    simp only [readSliceLength, remainingBytes_at, ok_bind, known] at read
    cases read
  | some size =>
    by_cases short : input.length < size
    · simp only [readSliceLength, remainingBytes_at, ok_bind, known, short, if_true] at read
      cases read
    · obtain ⟨n, rest, small, rfl⟩ := split_number short
      rw [readSliceLength_at known small] at read
      cases read
      exact ⟨size, rest, rfl, small, rfl, rfl⟩

theorem readPayloadLength_at (small : n < 256 ^ 4) (pre rest : Bytes) :
    (at_ pre (put 4 n ++ rest)).readPayloadLength = .ok (at_ (pre ++ put 4 n) rest, n) := by
  have width := length_put 4 n
  simp only [readPayloadLength, remainingBytes_at, ok_bind, long_append width, if_false,
    sliceTo_append width, get_put_of_lt small, pure_eq, at_err]
  rw [advance_at pre _ rest width]

theorem readPayloadLength_at_ok (read : (at_ before input).readPayloadLength = .ok (d, n)) :
    ∃ rest, n < 256 ^ 4 ∧ input = put 4 n ++ rest ∧ d = at_ (before ++ put 4 n) rest := by
  by_cases short : input.length < 4
  · simp only [readPayloadLength, remainingBytes_at, ok_bind, short, if_true] at read
    cases read
  · obtain ⟨n, rest, small, rfl⟩ := split_number short
    rw [readPayloadLength_at small] at read
    cases read
    exact ⟨rest, small, rfl, rfl⟩

theorem readPayloadLength_started (read : d.readPayloadLength = .ok (after, n))
    (clean : after.err = none) : d.err = none := by
  obtain ⟨rest, _, read⟩ := bind_eq_ok.mp read
  split at read
  · cases read
  · obtain ⟨data, _, read⟩ := bind_eq_ok.mp read
    cases read
    exact clean

theorem keeping_at_ok {dest : β} {rest : α → Outcome Err (Deserializer × β)} {result : β}
    (kept : (at_ before input).keeping dest call rest = .ok (d, result)) (clean : d.err = none) :
    ∃ value, call = .ok value ∧ rest value = .ok (d, result) := by
  cases call with
  | ok value => exact ⟨value, rfl, kept⟩
  | err error =>
    cases kept
    simp at clean
  | panicked => cases kept
  | timeout => cases kept

@[simp] theorem keeping_ok : d.keeping dest (.ok value) rest = rest value := rfl

variable {length : Nat}

theorem checkLength_of_inside (long : tooLong length maxLen = false)
    (short : tooShort length minLen = false) :
    d.checkLength length minLen maxLen tooLongText tooShortText errProducer = d := by
  simp [checkLength, long, short]

theorem inside_of_checkLength
    (clean : ((at_ before rest).checkLength length minLen maxLen tooLongText tooShortText
      errProducer).err = none) :
    tooLong length maxLen = false ∧ tooShort length minLen = false := by
  cases long : tooLong length maxLen with
  | true => simp [checkLength, long] at clean
  | false =>
    cases short : tooShort length minLen with
    | true => simp [checkLength, long, short] at clean
    | false => exact ⟨rfl, rfl⟩

theorem readBody_at :
    (at_ before (s ++ rest)).readBody dest s.length tooFew = .ok (at_ (before ++ s) rest, s) := by
  simp only [readBody, remainingBytes_at, ok_bind, long_append rfl, if_false, sliceTo_append rfl,
    pure_eq, at_err]
  rw [advance_at _ s rest rfl]

theorem readBody_ok (read : d.readBody dest length tooFew = .ok (after, s))
    (clean : after.err = none) : d.err = none := by
  obtain ⟨rest, _, read⟩ := bind_eq_ok.mp read
  split at read
  · cases read
    cases clean
  · obtain ⟨data, _, read⟩ := bind_eq_ok.mp read
    cases read
    exact clean

theorem readBody_at_ok (read : (at_ before input).readBody dest length tooFew = .ok (d, s))
    (clean : d.err = none) :
    ∃ rest, s.length = length ∧ input = s ++ rest ∧ d = at_ (before ++ s) rest := by
  by_cases short : input.length < length
  · simp only [readBody, remainingBytes_at, ok_bind, short, if_true] at read
    cases read
    cases clean
  · obtain ⟨piece, rest, rfl, rfl⟩ := split_at short
    rw [readBody_at] at read
    cases read
    exact ⟨rest, rfl, rfl, rfl⟩

/-- A string is its length, within the bounds, and its bytes. -/
theorem readString_at_ok
    (read : (at_ before input).readString dest lenType errProducer minLen maxLen = .ok (d, s))
    (clean : d.err = none) : ∃ size rest, lenType.size = some size ∧ s.length < 256 ^ size ∧
      tooLong s.length maxLen = false ∧ tooShort s.length minLen = false ∧
      input = put size s.length ++ (s ++ rest) ∧
      d = at_ (before ++ put size s.length ++ s) rest := by
  obtain ⟨⟨d', n⟩, length, read⟩ := keeping_at_ok read clean
  obtain ⟨size, rest, known, small, rfl, rfl⟩ := readSliceLength_at_ok length
  obtain ⟨long, short⟩ := inside_of_checkLength (readBody_ok read clean)
  dsimp only at read
  rw [checkLength_of_inside long short] at read
  obtain ⟨behind, rfl, rfl, rfl⟩ := readBody_at_ok read clean
  exact ⟨size, behind, known, small, long, short, rfl, rfl⟩

/-- A byte slice is its length, within the bounds, and its bytes. -/
theorem readVariableByteSlice_at (known : lenType.size = some size) (small : s.length < 256 ^ size)
    (long : tooLong s.length maxLen = false)
    (short : tooShort s.length minLen = false) :
    (at_ before (put size s.length ++ (s ++ rest))).readVariableByteSlice dest lenType
      errProducer minLen maxLen = .ok (at_ (before ++ put size s.length ++ s) rest, s) := by
  simp only [readVariableByteSlice, at_err, readSliceLength_at known small, keeping_ok,
    checkLength_of_inside long short]
  split
  · rename_i empty
    rw [eq_nil_of_length_eq_zero empty]
    simp
  · rw [readBody_at]

theorem readVariableByteSlice_at_ok
    (read : (at_ before input).readVariableByteSlice dest lenType errProducer minLen maxLen = .ok (d, s))
    (clean : d.err = none) : ∃ size rest, lenType.size = some size ∧ s.length < 256 ^ size ∧
      tooLong s.length maxLen = false ∧ tooShort s.length minLen = false ∧
      input = put size s.length ++ (s ++ rest) ∧
      d = at_ (before ++ put size s.length ++ s) rest := by
  obtain ⟨⟨d', n⟩, length, read⟩ := keeping_at_ok read clean
  obtain ⟨size, rest, known, small, rfl, rfl⟩ := readSliceLength_at_ok length
  dsimp only at read
  split at read
  · rename_i empty
    subst empty
    cases read
    obtain ⟨long, short⟩ := inside_of_checkLength clean
    refine ⟨size, rest, known, small, long, short, rfl, ?_⟩
    rw [checkLength_of_inside long short]
    simp
  · obtain ⟨long, short⟩ := inside_of_checkLength (readBody_ok read clean)
    rw [checkLength_of_inside long short] at read
    obtain ⟨behind, rfl, rfl, rfl⟩ := readBody_at_ok read clean
    exact ⟨size, behind, known, small, long, short, rfl, rfl⟩

/-! Type codes. -/

/-- The bytes of a type code. -/
def codePiece (typeDen : TypeDenotationType) (code : UInt32) : Bytes :=
  match typeDen with
  | .uint32 => put 4 code.toNat
  | .byte => [code.toUInt8]
  | .none => []

private theorem code_lt (code : UInt32) : code.toNat < 256 ^ 4 := code.toNat_lt

private theorem checkType_piece (code : UInt32) (rest : Bytes) :
    checkType (put 4 code.toNat ++ rest) code = .ok () := by
  have width := length_put 4 code.toNat
  simp only [checkType, long_append width, if_false, get_take_put (code_lt code), ne_eq,
    not_true_eq_false]

private theorem checkType_ok (good : checkType input code = .ok ()) :
    ∃ rest, input = put 4 code.toNat ++ rest := by
  unfold checkType at good
  split at good
  · cases good
  · dsimp only at good
    split at good
    · cases good
    · rename_i same
      refine ⟨input.drop 4, ?_⟩
      rw [← not_not.mp same, put_get_take (by omega), take_append_drop]

theorem checkTypePrefix_at (coded : typeDen ≠ .none) (code : UInt32) (pre rest : Bytes)
    (errProducer : Err → Err) :
    (at_ pre (codePiece typeDen code ++ rest)).checkTypePrefix code typeDen errProducer =
      .ok (at_ (pre ++ codePiece typeDen code) rest) := by
  cases typeDen with
  | none => exact absurd rfl coded
  | uint32 =>
    simp only [checkTypePrefix, at_err, remainingBytes_at, ok_bind, codePiece, checkType_piece]
    exact skip_at pre _ rest 4 (length_put _ _)
  | byte =>
    simp only [checkTypePrefix, at_err, remainingBytes_at, ok_bind, codePiece,
      checkTypeByte, cons_append, nil_append, ne_eq, not_true_eq_false, if_false]
    exact skip_at pre [code.toUInt8] rest 1 rfl

theorem checkTypePrefix_at_ok
    (good : (at_ before input).checkTypePrefix code typeDen errProducer = .ok d)
    (clean : d.err = none) : ∃ rest, input = codePiece typeDen code ++ rest ∧
      d = at_ (before ++ codePiece typeDen code) rest := by
  have found : typeDen ≠ .none ∧ ∃ rest, input = codePiece typeDen code ++ rest := by
    cases typeDen with
    | none => simp [checkTypePrefix] at good
    | uint32 =>
      simp only [checkTypePrefix, at_err, remainingBytes_at, ok_bind] at good
      split at good
      · rename_i same
        exact ⟨by decide, checkType_ok same⟩
      · cases good
        simp at clean
      · cases good
      · cases good
    | byte =>
      simp only [checkTypePrefix, at_err, remainingBytes_at, ok_bind] at good
      split at good
      · rename_i same
        cases input with
        | nil => cases same
        | cons byte rest =>
          by_cases equal : byte = code.toUInt8
          · rw [equal]
            exact ⟨by decide, rest, rfl⟩
          · simp [checkTypeByte, equal] at same
      · cases good
        simp at clean
      · cases good
      · cases good
  obtain ⟨coded, rest, rfl⟩ := found
  rw [checkTypePrefix_at coded] at good
  cases good
  exact ⟨rest, rfl, rfl⟩

/-- Looking at a code does not move the reader. A code that is written as a byte has to
be one. -/
theorem getObjectType_at (coded : typeDen ≠ .none)
    (fits : typeDen = .byte → code.toUInt8.toUInt32 = code) :
    (at_ before (codePiece typeDen code ++ rest)).getObjectType typeDen = .ok code := by
  cases typeDen with
  | none => exact absurd rfl coded
  | uint32 =>
    have width := length_put 4 code.toNat
    simp only [getObjectType, remainingBytes_at, ok_bind, codePiece, long_append width, if_false,
      sliceTo_append width, get_put_of_lt (code_lt code), pure_eq, UInt32.ofNat_toNat]
  | byte =>
    have single : [code.toUInt8].length = 1 := rfl
    simp only [getObjectType, remainingBytes_at, ok_bind, codePiece, long_append single, if_false,
      sliceTo_append single, pure_eq, LittleEndian.get, Nat.mul_zero, Nat.add_zero]
    rw [UInt32.ofNat_uInt8ToNat, fits rfl]

/-- The code that was found is in front of the position. -/
theorem getObjectType_at_ok (coded : typeDen ≠ .none)
    (found : (at_ before input).getObjectType typeDen = .ok code) :
    ∃ rest, input = codePiece typeDen code ++ rest := by
  unfold getObjectType at found
  rw [remainingBytes_at, ok_bind] at found
  cases typeDen with
  | none => exact absurd rfl coded
  | uint32 =>
    dsimp only at found
    split at found
    · cases found
    · have slice : sliceTo input 4 = .ok (input.take 4) := if_pos (by omega)
      rw [slice, ok_bind] at found
      cases found
      have size : (input.take 4).length = 4 := by
        rw [length_take]
        omega
      have word : (UInt32.ofNat (get (input.take 4))).toNat = LittleEndian.get (input.take 4) := by
        have small := get_lt (input.take 4)
        rw [size] at small
        exact UInt32.toNat_ofNat_of_lt' small
      refine ⟨input.drop 4, ?_⟩
      rw [codePiece, word, put_get_take (by omega), take_append_drop]
  | byte =>
    cases input with
    | nil => cases found
    | cons byte rest =>
      cases found
      simp [codePiece, LittleEndian.get]

/-! Sequences. -/

/-- The validation that the loop over the items performs on their bytes. -/
def Validated (rules : Option ArrayRules) (seen : ArrayRules.Seen) (index : Nat)
    (data : List Bytes) : Prop :=
  ∀ arrayRules, rules = some arrayRules →
    ∃ after, arrayRules.validateElements seen index (data.map some) = .ok after

variable {σ : Type}

theorem readItems_at :
    ∀ seen index {first last : σ} pre rest,
      Chain (fun acc piece next => Takes (item acc) next piece) first data last →
      Validated rules seen index data →
      readItems item rules errProducer data.length index seen (at_ pre (data.flatten ++ rest))
        first = .ok (at_ (pre ++ data.flatten) rest, last) := by
  induction data with
  | nil =>
    rintro seen index first last pre rest rfl _
    simp [readItems]
  | cons piece data ih =>
    rintro seen index first last pre rest ⟨next, taken, chain⟩ validated
    have moved := advance_at pre piece (data.flatten ++ rest) rfl
    have step := taken (data.flatten ++ rest)
    rw [length_cons, flatten_cons, append_assoc]
    simp only [readItems, remainingBytes_at, ok_bind, step, mapErr_ok, keeping_ok, at_err, moved]
    cases rules with
    | none =>
      have later := ih seen (index + 1) (pre ++ piece) rest chain (by
        rintro _ ⟨⟩)
      simpa using later
    | some arrayRules =>
      obtain ⟨after, validated⟩ := validated arrayRules rfl
      obtain ⟨middle, head, tail⟩ := bind_eq_ok.mp validated
      have later := ih middle (index + 1) (pre ++ piece) rest chain (by
        rintro _ ⟨⟩
        exact ⟨after, tail⟩)
      simp only [sliceTo_append rfl, ok_bind, head, mapErr_ok, keeping_ok]
      simpa using later

theorem readItems_at_ok
    (within : ∀ acc, Within (item acc) fun next piece => step acc piece next) {count : Nat} :
    ∀ {seen : ArrayRules.Seen} {index : Nat} {first last : σ} {pre input : Bytes}
      {d : Deserializer},
      readItems item rules errProducer count index seen (at_ pre input) first = .ok (d, last) →
      d.err = none →
      ∃ data rest, input = data.flatten ++ rest ∧ data.length = count ∧
        d = at_ (pre ++ data.flatten) rest ∧ Chain step first data last ∧
        Validated rules seen index data := by
  induction count with
  | zero =>
    intro seen index first last pre input d read clean
    cases read
    exact ⟨[], input, rfl, rfl, by simp, rfl, fun _ _ => ⟨seen, rfl⟩⟩
  | succ count ih =>
    intro seen index first last pre input d read clean
    simp only [readItems, remainingBytes_at, ok_bind] at read
    obtain ⟨⟨next, n⟩, called, read⟩ := keeping_at_ok read clean
    obtain ⟨piece, behind, rfl, rfl, ran⟩ :=
      within first _ _ _ (mapErr_eq_ok.mp called)
    simp only [at_err, advance_at pre piece behind rfl] at read
    cases rules with
    | none =>
      obtain ⟨data, rest, rfl, rfl, rfl, chain, _⟩ := ih read clean
      exact ⟨piece :: data, rest, by simp, rfl, by simp, ⟨next, ran, chain⟩, by rintro _ ⟨⟩⟩
    | some arrayRules =>
      simp only [sliceTo_append rfl, ok_bind] at read
      obtain ⟨middle, validated, read⟩ := keeping_at_ok read clean
      obtain ⟨data, rest, rfl, rfl, rfl, chain, later⟩ := ih read clean
      obtain ⟨after, later⟩ := later arrayRules rfl
      refine ⟨piece :: data, rest, by simp, rfl, by simp, ⟨next, ran, chain⟩, ?_⟩
      rintro _ ⟨⟩
      exact ⟨after, bind_eq_ok.mpr ⟨middle, mapErr_eq_ok.mp validated, later⟩⟩

/-- The rules that a mode enforces. -/
def enforced (mode : DeSerializationMode) (rules : ArrayRules) : Option ArrayRules :=
  if mode.performValidation then some rules else none

/-- A sequence is the number of its items, within the bounds, and the items. -/
theorem readSequenceOfObjects_at (known : lenType.size = some size)
    (small : data.length < 256 ^ size)
    (bounded : mode.performValidation = true → rules.checkBounds data.length = .ok ())
    (validated : Validated (enforced mode rules) {} 0 data)
    (chain : Chain (fun acc piece next => Takes (item acc) next piece) first data last) :
    (at_ before (put size data.length ++ (data.flatten ++ rest))).readSequenceOfObjects
      first item mode lenType rules errProducer =
        .ok (at_ (before ++ put size data.length ++ data.flatten) rest, last) := by
  simp only [readSequenceOfObjects, at_err, readSliceLength_at known small, keeping_ok]
  have items : readItems item (enforced mode rules) errProducer data.length 0 {} _ first = _ :=
    readItems_at {} 0 (before ++ put size data.length) rest chain validated
  cases done : mode.performValidation with
  | false => simpa [enforced, done] using items
  | true => simpa [enforced, done, bounded done] using items

theorem readSequenceOfObjects_at_ok {mode : DeSerializationMode} {rules : ArrayRules}
    {step : σ → Bytes → σ → Prop}
    (within : ∀ acc, Within (item acc) fun next piece => step acc piece next) {first last : σ}
    (read : (at_ before input).readSequenceOfObjects first item mode lenType rules errProducer =
        .ok (d, last))
    (clean : d.err = none) : ∃ size data rest, lenType.size = some size ∧ data.length < 256 ^ size ∧
      (mode.performValidation = true → rules.checkBounds data.length = .ok ()) ∧
      Validated (enforced mode rules) {} 0 data ∧ Chain step first data last ∧
      input = put size data.length ++ (data.flatten ++ rest) ∧
      d = at_ (before ++ put size data.length ++ data.flatten) rest := by
  obtain ⟨⟨d', n⟩, length, read⟩ := keeping_at_ok read clean
  obtain ⟨size, behind, known, small, rfl, rfl⟩ := readSliceLength_at_ok length
  obtain ⟨⟨⟩, bounded, read⟩ := keeping_at_ok read clean
  obtain ⟨data, rest, rfl, rfl, rfl, chain, validated⟩ := readItems_at_ok within read clean
  refine ⟨size, data, rest, known, small, fun done => ?_, validated, chain, rfl, rfl⟩
  rw [if_pos done] at bounded
  exact mapErr_eq_ok.mp bounded

end Deserializer

end HiveGo
