import HiveGo.DeserializerReads
import HiveGo.OrderedMap
import HiveGo.SerializerWrites
import HiveGo.SerixDecode

/-! Ordered maps as bytes: the number of entries, and then their keys and values in order. The
writer keeps the first error of the codecs while the iteration goes on. -/
namespace HiveGo.SerializableOrderedMap
open Deserializer LittleEndian List API Outcome NumKind
open OrderedMap (forEach set set_of_fresh)
open Serializer (of of_inj serialize writeNum)

variable {K V : Type}

/-- `Encode` and `Decode` of the serialization library for the values of one type. `Decode` also
returns how many bytes it has read. -/
structure Codec (α : Type) where
  encode : α → Outcome Err Bytes
  decode : Bytes → Outcome Err (α × Nat)

/-- Abort with the error of the codec, or write its bytes. What a failed codec returned besides
its error is not written, since the writer has an error then. -/
def writeEncoded (seri : Serializer) (encoded : Outcome Err Bytes) (message : String) :
    Outcome Err Serializer :=
  match encoded with
  | .ok bytes => .ok (seri.writeBytes bytes)
  | .err error => .ok (seri.fail (.wrap error message))
  | .panicked => .panicked
  | .timeout => .timeout

section codecs

variable (keys : Codec K) (values : Codec V)

/-- The consumer of the iteration. -/
def encodeEntry (key : K) (val : V) (seri : Outcome Err Serializer) :
    Bool × Outcome Err Serializer :=
  (true, do
    let seri ← writeEncoded (← seri) (keys.encode key) "failed to encode SerializableOrderedMap key"
    writeEncoded seri (values.encode val) "failed to serialize SerializableOrderedMap value")

def encode (o : List (K × V)) : Outcome Err Bytes := do
  let seri := writeNum {} 4 o.length
  (← (forEach (encodeEntry keys values) o (.ok seri)).2).serialize

/-- `Decode` of a number of four bytes. -/
def decodeUint32 (b : Bytes) : Outcome Err (Nat × Nat) := do
  let (deseri, number) ← readFixed { src := b } 0 4 get
    (.wrap · "failed to read number value from the serializer")
  return (number, ← deseri.done)

variable [DecidableEq K]

/-- The loop over the entries that are left to be read. -/
def decodeEntries (b : Bytes) : (left bytesRead : Nat) → List (K × V) →
    Outcome Err (Nat × List (K × V))
  | 0, bytesRead, o => .ok (bytesRead, o)
  | left + 1, bytesRead, o => do
    let (key, bytesReadKey) ← keys.decode (← sliceFrom b bytesRead)
    let bytesRead := bytesRead + bytesReadKey
    let (value, bytesReadValue) ← values.decode (← sliceFrom b bytesRead)
    decodeEntries b left (bytesRead + bytesReadValue) (set key value o)

/-- The number of bytes that were read, and the map with the entries set. -/
def decode (o : List (K × V)) (b : Bytes) : Outcome Err (Nat × List (K × V)) := do
  let (mapSize, bytesRead) ← decodeUint32 (← sliceFrom b 0)
  decodeEntries keys values b mapSize bytesRead o

end codecs

theorem decodeUint32_put (small : number < 2 ^ 32) :
    decodeUint32 (put 4 number ++ rest) = .ok (number, 4) := by
  rw [decodeUint32, at_nil, readFixed_at (length_put 4 number)]
  rw [get_put_of_lt (by simpa using small)]
  simp

section writing

/-- The bytes of the entries of a map. -/
inductive Encoded (keys : Codec K) (values : Codec V) : List (K × V) → Bytes → Prop
  | nil : Encoded keys values [] []
  | cons {key val keyBytes valBytes o rest} (first : keys.encode key = .ok keyBytes)
    (second : values.encode val = .ok valBytes) (others : Encoded keys values o rest) :
    Encoded keys values ((key, val) :: o) (keyBytes ++ (valBytes ++ rest))

variable {keys : Codec K}

theorem forEach_cons (key : K) (val : V) :
    (forEach (encodeEntry keys values) ((key, val) :: o) seri).2 =
      (forEach (encodeEntry keys values) o
        (encodeEntry keys values key val seri).2).2 := rfl

theorem writeEncoded_eq_of : writeEncoded seri encoded message = .ok (.of b) ↔
      ∃ written bytes, seri = .of written ∧ encoded = .ok bytes ∧ b = written ++ bytes := by
  obtain ⟨buf, err⟩ := seri
  constructor
  · intro wrote
    cases encoded with
    | ok bytes =>
      cases err with
      | none =>
        cases wrote
        exact ⟨buf, bytes, rfl, rfl, rfl⟩
      | some error => cases wrote
    | err error => cases err <;> cases wrote
    | panicked => cases wrote
    | timeout => cases wrote
  · rintro ⟨written, bytes, same, rfl, rfl⟩
    rw [same]
    rfl

/-- The writer ends without an error only if every codec returned bytes. -/
theorem forEach_eq_of
    (wrote : (forEach (encodeEntry keys values) o seri).2 = .ok (.of b)) :
    ∃ written bytes, seri = .ok (.of written) ∧ Encoded keys values o bytes ∧
      b = written ++ bytes := by
  induction o generalizing seri with
  | nil => exact ⟨b, [], wrote, .nil, (append_nil b).symm⟩
  | cons entry o ih =>
    obtain ⟨after, rest, entered, others, rfl⟩ := ih wrote
    obtain ⟨start, rfl, pieces⟩ := bind_eq_ok.mp entered
    obtain ⟨middle, keyWritten, valWritten⟩ := bind_eq_ok.mp pieces
    obtain ⟨between, valBytes, rfl, second, rfl⟩ := writeEncoded_eq_of.mp valWritten
    obtain ⟨written, keyBytes, rfl, first, rfl⟩ := writeEncoded_eq_of.mp keyWritten
    exact ⟨written, _, rfl, .cons first second others, by simp⟩

theorem encode_eq_ok (encoded : encode keys values o = .ok b) :
    ∃ bytes, Encoded keys values o bytes ∧ b = put 4 o.length ++ bytes := by
  obtain ⟨seri, iterated, serialized⟩ := bind_eq_ok.mp encoded
  rw [Serializer.serialize_eq_ok.mp serialized] at iterated
  obtain ⟨wrote, bytes, start, others, rfl⟩ := forEach_eq_of iterated
  have same : of (put 4 o.length) = .of wrote := ok.inj start
  rw [of_inj] at same
  exact ⟨bytes, others, by rw [same]⟩

end writing

section reading

variable {keys : Codec K} [DecidableEq K]

/-- What was encoded is decoded again, whatever follows, and exactly its bytes are read. -/
def Codec.RoundTrips {α : Type} (codec : Codec α) : Prop :=
  ∀ value bytes, codec.encode value = .ok bytes →
    ∀ rest, codec.decode (bytes ++ rest) = .ok (value, bytes.length)

theorem decodeEntries_encoded (keysAgree : keys.RoundTrips) (valuesAgree : values.RoundTrips)
    (encoded : Encoded keys values o bytes) (pre rest : Bytes) (entries : List (K × V))
    (nodup : OrderedMap.Distinct (entries ++ o)) :
    decodeEntries keys values (pre ++ (bytes ++ rest)) o.length pre.length entries =
      .ok (pre.length + bytes.length, entries ++ o) := by
  induction encoded generalizing pre entries with
  | nil => simp [decodeEntries]
  | @cons key val keyBytes valBytes o tail first second others ih =>
    have fresh : key ∉ entries.map Prod.fst := by
      unfold OrderedMap.Distinct at nodup
      rw [map_append, map_cons, nodup_append] at nodup
      exact fun mem => nodup.2.2 key mem key mem_cons_self rfl
    have input : pre ++ (keyBytes ++ (valBytes ++ tail) ++ rest) =
        pre ++ (keyBytes ++ (valBytes ++ (tail ++ rest))) := by
      simp
    have keySlice := sliceFrom_append pre (keyBytes ++ (valBytes ++ (tail ++ rest))) rfl
    have valSlice := sliceFrom_append (pre ++ keyBytes) (valBytes ++ (tail ++ rest)) length_append
    have next := ih (pre ++ keyBytes ++ valBytes) (entries ++ [(key, val)]) (by rwa [append_assoc])
    simp only [append_assoc, length_append, singleton_append] at valSlice next
    rw [input, length_cons, decodeEntries, keySlice, ok_bind, keysAgree key keyBytes first, ok_bind]
    simp only [valSlice, ok_bind, valuesAgree val valBytes second,
      set_of_fresh fresh, Nat.add_assoc, length_append] at next ⊢
    exact next

/-- A map is decoded as it was encoded, whatever follows its bytes. -/
theorem decode_encoded (keysAgree : keys.RoundTrips) (valuesAgree : values.RoundTrips)
    (nodup : OrderedMap.Distinct o) (small : o.length < 2 ^ 32)
    (encoded : encode keys values o = .ok b) :
    decode keys values [] (b ++ rest) = .ok (b.length, o) := by
  obtain ⟨bytes, entries, rfl⟩ := encode_eq_ok encoded
  have read := decodeEntries_encoded keysAgree valuesAgree entries (put 4 o.length) rest [] nodup
  have whole : ∀ input, sliceFrom input 0 = .ok input := fun input => by simp [sliceFrom]
  rw [append_assoc, decode, whole]
  simp only [ok_bind, decodeUint32_put small]
  rw [length_put] at read
  rw [read, length_append, length_put]
  rfl

end reading

section failing

variable {keys : Codec K} {values : Codec V}

/-- The call neither panics nor runs forever. -/
def Returns {α : Type} (call : Outcome Err α) : Prop :=
  (∃ value, call = .ok value) ∨ ∃ error, call = .err error

def Fails {α : Type} (call : Outcome Err α) : Prop := ∃ error, call = .err error

/-- The writer keeps its error, and has one after a codec that failed. -/
theorem writeEncoded_returns (returns : Returns encoded) (seri : Serializer) (message : String) :
    ∃ after, writeEncoded seri encoded message = .ok after ∧
      (seri.err.isSome ∨ Fails encoded → after.err.isSome) := by
  obtain ⟨buf, err⟩ := seri
  rcases returns with ⟨bytes, rfl⟩ | ⟨error, rfl⟩
  · refine ⟨_, rfl, ?_⟩
    rintro (kept | ⟨error, absurd⟩)
    · cases err with
      | none => cases kept
      | some error => rfl
    · cases absurd
  · exact ⟨_, rfl, fun _ => by cases err <;> rfl⟩

variable {o : List (K × V)} (returns : ∀ entry ∈ o, Returns (keys.encode entry.1) ∧
    Returns (values.encode entry.2))
include returns

theorem forEach_returns
    (seri : Serializer) :
    ∃ after, (forEach (encodeEntry keys values) o (.ok seri)).2 = .ok after ∧
      ((seri.err.isSome ∨
          ∃ entry ∈ o, Fails (keys.encode entry.1) ∨ Fails (values.encode entry.2)) →
        after.err.isSome) := by
  induction o generalizing seri with
  | nil => exact ⟨seri, rfl, by simp⟩
  | cons entry o ih =>
    obtain ⟨key, val⟩ := entry
    obtain ⟨here, others⟩ := forall_mem_cons.mp returns
    obtain ⟨between, keyWritten, keyKept⟩ := writeEncoded_returns here.1 seri
      "failed to encode SerializableOrderedMap key"
    obtain ⟨next, valWritten, valKept⟩ := writeEncoded_returns here.2 between
      "failed to serialize SerializableOrderedMap value"
    obtain ⟨after, ran, kept⟩ := ih others next
    have entered : (encodeEntry keys values key val (.ok seri)).2 = .ok next := by
      simp [encodeEntry, keyWritten, valWritten]
    refine ⟨after, by rw [forEach_cons, entered, ran], fun bad => kept ?_⟩
    rcases bad with already | ⟨entry, mem, failed⟩
    · exact .inl (valKept (.inl (keyKept (.inl already))))
    · rcases mem_cons.mp mem with rfl | later
      · rcases failed with keyFailed | valFailed
        · exact .inl (valKept (.inl (keyKept (.inr keyFailed))))
        · exact .inl (valKept (.inr valFailed))
      · exact .inr ⟨entry, later, failed⟩

/-- A codec that fails makes `Encode` return an error. -/
theorem encode_fails
    (failed : ∃ entry ∈ o, Fails (keys.encode entry.1) ∨ Fails (values.encode entry.2)) :
    Fails (encode keys values o) := by
  obtain ⟨after, ran, kept⟩ := forEach_returns returns (writeNum {} 4 o.length)
  obtain ⟨error, present⟩ := Option.isSome_iff_exists.mp (kept (.inr failed))
  refine ⟨error, ?_⟩
  rw [encode, ran]
  simp [serialize, present]

end failing

/-- Whatever follows its bytes, a map with fewer than 2^32 entries is decoded as it was encoded, and
exactly its bytes are read. If a key or a value cannot be encoded, neither can the map. -/
theorem map_round_trip [DecidableEq K] {keys : Codec K} {values : Codec V}
    (keysAgree : keys.RoundTrips) (valuesAgree : values.RoundTrips) (o : List (K × V))
    (distinct : OrderedMap.Distinct o) (small : o.length < 2 ^ 32) :
    (∀ b, encode keys values o = .ok b →
      ∀ rest, decode keys values [] (b ++ rest) = .ok (b.length, o)) ∧
    ((∀ entry ∈ o, Returns (keys.encode entry.1) ∧ Returns (values.encode entry.2)) →
      (∃ entry ∈ o, Fails (keys.encode entry.1) ∨ Fails (values.encode entry.2)) →
      Fails (encode keys values o)) :=
  ⟨fun _ encoded _ => decode_encoded keysAgree valuesAgree distinct small encoded, encode_fails⟩

/-! What is read is what would be written. -/

section canonical

variable {keys : Codec K} {values : Codec V}

/-- The value that was decoded is encoded as the bytes that were read. -/
def Codec.Canonical {α : Type} (codec : Codec α) : Prop :=
  ∀ b value n, codec.decode b = .ok (value, n) → n ≤ b.length ∧ codec.encode value = .ok (b.take n)

theorem sliceFrom_eq_ok : sliceFrom b i = .ok input ↔ i ≤ b.length ∧ input = b.drop i := by
  unfold sliceFrom
  split <;> simp [*, eq_comm]

theorem encode_of_encoded (encoded : Encoded keys values o bytes) :
    encode keys values o = .ok (put 4 o.length ++ bytes) := by
  have loop : ∀ written, (forEach (encodeEntry keys values) o (.ok (.of written))).2 =
      .ok (.of (written ++ bytes)) := by
    induction encoded with
    | nil =>
      intro written
      rw [append_nil]
      rfl
    | cons first second others ih =>
      intro written
      rw [forEach_cons, ← append_assoc, ← append_assoc, ← ih]
      simp [encodeEntry, first, second, writeEncoded, Serializer.writeBytes, of]
  have wrote := loop (put 4 o.length)
  exact congrArg (Outcome.bind · serialize) wrote

variable [DecidableEq K]

/-- The entries that the codecs read from the bytes, one after the other. -/
def entriesOf (keys : Codec K) (values : Codec V) : Nat → Bytes → Outcome Err (List (K × V))
  | 0, _ => .ok []
  | left + 1, b => do
    let (key, bytesReadKey) ← keys.decode b
    let (value, bytesReadValue) ← values.decode (b.drop bytesReadKey)
    let entries ← entriesOf keys values left (b.drop (bytesReadKey + bytesReadValue))
    return (key, value) :: entries

/-- The entries of the bytes that were read are set one after the other. -/
theorem decodeEntries_canonical {left : Nat} (keysCanonical : keys.Canonical)
    (valuesCanonical : values.Canonical)
    (read : decodeEntries keys values b left start o = .ok (n, final)) :
    start ≤ n ∧ ∃ entries, entriesOf keys values left (b.drop start) = .ok entries ∧
      entries.length = left ∧ final = entries.foldl (fun o entry => set entry.1 entry.2 o) o ∧
      Encoded keys values entries ((b.drop start).take (n - start)) := by
  induction left generalizing start o with
  | zero =>
    cases read
    exact ⟨le_rfl, [], rfl, rfl, rfl, by simpa using Encoded.nil⟩
  | succ left ih =>
    obtain ⟨input, sliced, read⟩ := bind_eq_ok.mp read
    obtain ⟨⟨key, k⟩, first, read⟩ := bind_eq_ok.mp read
    obtain ⟨more, later, read⟩ := bind_eq_ok.mp read
    obtain ⟨⟨val, v⟩, second, read⟩ := bind_eq_ok.mp read
    obtain ⟨behind, entries, others, size, rfl, encoded⟩ := ih read
    rw [(sliceFrom_eq_ok.mp sliced).2] at first
    rw [(sliceFrom_eq_ok.mp later).2] at second
    refine ⟨by omega, (key, val) :: entries, ?_, by rw [length_cons, size], rfl, ?_⟩
    · simp [entriesOf, first, second, others, drop_drop, ← Nat.add_assoc]
    · have parts : n - start = k + (v + (n - (start + k + v))) := by omega
      rw [parts, take_add, take_add, drop_drop, drop_drop]
      exact .cons (keysCanonical _ _ _ first).2 (valuesCanonical _ _ _ second).2 encoded

/-- The map has all entries that were set, in their order, exactly if no key was set twice. -/
theorem foldl_set_eq_iff (entries o : List (K × V)) (distinct : OrderedMap.Distinct o) :
    let final := entries.foldl (fun o entry => set entry.1 entry.2 o) o
    final.length ≤ o.length + entries.length ∧
      (final.length = o.length + entries.length → OrderedMap.Distinct (o ++ entries)) ∧
      (OrderedMap.Distinct (o ++ entries) → final = o ++ entries) := by
  induction entries generalizing o with
  | nil => simpa using distinct
  | cons entry entries ih =>
    obtain ⟨small, whole, same⟩ := ih (set entry.1 entry.2 o) (distinct.set ..)
    by_cases known : entry.1 ∈ o.map Prod.fst
    · rw [OrderedMap.length_set_of_mem known] at small
      refine ⟨?_, fun all => ?_, fun unique => ?_⟩
      · simp only [foldl_cons, length_cons]
        omega
      · simp only [foldl_cons, length_cons] at all
        omega
      · unfold OrderedMap.Distinct at unique
        rw [map_append, map_cons, nodup_append] at unique
        exact absurd rfl (unique.2.2 _ known _ mem_cons_self)
    · rw [set_of_fresh known, length_append, length_singleton] at small whole
      rw [set_of_fresh known] at same
      simp only [append_assoc, singleton_append] at whole same
      simp only [foldl_cons, length_cons, set_of_fresh known]
      exact ⟨by omega, fun all => whole (by omega), same⟩

/-- Bytes that are read as a map are the bytes of the map exactly if no key is read twice. -/
theorem decode_canonical (keysCanonical : keys.Canonical) (valuesCanonical : values.Canonical)
    (decoded : decode keys values [] b = .ok (n, o)) :
    ∃ entries, entriesOf keys values (LittleEndian.get (b.take 4)) (b.drop 4) = .ok entries ∧
      (encode keys values o = .ok (b.take n) ↔ (entries.map Prod.fst).Nodup) := by
  have start : sliceFrom b 0 = .ok b := by simp [sliceFrom]
  rw [decode, start, ok_bind] at decoded
  by_cases short : b.length < 4
  · simp [decodeUint32, readFixed, remainingBytes, sliceFrom, short, fail, done] at decoded
  · have word := put_get_take (Nat.le_of_not_lt short)
    have small := get_lt (b.take 4)
    rw [length_take_of_le (Nat.le_of_not_lt short)] at small
    have read : decodeUint32 (put 4 _ ++ b.drop 4) = _ := decodeUint32_put small
    rw [word, take_append_drop] at read
    rw [read, ok_bind] at decoded
    obtain ⟨behind, entries, listed, size, rfl, encoded⟩ :=
      decodeEntries_canonical keysCanonical valuesCanonical decoded
    obtain ⟨most, whole, same⟩ := foldl_set_eq_iff entries [] nodup_nil
    refine ⟨entries, listed, fun wrote => ?_, fun unique => ?_⟩
    · obtain ⟨bytes, -, split⟩ := encode_eq_ok wrote
      rw [nil_append, length_nil, size, Nat.zero_add] at *
      have sizes := congrArg (fun b => LittleEndian.get (b.take 4)) split
      simp only [take_take, Nat.min_eq_left behind, get_take_put (most.trans_lt small)] at sizes
      exact whole sizes.symm
    · rw [same unique, nil_append, encode_of_encoded encoded, size, word, ← take_add,
        Nat.add_sub_cancel' behind]

end canonical

/-- One byte. -/
def byteCodec : Codec UInt8 where
  encode byte := .ok [byte]
  decode
    | [] => .err (.sentinel .errDeserializationNotEnoughData)
    | byte :: _ => .ok (byte, 1)

theorem byteCodec_roundTrips : byteCodec.RoundTrips := by
  intro value bytes encoded rest
  cases encoded
  rfl

theorem byteCodec_canonical : byteCodec.Canonical := by
  rintro (_ | ⟨byte, rest⟩) value n ⟨⟩
  exact ⟨Nat.le_add_left 1 rest.length, rfl⟩

theorem decode_canonical_of_bytes :
    encode byteCodec byteCodec [(7, 1), (5, 2)] = .ok ([2, 0, 0, 0, 7, 1, 5, 2, 9].take 8) := by
  obtain ⟨entries, listed, same⟩ := decode_canonical byteCodec_canonical byteCodec_canonical
    (by decide : decode byteCodec byteCodec [] [2, 0, 0, 0, 7, 1, 5, 2, 9] = .ok (8, [(7, 1), (5, 2)]))
  cases listed
  exact same.mpr (by decide)

/-- A key that occurs twice is read as one entry, and written as one. -/
theorem repeated_key_rewritten :
    decode byteCodec byteCodec [] [2, 0, 0, 0, 7, 1, 7, 2] = .ok (8, [(7, 2)]) ∧
      encode byteCodec byteCodec [(7, 2)] = .ok [1, 0, 0, 0, 7, 2] := ⟨rfl, rfl⟩

theorem map_round_trip_of_bytes :
    (∀ b, encode byteCodec byteCodec [(7, 1), (5, 2)] = .ok b →
      ∀ rest, decode byteCodec byteCodec [] (b ++ rest) = .ok (b.length, [(7, 1), (5, 2)])) ∧
    ((∀ entry ∈ [((7, 1) : UInt8 × UInt8), (5, 2)],
        Returns (byteCodec.encode entry.1) ∧ Returns (byteCodec.encode entry.2)) →
      (∃ entry ∈ [((7, 1) : UInt8 × UInt8), (5, 2)],
        Fails (byteCodec.encode entry.1) ∨ Fails (byteCodec.encode entry.2)) →
      Fails (encode byteCodec byteCodec [(7, 1), (5, 2)])) :=
  map_round_trip byteCodec_roundTrips byteCodec_roundTrips [(7, 1), (5, 2)]
    (by unfold OrderedMap.Distinct; decide) (by decide)

example : encode byteCodec byteCodec [(7, 1), (5, 2)] = .ok [2, 0, 0, 0, 7, 1, 5, 2] := by decide

end HiveGo.SerializableOrderedMap
