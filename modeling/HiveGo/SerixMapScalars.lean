import HiveGo.SerixMapRoundTrip

/-! What single values become in the two formats: numbers and object codes, byte arrays, big
integers and timestamps. A value is read by the same call wherever it stands in a document. -/
namespace HiveGo

open OrderedMap Outcome Deserializer Strconv

namespace API

variable {platform : Platform} {api : API} {opts : Options} {given : TypeSettings}

section Numbers

variable {x : Float64} {kind : NumKind}

end Numbers

section Arrays

/-- What is copied into an array are the bytes themselves exactly if they are as many. -/
theorem filled_iff (inside : Bytes → Value) :
    (∀ value, (∃ b, decodeHex platform s = .ok b ∧ value = inside (fillArray length b)) ↔
        ∃ b, decodeHex platform s = .ok b ∧ b.length = length ∧ value = inside b) ↔
      ∀ b, decodeHex platform s = .ok b → b.length = length := by
  constructor
  · intro strict b denoted
    obtain ⟨_, also, same, -⟩ := (strict _).mp ⟨b, denoted, rfl⟩
    cases denoted.symm.trans also
    exact same
  · intro strict value
    have filled : ∀ b, decodeHex platform s = .ok b → fillArray length b = b := by
      intro b denoted
      rw [fillArray, ← strict b denoted, List.take_length, Nat.sub_self, List.replicate_zero,
        List.append_nil]
    constructor
    · rintro ⟨b, denoted, rfl⟩
      exact ⟨b, denoted, strict b denoted, by rw [filled b denoted]⟩
    · rintro ⟨b, denoted, -, rfl⟩
      exact ⟨b, denoted, by rw [filled b denoted]⟩

/-- An array of bytes is read from exactly the strings that denote as many bytes, and holds them,
unless a string denotes another number of bytes: then it is read all the same. A pointer to an
array is read from the object that its settings describe. -/
theorem byteArray_exact (length : Nat) (s : Bytes) (fuel : Nat) :
    (∀ τ, api.shape τ = .array length .uint8 →
      ((∀ value, (api.mapDecoders platform opts (fuel + 1)).value (.string s) given τ = .ok value ↔
        ∃ b, decodeHex platform s = .ok b ∧ b.length = length ∧ value = .byteArray b) ↔
        ∀ b, decodeHex platform s = .ok b → b.length = length)) ∧
    ∀ τ elem innerTS m, api.shape τ = .ptr elem → api.shape elem = .array length .uint8 →
      api.getByType τ = some innerTS → (api.settings given τ).arrayRules = none →
      get (innerTS.fieldKey.getD keyDefaultSliceArray) m = some (.string s) →
      ((∀ value, (api.mapDecoders platform opts (fuel + 1)).value (.object m) given τ = .ok value ↔
        ∃ b, decodeHex platform s = .ok b ∧ b.length = length ∧ value = .ptr (.byteArray b)) ↔
        ∀ b, decodeHex platform s = .ok b → b.length = length) := by
  constructor
  · intro τ shape
    have read : ∀ value, (api.mapDecoders platform opts (fuel + 1)).value (.string s) given τ =
        .ok value ↔ ∃ b, decodeHex platform s = .ok b ∧ value = .byteArray (fillArray length b) := by
      intro value
      simp only [mapDecoders, mapDecodeValue, mapDecodeMerged, shape, if_true, mapDecodeByteArray,
        mapDecodeHex]
      rw [bind_eq_ok]
      simp only [mapErr_eq_ok, pure_eq, ok.injEq]
      exact exists_congr fun b => and_congr_right fun _ => eq_comm
    simp only [read]
    exact filled_iff .byteArray
  · intro τ elem innerTS m shape pointee known unbounded found
    have other : τ ≠ .ptr .bigInt := by
      rintro rfl
      cases shape
      cases pointee
    have free : ∀ b, (api.settings given τ).checkMinMaxBoundsLength b = .ok () := by
      simp [TypeSettings.checkMinMaxBoundsLength, TypeSettings.minLen, TypeSettings.maxLen, unbounded]
    have read : ∀ value, (api.mapDecoders platform opts (fuel + 1)).value (.object m) given τ =
        .ok value ↔
          ∃ b, decodeHex platform s = .ok b ∧ value = .ptr (.byteArray (fillArray length b)) := by
      intro value
      simp only [mapDecoders, mapDecodeValue, mapDecodeMerged, shape, if_neg other, mapDecodePtr,
        pointee, if_true, mapDecodeByteArrayPtr, known, found, mapDecodeHex, free]
      rw [bind_eq_ok]
      simp only [mapErr_eq_ok, checked_eq_ok, implies_true, true_and, pure_eq, ok.injEq]
      exact exists_congr fun b => and_congr_right fun _ => eq_comm
    simp only [read]
    exact filled_iff (.ptr <| .byteArray ·)

/-- One byte is padded, also to what two bytes denote, and a second byte is dropped. -/
theorem bytes_padded_and_dropped :
    (BlockAPI.api.mapDecoders hexutil {} 1).value (.string [48, 120, 48, 49]) {} (.array 2 .uint8) =
        .ok (.byteArray [1, 0]) ∧
      (BlockAPI.api.mapDecoders hexutil {} 1).value (.string [48, 120, 48, 49, 48, 48]) {}
        (.array 2 .uint8) = .ok (.byteArray [1, 0]) ∧
      (BlockAPI.api.mapDecoders hexutil {} 1).value (.string [48, 120, 48, 49, 48, 50]) {}
        (.array 1 .uint8) = .ok (.byteArray [1]) :=
  ⟨rfl, rfl, rfl⟩

end Arrays

section BigIntegers

/-- The binary format takes exactly the unsigned integers of 256 bits; the map format takes all
integers, so that the two agree exactly on these, and they are decoded again. -/
theorem bigInt_accepted (correct : platform.Correct) (n : Int) :
    ((∃ b, api.encode opts (.ptr (.bigInt n)) given (.ptr .bigInt) = .ok b) ↔
      0 ≤ n ∧ n < 2 ^ 256) ∧
    (∃ s, api.mapEncode platform opts (.ptr (.bigInt n)) given (.ptr .bigInt) = .ok (.string s)) ∧
    (((∃ doc, api.mapEncode platform opts (.ptr (.bigInt n)) given (.ptr .bigInt) = .ok doc) ↔
        ∃ b, api.encode opts (.ptr (.bigInt n)) given (.ptr .bigInt) = .ok b) ∧
      (∀ s, api.mapEncode platform opts (.ptr (.bigInt n)) given (.ptr .bigInt) = .ok (.string s) →
        ∀ fuel, (api.mapDecoders platform opts (fuel + 1)).value (.string s) given (.ptr .bigInt) =
          .ok (.ptr (.bigInt n))) ↔ 0 ≤ n ∧ n < 2 ^ 256) := by
  have wrote : ∀ b, api.encode opts (.ptr (.bigInt n)) given (.ptr .bigInt) = .ok b ↔
      encodeBigInt (some n) = .ok b := by
    intro b
    unfold encode
    exact checked_eq_ok.trans (and_iff_right fun _ => rfl)
  have binary : (∃ b, api.encode opts (.ptr (.bigInt n)) given (.ptr .bigInt) = .ok b) ↔
      0 ≤ n ∧ n < 2 ^ 256 := by
    simp only [wrote, encodeBigInt_eq_ok]
    constructor
    · omega
    · rintro ⟨low, high⟩
      exact ⟨_, n.toNat, by omega, by omega, rfl⟩
  have spelt : api.mapEncode platform opts (.ptr (.bigInt n)) given (.ptr .bigInt) =
      .ok (.string (platform.encodeBig n)) := by
    simp [mapEncode]
  refine ⟨binary, ⟨_, spelt⟩, ?_, ?_⟩
  · rintro ⟨agree, -⟩
    exact binary.mp (agree.mp ⟨_, spelt⟩)
  · intro range
    refine ⟨iff_of_true ⟨_, spelt⟩ (binary.mpr range), fun s also fuel => ?_⟩
    cases spelt.symm.trans also
    simp [mapDecoders, mapDecodeValue, mapDecodeMerged, mapDecodeBigInt,
      correct.decodeBig_encodeBig n range.1 range.2]

theorem five_accepted :
    ∃ s, BlockAPI.api.mapEncode hexutil {} (.ptr (.bigInt 5)) {} (.ptr .bigInt) = .ok (.string s) ∧
      ∀ fuel, (BlockAPI.api.mapDecoders hexutil {} (fuel + 1)).value (.string s) {}
        (.ptr .bigInt) = .ok (.ptr (.bigInt 5)) := by
  obtain ⟨-, ⟨s, spelt⟩, both⟩ := @bigInt_accepted hexutil BlockAPI.api {} {} hexutil_correct 5
  exact ⟨s, spelt, (both.mpr (by decide)).2 s spelt⟩

/-- A negative number has a map form that is not decoded, and no binary form. -/
theorem negative_accepted :
    (∀ b, BlockAPI.api.encode {} (.ptr (.bigInt (-1))) {} (.ptr .bigInt) ≠ .ok b) ∧
      BlockAPI.api.mapEncode hexutil {} (.ptr (.bigInt (-1))) {} (.ptr .bigInt) =
        .ok (.string [45, 48, 120, 49]) ∧
      ∀ fuel value, (BlockAPI.api.mapDecoders hexutil {} fuel).value (.string [45, 48, 120, 49]) {}
        (.ptr .bigInt) ≠ .ok value := by
  refine ⟨fun b => ?_, rfl, fun fuel value => ?_⟩
  · rintro ⟨⟩
  · cases fuel <;> rintro ⟨⟩

end BigIntegers

section Timestamps

variable (platform api opts given)

/-- The map decoder reads the number as a signed one. -/
theorem time_of_string (small : n < 2 ^ 64) (fuel : Nat) :
    (api.mapDecoders platform opts (fuel + 1)).value (.string (formatUint n)) given .time =
      .ok (.time (Time.ofUnixNano (wrapInt64 n))) := by
  have parsed := parseUint_formatUint small
  simp [mapDecoders, mapDecodeValue, mapDecodeMerged, shape, mapDecodeStruct, parseUint, parsed]

/-- A timestamp is the same instant in both formats, cut to the last one of a signed integer,
exactly if it fits into a signed integer. -/
theorem timestamps_agree (n : UInt64) :
    ((∀ before rest dest errProducer,
      (at_ before (LittleEndian.put 8 n.toNat ++ rest)).readTime dest errProducer =
        .ok (at_ (before ++ LittleEndian.put 8 n.toNat) rest,
          Time.ofUnixNano (min n.toNat (2 ^ 63 - 1) : Nat))) ∧
    ∀ fuel, (api.mapDecoders platform opts (fuel + 1)).value (.string (formatUint n.toNat)) given
      .time = .ok (.time (Time.ofUnixNano (min n.toNat (2 ^ 63 - 1) : Nat)))) ↔
      n.toNat ≤ 2 ^ 63 - 1 := by
  have small : n.toNat < 2 ^ 64 := n.toNat_lt
  have mapped := time_of_string platform api opts given small
  constructor
  · rintro ⟨-, agree⟩
    by_contra late
    -- The map format has an instant before the epoch, and so with other seconds.
    have same := (mapped 0).symm.trans (agree 0)
    simp only [Outcome.ok.injEq, Value.time.injEq, Time.ofUnixNano, Time.mk.injEq, wrapInt64] at same
    omega
  · intro fits
    have signed : wrapInt64 n.toNat = n.toNat := by
      unfold wrapInt64
      omega
    rw [Nat.min_eq_left fits]
    constructor
    · intro before rest dest errProducer
      rw [readTime, readFixed_at (LittleEndian.length_put 8 _), LittleEndian.get_put_of_lt (by omega)]
      have early : ¬ (n.toNat / 1000000000 : Int) > maxNanoTimestampInt64Seconds := by
        unfold maxNanoTimestampInt64Seconds
        omega
      rw [timeOfNanoseconds, if_neg early, signed]
    · intro fuel
      rw [mapped, signed]

/-- The first number that is too large is before the epoch in both formats; the largest one is
cut by the binary format only. -/
theorem late_timestamps_wrap :
    timeOfNanoseconds (2 ^ 63) = Time.ofUnixNano (-2 ^ 63) ∧
      timeOfNanoseconds (2 ^ 64 - 1) = Time.ofUnixNano (2 ^ 63 - 1) ∧
      ∀ n ∈ [2 ^ 63, 2 ^ 64 - 1], (BlockAPI.api.mapDecoders hexutil {} 1).value
        (.string (formatUint n)) {} .time = .ok (.time (Time.ofUnixNano (n - 2 ^ 64))) := by
  refine ⟨by decide, by decide, ?_⟩
  rw [List.forall_mem_cons, List.forall_mem_singleton]
  exact ⟨time_of_string _ _ _ _ (by decide) 0, time_of_string _ _ _ _ (by decide) 0⟩

end Timestamps

end API

end HiveGo
