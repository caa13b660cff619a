import HiveGo.SerixMapUniverse

/-! What is encoded into a map is decoded from every map that agrees with it on the keys of the
type: so the fields of embedded and inlined structs are read from the map of the struct around
them. -/
namespace HiveGo

open OrderedMap Outcome

theorem Restored.refl (value : Value) : Restored value value := by
  induction value using Value.induction with
  | slice elems ih | array elems ih | struct elems ih =>
    exact restoredAll_iff.mpr (List.forall₂_same.mpr ih)
  | map entries ih =>
    exact ⟨entries, .refl _, restoredEntries_iff.mpr (List.forall₂_same.mpr ih)⟩
  | nil => exact .inl rfl
  | ptr inner ih => exact ih
  | iface σ inner ih => exact ⟨rfl, ih⟩
  | _ => rfl

namespace API

variable {api : API}

/-- The two maps agree on the keys. -/
def Agree (keys : Bytes → Prop) (entries : List (Bytes × Ele)) (m : List (Bytes × Any)) : Prop :=
  ∀ key, keys key → Option.Rel Views (get key entries) (get key m)

/-- What is decoded presents what was encoded: for an object it is enough that the maps agree
on the keys of the object. -/
def Presents (api : API) (ts : TypeSettings) (τ : GoType) (ele : Ele) (mapVal : Any) : Prop :=
  (¬ api.ObjectLike τ ∧ Views ele mapVal) ∨
    (api.ObjectLike τ ∧ ∃ entries m, ele = .object entries ∧ mapVal = .object m ∧
      Agree (api.ObjectKey ts τ) entries m)

/-- The map that was encoded for an object. -/
structure ObjectMap (api : API) (ts : TypeSettings) (τ : GoType) (ele : Ele)
    (entries : List (Bytes × Ele)) : Prop where
  object : ele = .object entries
  distinct : Distinct entries
  inside : ∀ key ∈ entries.map Prod.fst, api.ObjectKey ts τ key
  coded : ∀ objectType, ts.objectType = some objectType →
    get keyType entries = some (.code objectType)

/-- The settings decode the same: those of an object only count with its code. -/
def Alike (api : API) (τ : GoType) (ts other : TypeSettings) : Prop :=
  other.objectType = ts.objectType ∧ (¬ api.ObjectLike τ → other = ts)

/-- The value comes back from what was encoded for it. -/
structure ComesBack (platform : Platform) (api : API) (opts : Options) (value : Value)
    (ts : TypeSettings) (τ : GoType) (ele : Ele) : Prop where
  object : api.ObjectLike τ → ∃ entries, api.ObjectMap ts τ ele entries
  decoded : ∀ mapVal, api.Presents ts τ ele mapVal → ∃ other, Restored value other ∧
    ∀ given, api.Alike τ ts (api.settings given τ) → ∀ fuel, 2 * value.height ≤ fuel →
      (api.mapDecoders platform opts (fuel + 1)).value mapVal given τ = .ok other

/-- The JSON view of what was encoded presents it. -/
theorem ComesBack.presents (back : ComesBack platform api opts value ts τ ele)
    (views : Views ele mapVal) : api.Presents ts τ ele mapVal := by
  by_cases objectLike : api.ObjectLike τ
  · obtain ⟨entries, encoded⟩ := back.object objectLike
    obtain rfl := encoded.object
    cases mapVal with
    | object m =>
      exact .inr ⟨objectLike, entries, m, rfl, rfl, fun key _ => views.get encoded.distinct key⟩
    | _ => exact views.elim
  · exact .inl ⟨objectLike, views⟩

/-- A type of which values are not encoded as the map of a struct. -/
theorem comesBack_plain (plain : ¬ api.ObjectLike τ)
    (read : ∀ mapVal, Views ele mapVal → ∃ other, Restored value other ∧
      ∀ fuel, 2 * value.height ≤ fuel → api.mapDecodeMerged platform opts
        (api.mapDecoders platform opts fuel) mapVal ts τ = .ok other) :
    ComesBack platform api opts value ts τ ele := by
  refine ⟨fun objectLike => absurd objectLike plain, fun mapVal presented => ?_⟩
  obtain ⟨-, views⟩ | ⟨objectLike, -⟩ := presented
  · obtain ⟨other, again, ran⟩ := read mapVal views
    refine ⟨other, again, fun given alike fuel enough => ?_⟩
    have same := alike.2 plain
    simp only [mapDecoders, mapDecodeValue, same]
    exact ran fuel enough
  · exact absurd objectLike plain

/-- The same where the value itself comes back without further calls. -/
theorem comesBack_simple (plain : ¬ api.ObjectLike τ)
    (read : ∀ mapVal, Views ele mapVal → ∀ rec,
        api.mapDecodeMerged platform opts rec mapVal ts τ = .ok value) :
    ComesBack platform api opts value ts τ ele :=
  comesBack_plain plain fun mapVal views =>
    ⟨value, Restored.refl value, fun _ _ => read mapVal views _⟩

/-! The kinds that are encoded without further calls. -/
section Simple

theorem decodeHex_encodeHex (correct : platform.Correct) :
    decodeHex platform (encodeHex platform b) = .ok b := by
  unfold decodeHex encodeHex
  cases b with
  | nil => simp [correct.decode_empty]
  | cons byte rest => simp [correct.decode_encode]

theorem back_bool (shape : api.shape τ = .bool) :
    ComesBack platform api opts (.bool b) ts τ (.bool b) := by
  refine comesBack_simple (by simp [ObjectLike, shape]) fun mapVal views rec => ?_
  cases mapVal with
  | bool other =>
    obtain rfl : other = b := views
    simp [mapDecodeMerged, shape, mapDecodeBool]
  | _ => exact views.elim

theorem convert_eq (held : kind.Holds n) (models : x.Represents n) :
    convert platform kind x = n := by
  rw [convert, Float64.trunc_eq models, if_pos held]

theorem back_num (shape : api.shape τ = .num kind) (held : kind.Holds n) :
    ComesBack platform api opts (.num n) ts τ (mapEncodeNum kind n) := by
  refine comesBack_simple (by simp [ObjectLike, shape]) fun mapVal views rec => ?_
  simp only [mapDecodeMerged, shape]
  cases kind with
  | int64 =>
    cases mapVal with
    | string s =>
      obtain rfl : s = Strconv.formatInt n := views
      have bounds : -2 ^ 63 ≤ n ∧ n < 2 ^ 63 := by
        simpa [NumKind.Holds, NumKind.signed, NumKind.size] using held
      simp [mapDecodeNum, parseInt, Strconv.parseInt_formatInt bounds.1 bounds.2]
    | _ => exact views.elim
  | uint64 =>
    cases mapVal with
    | string s =>
      obtain rfl : s = Strconv.formatUint n.toNat := views
      have bounds : 0 ≤ n ∧ n < 2 ^ 64 := by
        simpa [NumKind.Holds, NumKind.signed, NumKind.size] using held
      have small : n.toNat < 2 ^ 64 := by omega
      simp [mapDecodeNum, parseUint, Strconv.parseUint_formatUint small, bounds.1]
    | _ => exact views.elim
  | _ =>
    cases mapVal with
    | number x =>
      have models := views
      simp [mapDecodeNum, convert_eq held models]
    | _ => exact views.elim

theorem back_string (shape : api.shape τ = .string)
    (ran : mapEncodeString opts ts str = .ok ele) :
    ComesBack platform api opts (.string str) ts τ ele := by
  unfold mapEncodeString at ran
  obtain ⟨bounds, ran⟩ := checked_eq_ok.mp ran
  split at ran
  · cases ran
  · next valid =>
    cases ran
    refine comesBack_simple (by simp [ObjectLike, shape]) fun mapVal views rec => ?_
    cases mapVal with
    | string s =>
      obtain rfl : s = str := views
      simp only [mapDecodeMerged, shape, mapDecodeString]
      refine checked_eq_ok.mpr ⟨fun rules => ?_, ?_⟩
      · exact mapErr_eq_ok.mpr (mapErr_eq_ok.mp (bounds rules))
      · rw [if_neg valid]
        rfl
    | _ => exact views.elim

/-- The string of a byte string. -/
theorem bytes_view (correct : platform.Correct) (uncoded : ts.objectType = none)
    (ran : mapEncodeBytes platform opts ts b = .ok ele) :
    (opts.validation = true → ts.checkMinMaxBoundsLength b.length = .ok ()) ∧
      ∀ mapVal, Views ele mapVal → mapDecodeHex platform mapVal = .ok b := by
  simp only [mapEncodeBytes, uncoded] at ran
  obtain ⟨bounds, ran⟩ := checked_eq_ok.mp ran
  cases ran
  refine ⟨fun rules => mapErr_eq_ok.mp (bounds rules), fun mapVal views => ?_⟩
  cases mapVal with
  | string s =>
    obtain rfl : s = encodeHex platform b := views
    simp [mapDecodeHex, decodeHex_encodeHex correct]
  | _ => exact views.elim

theorem back_bytes (correct : platform.Correct) (shape : api.shape τ = .slice .uint8)
    (uncoded : ts.objectType = none) (ran : mapEncodeBytes platform opts ts b = .ok ele)
    (again : Restored value (.bytes b)) : ComesBack platform api opts value ts τ ele := by
  obtain ⟨bounds, read⟩ := bytes_view correct uncoded ran
  refine comesBack_plain (by simp [ObjectLike, shape]) fun mapVal views =>
    ⟨_, again, fun fuel _ => ?_⟩
  simp only [mapDecodeMerged, shape, if_true, mapDecodeBytes, read mapVal views, ok_bind]
  refine checked_eq_ok.mpr ⟨fun rules => ?_, rfl⟩
  exact mapErr_eq_ok.mpr (bounds rules)

theorem fillArray_self : fillArray b.length b = b := by simp [fillArray]

theorem back_byteArray (correct : platform.Correct) (shape : api.shape τ = .array b.length .uint8)
    (uncoded : ts.objectType = none) (ran : mapEncodeBytes platform opts ts b = .ok ele) :
    ComesBack platform api opts (.byteArray b) ts τ ele := by
  obtain ⟨-, read⟩ := bytes_view correct uncoded ran
  refine comesBack_simple (by simp [ObjectLike, shape]) fun mapVal views rec => ?_
  simp only [mapDecodeMerged, shape, if_true, mapDecodeByteArray, read mapVal views,
    ok_bind, fillArray_self]
  rfl

theorem back_bigInt (correct : platform.Correct) (small : 0 ≤ n ∧ n < 2 ^ 256) :
    ComesBack platform api opts (.ptr (.bigInt n)) ts (.ptr .bigInt)
      (.string (platform.encodeBig n)) := by
  refine comesBack_simple (by simp [ObjectLike, shape]) fun mapVal views rec => ?_
  cases mapVal with
  | string s =>
    obtain rfl : s = platform.encodeBig n := views
    simp [mapDecodeMerged, shape, mapDecodeBigInt, correct.decodeBig_encodeBig n small.1 small.2]
  | _ => exact views.elim

end Simple

end API

end HiveGo
