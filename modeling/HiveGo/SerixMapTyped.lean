import HiveGo.SerixMapDecode
import HiveGo.SerixValues

/-! Whatever a map holds: what is decoded from it is a value of the type that was asked for. -/
namespace HiveGo

open OrderedMap Outcome

namespace API

variable {api : API} {rec : MapDecoders}

/-- The decoders return values of the types that they are called for. -/
structure TypedDecoders (api : API) (rec : MapDecoders) : Prop where
  value : ∀ {mapVal ts τ value}, rec.value mapVal ts τ = .ok value → api.HasType value τ
  fields : ∀ {m σ values}, rec.fields m σ = .ok values →
    ∀ fields, api.getStructFields σ = .ok fields → api.HasTypeFields values fields
  zero : ∀ {τ value}, rec.zero τ = .ok value → api.HasType value τ

/-- A struct type, or one of the structs of the standard library. -/
theorem hasType_structValue (isStruct : (api.shape τ).isStruct = true)
    (typed : ∀ fields, api.getStructFields τ = .ok fields → api.HasTypeFields values fields) :
    api.HasType (structValue τ values) τ := by
  unfold structValue
  split
  · rfl
  · rfl
  · next notNumber notTime =>
    refine ⟨?_, typed⟩
    cases shape : api.shape τ with
    | struct decls => exact ⟨decls, rfl⟩
    | bigInt => exact absurd (api.eq_bigInt_of_shape shape) notNumber
    | time => exact absurd (api.eq_time_of_shape shape) notTime
    | _ => simp [shape, Shape.isStruct] at isStruct

theorem hasType_replicate (shape : api.shape τ = .array length elem) (notBytes : elem ≠ .uint8)
    (typed : api.HasType value elem) : api.HasType (.array (List.replicate length value)) τ := by
  refine ⟨elem, by simpa using shape, notBytes, hasTypeAll_iff.mpr fun other mem => ?_⟩
  rw [List.eq_of_mem_replicate mem]
  exact typed

theorem zeroFields_typed (typed : ∀ {τ value}, zero τ = .ok value → api.HasType value τ) :
    (zeroFields zero fields).Ensures (api.HasTypeFields · fields) := by
  induction fields with
  | nil => exact ensures_ok.mpr trivial
  | cons field fields ih =>
    simp only [zeroFields, ensures_bind]
    intro first head later tail
    exact ensures_ok.mpr ⟨typed head, ih later tail⟩

theorem zeroValue_typed (typed : ∀ {τ value}, zero τ = .ok value → api.HasType value τ) :
    (api.zeroValue zero τ).Ensures (api.HasType · τ) := by
  unfold zeroValue
  cases shape : api.shape τ with
  | num kind => exact ensures_ok.mpr ⟨kind, shape, by cases kind <;> decide⟩
  | array length elem =>
    dsimp only
    split
    · next isBytes => simpa [HasType, isBytes] using shape
    · next notBytes =>
      refine ensures_bind.mpr fun first read => ensures_ok.mpr ?_
      exact hasType_replicate shape notBytes (typed read)
  | struct decls =>
    dsimp only
    split
    · next fields parsed =>
      refine ensures_bind.mpr fun values read => ensures_ok.mpr ⟨⟨decls, shape⟩, fun _ also => ?_⟩
      cases parsed.symm.trans also
      exact zeroFields_typed typed values read
    · next unparsed =>
      exact ensures_ok.mpr ⟨⟨decls, shape⟩, fun fields parsed => absurd parsed (unparsed fields)⟩
  | _ => simp [HasType, shape]

/-- A converted number is one of the kind. -/
theorem holds_convert {kind : NumKind} : kind.Holds (convert platform kind x) := by
  unfold convert
  split
  · assumption
  · exact (platform.outOfRange kind x).2

theorem mapDecodeNum_typed (shape : api.shape τ = .num kind) :
    (mapDecodeNum platform mapVal kind).Ensures (api.HasType · τ) := by
  unfold mapDecodeNum
  split
  · refine ensures_bind.mpr fun n parsed => ensures_ok.mpr ⟨_, shape, ?_⟩
    unfold parseInt at parsed
    split at parsed
    · next ran =>
      cases parsed
      simpa [NumKind.Holds, NumKind.signed, NumKind.size] using Strconv.parseInt_bounds ran
    · cases parsed
  · refine ensures_bind.mpr fun n parsed => ensures_ok.mpr ⟨_, shape, ?_⟩
    unfold parseUint at parsed
    split at parsed
    · next ran =>
      cases parsed
      have bound := Strconv.parseUint_lt ran
      simp [NumKind.Holds, NumKind.signed, NumKind.size]
      omega
    · cases parsed
  · rintro _ ⟨⟩
  · rintro _ ⟨⟩
  · exact ensures_ok.mpr ⟨_, shape, holds_convert⟩
  · rintro _ ⟨⟩

theorem mapDecodeElems_typed (typed : TypedDecoders api rec) :
    (mapDecodeElems rec elem mapVals).Ensures (api.HasTypeAll · elem) := by
  induction mapVals with
  | nil => exact ensures_ok.mpr trivial
  | cons mapVal mapVals ih =>
    simp only [mapDecodeElems, ensures_bind]
    intro first head later tail
    exact ensures_ok.mpr ⟨typed.value head, ih later tail⟩

/-- Entries of the types of the map, all with different keys. -/
def TypedEntries (api : API) (key elem : GoType) (entries : List (Value × Value)) : Prop :=
  (∀ entry ∈ entries, api.HasType entry.1 key ∧ api.HasType entry.2 elem) ∧
    api.DistinctKeys key entries

section

variable (typed : TypedDecoders api rec)
include typed

theorem mapDecodeEntry_typed
    (pre : api.TypedEntries key elem entries) :
    (api.mapDecodeEntry rec key elem entries k v).Ensures fun entry =>
      api.TypedEntries key elem (entries ++ [entry]) := by
  simp only [mapDecodeEntry, ensures_bind]
  intro _ _ _ _ keyValue readKey
  split
  · rintro _ ⟨⟩
  · next hashable =>
    split
    · rintro _ ⟨⟩
    · next fresh =>
      refine ensures_bind.mpr fun elemValue readElem => ensures_ok.mpr ?_
      obtain ⟨typedBefore, hashed, nodup⟩ := pre
      refine ⟨?_, ?_, ?_⟩
      · rw [List.forall_mem_append, List.forall_mem_singleton]
        exact ⟨typedBefore, typed.value (mapErr_eq_ok.mp readKey),
          typed.value (mapErr_eq_ok.mp readElem)⟩
      · rw [List.forall_mem_append, List.forall_mem_singleton]
        exact ⟨hashed, by simpa using hashable⟩
      · refine List.pairwise_append.mpr ⟨nodup, List.pairwise_singleton .., ?_⟩
        intro first mem second last
        rw [List.mem_singleton] at last
        rw [last]
        simp only [List.any_eq_true, not_exists, not_and] at fresh
        simpa using fresh first mem

theorem mapDecodeEntries_typed
    (typedBefore : api.TypedEntries key elem before) :
    (api.mapDecodeEntries rec key elem before m).Ensures (api.TypedEntries key elem) := by
  induction m generalizing before with
  | nil => exact ensures_ok.mpr typedBefore
  | cons pair m ih =>
    exact ensures_bind.mpr fun entry read => ih (mapDecodeEntry_typed typed typedBefore entry read)

theorem mapDecodeMap_typed (shape : api.shape τ = .map key elem) :
    (api.mapDecodeMap opts rec mapVal τ key elem ts).Ensures (api.HasType · τ) := by
  unfold mapDecodeMap
  split
  · refine ensures_bind.mpr fun entries read => .checked (ensures_ok.mpr ?_)
    obtain ⟨typed, nodup⟩ :=
      mapDecodeEntries_typed typed ⟨by simp, by simp, .nil⟩ entries read
    exact ⟨key, elem, shape, hasTypeEntries_iff.mpr typed, nodup⟩
  · rintro _ ⟨⟩

end

theorem mapDecodeInterface_ok : (api.mapDecodeInterface platform rec mapVal τ ts).Ensures
    fun value => ∃ σ inner, value = .iface σ inner ∧ rec.value mapVal ts σ = .ok inner := by
  unfold mapDecodeInterface
  split
  · rintro _ ⟨⟩
  · split
    · split
      · rintro _ ⟨⟩
      · dsimp only
        split
        · rintro _ ⟨⟩
        · exact ensures_bind.mpr fun inner read => ensures_ok.mpr ⟨_, inner, rfl, read⟩
      · rintro _ ⟨⟩
    · rintro _ ⟨⟩

section

variable (typed : TypedDecoders api rec)
include typed

theorem mapDecodeInterface_typed (shape : api.shape τ = .interface) :
    (api.mapDecodeInterface platform rec mapVal τ ts).Ensures (api.HasType · τ) := by
  intro value ran
  obtain ⟨σ, inner, rfl, read⟩ := mapDecodeInterface_ok value ran
  exact ⟨shape, typed.value read⟩

theorem mapDecodeStruct_typed
    (isStruct : (api.shape τ).isStruct = true) :
    (mapDecodeStruct platform rec mapVal τ ts).Ensures (api.HasType · τ) := by
  unfold mapDecodeStruct
  split
  · next isTime =>
    subst isTime
    split
    · exact ensures_bind.mpr fun n _ => ensures_ok.mpr rfl
    · rintro _ ⟨⟩
  · split
    · simp only [ensures_bind]
      intro _ _ values read
      exact ensures_ok.mpr (hasType_structValue isStruct (typed.fields read))
    · rintro _ ⟨⟩

theorem mapDecodeObjectArray_typed
    (shape : api.shape τ = .array length elem) (notBytes : elem ≠ .uint8) :
    (api.mapDecodeObjectArray opts rec mapVal elem length ts).Ensures (api.HasType · τ) := by
  refine ensures_bind.mpr fun elems _ => ?_
  split
  · simp only [ensures_bind]
    intro zero read _ _
    exact ensures_ok.mpr (hasType_replicate shape notBytes (typed.zero read))
  · refine ensures_bind.mpr fun _ _ => ?_
    rintro _ ⟨⟩

end

theorem length_fillArray : (fillArray length b).length = length := by
  simp only [fillArray, List.length_append, List.length_take, List.length_replicate]
  omega

theorem mapDecodeByteArrayPtr_ok : (api.mapDecodeByteArrayPtr platform opts mapVal τ ts length).Ensures
    fun value => ∃ b, value = .ptr (.byteArray (fillArray length b)) := by
  unfold mapDecodeByteArrayPtr
  split
  · rintro _ ⟨⟩
  · split
    · split
      · exact ensures_bind.mpr fun b _ => .checked (ensures_ok.mpr ⟨b, rfl⟩)
      · rintro _ ⟨⟩
    · rintro _ ⟨⟩

theorem mapDecodeBigInt_ok :
    (mapDecodeBigInt platform mapVal).Ensures fun value => ∃ n, value = .ptr (.bigInt n) := by
  unfold mapDecodeBigInt
  split
  · split
    · exact ensures_ok.mpr ⟨_, rfl⟩
    · rintro _ ⟨⟩
  · rintro _ ⟨⟩

section

variable (typed : TypedDecoders api rec)
include typed

theorem mapDecodePtr_typed (shape : api.shape τ = .ptr elem) :
    (api.mapDecodePtr platform opts rec mapVal τ elem ts).Ensures (api.HasType · τ) := by
  unfold mapDecodePtr
  cases pointee : api.shape elem with
  | struct | bigInt | time =>
    refine ensures_bind.mpr fun inner read => ensures_ok.mpr ⟨elem, shape, ?_⟩
    exact mapDecodeStruct_typed typed (by rw [pointee]; rfl) inner read
  | interface =>
    refine ensures_bind.mpr fun inner read => ensures_ok.mpr ⟨elem, shape, ?_⟩
    exact mapDecodeInterface_typed typed pointee inner read
  | array length item =>
    dsimp only
    split
    · next isBytes =>
      intro value ran
      obtain ⟨b, rfl⟩ := mapDecodeByteArrayPtr_ok value ran
      exact ⟨elem, shape, by simp [HasType, pointee, length_fillArray, isBytes]⟩
    · next notBytes =>
      refine ensures_bind.mpr fun inner read => ensures_ok.mpr ⟨elem, shape, ?_⟩
      exact mapDecodeObjectArray_typed typed pointee notBytes inner read
  | _ => rintro _ ⟨⟩

theorem mapDecodeMerged_typed :
    (api.mapDecodeMerged platform opts rec mapVal ts τ).Ensures (api.HasType · τ) := by
  unfold mapDecodeMerged
  cases shape : api.shape τ with
  | ptr elem =>
    dsimp only
    split
    · next isNumber =>
      intro value ran
      obtain ⟨n, rfl⟩ := mapDecodeBigInt_ok value ran
      rw [isNumber]
      exact ⟨.bigInt, rfl, rfl⟩
    · exact mapDecodePtr_typed typed shape
  | struct | bigInt | time => exact mapDecodeStruct_typed typed (by rw [shape]; rfl)
  | slice elem =>
    dsimp only
    split
    · next isBytes =>
      refine ensures_bind.mpr fun b _ => .checked (ensures_ok.mpr ?_)
      rw [HasType, shape, isBytes]
    · next notBytes =>
      simp only [mapDecodeObjects, ensures_bind]
      intro elems _ values read _ _
      exact ensures_ok.mpr ⟨elem, shape, notBytes, mapDecodeElems_typed typed values read⟩
  | map key elem => exact mapDecodeMap_typed typed shape
  | array length elem =>
    dsimp only
    split
    · next isBytes =>
      refine ensures_bind.mpr fun b _ => ensures_ok.mpr ?_
      rw [HasType, shape, length_fillArray, isBytes]
    · next notBytes => exact mapDecodeObjectArray_typed typed shape notBytes
  | interface => exact mapDecodeInterface_typed typed shape
  | string =>
    simp only [mapDecodeString]
    split
    · refine .checked ?_
      split
      · rintro _ ⟨⟩
      · exact ensures_ok.mpr shape
    · rintro _ ⟨⟩
  | bool =>
    simp only [mapDecodeBool]
    split
    · exact ensures_ok.mpr shape
    · rintro _ ⟨⟩
  | num kind => exact mapDecodeNum_typed shape

theorem mapDecodeField_typed
    (embedded : (field.isEmbedded && !field.settings.inlined) = true →
      (api.shape (api.deRefPointer field.fType)).isStruct = true) :
    (api.mapDecodeField rec m field).Ensures (api.HasType · field.fType) := by
  unfold mapDecodeField
  split
  · next isEmbedded =>
    have isStruct := embedded isEmbedded
    unfold mapDecodeEmbedded
    unfold deRefPointer at isStruct
    cases shape : api.shape field.fType with
    | ptr elem =>
      simp only [shape] at isStruct ⊢
      split
      · rintro _ ⟨⟩
      · refine ensures_bind.mpr fun values read => ensures_ok.mpr ⟨elem, shape, ?_⟩
        exact hasType_structValue isStruct (typed.fields (mapErr_eq_ok.mp read))
    | _ =>
      simp only [shape] at isStruct
      refine ensures_bind.mpr fun values read => ensures_ok.mpr ?_
      exact hasType_structValue (by rw [shape]; exact isStruct)
        (typed.fields (mapErr_eq_ok.mp read))
  · split
    · exact fun value ran => typed.value (mapErr_eq_ok.mp ran)
    · split
      · split
        · unfold missingField
          cases shape : api.shape field.fType with
          | slice elem =>
            refine ensures_ok.mpr ?_
            split
            · next isBytes => rw [HasType, shape, isBytes]
            · next notBytes => exact ⟨elem, shape, notBytes, trivial⟩
          | _ => exact fun value ran => typed.zero ran
        · rintro _ ⟨⟩
      · exact fun value ran => typed.value (mapErr_eq_ok.mp ran)

theorem mapDecodeFieldList_typed
    (embedded : ∀ field ∈ fields, (field.isEmbedded && !field.settings.inlined) = true →
      (api.shape (api.deRefPointer field.fType)).isStruct = true) :
    (api.mapDecodeFieldList rec m fields).Ensures (api.HasTypeFields · fields) := by
  induction fields with
  | nil => exact ensures_ok.mpr trivial
  | cons field fields ih =>
    rw [List.forall_mem_cons] at embedded
    simp only [mapDecodeFieldList, ensures_bind]
    intro first head later tail
    exact ensures_ok.mpr ⟨mapDecodeField_typed typed embedded.1 first head,
      ih embedded.2 later tail⟩

end

theorem mapDecoders_typed : TypedDecoders api (api.mapDecoders platform opts fuel) := by
  induction fuel with
  | zero => exact ⟨nofun, nofun, nofun⟩
  | succ fuel ih =>
    refine ⟨fun ran => mapDecodeMerged_typed ih _ ran, ?_, fun ran => zeroValue_typed ih.zero _ ran⟩
    intro m σ values ran fields parsed
    simp only [mapDecoders, mapDecodeStructFields, parsed, Outcome.mapErr, ok_bind] at ran
    exact mapDecodeFieldList_typed ih (api.getStructFields_checked api.checkTag_embedded parsed)
      values ran

/-- What `MapDecode` returns is a value of the type. -/
theorem mapDecode_typed (ran : api.mapDecode platform opts fuel m τ = .ok value) :
    api.HasType value τ := by
  obtain ⟨ptr, read, ran⟩ := bind_eq_ok.mp ran
  have typed := mapDecoders_typed.value read
  split at ran
  · obtain ⟨elem, shape, typed⟩ := typed
    cases ran
    cases shape
    exact typed
  · cases ran

end API

end HiveGo
