import HiveGo.SerixMapFields
import HiveGo.SerixDecodeComplete

/-! Structs, pointers to them and interface values are encoded as maps with the keys of the
struct, and with the object code under its own key. -/
namespace HiveGo

open OrderedMap Value

namespace API

variable {api : API} {world : api.MapUniverse}

/-- A key of the fields, or that of the object code. -/
def StructKey (api : API) (ts : TypeSettings) (σ : GoType) (key : Bytes) : Prop :=
  api.FieldsKey σ key ∨ (ts.objectType ≠ none ∧ key = keyType)

theorem objectKey_struct (shape : api.shape σ = .struct decls) :
    api.ObjectKey ts σ = api.StructKey ts σ := by
  funext key
  refine propext ⟨fun used => ?_, ?_⟩
  · cases used with
    | code coded => exact .inr ⟨coded, rfl⟩
    | struct _ mem => exact .inl mem
    | ptr also => rw [shape] at also; cases also
    | object also => rw [shape] at also; cases also
  · rintro (mem | ⟨coded, rfl⟩)
    · exact .struct shape mem
    · exact .code coded

theorem objectKey_ptr (shape : api.shape τ = .ptr σ) : api.ObjectKey ts τ = api.StructKey ts σ := by
  funext key
  refine propext ⟨fun used => ?_, ?_⟩
  · cases used with
    | code coded => exact .inr ⟨coded, rfl⟩
    | struct also => rw [shape] at also; cases also
    | ptr also mem =>
      rw [shape] at also
      cases also
      exact .inl mem
    | object also => rw [shape] at also; cases also
  · rintro (mem | ⟨coded, rfl⟩)
    · exact .ptr shape mem
    · exact .code coded

/-- A map under the key of the object code agrees with the code. -/
theorem code_view (platform : Platform) (agree : Agree keys entries m) (used : keys keyType)
    (coded : get keyType entries = some (.code objectType)) :
    ∃ x, get keyType m = some (.number x) ∧
      UInt32.ofNat (convert platform .uint32 x).toNat = objectType.typeDenAndCode.2 := by
  have agrees := agree keyType used
  rw [coded] at agrees
  cases found : get keyType m with
  | none =>
    rw [found] at agrees
    cases agrees
  | some mapVal =>
    rw [found] at agrees
    cases agrees with
    | some views =>
      cases mapVal with
      | number x =>
        have held : NumKind.Holds .uint32 (objectType.typeDenAndCode.2.toNat : Int) := by
          have bound := objectType.typeDenAndCode.2.toNat_lt
          simp only [NumKind.Holds, NumKind.signed, NumKind.size]
          simp
          omega
        refine ⟨x, rfl, ?_⟩
        rw [convert_eq held views]
        simp
      | _ => exact views.elim

/-- The map is read as these fields, with all settings that have the same object code. -/
def ReadAs (platform : Platform) (api : API) (opts : Options) (ts : TypeSettings) (σ : GoType)
    (values : List Value) (m : List (Bytes × Any)) (others : List Value) : Prop :=
  ∀ other : TypeSettings, other.objectType = ts.objectType →
    ∀ fuel, 2 * heightAll values + 1 < fuel →
      mapDecodeStruct platform (api.mapDecoders platform opts fuel) (.object m) σ other =
        .ok (.struct others)

/-- The map of a struct, and that it gives back the struct. -/
structure StructBack (platform : Platform) (api : API) (opts : Options) (ts : TypeSettings)
    (σ : GoType) (values : List Value) (entries : List (Bytes × Ele)) : Prop where
  distinct : Distinct entries
  inside : ∀ key ∈ entries.map Prod.fst, api.StructKey ts σ key
  coded : ∀ objectType, ts.objectType = some objectType →
    get keyType entries = some (.code objectType)
  decoded : ∀ m, Agree (api.StructKey ts σ) entries m → ∃ others, RestoredAll values others ∧
    ReadAs platform api opts ts σ values m others

theorem structBack (inside : world.structs σ) (apart : api.CodeApart ts σ)
    (parsed : api.getStructFields σ = .ok fields)
    (back : FieldsBack platform api opts (api.FieldsKey σ) values fields)
    (ran : api.mapEncodeStruct σ ts (api.mapEncodeStructFields platform opts values) = .ok ele) :
    ∃ entries, ele = .object entries ∧ StructBack platform api opts ts σ values entries := by
  obtain ⟨decls, shape⟩ := world.structs_shape inside
  simp only [mapEncodeStruct, parsed, Outcome.mapErr, Outcome.ok_bind] at ran
  obtain ⟨entries, encoded, ran⟩ := Outcome.bind_eq_ok.mp ran
  cases ran
  refine ⟨entries, rfl, ?_⟩
  cases coded : ts.objectType with
  | none =>
    simp only [coded] at encoded
    obtain ⟨grown, decoded⟩ := back [] entries (fun _ _ => rfl) encoded
    refine ⟨grown.distinct distinct_nil, fun key mem => .inl (grown.mem_keys key mem),
      by simp [coded], fun m agree => ?_⟩
    obtain ⟨others, again, read⟩ := decoded m fun key used => agree key (.inl used)
    refine ⟨others, again, fun other same fuel enough => ?_⟩
    obtain _ | fuel := fuel
    · omega
    rw [coded] at same
    simp [mapDecodeStruct, ne_time shape, checkMapObjectCode, same,
      fields_eq parsed (read fuel (by omega)), structValue_eq shape]
  | some objectType =>
    simp only [coded] at encoded
    have out := apart (by simp [coded])
    obtain ⟨grown, decoded⟩ := back _ entries (fun key used => by
      rw [get_set, if_neg]
      · rfl
      · rintro rfl
        exact out used) encoded
    have atCode : get keyType entries = some (.code objectType) := by
      rw [grown.get_eq out, get_set, if_pos rfl]
    have isCode : api.StructKey ts σ keyType := .inr ⟨by simp [coded], rfl⟩
    have grownAll : Grown (api.StructKey ts σ) [] entries :=
      .set isCode (grown.mono fun _ => .inl)
    refine ⟨grownAll.distinct distinct_nil, grownAll.mem_keys, ?_, fun m agree => ?_⟩
    · intro other same
      rw [coded] at same
      cases same
      exact atCode
    · obtain ⟨others, again, read⟩ := decoded m fun key used => agree key (.inl used)
      obtain ⟨x, found, equal⟩ := code_view platform agree isCode atCode
      refine ⟨others, again, fun other same fuel enough => ?_⟩
      obtain _ | fuel := fuel
      · omega
      rw [coded] at same
      have passed : checkMapObjectCode platform m other = .ok () := by
        simp [checkMapObjectCode, same, found, equal]
      simp [mapDecodeStruct, ne_time shape, passed, fields_eq parsed (read fuel (by omega)),
        structValue_eq shape]

/-- A type whose values are encoded as the map of a struct comes back from the map. -/
theorem comesBack_object (objectLike : api.ObjectLike τ)
    (keys : api.ObjectKey ts τ = api.StructKey ts σ)
    (back : StructBack platform api opts ts σ values entries)
    (decoded : ∀ m others, RestoredAll values others →
      ReadAs platform api opts ts σ values m others → ∃ other, Restored value other ∧
        ∀ given : TypeSettings, given.objectType = ts.objectType → ∀ fuel, 2 * value.height ≤ fuel →
          api.mapDecodeMerged platform opts (api.mapDecoders platform opts fuel) (.object m) given τ =
            .ok other) :
    ComesBack platform api opts value ts τ (.object entries) := by
  refine ⟨fun _ => ⟨entries, rfl, back.distinct, keys ▸ back.inside, back.coded⟩, ?_⟩
  intro mapVal presented
  obtain ⟨plain, -⟩ | ⟨-, _, m, same, rfl, agree⟩ := presented
  · exact absurd objectLike plain
  · cases same
    rw [keys] at agree
    obtain ⟨others, again, read⟩ := back.decoded m agree
    obtain ⟨other, came, ran⟩ := decoded m others again read
    refine ⟨other, came, fun given alike fuel enough => ?_⟩
    exact ran _ alike.1 fuel enough

theorem back_struct (shape : api.shape τ = .struct decls)
    (back : StructBack platform api opts ts τ values entries) :
    ComesBack platform api opts (.struct values) ts τ (.object entries) := by
  refine comesBack_object (by simp [ObjectLike, shape]) (objectKey_struct shape) back ?_
  intro m others again read
  refine ⟨.struct others, again, fun given same fuel enough => ?_⟩
  rw [height] at enough
  simp only [mapDecodeMerged, shape]
  exact read given same fuel (by omega)

theorem back_ptr (shape : api.shape τ = .ptr elem) (pointee : api.shape elem = .struct decls)
    (back : StructBack platform api opts ts elem values entries) :
    ComesBack platform api opts (.ptr (.struct values)) ts τ (.object entries) := by
  have notNumber : τ ≠ .ptr .bigInt := by
    rintro rfl
    cases shape
    cases pointee
  refine comesBack_object (by simp [ObjectLike, shape, pointee]) (objectKey_ptr shape) back ?_
  intro m others again read
  refine ⟨.ptr (.struct others), again, fun given same fuel enough => ?_⟩
  rw [height, height] at enough
  simp only [mapDecodeMerged, shape, if_neg notNumber, mapDecodePtr, pointee,
    read given same fuel (by omega)]
  rfl

/-- An object is decoded with the code that it was registered with. -/
theorem back_interface {objects : InterfaceObjects} {code : UInt32} {inner : Value} {ele : Ele}
    (sound : api.Consistent) (codes : api.DistinctCodes) (shape : api.shape τ = .interface)
    (registered : api.interfaces τ = some objects) (known : objects.fromTypeToCode σ = some code)
    (uncoded : ts.objectType = none) (objectLike : api.ObjectLike σ)
    (back : ComesBack platform api opts inner (api.settings {} σ) σ ele) :
    ComesBack platform api opts (.iface σ inner) ts τ ele := by
  have found := codes τ objects σ code registered known
  have settled := (sound τ objects code σ registered found).2
  obtain ⟨entries, encoded⟩ := back.object objectLike
  obtain rfl := encoded.object
  have included : ∀ key, api.ObjectKey (api.settings {} σ) σ key → api.ObjectKey ts τ key :=
    fun key used => .object shape registered known used
  have unset : ({} : TypeSettings).objectType = none := rfl
  obtain ⟨objectType, set, coded⟩ := settings_objectType unset settled
  refine ⟨fun _ => ⟨entries, rfl, encoded.distinct, fun key mem =>
    included key (encoded.inside key mem), by simp [uncoded]⟩, ?_⟩
  intro mapVal presented
  obtain ⟨plain, -⟩ | ⟨-, _, m, same, rfl, agree⟩ := presented
  · exact absurd (by simp [ObjectLike, shape]) plain
  · cases same
    have agreeObject : Agree (api.ObjectKey (api.settings {} σ) σ) entries m :=
      fun key used => agree key (included key used)
    obtain ⟨x, atCode, equal⟩ := code_view platform agreeObject (.code (by simp [set]))
      (encoded.coded objectType set)
    rw [coded] at equal
    obtain ⟨other, again, read⟩ :=
      back.decoded (.object m) (.inr ⟨objectLike, entries, m, rfl, rfl, agreeObject⟩)
    refine ⟨.iface σ other, ⟨rfl, again⟩, fun given alike fuel enough => ?_⟩
    rw [height] at enough
    obtain _ | fuel := fuel
    · omega
    have inherited : api.Alike σ (api.settings {} σ) (api.settings (api.settings given τ) σ) := by
      have unset := alike.1.trans uncoded
      refine ⟨?_, fun plain => absurd objectLike plain⟩
      simp only [settings, TypeSettings.merge] at unset ⊢
      simp [unset]
    have decoded := read (api.settings given τ) inherited fuel (by omega)
    rw [mapDecoders]
    simp only [mapDecodeValue, mapDecodeMerged, shape, mapDecodeInterface, registered, atCode, equal,
      found, decoded]
    rfl

end API

end HiveGo
