import HiveGo.SerixMapCollections
import HiveGo.SerixEncodeSound

/-! The fields of a struct. Every field is decoded from the keys that it may use, and no other
field sets one of them; a field that was left out finds none of its keys. -/
namespace HiveGo

open OrderedMap Outcome Value Bool List

namespace API

variable {api : API} {world : api.MapUniverse}

/-- A type that a value of the universe can have at some place. -/
def Placed (world : api.MapUniverse) (τ : GoType) : Prop :=
  (∃ ts, world.mem ts τ) ∨ world.structs τ ∨ (api.shape τ).isPtr = true

theorem placed_field (fits : api.MapAdmitsField world.mem world.structs field) :
    Placed world field.fType := by
  unfold MapAdmitsField at fits
  split at fits
  · cases shape : api.shape field.fType with
    | ptr elem => exact .inr (.inr (by rw [shape]; rfl))
    | _ =>
      have same : api.deRefPointer field.fType = field.fType := by simp [deRefPointer, shape]
      exact .inr (.inl (same ▸ fits.1))
  · exact .inl ⟨_, fits.1⟩

theorem structs_of_placed (placed : Placed world τ) (shape : api.shape τ = .struct decls) :
    world.structs τ := by
  rcases placed with ⟨ts, mem⟩ | inside | pointer
  · have fits := world.mem_closed mem
    simp only [MapAdmits, shape] at fits
    exact fits.1
  · exact inside
  · rw [shape] at pointer
    cases pointer

/-- The types of the universe are none of the ones that it leaves out. -/
theorem not_placed (placed : Placed world τ) : api.shape τ ≠ .bigInt ∧ api.shape τ ≠ .time ∧
      ∀ length elem, api.shape τ = .array length elem → elem = .uint8 := by
  rcases placed with ⟨ts, mem⟩ | inside | pointer
  · have fits := world.mem_closed mem
    unfold MapAdmits at fits
    refine ⟨fun shape => ?_, fun shape => ?_, fun length elem shape => ?_⟩
    · simp [shape] at fits
    · simp [shape] at fits
    · simp only [shape] at fits
      exact fits.1
  · obtain ⟨decls, shape⟩ := world.structs_shape inside
    simp [shape]
  · cases shape : api.shape τ <;> simp [shape, Shape.isPtr] at pointer ⊢

private theorem zeroFields_eq (typed : api.HasTypeFields values fields)
    (each : ∀ value ∈ values, ∀ field ∈ fields, api.HasType value field.fType →
        zero field.fType = .ok value) :
    zeroFields zero fields = .ok values := by
  induction values generalizing fields with
  | nil =>
    cases fields with
    | nil => rfl
    | cons => exact typed.elim
  | cons value values ih =>
    cases fields with
    | nil => exact typed.elim
    | cons field fields =>
      have first := each value (mem_cons_self) field (mem_cons_self) typed.1
      have later := ih typed.2 fun value mem field listed =>
        each value (mem_cons_of_mem _ mem) field (mem_cons_of_mem _ listed)
      rw [zeroFields, first, ok_bind, later]
      rfl

private theorem allZero_iff : allZero values = true ↔ ∀ value ∈ values, value.isZero = true := by
  induction values with
  | nil => simp [allZero]
  | cons value values ih => simp [allZero, ih]

/-- A zero value is the zero value of its type. -/
theorem zero_eq (placed : Placed world τ) (typed : api.HasType value τ)
    (isZero : value.isZero = true) (enough : value.height < fuel) :
    (api.mapDecoders platform opts fuel).zero τ = .ok value := by
  induction value using induction generalizing τ fuel with
  | array elems =>
    obtain ⟨elem, shape, notBytes, -⟩ := typed
    exact absurd ((not_placed placed).2.2 _ _ shape) notBytes
  | bigInt n => exact absurd typed (not_placed placed).1
  | time t => exact absurd typed (not_placed placed).2.1
  | struct values ih =>
    rw [height] at enough
    obtain _ | fuel := fuel
    · omega
    obtain ⟨⟨decls, shape⟩, typedFields⟩ := typed
    have inside := structs_of_placed placed shape
    obtain ⟨fields, parsed⟩ := world.structs_parsed inside
    have zeros : zeroFields (api.mapDecoders platform opts fuel).zero fields = .ok values := by
      refine zeroFields_eq (typedFields fields parsed) fun value mem field listed typed => ?_
      have fits := world.structs_closed inside parsed field listed
      have small := height_le_heightAll mem
      exact ih value mem (placed_field fits) typed (allZero_iff.mp isZero value mem) (by omega)
    simp [mapDecoders, zeroValue, shape, parsed, zeros]
  | bool | string =>
    obtain _ | fuel := fuel
    · omega
    unfold HasType at typed
    simp_all [mapDecoders, zeroValue, Value.isZero]
  | num n =>
    obtain _ | fuel := fuel
    · omega
    obtain ⟨kind, shape, -⟩ := typed
    simp_all [mapDecoders, zeroValue, Value.isZero]
  | byteArray b =>
    obtain _ | fuel := fuel
    · omega
    have shape : api.shape τ = .array b.length .uint8 := typed
    have zeros : replicate b.length 0 = b := by
      refine (eq_replicate_iff.mpr ⟨rfl, fun byte mem => ?_⟩).symm
      simpa using all_eq_true.mp isZero byte mem
    simp [mapDecoders, zeroValue, shape, zeros]
  | nil =>
    obtain _ | fuel := fuel
    · omega
    unfold HasType at typed
    cases shape : api.shape τ <;> simp [shape] at typed <;> simp [mapDecoders, zeroValue, shape]
  | _ => cases isZero

/-- The fields of a struct come back from every map that agrees with the one that they were
set in. The keys must not be set before. -/
def FieldsBack (platform : Platform) (api : API) (opts : Options) (keys : Bytes → Prop)
    (values : List Value) (fields : List StructField) : Prop :=
  ∀ obj obj', (∀ key, keys key → get key obj = none) →
    api.mapEncodeStructFields platform opts values obj fields = .ok obj' →
    Grown keys obj obj' ∧ ∀ m, Agree keys obj' m → ∃ others, RestoredAll values others ∧
      ∀ fuel, 2 * heightAll values < fuel →
        api.mapDecodeFieldList (api.mapDecoders platform opts fuel) m fields = .ok others

/-- A value comes back at every type of the universe. -/
def Alone (platform : Platform) (opts : Options) (world : api.MapUniverse) (value : Value) : Prop :=
  ∀ {given τ ele}, world.mem (api.settings given τ) τ → api.HasType value τ → api.Whole value τ →
    api.mapEncode platform opts value given τ = .ok ele →
    ComesBack platform api opts value (api.settings given τ) τ ele

/-- What is known of the parts of a value: they come back alone, and as structs. -/
structure Back (platform : Platform) (opts : Options) (world : api.MapUniverse) (value : Value) :
    Prop where
  alone : Alone platform opts world value
  struct : ∀ {values σ fields}, (value = .struct values ∨ value = .ptr (.struct values)) →
    world.structs σ → api.getStructFields σ = .ok fields → api.HasTypeFields values fields →
    api.WholeFields values fields → FieldsBack platform api opts (api.FieldsKey σ) values fields

/-- The step of the loop over the fields. -/
def mapEncodeField (platform : Platform) (api : API) (opts : Options) (value : Value)
    (obj : List (Bytes × Ele)) (field : StructField) : Outcome Err (List (Bytes × Ele)) :=
  let name := spell field.name
  if field.isEmbedded && !field.settings.inlined then
    (api.mapEncodeEmbedded platform opts value obj field.fType).mapErr
      (.wrap · s!"can't serialize embedded struct {name}")
  else if leftOut field value then .ok obj
  else do
    let eleOut ← (api.mapEncode platform opts value field.settings.ts field.fType).mapErr
      (.wrap · s!"failed to serialize optional struct field {name}")
    setField obj field eleOut

theorem mapEncodeStructFields_cons :
    api.mapEncodeStructFields platform opts (value :: values) obj (field :: fields) =
      api.mapEncodeField platform opts value obj field >>= fun obj =>
        api.mapEncodeStructFields platform opts values obj fields := by
  rw [mapEncodeStructFields, mapEncodeField]
  split
  · rfl
  · split
    · rfl
    · cases api.mapEncode platform opts value field.settings.ts field.fType <;> rfl

/-- One field comes back. -/
def FieldBack (platform : Platform) (api : API) (opts : Options) (value : Value)
    (field : StructField) : Prop :=
  ∀ obj obj', (∀ key, api.FieldKey field key → get key obj = none) →
    api.mapEncodeField platform opts value obj field = .ok obj' →
    Grown (api.FieldKey field) obj obj' ∧ ∀ m, Agree (api.FieldKey field) obj' m →
      ∃ other, Restored value other ∧ ∀ fuel, 2 * value.height < fuel →
        api.mapDecodeField (api.mapDecoders platform opts fuel) m field = .ok other

section Field

variable {field : StructField}

/-- The value of an embedded field: a struct, or a pointer to one. -/
theorem embedded_value (mem : world.structs (api.deRefPointer field.fType))
    (typed : api.HasType value field.fType) (set : value ≠ .nil) :
    ∃ values, (∀ fields, api.getStructFields (api.deRefPointer field.fType) = .ok fields →
        api.HasTypeFields values fields) ∧
      ((value = .struct values ∧ (api.shape field.fType).isPtr = false) ∨
        (value = .ptr (.struct values) ∧
          api.shape field.fType = .ptr (api.deRefPointer field.fType))) := by
  obtain ⟨decls, pointee⟩ := world.structs_shape mem
  have ofStruct : ∀ {value σ}, api.shape σ = .struct decls → api.HasType value σ →
      ∃ values, value = .struct values ∧
        ∀ fields, api.getStructFields σ = .ok fields → api.HasTypeFields values fields := by
    intro value σ shape typed
    cases value with
    | struct values => exact ⟨values, rfl, typed.2⟩
    | _ => simp [HasType, shape] at typed
  cases shape : api.shape field.fType with
  | ptr elem =>
    have same : api.deRefPointer field.fType = elem := by simp [deRefPointer, shape]
    rw [same] at pointee ⊢
    cases value with
    | ptr inner =>
      obtain ⟨_, also, typed⟩ := typed
      rw [shape] at also
      cases also
      obtain ⟨values, rfl, typedFields⟩ := ofStruct pointee typed
      exact ⟨values, typedFields, .inr ⟨rfl, rfl⟩⟩
    | nil => exact absurd rfl set
    | _ => simp [HasType, shape] at typed
  | _ =>
    have same : api.deRefPointer field.fType = field.fType := by simp [deRefPointer, shape]
    rw [same] at pointee ⊢
    obtain ⟨values, rfl, typedFields⟩ := ofStruct pointee typed
    exact ⟨values, typedFields, .inl ⟨rfl, rfl⟩⟩

/-- The fields of a struct type are read by one more call. -/
theorem fields_eq (parsed : api.getStructFields σ = .ok fields)
    (read : api.mapDecodeFieldList (api.mapDecoders platform opts fuel) m fields = .ok others) :
    (api.mapDecoders platform opts (fuel + 1)).fields m σ = .ok others := by
  simp [mapDecoders, mapDecodeStructFields, parsed, read]

/-- The keys of an embedded field are those of its struct type. -/
theorem fieldKey_embedded (isEmbedded : (field.isEmbedded && !field.settings.inlined) = true) :
    api.FieldKey field = api.FieldsKey (api.deRefPointer field.fType) := by
  funext key
  refine propext ⟨fun used => ?_, .embedded isEmbedded⟩
  cases used with
  | embedded _ mem => exact mem
  | inlined isInlined => simp [isInlined] at isEmbedded
  | own notEmbedded => rw [notEmbedded] at isEmbedded; cases isEmbedded

/-- The keys of an inlined field are those of its object. -/
theorem fieldKey_inlined (isInlined : field.settings.inlined = true) :
    api.FieldKey field =
      api.ObjectKey (api.settings field.settings.ts field.fType) field.fType := by
  funext key
  refine propext ⟨fun used => ?_, .inlined isInlined⟩
  cases used with
  | embedded isEmbedded => simp [isInlined] at isEmbedded
  | inlined _ mem => exact mem
  | own _ notInlined => rw [notInlined] at isInlined; cases isInlined

/-- Every other field has one key. -/
theorem fieldKey_own (notEmbedded : (field.isEmbedded && !field.settings.inlined) = false)
    (notInlined : field.settings.inlined = false) :
    api.FieldKey field = fun key => key = field.key := by
  funext key
  refine propext ⟨fun used => ?_, ?_⟩
  · cases used with
    | embedded isEmbedded => rw [notEmbedded] at isEmbedded; cases isEmbedded
    | inlined isInlined => rw [notInlined] at isInlined; cases isInlined
    | own => rfl
  · rintro rfl
    exact .own notEmbedded notInlined

theorem field_embedded (back : Back platform opts world value)
    (isEmbedded : (field.isEmbedded && !field.settings.inlined) = true)
    (fits : api.MapAdmitsField world.mem world.structs field)
    (typed : api.HasType value field.fType) (set : value ≠ .nil)
    (whole : api.Whole value field.fType) : FieldBack platform api opts value field := by
  simp only [MapAdmitsField, isEmbedded, if_true] at fits
  obtain ⟨mem, exported⟩ := fits
  obtain ⟨fields, parsed⟩ := world.structs_parsed mem
  obtain ⟨values, typedFields, form⟩ := embedded_value mem typed set
  intro obj obj' fresh ran
  simp only [mapEncodeField, isEmbedded, if_true, mapErr_eq_ok] at ran
  rw [fieldKey_embedded isEmbedded] at fresh ⊢
  have direct : (api.shape field.fType).isPtr = false →
      api.deRefPointer field.fType = field.fType := by
    intro notPtr
    unfold deRefPointer
    cases shape : api.shape field.fType <;> simp [shape, Shape.isPtr] at notPtr ⊢
  have wholeFields : api.WholeFields values fields := by
    rcases form with ⟨rfl, notPtr⟩ | ⟨rfl, ptr⟩
    · rw [direct notPtr] at parsed
      simpa [Whole, parsed] using whole
    · simpa [Whole, parsed] using whole
  have encoded : api.mapEncodeStructFields platform opts values obj fields = .ok obj' := by
    rcases form with ⟨rfl, notPtr⟩ | ⟨rfl, ptr⟩
    · rw [direct notPtr] at parsed
      simpa [mapEncodeEmbedded, parsed, mapErr] using ran
    · simpa [mapEncodeEmbedded, parsed, mapErr] using ran
  obtain ⟨grown, decoded⟩ := back.struct (form.imp And.left And.left) mem parsed
    (typedFields fields parsed) wholeFields obj obj' fresh encoded
  refine ⟨grown, fun m agree => ?_⟩
  obtain ⟨others, again, read⟩ := decoded m agree
  rcases form with ⟨rfl, notPtr⟩ | ⟨rfl, ptr⟩
  · refine ⟨.struct others, again, fun fuel enough => ?_⟩
    rw [height] at enough
    obtain _ | fuel := fuel
    · omega
    rw [direct notPtr] at mem parsed
    have fieldsRead := fields_eq parsed (read fuel (by omega))
    obtain ⟨decls, shape⟩ := world.structs_shape mem
    simp [mapDecodeField, isEmbedded, mapDecodeEmbedded, shape, fieldsRead, mapErr,
      structValue_eq shape]
  · refine ⟨.ptr (.struct others), again, fun fuel enough => ?_⟩
    rw [height, height] at enough
    obtain _ | fuel := fuel
    · omega
    have fieldsRead := fields_eq parsed (read fuel (by omega))
    have settable := exported (by rw [ptr]; rfl)
    obtain ⟨decls, shape⟩ := world.structs_shape mem
    simp [mapDecodeField, isEmbedded, mapDecodeEmbedded, ptr, settable, fieldsRead, mapErr,
      structValue_eq shape]

/-- What is read for a field that was left out. -/
theorem missing_back (placed : Placed world field.fType)
    (typed : api.HasType value field.fType) (left : leftOut field value = true) :
    ∃ other, Restored value other ∧ ∀ fuel, value.height < fuel →
      api.missingField (api.mapDecoders platform opts fuel) field.fType = .ok other := by
  have empty : value.isValueEmpty = true := by
    rcases or_eq_true_iff.mp left with omitted | nil
    · exact (and_eq_true_iff.mp omitted).2
    · cases value <;> simp_all [isNil, isValueEmpty, isZero]
  unfold missingField
  cases shape : api.shape field.fType with
  | slice elem =>
    cases value with
    | bytes b =>
      obtain rfl : elem = .uint8 := by simpa [HasType, shape] using typed
      obtain rfl : b = [] := by simpa [isValueEmpty, isZero] using empty
      exact ⟨.bytes [], Restored.refl _, fun _ _ => by simp⟩
    | slice elems =>
      obtain ⟨_, also, notBytes, -⟩ := typed
      rw [shape] at also
      cases also
      obtain rfl : elems = [] := by simpa [isValueEmpty, isZero] using empty
      exact ⟨.slice [], Restored.refl _, fun _ _ => by simp [notBytes]⟩
    | nil =>
      refine ⟨if elem = .uint8 then .bytes [] else .slice [], ?_, fun _ _ => rfl⟩
      split <;> simp [Restored]
    | _ => simp [HasType, shape] at typed
  | _ =>
    have isZero : value.isZero = true := by
      cases value with
      | bytes | slice => simp [HasType, shape] at typed
      | _ => simpa [isValueEmpty] using empty
    exact ⟨value, Restored.refl value, fun fuel enough => zero_eq placed typed isZero enough⟩

section Fields

variable (fits : api.MapAdmitsField world.mem world.structs field)
  (typed : api.HasType value field.fType)
include fits typed

theorem field_left (notEmbedded : (field.isEmbedded && !field.settings.inlined) = false)
    (left : leftOut field value = true) : FieldBack platform api opts value field := by
  have placed := placed_field fits
  simp only [MapAdmitsField, notEmbedded, false_eq_true, if_false] at fits
  have mayMiss : (field.settings.isOptional || field.settings.omitEmpty) = true := by
    unfold leftOut at left
    cases isOptional : field.settings.isOptional <;> cases omitEmpty : field.settings.omitEmpty <;>
      simp [isOptional, omitEmpty] at left ⊢
  have notInlined : field.settings.inlined = false := by
    by_contra isInlined
    obtain ⟨-, isOptional, omitEmpty, -⟩ := fits.2 (by simpa using isInlined)
    simp [isOptional, omitEmpty] at mayMiss
  intro obj obj' fresh ran
  rw [fieldKey_own notEmbedded notInlined] at fresh ⊢
  simp only [mapEncodeField, notEmbedded, false_eq_true, if_false, left, if_true] at ran
  cases ran
  refine ⟨.refl obj, fun m agree => ?_⟩
  have absent : get field.key m = none := by
    have agrees := agree field.key rfl
    rw [fresh field.key rfl] at agrees
    cases found : get field.key m with
    | none => rfl
    | some =>
      rw [found] at agrees
      cases agrees
  obtain ⟨other, again, read⟩ := missing_back placed typed left
  refine ⟨other, again, fun fuel enough => ?_⟩
  simp only [mapDecodeField, notEmbedded, false_eq_true, if_false]
  simp only [notInlined, absent, mayMiss, false_eq_true, if_false, if_true]
  exact read fuel (by omega)

variable (back : Back platform opts world value) (left : leftOut field value = false)
  (whole : api.Whole value field.fType)
include back left whole

theorem field_inlined (isInlined : field.settings.inlined = true) :
    FieldBack platform api opts value field := by
  have notEmbedded : (field.isEmbedded && !field.settings.inlined) = false := by simp [isInlined]
  simp only [MapAdmitsField, notEmbedded, false_eq_true, if_false] at fits
  obtain ⟨mem, inlined⟩ := fits
  obtain ⟨noKey, -, -, objectLike⟩ := inlined isInlined
  intro obj obj' fresh ran
  rw [fieldKey_inlined isInlined] at fresh ⊢
  simp only [mapEncodeField, notEmbedded, false_eq_true, if_false, left] at ran
  obtain ⟨ele, encoded, ran⟩ := bind_eq_ok.mp ran
  have comes := back.alone mem typed whole (mapErr_eq_ok.mp encoded)
  obtain ⟨entries, encodedMap⟩ := comes.object objectLike
  obtain rfl := encodedMap.object
  simp only [setField, noKey, isInlined, if_true] at ran
  cases ran
  refine ⟨.setAll encodedMap.inside, fun m agree => ?_⟩
  have presented : api.Presents (api.settings field.settings.ts field.fType) field.fType
      (.object entries) (.object m) := by
    refine .inr ⟨objectLike, entries, m, rfl, rfl, fun key used => ?_⟩
    have agrees := agree key used
    rwa [get_setAll obj encodedMap.distinct, fresh key used, Option.or_none] at agrees
  obtain ⟨other, again, read⟩ := comes.decoded _ presented
  refine ⟨other, again, fun fuel enough => ?_⟩
  obtain _ | fuel := fuel
  · omega
  have decoded := read field.settings.ts ⟨rfl, fun _ => rfl⟩ fuel (by omega)
  simp [mapDecodeField, isInlined, decoded, mapErr]

theorem field_own (notEmbedded : (field.isEmbedded && !field.settings.inlined) = false)
    (notInlined : field.settings.inlined = false) : FieldBack platform api opts value field := by
  simp only [MapAdmitsField, notEmbedded, false_eq_true, if_false] at fits
  intro obj obj' fresh ran
  rw [fieldKey_own notEmbedded notInlined] at fresh ⊢
  simp only [mapEncodeField, notEmbedded, false_eq_true, if_false, left] at ran
  obtain ⟨ele, encoded, ran⟩ := bind_eq_ok.mp ran
  have comes := back.alone fits.1 typed whole (mapErr_eq_ok.mp encoded)
  have same : obj' = set field.key ele obj := by
    unfold setField at ran
    unfold StructField.key
    cases keyed : field.settings.fieldKey with
    | some fieldKey => simpa [keyed] using ran.symm
    | none => simpa [keyed, notInlined] using ran.symm
  subst same
  refine ⟨.set rfl (.refl _), fun m agree => ?_⟩
  have agrees := agree field.key rfl
  rw [get_set, if_pos rfl] at agrees
  cases found : get field.key m with
  | none =>
    rw [found] at agrees
    cases agrees
  | some mapVal =>
    rw [found] at agrees
    cases agrees with
    | some views =>
      obtain ⟨other, again, read⟩ := comes.decoded _ (comes.presents views)
      refine ⟨other, again, fun fuel enough => ?_⟩
      obtain _ | fuel := fuel
      · omega
      have decoded := read field.settings.ts ⟨rfl, fun _ => rfl⟩ fuel (by omega)
      simp only [mapDecodeField, notEmbedded, false_eq_true, if_false]
      simp [notInlined, found, decoded, mapErr]

end Fields

variable (back : Back platform opts world value)
include back

/-- Every field comes back. -/
theorem field_back (fits : api.MapAdmitsField world.mem world.structs field)
    (typed : api.HasType value field.fType)
    (whole : if field.isEmbedded && !field.settings.inlined then
        value ≠ .nil ∧ api.Whole value field.fType
      else if leftOut field value then True else api.Whole value field.fType) :
    FieldBack platform api opts value field := by
  cases embedded : field.isEmbedded && !field.settings.inlined with
  | true =>
    simp only [embedded, if_true] at whole
    exact field_embedded back embedded fits typed whole.1 whole.2
  | false =>
    simp only [embedded, false_eq_true, if_false] at whole
    cases left : leftOut field value with
    | true => exact field_left fits typed embedded left
    | false =>
      simp only [left, false_eq_true, if_false] at whole
      cases inlined : field.settings.inlined with
      | true => exact field_inlined fits typed back left whole inlined
      | false => exact field_own fits typed back left whole embedded inlined

end Field

/-- The keys that one of the fields may use. -/
def Uses (api : API) (fields : List StructField) (key : Bytes) : Prop :=
  ∃ field ∈ fields, api.FieldKey field key

variable {values : List Value} (each : ∀ value ∈ values, Back platform opts world value)
include each

/-- Fields that come back one by one and do not share a key, come back together: no field sets
a key of another one. -/
theorem fields_back (fits : ∀ field ∈ fields, api.MapAdmitsField world.mem world.structs field)
    (apart : fields.Pairwise fun first second => ∀ key, api.FieldKey first key → ¬ api.FieldKey second key)
    (typed : api.HasTypeFields values fields) (whole : api.WholeFields values fields) :
    FieldsBack platform api opts (api.Uses fields) values fields := by
  induction values generalizing fields with
  | nil =>
    cases fields with
    | nil =>
      intro obj obj' _ ran
      cases ran
      exact ⟨.refl obj, fun m _ => ⟨[], trivial, fun _ _ => rfl⟩⟩
    | cons => exact typed.elim
  | cons value values ih =>
    cases fields with
    | nil => exact typed.elim
    | cons field fields =>
      rw [forall_mem_cons] at each fits
      obtain ⟨alone, apart⟩ := pairwise_cons.mp apart
      have others : ∀ key, api.FieldKey field key → ¬ api.Uses fields key := by
        rintro key used ⟨other, mem, also⟩
        exact alone other mem key used also
      have firstBack := field_back each.1 fits.1 typed.1 whole.1
      have laterBack := ih each.2 fits.2 apart typed.2 whole.2
      intro obj obj' fresh ran
      rw [mapEncodeStructFields_cons] at ran
      obtain ⟨middle, first, later⟩ := bind_eq_ok.mp ran
      obtain ⟨grownFirst, decodedFirst⟩ := firstBack obj middle
        (fun key used => fresh key ⟨field, mem_cons_self, used⟩) first
      have inTail : ∀ key, api.Uses fields key → api.Uses (field :: fields) key := by
        rintro key ⟨other, mem, used⟩
        exact ⟨other, mem_cons_of_mem _ mem, used⟩
      obtain ⟨grownLater, decodedLater⟩ := laterBack middle obj' (fun key used => by
        rw [grownFirst.get_eq fun also => others key also used]
        exact fresh key (inTail key used)) later
      have inHead : ∀ key, api.FieldKey field key → api.Uses (field :: fields) key :=
        fun key used => ⟨field, mem_cons_self, used⟩
      refine ⟨(grownFirst.mono inHead).trans (grownLater.mono inTail), fun m agree => ?_⟩
      obtain ⟨other, again, readFirst⟩ := decodedFirst m fun key used => by
        rw [← grownLater.get_eq (others key used)]
        exact agree key (inHead key used)
      obtain ⟨rest, restoredRest, readRest⟩ := decodedLater m fun key used =>
        agree key (inTail key used)
      refine ⟨other :: rest, ⟨again, restoredRest⟩, fun fuel enough => ?_⟩
      rw [heightAll] at enough
      rw [mapDecodeFieldList, readFirst fuel (by omega), ok_bind, readRest fuel (by omega)]
      rfl

/-- The fields of a struct type of the universe. -/
theorem struct_back (inside : world.structs σ) (parsed : api.getStructFields σ = .ok fields)
    (typed : api.HasTypeFields values fields) (whole : api.WholeFields values fields) :
    FieldsBack platform api opts (api.FieldsKey σ) values fields := by
  have same : api.FieldsKey σ = api.Uses fields := by
    funext key
    refine propext ⟨fun used => ?_, fun ⟨field, mem, used⟩ => .mk parsed mem used⟩
    cases used with
    | mk also mem used =>
      rw [parsed] at also
      cases also
      exact ⟨_, mem, used⟩
  rw [same]
  exact fields_back each (world.structs_closed inside parsed) (world.keys_apart inside parsed) typed
    whole

end API

end HiveGo
