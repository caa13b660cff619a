import HiveGo.SerixValues

/-! What the encoder returns for a value of the format, stands for its normal form. The length of
an optional value may be cut off, a nil pointer to an embedded struct is skipped, and a time may
not fit into eight bytes: there are no times here, and the fields have to fit. -/
namespace HiveGo

open Serializer Outcome TypeSettings Shape

namespace API

variable {api : API}

/-- Neither optional nor an embedded pointer. -/
def PlainField (api : API) (field : StructField) : Prop :=
  if field.isEmbedded && !field.settings.inlined then (api.shape field.fType).isPtr = false
  else field.settings.isOptional = false

/-- A universe without optional fields, embedded pointers and times, and with maps whose
parts can be looked up. -/
structure Plain (world : api.Universe) : Prop where
  parts : PartsFound world
  times : ∀ {ts τ}, world.mem ts τ → api.shape τ ≠ .time
  fields : ∀ {σ fields}, world.structs σ → api.getStructFields σ = .ok fields →
    ∀ field ∈ fields, api.PlainField field

/-- The elements of slices and the entries of maps are encoded to at least one byte. -/
structure Sized (opts : Options) (world : api.Universe) : Prop where
  elems : ∀ {ts τ elem}, world.mem ts τ → api.shape τ = .slice elem → elem ≠ .uint8 →
    ∀ value b, api.HasType value elem → api.encode opts value {} elem = .ok b → b ≠ []
  entries : ∀ {ts τ key elem}, world.mem ts τ → api.shape τ = .map key elem →
    ∀ entry b, api.HasType entry.1 key → api.HasType entry.2 elem →
      api.encodeEntries opts [entry] key elem = .ok [b] → b ≠ []

/-- The values directly inside a value, with their types. -/
def typedParts (api : API) : Value × GoType → List (Value × GoType)
  | (.slice elems, τ) =>
    match api.shape τ with
    | .slice elem => elems.map (·, elem)
    | _ => []
  | (.map entries, τ) =>
    match api.shape τ with
    | .map key elem => entries.flatMap fun entry => [(entry.1, key), (entry.2, elem)]
    | _ => []
  | (.ptr inner, τ) => [(inner, api.deRefPointer τ)]
  | (.struct values, τ) =>
    match api.getStructFields τ with
    | .ok fields => values.zip (fields.map StructField.fType)
    | _ => []
  | (.iface σ inner, _) => [(inner, σ)]
  | _ => []

/-- A value inside another one, at any depth. -/
def Inside (api : API) : Value × GoType → Value × GoType → Prop :=
  Relation.ReflTransGen fun outer inner => inner ∈ api.typedParts outer

/-- The type of the field is one without bytes: the empty string stands for a pointer to such an
embedded struct, or for such a value. -/
def Traceless (api : API) (opts : Options) (field : StructField) : Prop :=
  if field.isEmbedded && !field.settings.inlined then
    ∃ inner, api.DenotesEmbedded opts (.ptr inner) field.isUnexported field.fType []
  else ∃ value, api.Denotes opts value (api.settings field.settings.ts field.fType) field.fType []

/-- An embedded pointer can be set by the decoder, and is nil only if there is nothing to read. -/
def PointerFits (api : API) (opts : Options) (field : StructField) (value : Value) : Prop :=
  (field.isEmbedded && !field.settings.inlined) = true → (api.shape field.fType).isPtr = true →
    field.isUnexported = false ∧ (value = .nil → api.Traceless opts field)

/-- An optional value that is set has bytes. -/
def OptionalFits (api : API) (opts : Options) (field : StructField) (value : Value) : Prop :=
  (field.isEmbedded && !field.settings.inlined) = false → field.settings.isOptional = true →
    value ≠ .nil → ¬ api.Traceless opts field

/-- The length of an optional value fits into its four bytes. -/
def ShortField (api : API) (opts : Options) (field : StructField) (value : Value) : Prop :=
  (field.isEmbedded && !field.settings.inlined) = false → field.settings.isOptional = true →
    ∀ b, api.encode opts value field.settings.ts field.fType = .ok b → b.length < 256 ^ 4

/-- The field is read back as it was written. -/
def FitField (api : API) (opts : Options) (field : StructField) (value : Value) : Prop :=
  api.PointerFits opts field value ∧ api.OptionalFits opts field value ∧ api.ShortField opts field value

/-- All fields of the structs inside the value fit. -/
def Fit (opts : Options) (world : api.Universe) (place : Value × GoType) : Prop :=
  ∀ values σ fields, api.Inside place (.struct values, σ) → world.structs σ →
    api.getStructFields σ = .ok fields → ∀ pair ∈ values.zip fields, api.FitField opts pair.2 pair.1

/-- The encoder stays within the format on the fields of a struct value. -/
def SpellsFields (opts : Options) (world : api.Universe) (values : List Value) : Prop :=
  ∀ {fields written s}, (∀ field ∈ fields, api.AdmitsField world.mem world.structs field) →
    (∀ field ∈ fields, api.Nilable field) → api.HasTypeFields values fields → (∀ pair ∈ values.zip fields,
      api.FitField opts pair.2 pair.1 ∧ Fit opts world (pair.1, pair.2.fType)) →
    api.encodeStructFields opts values (of written) fields = .ok s →
    ∃ body, s = of (written ++ body) ∧
      api.DenotesFields opts (api.normalFields opts values fields) fields body

/-- The encoder stays within the format on the value, alone and as an embedded struct, and on
its fields if it is a struct. -/
structure Spells (opts : Options) (world : api.Universe) (value : Value) : Prop where
  encoded : ∀ {given τ b}, world.mem (api.settings given τ) τ → api.HasType value τ →
    Fit opts world (value, τ) → api.encode opts value given τ = .ok b →
    api.Denotes opts (api.normal opts value (api.settings given τ) τ) (api.settings given τ) τ b
  fields : ∀ {values}, value = .struct values → SpellsFields opts world values
  embedded : ∀ {τ written s} ts isUnexported, world.structs (api.deRefPointer τ) →
    api.HasType value τ → Fit opts world (value, τ) →
    ((api.shape τ).isPtr = true → value ≠ .nil ∧ isUnexported = false) →
    api.encodeEmbedded opts value (of written) τ = .ok s → ∃ body, s = of (written ++ body) ∧
      api.DenotesEmbedded opts (api.normal opts value ts τ) isUnexported τ body

section

variable {world : api.Universe}

theorem Fit.next {inner : Value × GoType} (fit : Fit opts world place) (mem : inner ∈ api.typedParts place) :
    Fit opts world inner := fun _ _ _ reached => fit _ _ _ (.head mem reached)

/-- The fields of a struct fit, and so do the values in them. -/
theorem Fit.of_field (fit : Fit opts world (.struct values, σ)) (inside : world.structs σ)
    (parsed : api.getStructFields σ = .ok fields) : ∀ pair ∈ values.zip fields,
      api.FitField opts pair.2 pair.1 ∧ Fit opts world (pair.1, pair.2.fType) := by
  intro pair mem
  refine ⟨fit _ _ _ .refl inside parsed pair mem, fit.next ?_⟩
  simp only [typedParts, parsed, List.zip_map_right]
  exact List.mem_map.mpr ⟨pair, mem, rfl⟩

theorem Fit.of_entry (fit : Fit opts world (.map entries, τ)) (shape : api.shape τ = .map key elem)
    (mem : entry ∈ entries) : Fit opts world (entry.1, key) ∧ Fit opts world (entry.2, elem) := by
  have inside : ∀ part ∈ [(entry.1, key), (entry.2, elem)], part ∈ api.typedParts (.map entries, τ) := by
    intro part listed
    simp only [typedParts, shape]
    exact List.mem_flatMap.mpr ⟨entry, mem, listed⟩
  exact ⟨fit.next (inside _ (by simp)), fit.next (inside _ (by simp))⟩

/-- An embedded nil is a pointer. -/
theorem embedded_nil (mem : world.structs (api.deRefPointer τ)) (typed : api.HasType .nil τ) :
    (api.shape τ).isPtr = true := by
  obtain ⟨decls, shape⟩ := world.structs_shape mem
  unfold deRefPointer at shape
  cases pointer : api.shape τ <;> simp_all [HasType, isPtr]

theorem isNil_iff {value : Value} : value.isNil = true ↔ value = .nil := by
  cases value <;> simp [Value.isNil]

theorem spelled_field (spells : Spells opts world value)
    (admits : api.AdmitsField world.mem world.structs field)
    (nilable : api.Nilable field) (typed : api.HasType value field.fType)
        (fits : api.FitField opts field value)
    (fit : Fit opts world (value, field.fType))
    (ran : api.encodeStructFields opts (value :: values) (of written) (field :: fields) = .ok s) :
    ∃ first, api.encodeStructFields opts values (of (written ++ first)) fields = .ok s ∧
      api.DenotesField opts (api.normalField opts value field) field first := by
  rw [encodeStructFields] at ran
  unfold AdmitsField at admits
  obtain ⟨pointer, filled, short⟩ := fits
  unfold DenotesField normalField
  cases embedded : field.isEmbedded && !field.settings.inlined with
  | true =>
    simp only [embedded, if_true, Bool.true_and] at ran admits ⊢
    obtain ⟨next, wrote, later⟩ := bind_eq_ok.mp ran
    by_cases unset : value = .nil
    · subst unset
      cases wrote
      have ptr : (api.shape field.fType).isPtr = true := embedded_nil admits typed
      have read := (pointer embedded ptr).2 rfl
      simp only [Traceless, embedded, if_true] at read
      refine ⟨[], by simpa using later, ?_⟩
      rw [if_pos (isNil_iff.mpr rfl), unwritten, dif_pos read]
      exact read.choose_spec
    · obtain ⟨first, rfl, spelt⟩ := spells.embedded (api.settings field.settings.ts field.fType)
        field.isUnexported admits typed fit (fun ptr => ⟨unset, (pointer embedded ptr).1⟩)
        (mapErr_eq_ok.mp wrote)
      refine ⟨first, later, ?_⟩
      rwa [if_neg (by rwa [isNil_iff])]
  | false =>
    simp only [embedded, Bool.false_eq_true, if_false, Bool.false_and] at ran admits ⊢
    obtain ⟨next, wrote, later⟩ := bind_eq_ok.mp ran
    unfold writeField at wrote
    cases optional : field.settings.isOptional with
    | false =>
      simp only [optional, Bool.false_eq_true, if_false, bind_eq_ok, mapErr_eq_ok] at wrote ⊢
      obtain ⟨first, encoded, same⟩ := wrote
      cases same
      exact ⟨first, by simpa using later, spells.encoded admits typed fit encoded⟩
    | true =>
      simp only [optional, if_true] at wrote ⊢
      by_cases unset : value = .nil
      · subst unset
        cases wrote
        refine ⟨LittleEndian.put 4 0, by simpa [writePayloadLength, writeNum] using later, .inl ⟨?_, rfl⟩⟩
        unfold normal
        cases shape : api.shape field.fType with
        | slice | map => simp [Nilable, shape, optional, isPtr, isInterface] at nilable
        | _ => rfl
      · have set : value.isNil = false := by
          cases value with
          | nil => exact absurd rfl unset
          | _ => rfl
        simp only [set, Bool.false_eq_true, if_false, bind_eq_ok, mapErr_eq_ok] at wrote
        obtain ⟨body, encoded, same⟩ := wrote
        cases same
        have spelt := spells.encoded admits typed fit encoded
        have nonempty : body ≠ [] := by
          rintro rfl
          refine filled embedded optional unset ?_
          simpa only [Traceless, embedded, Bool.false_eq_true, if_false] using ⟨_, spelt⟩
        exact ⟨_, by simpa [writePayloadLength, writeNum] using later, .inr ⟨body, rfl,
          List.length_pos_iff.mpr nonempty, short embedded optional body encoded, spelt⟩⟩

private theorem spelled_fields (each : ∀ value ∈ values, Spells opts world value) :
    SpellsFields opts world values := by
  intro fields wrote s fits nilable typed fit ran
  induction values generalizing fields wrote with
  | nil =>
    cases fields with
    | nil =>
      cases ran
      exact ⟨[], by simp, by simp [normalFields, DenotesFields]⟩
    | cons field fields => exact typed.elim
  | cons value values ih =>
    cases fields with
    | nil => exact typed.elim
    | cons field fields =>
      rw [List.forall_mem_cons] at each fits nilable
      rw [List.zip_cons_cons, List.forall_mem_cons] at fit
      obtain ⟨first, later, spelt⟩ :=
        spelled_field each.1 fits.1 nilable.1 typed.1 fit.1.1 fit.1.2 ran
      obtain ⟨rest, rfl, others⟩ := ih each.2 fits.2 nilable.2 typed.2 fit.2 later
      exact ⟨first ++ rest, by simp, first, rest, rfl, others, spelt⟩

private theorem spelled_struct (spells : SpellsFields opts world values) (mem : world.structs τ)
    (typed : api.HasType (.struct values) τ) (fit : Fit opts world (.struct values, τ))
    (ran : api.encodeStruct τ ts (api.encodeStructFields opts values) = .ok b) :
    api.Denotes opts (api.normal opts (.struct values) given τ) ts τ b := by
  obtain ⟨decls, shape⟩ := world.structs_shape mem
  simp only [encodeStruct, bind_eq_ok, mapErr_eq_ok, codeWriter_eq] at ran
  obtain ⟨fields, parsed, s, wrote, done⟩ := ran
  obtain ⟨body, rfl, spelt⟩ := spells (world.structs_closed mem parsed)
    (api.getStructFields_optional parsed) (typed.2 fields parsed) (fit.of_field mem parsed) wrote
  cases done
  simp only [normal, parsed]
  unfold Denotes
  simp only [shape]
  exact ⟨fields, body, parsed, rfl, spelt⟩

private theorem spelled_objects (each : ∀ value ∈ elems, Spells opts world value)
    (mem : world.mem (api.settings {} elem) elem) (typed : api.HasTypeAll elems elem)
    (fit : ∀ value ∈ elems, Fit opts world (value, elem))
    (sized : ∀ value b, api.HasType value elem → api.encode opts value {} elem = .ok b → b ≠ [])
    (encoded : api.encodeElems opts elems τ elem 0 = .ok data)
    (ran : api.encodeObjects opts τ elem elems ts (.ok data) = .ok b) :
    (∃ data', api.DenotesElems opts (arrangeAlong ts data (api.normalAll opts elems elem)) elem data' ∧
      Collection opts ts data' b) ∧
    (opts.validation = true → api.checkArrayMustOccur ts elem
      (arrangeAlong ts data (api.normalAll opts elems elem)) = .ok ()) := by
  have pieces := encodeElems_eq_ok.mp encoded
  rw [hasTypeAll_iff] at typed
  have rel : List.Forall₂ (fun value b => api.Denotes opts value (api.settings {} elem) elem b)
      (api.normalAll opts elems elem) data := by
    rw [normalAll_eq, List.forall₂_map_left_iff]
    have known : ∀ value ∈ elems, ∀ b, api.encode opts value {} elem = .ok b →
        api.Denotes opts (api.normal opts value (api.settings {} elem) elem) (api.settings {} elem)
          elem b :=
      fun value inside _ => (each value inside).encoded mem (typed value inside) (fit value inside)
    exact ((List.forall₂_and_left elems data).mpr ⟨known, pieces⟩).imp
      fun _ b both => both.1 b both.2
  unfold encodeObjects at ran
  obtain ⟨occur, ran⟩ := checked_eq_ok.mp ran
  have filled :=
    forall_mem_right pieces fun value inside b => sized value b (typed value inside)
  refine ⟨⟨arrange ts data, ?_, (encodeSliceOfBytes_eq_ok filled).mp ran⟩, fun rules => ?_⟩
  · exact denotesElems_iff.mpr (forall₂_arrangeAlong rel)
  · have occurs := mapErr_eq_ok.mp (occur rules)
    have same := perm_arrangeAlong ts rel.length_eq.le
    rw [normalAll_eq] at same ⊢
    simpa [checkArrayMustOccur_eq_ok, same.mem_iff, mustOccurCode_normal] using occurs

private theorem spelled_entry (spells : Spells opts world entry.1 ∧ Spells opts world entry.2)
    (keys : api.AdmitsPart world.mem key) (values : api.AdmitsPart world.mem elem)
    (found : (∃ ts, api.getByValue key .nil = .ok ts) ∧ ∃ ts, api.getByValue elem .nil = .ok ts)
    (typed : api.HasType entry.1 key ∧ api.HasType entry.2 elem)
    (fit : Fit opts world (entry.1, key) ∧ Fit opts world (entry.2, elem))
    (encoded : api.EncodesEntry opts key elem entry b) :
    api.DenotesEntry opts key elem (api.normalEntry opts key elem entry) b := by
  obtain ⟨⟨keySettings, keyFound⟩, elemSettings, elemFound⟩ := found
  obtain ⟨_, _, keyBytes, elemBytes, keyRead, elemRead, keyEncoded, elemEncoded, rfl⟩ := encoded
  rw [api.getByValue_of_nil keyFound] at keyRead
  rw [api.getByValue_of_nil elemFound] at elemRead
  cases keyRead
  cases elemRead
  refine ⟨keyBytes, elemBytes, keySettings, elemSettings, rfl, keyFound, elemFound, ?_, ?_⟩
  · simp only [normalEntry, partSettings, keyFound]
    exact spells.1.encoded (keys _ keyFound) typed.1 fit.1 keyEncoded
  · simp only [normalEntry, partSettings, elemFound]
    exact spells.2.encoded (values _ elemFound) typed.2 fit.2 elemEncoded

/-- The bounds of a map depend on its length alone. -/
theorem checkMinMaxBounds_ensureOrdering (length : value.len = other.len) :
    api.checkMinMaxBounds ts.ensureOrdering τ value = api.checkMinMaxBounds ts τ other := by
  have minLen : ts.ensureOrdering.minLen = ts.minLen := by
    cases set : ts.arrayRules <;>
      simp [ensureOrdering, minLen, rules, set]
  have maxLen : ts.ensureOrdering.maxLen = ts.maxLen := by
    cases set : ts.arrayRules <;>
      simp [ensureOrdering, maxLen, rules, set]
  simp [checkMinMaxBounds, checkMinMaxBoundsLength, minLen, maxLen, length]

private theorem spelled_map
    (each : ∀ entry ∈ entries, Spells opts world entry.1 ∧ Spells opts world entry.2)
    (keys : api.AdmitsPart world.mem key) (values : api.AdmitsPart world.mem elem)
    (found : (∃ ts, api.getByValue key .nil = .ok ts) ∧ ∃ ts, api.getByValue elem .nil = .ok ts)
    (typed : api.HasTypeEntries entries key elem) (nodup : api.DistinctKeys key entries)
    (fit : ∀ entry ∈ entries, Fit opts world (entry.1, key) ∧ Fit opts world (entry.2, elem))
    (sized : ∀ entry b, api.HasType entry.1 key → api.HasType entry.2 elem →
        api.encodeEntries opts [entry] key elem = .ok [b] → b ≠ [])
    (encoded : api.encodeEntries opts entries key elem = .ok data)
    (length : entries.length = value.len)
    (ran : api.encodeMap opts τ value ts (.ok data) = .ok b) (arranged : List (Value × Value))
    (order : arranged = arrangeAlong ts.ensureOrdering data (api.normalEntries opts entries key elem)) :
    (∃ data', api.DenotesEntries opts arranged key elem data' ∧
      Collection opts ts.ensureOrdering data' b) ∧
    api.DistinctKeys key arranged ∧
    (opts.validation = true →
      api.checkMinMaxBounds ts.ensureOrdering τ (.map arranged) = .ok ()) := by
  have pieces := encodeEntries_eq_ok.mp encoded
  have types := hasTypeEntries_iff.mp typed
  have rel : List.Forall₂ (api.DenotesEntry opts key elem)
      (api.normalEntries opts entries key elem) data := by
    rw [normalEntries_eq, List.forall₂_map_left_iff]
    have known : ∀ entry ∈ entries, ∀ b, api.EncodesEntry opts key elem entry b →
        api.DenotesEntry opts key elem (api.normalEntry opts key elem entry) b :=
      fun entry mem _ => spelled_entry (each entry mem) keys values found (types entry mem)
        (fit entry mem)
    exact ((List.forall₂_and_left entries data).mpr ⟨known, pieces⟩).imp
      fun _ b both => both.1 b both.2
  have filled :=
    forall_mem_right pieces fun entry mem b wrote => sized entry b (types entry mem).1
      (types entry mem).2 (encodeEntries_eq_ok.mpr (.cons wrote .nil))
  have same := perm_arrangeAlong ts.ensureOrdering rel.length_eq.le
  unfold encodeMap at ran
  obtain ⟨small, ran⟩ := checked_eq_ok.mp ran
  subst order
  refine ⟨⟨arrange ts.ensureOrdering data, ?_, (encodeSliceOfBytes_eq_ok filled).mp ran⟩,
    distinctKeys_normal typed nodup same, fun rules => ?_⟩
  · exact denotesEntries_iff.mpr (forall₂_arrangeAlong rel)
  · rw [checkMinMaxBounds_ensureOrdering, small rules]
    rw [← length, normalEntries_eq] at *
    simpa [Value.len] using same.length_eq

theorem encodeInterface_eq_ok : api.encodeInterface τ σ encodeElem = .ok b ↔
      ∃ objects code, api.interfaces τ = some objects ∧ objects.fromTypeToCode σ = some code ∧
        encodeElem = .ok b := by
  unfold encodeInterface
  cases registered : api.interfaces τ with
  | none => simp
  | some objects =>
    cases known : objects.fromTypeToCode σ with
    | none => simp [known]
    | some code => simp [known]

/-- The interfaces find their objects again by the code that they know them by. -/
def DistinctCodes (api : API) : Prop :=
  ∀ τ objects σ code, api.interfaces τ = some objects →
    objects.fromTypeToCode σ = some code → objects.fromCodeToType code = some σ

/-- A nil slice is a slice without elements, and a nil map one without entries. -/
private theorem nil_spells (parts : PartsFound world) (sized : Sized opts world)
    (mem : world.mem (api.settings given τ) τ) (typed : api.HasType .nil τ)
    (ran : api.encode opts .nil given τ = .ok b) :
    api.Denotes opts (api.normal opts .nil (api.settings given τ) τ) (api.settings given τ) τ b := by
  have fits := world.mem_closed mem
  unfold Admits at fits
  simp only [HasType] at typed
  unfold encode at ran
  obtain ⟨-, ran⟩ := checked_eq_ok.mp ran
  unfold normal Denotes
  cases shape : api.shape τ with
  | slice elem =>
    simp only [shape] at ran fits ⊢
    by_cases bytes : elem = .uint8
    · simp only [bytes, if_true] at ran ⊢
      exact ⟨trivial, encodeBytes_eq_ok.mp ran⟩
    · simp only [bytes, if_false] at ran ⊢
      have objects := spelled_objects (show ∀ value ∈ [], Spells opts world value by simp)
        (fits.2 bytes) (hasTypeAll_iff.mpr (by simp)) (by simp)
        (sized.elems mem shape bytes) (encodeElems_eq_ok.mpr .nil) ran
      simp only [normalAll, arrangeAlong_nil] at objects
      exact ⟨bytes, objects⟩
  | map key elem =>
    simp only [shape] at ran fits ⊢
    refine spelled_map (show ∀ entry ∈ ([] : List (Value × Value)),
        Spells opts world entry.1 ∧ Spells opts world entry.2 by simp)
      fits.2.1 fits.2.2 (parts mem shape) (hasTypeEntries_iff.mpr (by simp))
      ⟨by simp, .nil⟩ (by simp) (sized.entries mem shape) (encodeEntries_eq_ok.mpr .nil) rfl ran []
      ?_
    simp [normalEntries]
  | ptr elem =>
    simp only [shape] at ran
    split at ran <;> cases ran
  | interface =>
    simp only [shape] at ran
    cases ran
  | _ => simp [shape] at typed

private theorem ptr_spells (times : ∀ {ts τ}, world.mem ts τ → api.shape τ ≠ .time) {inner : Value}
    (spelt : Spells opts world inner) (mem : world.mem (api.settings given τ) τ)
    (shape : api.shape τ = .ptr elem) (typed : api.HasType inner elem)
    (fit : Fit opts world (inner, elem)) (ran : api.encode opts (.ptr inner) given τ = .ok b) :
    api.Denotes opts (api.normal opts (.ptr inner) (api.settings given τ) τ) (api.settings given τ)
      τ b := by
  have fits := world.mem_closed mem
  unfold Admits at fits
  unfold encode at ran
  obtain ⟨-, ran⟩ := checked_eq_ok.mp ran
  unfold normal Denotes
  simp only [shape] at ran fits ⊢
  by_cases num : τ = .ptr .bigInt
  · subst num
    cases inner with
    | bigInt n =>
      obtain ⟨m, rfl, small, rfl⟩ := encodeBigInt_eq_ok.mp ran
      exact ⟨m, rfl, small, rfl⟩
    | _ => cases ran
  · simp only [num, if_false, false_or] at ran fits ⊢
    have inside := world.mem_closed fits
    unfold Admits at inside
    cases pointee : api.shape elem with
    | array length item =>
      simp only [pointee] at ran inside
      cases inner with
      | byteArray str =>
        simp only [inside, if_true, encodeByteArray_eq] at ran
        cases ran
        simp only [HasType, pointee, array.injEq] at typed
        simp only [normal, pointed, pointee]
        unfold Denotes
        simp only [pointee]
        exact ⟨typed.2, typed.1.symm, trivial⟩
      | array elems =>
        simp only [HasType, pointee, array.injEq] at typed
        obtain ⟨_, ⟨_, rfl⟩, notBytes, _⟩ := typed
        exact absurd inside notBytes
      | _ => cases ran
    | struct decls =>
      simp only [pointee] at ran inside
      cases inner with
      | struct values =>
        have same : api.pointed (api.settings given τ) elem = api.settings given τ := by
          simp [pointed, pointee]
        rw [same]
        exact spelled_struct (spelt.fields rfl) inside typed fit ran
      | _ => cases ran
    | time => exact absurd pointee (times fits)
    | bigInt => simp [pointee] at inside
    | _ =>
      simp only [pointee] at ran
      cases ran

private theorem spelled_value (found : PartsFound world)
    (times : ∀ {ts τ}, world.mem ts τ → api.shape τ ≠ .time) (sized : Sized opts world)
    (codes : api.DistinctCodes) (parts : ∀ part ∈ value.parts, Spells opts world part)
    (mem : world.mem (api.settings given τ) τ) (typed : api.HasType value τ)
    (fit : Fit opts world (value, τ)) (ran : api.encode opts value given τ = .ok b) :
    api.Denotes opts (api.normal opts value (api.settings given τ) τ) (api.settings given τ) τ b := by
  have fits := world.mem_closed mem
  unfold Admits at fits
  cases value with
  | nil => exact nil_spells found sized mem typed ran
  | ptr inner =>
    obtain ⟨elem, shape, typed⟩ := typed
    refine ptr_spells times (parts _ List.mem_cons_self) mem shape typed (fit.next ?_) ran
    simp [typedParts, deRefPointer, shape]
  | array elems =>
    obtain ⟨elem, shape, notBytes, _⟩ := typed
    simp only [shape] at fits
    exact absurd fits notBytes
  | bigInt n =>
    have shape : api.shape τ = .bigInt := typed
    simp [shape] at fits
  | time t => exact absurd typed (times mem)
  | struct values =>
    obtain ⟨⟨decls, shape⟩, -⟩ := id typed
    unfold encode at ran
    simp only [shape] at ran fits
    exact spelled_struct (spelled_fields parts) fits typed fit (checked_eq_ok.mp ran).2
  | slice elems =>
    obtain ⟨elem, shape, notBytes, typed⟩ := typed
    unfold encode at ran
    simp only [shape, notBytes, if_false] at ran fits
    obtain ⟨-, ran⟩ := checked_eq_ok.mp ran
    have steps := ran
    unfold encodeObjects at steps
    obtain ⟨data, encoded, -⟩ := bind_eq_ok.mp (checked_eq_ok.mp steps).2
    rw [encoded] at ran
    have objects := spelled_objects parts (fits.2 notBytes) typed
      (fun _ mem => fit.next (by simpa [typedParts, shape, Value.parts] using mem))
          (sized.elems mem shape notBytes) encoded ran
    unfold normal Denotes
    simp only [shape, encoded, spelled]
    exact ⟨notBytes, objects⟩
  | map entries =>
    obtain ⟨key, elem, shape, typed, nodup⟩ := typed
    unfold encode at ran
    simp only [shape] at ran fits
    obtain ⟨-, ran⟩ := checked_eq_ok.mp ran
    have steps := ran
    unfold encodeMap at steps
    obtain ⟨data, encoded, -⟩ := bind_eq_ok.mp (checked_eq_ok.mp steps).2
    rw [encoded] at ran
    unfold normal Denotes
    simp only [shape, encoded, spelled]
    have each : ∀ entry ∈ entries, Spells opts world entry.1 ∧ Spells opts world entry.2 :=
      fun entry inside => ⟨parts _ (List.mem_flatMap.mpr ⟨entry, inside, by simp⟩),
        parts _ (List.mem_flatMap.mpr ⟨entry, inside, by simp⟩)⟩
    exact spelled_map each fits.2.1 fits.2.2 (found mem shape) typed nodup
      (fun _ => fit.of_entry shape) (sized.entries mem shape) encoded rfl ran _ rfl
  | iface σ inner =>
    obtain ⟨shape, typed⟩ := typed
    unfold encode at ran
    simp only [shape] at ran fits
    obtain ⟨objects, code, registered, known, ran⟩ :=
      encodeInterface_eq_ok.mp (checked_eq_ok.mp ran).2
    have found := codes τ objects σ code registered known
    unfold normal Denotes
    simp only [shape]
    exact ⟨⟨objects, code, registered, found⟩, (parts _ List.mem_cons_self).encoded
      (fits objects registered code σ found) typed (fit.next List.mem_cons_self) ran⟩
  | num n =>
    obtain ⟨kind, shape, held⟩ := typed
    unfold encode at ran
    simp only [shape] at ran
    obtain ⟨-, ran⟩ := checked_eq_ok.mp ran
    unfold normal Denotes
    simp only [shape]
    exact ⟨held, by simpa [writeNum, empty_eq, eq_comm] using ran⟩
  | bool | string | bytes | byteArray =>
    simp only [HasType] at typed
    unfold encode at ran
    simp only [typed, if_true, encodeByteArray_eq] at ran
    obtain ⟨-, ran⟩ := checked_eq_ok.mp ran
    unfold normal Denotes
    simp only [typed]
    first
      | exact encodeString_eq_ok.mp ran
      | exact ⟨trivial, encodeBytes_eq_ok.mp ran⟩
      | exact ⟨trivial, trivial, Outcome.ok.inj ran.symm⟩
      | simpa [writeBool, empty_eq, eq_comm] using ran

private theorem spelled_embedded (parts : ∀ part ∈ value.parts, Spells opts world part)
    (ts : TypeSettings) (isUnexported : Bool) (mem : world.structs (api.deRefPointer τ))
    (typed : api.HasType value τ) (fit : Fit opts world (value, τ))
    (settable : (api.shape τ).isPtr = true → value ≠ .nil ∧ isUnexported = false)
    (ran : api.encodeEmbedded opts value (of wrote) τ = .ok s) :
    ∃ body, s = of (wrote ++ body) ∧
      api.DenotesEmbedded opts (api.normal opts value ts τ) isUnexported τ body := by
  obtain ⟨decls, pointee⟩ := world.structs_shape mem
  unfold encodeEmbedded at ran
  cases shape : api.shape τ with
  | ptr elem =>
    have same : api.deRefPointer τ = elem := by simp [deRefPointer, shape]
    obtain ⟨set, exported⟩ := settable (by simp [shape, isPtr])
    rw [same] at mem pointee
    cases value with
    | nil => exact absurd rfl set
    | ptr inner =>
      obtain ⟨_, shaped', typed⟩ := typed
      cases shape.symm.trans shaped'
      have flat : (api.shape elem).isPtr = false := by simp [pointee, isPtr]
      obtain ⟨body, wrote, spelt⟩ := (parts inner List.mem_cons_self).embedded
        (api.pointed ts elem) isUnexported (by simpa [deRefPointer, pointee] using mem) typed
        (fit.next (by simp [typedParts, same])) (by simp [flat]) (by simpa [same] using ran)
      refine ⟨body, wrote, ?_⟩
      unfold normal DenotesEmbedded
      simp only [shape]
      exact ⟨exported, flat, spelt⟩
    | _ => simp [HasType, shape] at typed
  | struct decls =>
    rw [show api.deRefPointer τ = τ by simp [deRefPointer, shape]] at mem
    cases value with
    | struct values =>
      obtain ⟨fields, parsed, ran⟩ := bind_eq_ok.mp ran
      rw [mapErr_eq_ok] at parsed
      obtain ⟨body, wrote, spelt⟩ := spelled_fields parts (world.structs_closed mem parsed)
        (api.getStructFields_optional parsed) (typed.2 fields parsed) (fit.of_field mem parsed)
        ran
      refine ⟨body, wrote, ?_⟩
      unfold normal DenotesEmbedded
      simp only [shape, parsed]
      exact ⟨fields, rfl, spelt⟩
    | _ => simp [HasType, shape] at typed
  | _ => simp [deRefPointer, shape] at pointee

/-- The encoder stays within the format. -/
theorem spells (world : api.Universe) (found : PartsFound world)
    (times : ∀ {ts τ}, world.mem ts τ → api.shape τ ≠ .time) (sized : Sized opts world)
    (codes : api.DistinctCodes) : Spells opts world value := by
  induction value using Value.induction_parts with
  | step value parts =>
    refine ⟨spelled_value found times sized codes parts, ?_, spelled_embedded parts⟩
    rintro values rfl
    exact spelled_fields parts

/-- Without optional fields and embedded pointers every value fits. -/
theorem Plain.fit (plain : Plain world) (place : Value × GoType) : Fit opts world place := by
  intro values σ fields _ inside parsed pair mem
  have field := plain.fields inside parsed pair.2 (List.of_mem_zip mem).2
  unfold PlainField at field
  unfold FitField PointerFits OptionalFits ShortField
  split at field <;> simp_all

end

end API

end HiveGo
