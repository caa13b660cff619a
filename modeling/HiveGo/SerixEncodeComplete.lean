import HiveGo.ElementValidation
import HiveGo.SerixEncodeSound

/-! What stands for a value, is what the encoder returns for it. The format is validated: a
collection that the encoder would sort is in order already. -/
namespace HiveGo

open Serializer Outcome TypeSettings

namespace API

variable {api : API}
variable {ts : TypeSettings}

/-- The encoder supports every type of the universe, and does not check more lengths than the
format has. A lower bound of 2^63 or more is negative as an `int`, and then not a bound. -/
structure Encodable (world : api.Universe) : Prop where
  times : ∀ {ts τ}, world.mem ts τ → api.shape τ ≠ .time
  arrays : ∀ {ts τ length elem}, world.mem ts τ → api.shape τ = .array length elem →
    ts.minLen = none ∧ ts.maxLen = none
  bounds : ∀ {ts τ}, world.mem ts τ → api.shape τ = .string ∨ api.shape τ = .slice .uint8 →
    ts.rules.min.toNat < 2 ^ 63
  pointers : ∀ {ts τ elem}, world.mem ts τ → api.shape τ = .ptr elem → τ ≠ .ptr .bigInt →
    (∃ decls, api.shape elem = .struct decls) ∨ ∃ length, api.shape elem = .array length .uint8

section Bounds

private theorem checkMinMaxBoundsLength_eq_ok : ts.checkMinMaxBoundsLength length = .ok () ↔
      (ts.rules.min = 0 ∨ ts.rules.min.toNat ≤ length) ∧
        (ts.rules.max = 0 ∨ length ≤ ts.rules.max.toNat) := by
  unfold checkMinMaxBoundsLength minLen maxLen
    rules
  cases ts.arrayRules with
  | none => simp
  | some rules =>
    by_cases low : rules.min = 0 <;> by_cases high : rules.max = 0 <;>
      by_cases short : length < rules.min.toNat <;> by_cases long : rules.max.toNat < length <;>
      simp [low, high, short, long, Option.filter] <;> omega

private theorem checkBounds_eq_ok {rules : ArrayRules} : rules.checkBounds length = .ok () ↔
      (rules.min = 0 ∨ rules.min.toNat ≤ length) ∧ (rules.max = 0 ∨ length ≤ rules.max.toNat) := by
  unfold ArrayRules.checkBounds
  split
  · rename_i short
    simp only [reduceCtorEq, false_iff, not_and_or, not_or, not_le]
    exact .inl ⟨short.1, short.2⟩
  · rename_i short
    split
    · rename_i long
      simp only [reduceCtorEq, false_iff, not_and_or, not_or, not_le]
      exact .inr ⟨long.1, long.2⟩
    · rename_i long
      simp only [true_iff]
      constructor
      · by_contra none
        rw [not_or, not_le] at none
        exact short none
      · by_contra none
        rw [not_or, not_le] at none
        exact long none

/-- The bounds of a collection are checked once more before it is encoded. -/
private theorem checked_of_checkBounds (small : ts.rules.checkBounds length = .ok ()) :
    ts.checkMinMaxBoundsLength length = .ok () :=
  checkMinMaxBoundsLength_eq_ok.mpr (checkBounds_eq_ok.mp small)

private theorem checked_of_inBounds (mem : InBounds ts.minMaxLen length)
    (low : ts.rules.min.toNat < 2 ^ 63) (short : length < 2 ^ 63) :
    ts.checkMinMaxBoundsLength length = .ok () := by
  rw [checkMinMaxBoundsLength_eq_ok]
  unfold InBounds minMaxLen at mem
  unfold rules at low ⊢
  cases set : ts.arrayRules with
  | none => simp
  | some rules =>
    simp only [set, Option.getD_some, tooLong, tooShort, decide_eq_false_iff_not, not_and, not_lt]
      at mem low ⊢
    have minimum : goInt rules.min = rules.min.toNat := by
      unfold goInt wrapInt64
      omega
    have maximum : goInt rules.max = rules.max.toNat ∨ 2 ^ 63 ≤ rules.max.toNat := by
      unfold goInt wrapInt64
      omega
    have zero : ∀ bound : UInt64, bound.toNat = 0 → bound = 0 := fun bound none =>
      UInt64.toNat_inj.mp none
    constructor
    · by_cases unset : rules.min.toNat = 0
      · exact .inl (zero _ unset)
      · omega
    · by_cases unset : rules.max.toNat = 0
      · exact .inl (zero _ unset)
      · right
        omega

private theorem short_of_counted (counted : Counted ts count body b) : count < 2 ^ 63 := by
  obtain ⟨lenType, size, _, sized, small, _⟩ := counted
  have wide : 256 ^ size ≤ 2 ^ 63 := by
    cases lenType <;> cases sized <;> decide
  omega

end Bounds

/-- What stands for the fields of a struct is what is written for them. -/
def EncodesFields (opts : Options) (world : api.Universe) (values : List Value) : Prop :=
  ∀ {fields written body}, (∀ field ∈ fields, api.AdmitsField world.mem world.structs field) →
    api.DenotesFields opts values fields body →
    api.encodeStructFields opts values (of written) fields = .ok (of (written ++ body))

/-- What stands for the value, alone or as an embedded struct, is what is written for it. -/
structure Encodes (opts : Options) (world : api.Universe) (value : Value) : Prop where
  encoded : ∀ {given τ b}, world.mem (api.settings given τ) τ →
    api.Denotes opts value (api.settings given τ) τ b → api.encode opts value given τ = .ok b
  fields : ∀ {values}, value = .struct values → EncodesFields opts world values
  embedded : ∀ {isUnexported τ written body}, world.structs (api.deRefPointer τ) →
    api.DenotesEmbedded opts value isUnexported τ body →
    api.encodeEmbedded opts value (of written) τ = .ok (of (written ++ body))

section

variable {world : api.Universe}

private theorem encoded_field (encodes : Encodes opts world value)
    (admits : world.mem (api.settings field.settings.ts field.fType) field.fType)
    (spelt : api.DenotesField opts value field body)
    (alone : (field.isEmbedded && !field.settings.inlined) = false) :
    writeField (of written) field value.isNil (api.encode opts value field.settings.ts field.fType) =
      .ok (of (written ++ body)) := by
  unfold DenotesField at spelt
  unfold writeField
  simp only [alone, Bool.false_eq_true, if_false] at spelt
  cases optional : field.settings.isOptional with
  | true =>
    simp only [optional, if_true] at spelt ⊢
    rcases spelt with ⟨rfl, rfl⟩ | ⟨body, rfl, filled, short, spelt⟩
    · simp [Value.isNil, writePayloadLength, writeNum]
    · have set : value.isNil = false := by
        cases value with
        | nil =>
          unfold Denotes at spelt
          cases shape : api.shape field.fType <;> rw [shape] at spelt <;> exact spelt.elim
        | _ => rfl
      simp [set, encodes.encoded admits spelt, writePayloadLength, writeNum]
  | false =>
    simp only [optional, Bool.false_eq_true, if_false] at spelt ⊢
    simp [encodes.encoded admits spelt]

private theorem encoded_fields (each : ∀ value ∈ values, Encodes opts world value) :
    EncodesFields opts world values := by
  intro fields wrote body fits spelt
  induction values generalizing fields wrote body with
  | nil =>
    cases fields with
    | nil =>
      subst spelt
      simp [encodeStructFields]
    | cons field fields => simp [DenotesFields] at spelt
  | cons value values ih =>
    cases fields with
    | nil => simp [DenotesFields] at spelt
    | cons field fields =>
      rw [List.forall_mem_cons] at each fits
      obtain ⟨first, later, rfl, others, spelt⟩ := denotesFields_cons.mp spelt
      have rest : api.encodeStructFields opts values (of (wrote ++ first)) fields =
          .ok (of (wrote ++ first ++ later)) := ih each.2 fits.2 others
      rw [encodeStructFields]
      have admits := fits.1
      unfold AdmitsField at admits
      cases embedded : field.isEmbedded && !field.settings.inlined with
      | true =>
        unfold DenotesField at spelt
        simp only [embedded, if_true] at spelt admits ⊢
        rw [each.1.embedded admits spelt, mapErr_ok, ok_bind, rest, List.append_assoc]
      | false =>
        simp only [embedded, Bool.false_eq_true, if_false] at admits ⊢
        rw [encoded_field each.1 admits spelt embedded, ok_bind, rest, List.append_assoc]

private theorem encoded_struct (encodes : EncodesFields opts world values)
    (mem : world.structs τ) (spelt : api.Denotes opts (.struct values) ts τ b) :
    api.encodeStruct τ ts (api.encodeStructFields opts values) = .ok b := by
  obtain ⟨decls, shape⟩ := world.structs_shape mem
  unfold Denotes at spelt
  simp only [shape] at spelt
  obtain ⟨fields, body, parsed, rfl, spelt⟩ := spelt
  unfold encodeStruct
  simp only [parsed, mapErr_ok, ok_bind, codeWriter_eq]
  rw [encodes (world.structs_closed mem parsed) spelt, ok_bind, serialize_of]

/-- Validated elements are in the order in which they would be written. -/
private theorem arrange_collection (rules : opts.validation = true)
    (collection : Collection opts ts data b) : arrange ts data = data := by
  unfold arrange
  split
  · rename_i sorts
    obtain ⟨_, seen, taken⟩ := collection.2 rules
    have ordering : ts.rules.validationMode.lexicalOrdering = true := by
      exact (Bool.and_eq_true _ _ ▸ sorts).2
    exact ((ArrayRules.valid_of_accepted taken).ordered ordering).insertionSort_eq
  · rfl

private theorem encoded_objects (each : ∀ value ∈ elems, Encodes opts world value)
    (rules : opts.validation = true) (mem : world.mem (api.settings {} elem) elem)
    (sized : ∀ value b, api.HasType value elem → api.encode opts value {} elem = .ok b → b ≠ [])
    (spelt : api.DenotesElems opts elems elem data) (collection : Collection opts ts data b)
    (occur : api.checkArrayMustOccur ts elem elems = .ok ()) :
    api.encodeObjects opts τ elem elems ts (api.encodeElems opts elems τ elem 0) = .ok b := by
  have pieces : List.Forall₂ (fun value b => api.encode opts value {} elem = .ok b) elems data :=
    ((List.forall₂_and_left elems data).mpr ⟨each, denotesElems_iff.mp spelt⟩).imp
      fun _ _ both => both.1.encoded mem both.2
  have filled : ∀ element ∈ data, element ≠ [] := by
    have known := (List.forall₂_and_left elems data).mpr
      ⟨hasTypeAll_iff.mp (hasTypeAll_of_denotes spelt), pieces⟩
    exact forall_mem_right known fun value _ b both => sized value b both.1 both.2
  unfold encodeObjects
  rw [encodeElems_eq_ok.mpr pieces]
  refine checked_eq_ok.mpr ⟨fun _ => by rw [occur]; rfl, ?_⟩
  rw [ok_bind, encodeSliceOfBytes_eq_ok filled, arrange_collection rules collection]
  exact collection

private theorem encoded_entry (encodes : Encodes opts world entry.1 ∧ Encodes opts world entry.2)
    (keys : api.AdmitsPart world.mem key) (values : api.AdmitsPart world.mem elem)
    (spelt : api.DenotesEntry opts key elem entry b) : api.EncodesEntry opts key elem entry b := by
  obtain ⟨keyBytes, elemBytes, keySettings, elemSettings, split, keyFound, elemFound, keyFormat,
    elemFormat⟩ := spelt
  exact ⟨keySettings, elemSettings, keyBytes, elemBytes, api.getByValue_of_nil keyFound,
    api.getByValue_of_nil elemFound, encodes.1.encoded (keys _ keyFound) keyFormat,
    encodes.2.encoded (values _ elemFound) elemFormat, split⟩

private theorem encoded_map
    (each : ∀ entry ∈ entries, Encodes opts world entry.1 ∧ Encodes opts world entry.2)
    (rules : opts.validation = true) (keys : api.AdmitsPart world.mem key)
    (values : api.AdmitsPart world.mem elem)
    (sized : ∀ entry b, api.HasType entry.1 key → api.HasType entry.2 elem →
        api.encodeEntries opts [entry] key elem = .ok [b] → b ≠ [])
    (spelt : api.DenotesEntries opts entries key elem data)
    (collection : Collection opts ts.ensureOrdering data b)
    (small : api.checkMinMaxBounds ts τ (.map entries) = .ok ()) :
    api.encodeMap opts τ (.map entries) ts (api.encodeEntries opts entries key elem) = .ok b := by
  have pieces :=
    ((List.forall₂_and_left entries data).mpr ⟨each, denotesEntries_iff.mp spelt⟩).imp
      fun _ _ both => encoded_entry both.1 keys values both.2
  have filled : ∀ element ∈ data, element ≠ [] := by
    have known := (List.forall₂_and_left entries data).mpr
      ⟨hasTypeEntries_iff.mp (hasTypeEntries_of_denotes spelt), pieces⟩
    exact forall_mem_right known fun entry _ b both => sized entry b both.1.1 both.1.2
      (encodeEntries_eq_ok.mpr (.cons both.2 .nil))
  unfold encodeMap
  rw [encodeEntries_eq_ok.mpr pieces]
  refine checked_eq_ok.mpr ⟨fun _ => small, ?_⟩
  rw [ok_bind, encodeSliceOfBytes_eq_ok filled, arrange_collection rules collection]
  exact collection

/-- What stands for the value is what is encoded for it. -/
private def EncodesValue (opts : Options) (world : api.Universe) (value : Value) : Prop :=
  ∀ {given : TypeSettings} {τ : GoType} {b : Bytes}, world.mem (api.settings given τ) τ →
    api.Denotes opts value (api.settings given τ) τ b → api.encode opts value given τ = .ok b

/-- A type without a length has no bounds. -/
private theorem checkMinMaxBounds_of_simple (simple : (api.shape τ).hasLength = false) :
    api.checkMinMaxBounds ts τ value = .ok () := by
  simp [checkMinMaxBounds, simple]

private theorem checkMinMaxBounds_of_length
    (small : ts.checkMinMaxBoundsLength value.len = .ok ()) :
    api.checkMinMaxBounds ts τ value = .ok () := by
  simp [checkMinMaxBounds, small]

private theorem slice_encodes (sized : Sized opts world) (rules : opts.validation = true)
    (mem : world.mem (api.settings given τ) τ) (shape : api.shape τ = .slice elem)
    (notBytes : elem ≠ .uint8) (each : ∀ value ∈ elems, Encodes opts world value)
    (spelt : api.DenotesElems opts elems elem data)
    (collection : Collection opts (api.settings given τ) data b)
    (occur : opts.validation = true → api.checkArrayMustOccur (api.settings given τ) elem elems = .ok ()) :
    api.encode opts (.slice elems) given τ = .ok b := by
  have fits := world.mem_closed mem
  unfold Admits at fits
  unfold encode
  simp only [shape, notBytes, if_false] at fits ⊢
  refine checked_eq_ok.mpr ⟨fun _ => ?_, encoded_objects each rules
    (fits.2 notBytes) (sized.elems mem shape notBytes) spelt collection
    (occur rules)⟩
  apply checkMinMaxBounds_of_length
  rw [Value.len, (denotesElems_iff.mp spelt).length_eq]
  exact checked_of_checkBounds (collection.2 rules).1

private theorem ptr_encodes (encodable : Encodable world) {inner : Value}
    (mem : world.mem (api.settings given τ) τ) (shape : api.shape τ = .ptr elem)
    (other : τ ≠ .ptr .bigInt) (encodes : Encodes opts world inner)
    (spelt : api.Denotes opts inner (api.pointed (api.settings given τ) elem) elem b) :
    api.encode opts (.ptr inner) given τ = .ok b := by
  have fits := world.mem_closed mem
  unfold Admits at fits
  unfold encode
  simp only [shape, other, if_false, false_or] at fits ⊢
  refine checked_eq_ok.mpr ⟨fun _ => checkMinMaxBounds_of_simple (by rw [shape]; rfl), ?_⟩
  rcases encodable.pointers mem shape other with ⟨decls, pointee⟩ | ⟨length, pointee⟩
  · have inside := world.mem_closed fits
    unfold Admits at inside
    simp only [pointee, pointed] at spelt inside ⊢
    cases inner with
    | struct values => exact encoded_struct (encodes.fields rfl) inside spelt
    | _ =>
      unfold Denotes at spelt
      rw [pointee] at spelt
      exact spelt.elim
  · simp only [pointee, pointed] at spelt ⊢
    unfold Denotes at spelt
    rw [pointee] at spelt
    cases inner <;> try exact spelt.elim
    obtain ⟨_, _, rfl⟩ := spelt
    simp [encodeByteArray_eq]

private theorem encoded_value (encodable : Encodable world) (sized : Sized opts world)
    (sound : api.Consistent) (rules : opts.validation = true)
    (parts : ∀ part ∈ value.parts, Encodes opts world part) : EncodesValue opts world value := by
  intro given τ b mem spelt
  have fits := world.mem_closed mem
  unfold Admits at fits
  -- only types with a length have bounds
  have free : (api.shape τ).hasLength = false →
      opts.validation = true → api.checkMinMaxBounds (api.settings given τ) τ value = .ok () :=
    fun simple _ => checkMinMaxBounds_of_simple simple
  cases form spelt with
  | bool shape | num shape =>
    unfold encode
    simp only [shape]
    exact checked_eq_ok.mpr ⟨free (by rw [shape]; rfl), rfl⟩
  | string shape counted valid =>
    unfold encode
    simp only [shape]
    refine checked_eq_ok.mpr ⟨fun _ => ?_, encodeString_eq_ok.mpr ⟨counted, valid⟩⟩
    exact checkMinMaxBounds_of_length (checked_of_inBounds (valid rules).1
      (encodable.bounds mem (.inl shape)) (short_of_counted counted))
  | bytes shape counted inside =>
    unfold encode
    simp only [shape, if_true]
    refine checked_eq_ok.mpr ⟨fun _ => ?_, encodeBytes_eq_ok.mpr ⟨counted, inside⟩⟩
    exact checkMinMaxBounds_of_length (checked_of_inBounds inside
      (encodable.bounds mem (.inr shape)) (short_of_counted counted))
  | byteArray shape =>
    obtain ⟨unbounded, unlimited⟩ := encodable.arrays mem shape
    unfold encode
    simp only [shape, if_true]
    refine checked_eq_ok.mpr ⟨fun _ => ?_, encodeByteArray_eq⟩
    apply checkMinMaxBounds_of_length
    simp [checkMinMaxBoundsLength, unbounded, unlimited]
  | slice shape notBytes each collection occur =>
    exact slice_encodes sized rules mem shape notBytes parts each collection occur
  | map shape each collection nodup bounded =>
    rw [checkMinMaxBounds_ensureOrdering rfl] at bounded
    unfold encode
    simp only [shape] at fits ⊢
    exact checked_eq_ok.mpr ⟨bounded, encoded_map (Value.parts_map parts) rules fits.2.1
      fits.2.2 (sized.entries mem shape) each collection (bounded rules)⟩
  | uint256 number small =>
    subst number
    unfold encode
    exact checked_eq_ok.mpr ⟨free rfl, encodeBigInt_eq_ok.mpr ⟨_, rfl, small, rfl⟩⟩
  | ptr shape other inner =>
    exact ptr_encodes encodable mem shape other (parts _ List.mem_cons_self) inner
  | struct shape =>
    unfold encode
    simp only [shape] at fits ⊢
    exact checked_eq_ok.mpr ⟨free (by rw [shape]; rfl),
      encoded_struct (encoded_fields parts) fits spelt⟩
  | time shape => exact absurd shape (encodable.times mem)
  | iface shape registered known inner =>
    unfold encode
    simp only [shape] at fits ⊢
    exact checked_eq_ok.mpr ⟨free (by rw [shape]; rfl), encodeInterface_eq_ok.mpr ⟨_, _, registered,
      (sound τ _ _ _ registered known).1,
      (parts _ List.mem_cons_self).encoded (fits _ registered _ _ known) inner⟩⟩

/-- The encoder returns what stands for a value. -/
theorem encodes (world : api.Universe) (encodable : Encodable world) (sized : Sized opts world)
    (sound : api.Consistent) (rules : opts.validation = true) (value : Value) :
    Encodes opts world value := by
  induction value using Value.induction_parts with
  | step value parts =>
    refine ⟨encoded_value encodable sized sound rules parts, ?_, ?_⟩
    · rintro values rfl
      exact encoded_fields parts
    · intro isUnexported τ wrote body mem spelt
      unfold deRefPointer at mem
      rcases embedded_cases spelt with ⟨elem, inner, shape, rfl, _, simple, spelt⟩ |
        ⟨decls, values, fields, shape, rfl, parsed, spelt⟩
      · -- an embedded pointer is written as the struct behind it
        rw [shape] at mem
        have direct : api.deRefPointer elem = elem := by
          unfold deRefPointer
          split
          · simp_all [Shape.isPtr]
          · rfl
        rw [encodeEmbedded, deRefPointer, shape]
        exact (parts inner List.mem_cons_self).embedded (direct.symm ▸ mem) spelt
      · rw [shape] at mem
        simp only [encodeEmbedded, parsed, mapErr_ok, ok_bind]
        exact encoded_fields parts (world.structs_closed mem parsed) spelt

end

end API

end HiveGo
