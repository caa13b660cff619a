import HiveGo.SerixUniverse

/-! The decoder takes every byte string of the format: what stands for a value is read
back as that value, whatever follows it. -/
namespace HiveGo

open PrefixReader Deserializer LittleEndian Value Outcome

namespace API

variable {api : API}
variable {value inner : Value}

@[simp] theorem finish_at (mk : α → Value) (result : α) :
    finish mk (.ok (at_ before rest, result)) = .ok (mk result, before.length) := rfl

private theorem takes_fixed (mk : α → Value) (dest : α) (value : Bytes → α)
    (errProducer : Err → Err) (size : piece.length = width) :
    Takes (fun input => finish mk (({ src := input } : Deserializer).readFixed dest width value
      errProducer)) (mk (value piece)) piece := by
  intro rest
  dsimp only
  rw [at_nil, readFixed_at size, finish_at]
  rfl

theorem takes_num {kind : NumKind} (held : kind.Holds n) (errProducer : Err → Err) :
    Takes (fun input => finish .num (({ src := input } : Deserializer).readNum 0 kind.size
      kind.ofWord errProducer)) (.num n) (put kind.size (kind.toWord n)) := by
  have word : kind.ofWord (get (put kind.size (kind.toWord n))) = n := by
    rw [get_put_of_lt kind.toWord_lt, NumKind.ofWord_toWord held]
  have taken := takes_fixed num 0 (fun data => kind.ofWord (get data))
    errProducer (length_put kind.size (kind.toWord n))
  rwa [word] at taken

theorem takes_uint256 {n : Nat} (small : n < 256 ^ 32) (errProducer : Err → Err) :
    Takes (fun input => finish (fun (n : Nat) => .ptr (.bigInt n))
      (({ src := input } : Deserializer).readUint256 0 errProducer))
      (.ptr (.bigInt n)) (put 32 n) := by
  have taken := takes_fixed (fun (n : Nat) => ptr (.bigInt n)) 0 get errProducer (length_put 32 n)
  rwa [get_put_of_lt small] at taken

theorem takes_time (small : word < 256 ^ 8) (dest : Time) (errProducer : Err → Err) :
    Takes (fun input => finish .time (({ src := input } : Deserializer).readTime dest errProducer))
      (.time (timeOfNanoseconds word)) (put 8 word) := by
  have taken := takes_fixed time dest (fun data => timeOfNanoseconds (get data)) errProducer
    (length_put 8 word)
  rwa [get_put_of_lt small] at taken

theorem takes_string (counted : Counted ts s.length s b)
    (valid : opts.validation = true → InBounds ts.minMaxLen s.length ∧ validUTF8 s = true) :
    Takes (fun input => decodeString opts input ts) (.string s) b := by
  obtain ⟨lenType, size, set, known, small, rfl⟩ := counted
  intro rest
  simp only [decodeString, set, at_nil]
  cases rules : opts.validation with
  | true =>
    obtain ⟨⟨long, short⟩, utf8⟩ := valid rules
    simp [readString, readSliceLength_at known small, checkLength_of_inside long short, readBody_at,
      utf8]
  | false =>
    have unbounded : Serializer.tooLong s.length 0 = false ∧ Serializer.tooShort s.length 0 = false :=
      ⟨rfl, rfl⟩
    simp [readString, readSliceLength_at known small,
      checkLength_of_inside unbounded.1 unbounded.2, readBody_at]

theorem takes_bytes (counted : Counted ts s.length s b) (mem : InBounds ts.minMaxLen s.length) :
    Takes (fun input => decodeBytes input τ ts) (.bytes s) b := by
  obtain ⟨lenType, size, set, known, small, rfl⟩ := counted
  obtain ⟨long, short⟩ := mem
  intro rest
  simp [decodeBytes, set, at_nil, readVariableByteSlice_at known small long short]

/-- The object code of a type is read back. -/
theorem checkObjectType_at :
    checkObjectType (at_ [] (codeBytes ts ++ rest)) ts = .ok (at_ (codeBytes ts) rest) := by
  unfold checkObjectType codeBytes
  cases ts.objectType with
  | none => rfl
  | some objectType =>
    have coded : objectType.typeDenAndCode.1 ≠ .none := by
      cases objectType <;> rintro ⟨⟩
    have good := checkTypePrefix_at coded objectType.typeDenAndCode.2 [] rest
      (.wrap · "failed to check object type")
    rwa [codePiece_objectType] at good

theorem takes_byteArray :
    Takes (fun input => decodeByteArray input ts s.length) (.byteArray s) (codeBytes ts ++ s) := by
  intro rest
  rw [List.append_assoc]
  simp only [decodeByteArray, at_nil, checkObjectType_at, ok_bind, readBytesInPlace,
    List.length_replicate]
  rw [readFixed_at rfl, finish_at]
  simp

/-- An object type that is set is written as the code piece of its width. -/
theorem codeBytes_eq (set : ts.objectType = some objectType)
    (coded : objectType.typeDenAndCode = (typeDen, code)) :
    codeBytes ts = codePiece typeDen code ∧ typeDen ≠ .none ∧
      (typeDen = .byte → code.toUInt8.toUInt32 = code) := by
  have spelt := codePiece_objectType objectType
  rw [coded] at spelt
  refine ⟨by rw [codeBytes, set]; exact spelt.symm, ?_⟩
  cases objectType with
  | uint8 own =>
    cases coded
    exact ⟨by decide, fun _ => by simp⟩
  | uint32 own =>
    cases coded
    exact ⟨by decide, by rintro ⟨⟩⟩

/-- Whatever stands for a struct or a byte array starts with the object code. -/
private theorem starts_with_code (spelt : api.Denotes opts value ts τ b)
    (kind : (∃ fields, api.shape τ = .struct fields) ∨ ∃ length elem, api.shape τ = .array length elem) :
    ∃ rest, b = codeBytes ts ++ rest := by
  cases form spelt with
  | struct | byteArray => exact ⟨_, rfl⟩
  | uint256 number => simp [number] at kind
  | bool shaped | num shaped | string shaped | bytes shaped | slice shaped | map shaped
  | ptr shaped | time shaped | iface shaped => simp [shaped] at kind

/-- Settings without an object type take it over from the registered ones. -/
theorem settings_objectType (unset : ts.objectType = none)
    (known : api.registeredCode σ = some (typeDen, code)) :
    ∃ objectType, (api.settings ts σ).objectType = some objectType ∧
      objectType.typeDenAndCode = (typeDen, code) := by
  obtain ⟨own, found, coded⟩ := Option.bind_eq_some_iff.mp known
  obtain ⟨objectType, set, coded⟩ := Option.map_eq_some_iff.mp coded
  exact ⟨objectType, by simp [settings, found, TypeSettings.merge, unset, set], coded⟩

/-- Whatever stands for an object of an interface starts with the code under which the
interface knows it. -/
theorem carried_code (unset : ts.objectType = none) (writes : api.WritesCode σ)
    (known : api.registeredCode σ = some (typeDen, code))
    (spelt : api.Denotes opts value (api.settings ts σ) σ b) :
    typeDen ≠ .none ∧ (typeDen = .byte → code.toUInt8.toUInt32 = code) ∧
      ∃ rest, b = codePiece typeDen code ++ rest := by
  obtain ⟨objectType, set, coded⟩ := settings_objectType unset known
  obtain ⟨same, some, fits⟩ := codeBytes_eq set coded
  refine ⟨some, fits, ?_⟩
  rw [← same]
  unfold WritesCode at writes
  split at writes
  · rename_i fields shape
    exact starts_with_code spelt (.inl ⟨fields, shape⟩)
  · rename_i length elem shape
    exact starts_with_code spelt (.inr ⟨length, elem, shape⟩)
  · rename_i elem shape
    obtain ⟨other, writes⟩ := writes
    unfold Denotes at spelt
    rw [shape] at spelt
    cases value <;> try exact spelt.elim
    simp only [other, if_false] at spelt
    split at writes
    · rename_i fields pointed
      rw [API.pointed, pointed] at spelt
      exact starts_with_code spelt (.inl ⟨fields, pointed⟩)
    · rename_i length item pointed
      rw [API.pointed, pointed] at spelt
      exact starts_with_code spelt (.inr ⟨length, item, pointed⟩)
    · exact writes.elim
  · exact writes.elim

/-! Collections. -/

theorem takes_sequence {item : σ → Bytes → Outcome Err (σ × Nat)} {first last : σ}
    (collection : Collection opts ts data b)
    (chain : Chain (fun acc piece next => Takes (item acc) next piece) first data last) :
    Takes (fun input => decodeSequence opts input first item τ ts) last b := by
  obtain ⟨⟨lenType, size, set, known, small, rfl⟩, valid⟩ := collection
  have bounded : (ts.toMode opts).performValidation = true →
      ts.rules.checkBounds data.length = .ok () := fun done => (valid done).1
  have validated : Validated (enforced (ts.toMode opts) ts.rules) {} 0 data := by
    intro rules same
    unfold enforced at same
    split at same
    · rename_i done
      cases same
      exact (valid done).2
    · cases same
  intro rest
  rw [List.append_assoc]
  simp only [decodeSequence, set, at_nil,
    readSequenceOfObjects_at known small bounded validated chain, ok_bind, at_done,
    pure_eq]
  simp

theorem takes_objects {rec : Decoders} (collection : Collection opts ts data b)
    (chain : Chain (fun acc piece next => Takes (decodeElem rec elem acc) next piece) [] data elems)
    (occur : opts.validation = true → api.checkArrayMustOccur ts elem elems = .ok ()) :
    Takes (fun input => api.decodeObjects opts rec input τ elem ts) (.slice elems) b := by
  intro rest
  have sequence := takes_sequence (τ := τ) collection chain rest
  dsimp only at sequence ⊢
  rw [decodeObjects, sequence]
  cases rules : opts.validation with
  | false => simp
  | true => simp [occur rules]

/-- A layer of decoders that reads back what the format says, for values whose nesting
the layer allows for. -/
structure Complete (opts : Options) (world : api.Universe) (rec : Decoders) (depth : Nat) :
    Prop where
  coded : Coded world
  value : ∀ {value given τ b}, world.mem (api.settings given τ) τ →
    api.Denotes opts value (api.settings given τ) τ b → 2 * value.height + 1 ≤ depth →
    Takes (fun input => rec.value input given τ) value b
  fields : ∀ {values σ structFields body}, world.structs σ →
    api.getStructFields σ = .ok structFields → api.DenotesFields opts values structFields body →
    2 * heightAll values + 2 ≤ depth →
    ∀ before rest, rec.fields (at_ before (body ++ rest)) σ =
      .ok (at_ (before ++ body) rest, values)

namespace Complete

variable {world : api.Universe} {rec : Decoders}

variable (complete : Complete opts world rec depth)
include complete

private theorem elems_chain (mem : world.mem (api.settings {} elem) elem) :
    ∀ {data : List Bytes} acc, api.DenotesElems opts elems elem data →
      2 * heightAll elems + 1 ≤ depth →
      Chain (fun acc piece next => Takes (decodeElem rec elem acc) next piece) acc data
        (acc ++ elems) := by
  induction elems with
  | nil =>
    intro data acc spelt low
    cases data with
    | nil => exact (List.append_nil acc).symm
    | cons piece data => simp [DenotesElems] at spelt
  | cons elem' elems ih =>
    intro data acc spelt low
    cases data with
    | nil => simp [DenotesElems] at spelt
    | cons piece data =>
      rw [heightAll] at low
      refine ⟨acc ++ [elem'], fun rest => ?_, ?_⟩
      · have taken := complete.value mem spelt.1 (by omega) rest
        simp [decodeElem, taken]
      · have later := ih (acc ++ [elem']) spelt.2 (by omega)
        rwa [List.append_assoc] at later

section

variable (keys : api.AdmitsPart world.mem key) (values : api.AdmitsPart world.mem elem)
include keys values

private theorem entry_takes {keySettings elemSettings}
    (split : b = keyBytes ++ elemBytes) (keyFound : api.getByValue key .nil = .ok keySettings)
    (elemFound : api.getByValue elem .nil = .ok elemSettings)
    (keyFormat : api.Denotes opts keyValue (api.settings keySettings key) key keyBytes)
    (elemFormat : api.Denotes opts elemValue (api.settings elemSettings elem) elem elemBytes)
    (keyLow : 2 * keyValue.height + 1 ≤ depth) (elemLow : 2 * elemValue.height + 1 ≤ depth)
    (hashed : api.hashable keyValue key = true)
    (fresh : ∀ entry ∈ entries, goEq entry.1 keyValue = false) :
    Takes (api.decodeMapKVPair rec key elem entries) (entries ++ [(keyValue, elemValue)]) b := by
  subst split
  intro rest
  have keyTaken := complete.value (keys _ keyFound) keyFormat keyLow (elemBytes ++ rest)
  have elemTaken := complete.value (values _ elemFound) elemFormat elemLow rest
  have unique : entries.any (fun entry => goEq entry.1 keyValue) = false := by
    rw [List.any_eq_false]
    intro entry mem
    rw [fresh entry mem]
    decide
  simp [decodeMapKVPair, keyFound, elemFound, keyTaken, elemTaken, hashed, unique,
    sliceFrom_append keyBytes _ rfl]

private theorem entries_chain : ∀ {data : List Bytes} acc,
      api.DenotesEntries opts entries key elem data → api.DistinctKeys key (acc ++ entries) →
      2 * heightEntries entries + 1 ≤ depth →
      Chain (fun acc piece next => Takes (api.decodeMapKVPair rec key elem acc) next piece) acc data
        (acc ++ entries) := by
  induction entries with
  | nil =>
    intro data acc spelt nodup low
    cases data with
    | nil => exact (List.append_nil acc).symm
    | cons piece data => simp [DenotesEntries] at spelt
  | cons entry entries ih =>
    intro data acc spelt nodup low
    obtain ⟨keyValue, elemValue⟩ := entry
    cases data with
    | nil => simp [DenotesEntries] at spelt
    | cons piece data =>
      rw [heightEntries] at low
      obtain ⟨⟨keyBytes, elemBytes, keySettings, elemSettings, split, keyFound, elemFound,
        keyFormat, elemFormat⟩, later⟩ := spelt
      have hashed := nodup.1 (keyValue, elemValue) (by simp)
      have fresh : ∀ entry ∈ acc, goEq entry.1 keyValue = false := fun entry mem =>
        (List.pairwise_append.mp nodup.2).2.2 entry mem (keyValue, elemValue) (by simp)
      refine ⟨acc ++ [(keyValue, elemValue)],
        complete.entry_takes keys values split keyFound elemFound keyFormat elemFormat (by omega)
          (by omega) hashed fresh, ?_⟩
      have rest := ih (acc ++ [(keyValue, elemValue)]) later (by simpa using nodup) (by omega)
      rwa [List.append_assoc] at rest

private theorem map_takes (spelt : api.DenotesEntries opts entries key elem data)
    (collection : Collection opts ts.ensureOrdering data b) (nodup : api.DistinctKeys key entries)
    (small : opts.validation = true → api.checkMinMaxBounds ts.ensureOrdering τ (.map entries) = .ok ())
    (low : 2 * heightEntries entries + 1 ≤ depth) :
    Takes (fun input => api.decodeMap opts rec input τ key elem ts) (.map entries) b := by
  have chain := complete.entries_chain keys values [] spelt nodup low
  intro rest
  have sequence := takes_sequence (τ := τ) collection chain rest
  dsimp only at sequence ⊢
  rw [decodeMap, sequence]
  cases rules : opts.validation with
  | false => simp
  | true => simp [small rules]

end

private theorem interface_takes (registered : api.interfaces τ = some objects)
    (known : objects.fromCodeToType code = some σ) (unset : ts.objectType = none)
    (mem : world.mem (api.settings ts σ) σ) (writes : api.WritesCode σ)
    (spelt : api.Denotes opts inner (api.settings ts σ) σ b)
    (low : 2 * inner.height + 1 ≤ depth) :
    Takes (fun input => api.decodeInterface rec input τ ts) (.iface σ inner) b := by
  obtain ⟨coded, fits, behind, split⟩ := carried_code unset writes
    (complete.coded.consistent τ objects code σ registered known).2 spelt
  intro rest
  have taken := complete.value mem spelt low rest
  have peeked : Deserializer.getObjectType { src := b ++ rest } objects.typeDen = .ok code := by
    rw [split, List.append_assoc, at_nil]
    exact getObjectType_at coded fits
  simp [decodeInterface, registered, peeked, known, taken]

private theorem struct_takes {fields : List StructField}
    (mem : world.structs τ) (found : api.getStructFields τ = .ok fields)
    (spelt : api.DenotesFields opts values fields body)
    (low : 2 * heightAll values + 2 ≤ depth) :
    Takes (fun input => decodeStruct rec input τ ts) (.struct values) (codeBytes ts ++ body) := by
  obtain ⟨decls, shape⟩ := world.structs_shape mem
  intro rest
  dsimp only
  rw [decodeStruct, if_neg (ne_time shape), List.append_assoc, at_nil, checkObjectType_at, ok_bind,
    complete.fields mem found spelt low, finish_at, structValue_eq shape]

/-- The decoder of the kinds takes what the format says. -/
theorem kind_takes (mem : world.mem ts τ) (spelt : api.Denotes opts value ts τ b)
    (low : 2 * value.height ≤ depth) (simple : (api.shape τ).isPtr = false) :
    Takes (fun input => api.decodeKind opts rec input τ ts) value b := by
  have fits := world.mem_closed mem
  unfold Admits at fits
  unfold decodeKind
  cases form spelt with
  | bool shape =>
    rw [shape]
    intro rest
    dsimp only
    rw [at_nil, List.singleton_append, readBool_at, finish_at]
    rfl
  | num shape held =>
    rw [shape]
    exact takes_num held _
  | string shape counted valid =>
    rw [shape]
    exact takes_string counted valid
  | bytes shape counted inside =>
    rw [shape]
    exact takes_bytes counted inside
  | slice shape notBytes each collection occur =>
    rw [shape] at fits ⊢
    rw [height] at low
    simp only [notBytes, if_false]
    exact takes_objects collection (complete.elems_chain (fits.2 notBytes) [] each (by omega)) occur
  | map shape each collection nodup bounded =>
    rw [shape] at fits ⊢
    rw [height] at low
    exact complete.map_takes fits.2.1 fits.2.2 each collection nodup bounded (by omega)
  | byteArray shape =>
    rw [shape]
    exact takes_byteArray
  | uint256 number =>
    subst number
    cases simple
  | ptr shape =>
    rw [shape] at simple
    cases simple
  | struct shape parsed each =>
    rw [shape] at fits ⊢
    rw [height] at low
    exact complete.struct_takes fits parsed each (by omega)
  | time shape small =>
    obtain rfl := api.eq_time_of_shape shape
    exact takes_time small _ _
  | iface shape registered known inner =>
    rw [shape] at fits ⊢
    rw [height] at low
    exact complete.interface_takes registered known (complete.coded.unset mem shape)
      (fits _ registered _ _ known)
      (complete.coded.writes mem shape registered known) inner (by omega)

omit complete

private theorem wrapped_takes {read : Bytes → Outcome Err (Value × Nat)}
    (taken : Takes read inner b) : Takes (fun input => do
      let (value, bytesRead) ← read input
      return (ptr value, bytesRead)) (.ptr inner) b := by
  intro rest
  simp [taken rest]

variable (complete : Complete opts world rec depth)
include complete

private theorem ptr_takes (mem : world.mem (api.pointed ts elem) elem)
    (spelt : api.Denotes opts inner (api.pointed ts elem) elem b)
    (low : 2 * inner.height + 1 ≤ depth) :
    Takes (fun input => api.decodePtr opts rec input elem ts) (.ptr inner) b := by
  unfold decodePtr
  cases shape : api.shape elem
  case bool | num | string | ptr =>
    rw [pointed, shape] at mem spelt
    exact wrapped_takes (complete.value mem spelt low)
  all_goals
    rw [pointed, shape] at mem spelt
    exact wrapped_takes (complete.kind_takes mem spelt (by omega) (by rw [shape]; rfl))

theorem merged_takes (mem : world.mem ts τ) (spelt : api.Denotes opts value ts τ b)
    (low : 2 * value.height ≤ depth) :
    Takes (fun input => api.decodeMerged opts rec input ts τ) value b := by
  unfold decodeMerged
  cases form spelt with
  | uint256 number small =>
    subst number
    exact takes_uint256 small _
  | ptr shape other inner =>
    have fits := world.mem_closed mem
    unfold Admits at fits
    rw [height] at low
    simp only [shape, other, if_false, false_or] at fits ⊢
    exact complete.ptr_takes fits inner (by omega)
  | bool shape | num shape | string shape | bytes shape | slice shape | map shape
  | byteArray shape | struct shape | time shape | iface shape =>
    rw [shape]
    exact complete.kind_takes mem spelt low (by rw [shape]; rfl)

/-! Fields. -/

private theorem fieldValue_takes (message : String)
    (mem : world.mem (api.settings field.settings.ts field.fType) field.fType)
    (spelt : api.Denotes opts value (api.settings field.settings.ts field.fType) field.fType body)
    (low : 2 * value.height + 1 ≤ depth) (good : check body.length = .ok ())
    (pre rest : Bytes) : decodeFieldValue rec (at_ pre (body ++ rest)) field check message =
      .ok (at_ (pre ++ body) rest, value) := by
  have taken := complete.value mem spelt low rest
  simp [decodeFieldValue, taken, good, skip_at pre body rest _ rfl]

private theorem embedded_takes (mem : world.structs (api.deRefPointer field.fType))
    (spelt : api.DenotesEmbedded opts value field.isUnexported field.fType body)
    (low : 2 * value.height ≤ depth) (pre rest : Bytes) :
    api.decodeEmbedded rec (at_ pre (body ++ rest)) field =
      .ok (at_ (pre ++ body) rest, value) := by
  unfold deRefPointer at mem
  unfold decodeEmbedded
  rcases embedded_cases spelt with ⟨elem, inner, shape, rfl, exported, simple, spelt⟩ |
    ⟨decls, values, fields, shape, rfl, parsed, spelt⟩
  · rw [shape] at mem
    rcases embedded_cases spelt with ⟨_, _, pointed, _⟩ |
      ⟨decls, values, fields, pointed, rfl, parsed, spelt⟩
    · rw [pointed] at simple
      cases simple
    · simp only [height] at low
      have read := complete.fields mem parsed spelt (by omega) pre rest
      simp [shape, exported, read, structValue_eq pointed]
  · rw [shape] at mem
    rw [height] at low
    have read := complete.fields mem parsed spelt (by omega) pre rest
    simp [shape, read, structValue_eq shape]

private theorem optional_takes
    (mem : world.mem (api.settings field.settings.ts field.fType) field.fType)
    (spelt : (value = .nil ∧ body = put 4 0) ∨ ∃ inner, body = put 4 inner.length ++ inner ∧
      0 < inner.length ∧ inner.length < 256 ^ 4 ∧
      api.Denotes opts value (api.settings field.settings.ts field.fType) field.fType inner)
    (low : 2 * value.height + 1 ≤ depth) (pre rest : Bytes) :
    decodeOptional rec (at_ pre (body ++ rest)) field = .ok (at_ (pre ++ body) rest, value) := by
  unfold decodeOptional
  rcases spelt with ⟨rfl, rfl⟩ | ⟨inner, rfl, present, small, spelt⟩
  · simp [readPayloadLength_at (show 0 < 256 ^ 4 by decide)]
  · rw [List.append_assoc]
    simp only [readPayloadLength_at small, mapErr_ok, ok_bind,
      show inner.length ≠ 0 by omega, if_false]
    rw [← List.append_assoc]
    exact complete.fieldValue_takes _ mem spelt low (by simp [checkPayloadLength]) _ rest

private theorem fieldList_takes :
    ∀ {fields : List StructField} {body : Bytes}, api.DenotesFields opts values fields body →
      (∀ field ∈ fields, api.AdmitsField world.mem world.structs field) →
      2 * heightAll values + 1 ≤ depth → ∀ pre rest,
      api.decodeFieldList rec (at_ pre (body ++ rest)) fields =
        .ok (at_ (pre ++ body) rest, values) := by
  induction values with
  | nil =>
    intro fields body spelt fits low pre rest
    cases fields with
    | nil =>
      subst spelt
      simp [decodeFieldList]
    | cons field fields => simp [DenotesFields] at spelt
  | cons value values ih =>
    intro fields body spelt fits low pre rest
    cases fields with
    | nil => simp [DenotesFields] at spelt
    | cons field fields =>
      rw [heightAll] at low
      obtain ⟨first, later, rfl, laterFormat, format⟩ := denotesFields_cons.mp spelt
      have mem := fits field (by simp)
      have read : api.decodeField rec (at_ pre (first ++ (later ++ rest))) field =
          .ok (at_ (pre ++ first) (later ++ rest), value) := by
        unfold decodeField
        unfold AdmitsField at mem
        unfold DenotesField at format
        split at format
        · rename_i embedded
          rw [if_pos embedded] at mem
          rw [if_pos embedded]
          exact complete.embedded_takes mem format (by omega) pre _
        · rename_i own
          rw [if_neg own] at mem
          rw [if_neg own]
          split at format
          · rename_i optional
            rw [if_pos optional]
            exact complete.optional_takes mem format (by omega) pre _
          · rename_i required
            rw [if_neg required]
            exact complete.fieldValue_takes _ mem format (by omega) rfl pre _
      have tail := ih laterFormat (fun field inside => fits field (by simp [inside])) (by omega)
        (pre ++ first) rest
      simp [decodeFieldList, read, tail]

end Complete

/-- With enough budget every layer of the decoder takes what the format says. -/
theorem decoders_complete {world : api.Universe} (coded : Coded world) :
    Complete opts world (api.decoders opts fuel) fuel := by
  induction fuel with
  | zero => exact ⟨coded, fun _ _ low => by omega, fun _ _ _ low => by omega⟩
  | succ fuel ih =>
    refine ⟨coded, fun mem spelt low => ih.merged_takes mem spelt (by omega),
      fun {_ _ _ _} inside found spelt low before rest => ?_⟩
    have read := ih.fieldList_takes spelt (world.structs_closed inside found) (by omega) before rest
    simp [decoders, decodeStructFields, found, read]

end API

end HiveGo
