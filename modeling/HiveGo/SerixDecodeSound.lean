import HiveGo.SerixUniverse

/-! The decoder returns only what the format says: a value that it returns stands in
the input, in the bytes that it reports as read. -/
namespace HiveGo

open PrefixReader Deserializer Outcome LittleEndian
open List (append_assoc)

namespace API

variable {api : API}
variable {value : Value}

theorem finish_ok {mk : α → Value} {read : Outcome Err (Deserializer × α)}
    (finished : finish mk read = .ok (value, n)) :
    ∃ d result, read = .ok (d, result) ∧ d.err = none ∧ d.offset = n ∧ value = mk result := by
  obtain ⟨⟨d, result⟩, read, finished⟩ := bind_eq_ok.mp finished
  obtain ⟨offset, done, finished⟩ := bind_eq_ok.mp finished
  obtain ⟨clean, rfl⟩ := done_eq_ok.mp done
  cases finished
  exact ⟨d, result, read, clean, rfl, rfl⟩

/-- The values of a fixed width. -/
private theorem within_fixed {mk : α → Value} {dest : α} {value : Bytes → α}
    (format : ∀ piece : Bytes, piece.length = width → api.Form opts ts τ (mk (value piece)) piece) :
    Within (fun input => finish mk (({ src := input } : Deserializer).readFixed dest width value
      errProducer)) (api.Form opts ts τ) := by
  intro input result n finished
  obtain ⟨d, read, ran, clean, rfl, rfl⟩ := finish_ok finished
  rw [at_nil] at ran
  obtain ⟨piece, rest, rfl, size, rfl, rfl⟩ := readFixed_at_ok ran clean
  exact ⟨piece, rest, rfl, rfl, format piece size⟩

private theorem within_bool (shape : api.shape τ = .bool) (errProducer : Err → Err) :
    Within (fun input => finish .bool (({ src := input } : Deserializer).readBool false errProducer))
      (api.Form opts ts τ) := by
  intro input result n finished
  obtain ⟨d, v, ran, clean, rfl, rfl⟩ := finish_ok finished
  rw [at_nil] at ran
  obtain ⟨rest, rfl, rfl⟩ := readBool_at_ok ran clean
  exact ⟨[if v then 1 else 0], rest, rfl, rfl, .bool shape v⟩

private theorem within_string (shape : api.shape τ = .string) :
    Within (fun input => decodeString opts input ts) (api.Form opts ts τ) := by
  intro input result n read
  cases set : ts.lengthPrefixType with
  | none => simp [decodeString, set] at read
  | some lenType =>
    simp only [decodeString, set, at_nil] at read
    obtain ⟨⟨d, s⟩, called, read⟩ := bind_eq_ok.mp read
    split at read
    · cases read
    · rename_i utf8
      obtain ⟨d', s', same, clean, rfl, rfl⟩ := finish_ok read
      cases same
      obtain ⟨size, rest, known, small, long, short, rfl, rfl⟩ := readString_at_ok called clean
      refine ⟨_, rest, (append_assoc _ _ _).symm, rfl,
        .string shape ⟨lenType, size, set, known, small, rfl⟩ fun rules => ?_⟩
      simp only [rules, if_true] at long short
      simp only [rules, Bool.true_and, Bool.not_eq_true', Bool.not_eq_false] at utf8
      exact ⟨⟨long, short⟩, utf8⟩

private theorem within_bytes (shape : api.shape τ = .slice .uint8) :
    Within (fun input => decodeBytes input τ ts) (api.Form opts ts τ) := by
  intro input result n read
  cases set : ts.lengthPrefixType with
  | none => simp [decodeBytes, set] at read
  | some lenType =>
    simp only [decodeBytes, set, at_nil] at read
    obtain ⟨d, s, ran, clean, rfl, rfl⟩ := finish_ok read
    obtain ⟨size, rest, known, small, long, short, rfl, rfl⟩ :=
      readVariableByteSlice_at_ok ran clean
    exact ⟨_, rest, (append_assoc _ _ _).symm, rfl,
      .bytes shape ⟨lenType, size, set, known, small, rfl⟩ ⟨long, short⟩⟩

theorem checkObjectType_at_ok (good : checkObjectType (at_ [] input) ts = .ok d)
    (clean : d.err = none) :
    ∃ rest, input = codeBytes ts ++ rest ∧ d = at_ (codeBytes ts) rest := by
  unfold checkObjectType at good
  unfold codeBytes
  cases set : ts.objectType with
  | none =>
    rw [set] at good
    cases good
    exact ⟨input, rfl, rfl⟩
  | some objectType =>
    rw [set] at good
    obtain ⟨rest, split, moved⟩ := checkTypePrefix_at_ok good clean
    rw [codePiece_objectType] at split moved
    exact ⟨rest, split, moved⟩

private theorem within_byteArray (shape : api.shape τ = .array length .uint8) :
    Within (fun input => decodeByteArray input ts length) (api.Form opts ts τ) := by
  intro input result n read
  obtain ⟨d, good, read⟩ := bind_eq_ok.mp read
  obtain ⟨d', s, ran, clean, rfl, rfl⟩ := finish_ok read
  have started : d.err = none := by
    cases kept : d.err with
    | none => rfl
    | some error =>
      simp only [readBytesInPlace, readFixed, kept] at ran
      cases ran
      rw [kept] at clean
      cases clean
  obtain ⟨rest, rfl, rfl⟩ := checkObjectType_at_ok good started
  obtain ⟨_, behind, rfl, size, rfl, rfl⟩ := readFixed_at_ok ran clean
  rw [List.length_replicate] at size
  subst size
  exact ⟨codeBytes ts ++ s, behind, (append_assoc _ _ _).symm, rfl, .byteArray shape⟩

/-! Collections. -/

theorem within_sequence {item : σ → Bytes → Outcome Err (σ × Nat)} {first : σ}
    {step : σ → Bytes → σ → Prop}
    (within : ∀ acc, Within (item acc) fun next piece => step acc piece next) :
    Within (fun input => decodeSequence opts input first item τ ts) fun last piece =>
      ∃ data, Collection opts ts data piece ∧ Chain step first data last := by
  intro input last n read
  cases set : ts.lengthPrefixType with
  | none => simp [decodeSequence, set] at read
  | some lenType =>
    simp only [decodeSequence, set, at_nil] at read
    obtain ⟨⟨d, acc⟩, called, read⟩ := bind_eq_ok.mp read
    obtain ⟨offset, done, read⟩ := bind_eq_ok.mp read
    obtain ⟨clean, rfl⟩ := done_eq_ok.mp done
    cases read
    obtain ⟨size, data, rest, known, small, bounded, validated, chain, rfl, rfl⟩ :=
      readSequenceOfObjects_at_ok within called clean
    refine ⟨_, rest, (append_assoc _ _ _).symm, rfl, data,
      ⟨⟨lenType, size, set, known, small, rfl⟩, fun rules => ⟨bounded rules, ?_⟩⟩, chain⟩
    exact validated ts.rules (if_pos rules)

/-- A layer of decoders that returns only what the format says. A struct is read by a
reader that keeps its first error, so that a clean end means a clean start. -/
structure Sound (opts : Options) (world : api.Universe) (rec : Decoders) : Prop where
  value : ∀ {given τ}, world.mem (api.settings given τ) τ →
    Within (fun input => rec.value input given τ)
      fun value piece => api.Denotes opts value (api.settings given τ) τ piece
  started : ∀ {σ d after values}, rec.fields d σ = .ok (after, values) → after.err = none →
    d.err = none
  fields : ∀ {σ before input after values}, world.structs σ →
    rec.fields (at_ before input) σ = .ok (after, values) → after.err = none →
    ∃ piece rest structFields, input = piece ++ rest ∧ after = at_ (before ++ piece) rest ∧
      api.getStructFields σ = .ok structFields ∧ api.DenotesFields opts values structFields piece

namespace Sound

variable {world : api.Universe} {rec : Decoders}

private theorem elem_within (sound : Sound opts world rec)
    (mem : world.mem (api.settings {} elem) elem) (acc : List Value) :
    Within (decodeElem rec elem acc) fun next piece => ∃ value, next = acc ++ [value] ∧
      api.Denotes opts value (api.settings {} elem) elem piece := by
  intro input next n read
  obtain ⟨⟨value, bytesRead⟩, called, read⟩ := bind_eq_ok.mp read
  cases read
  obtain ⟨piece, rest, split, size, spelt⟩ := sound.value mem _ _ _ called
  exact ⟨piece, rest, split, size, value, rfl, spelt⟩

private theorem elems_of_chain : ∀ {first last : List Value},
      Chain (fun acc piece next => ∃ value, next = acc ++ [value] ∧
        api.Denotes opts value (api.settings {} elem) elem piece) first data last →
      ∃ elems, last = first ++ elems ∧ api.DenotesElems opts elems elem data := by
  induction data with
  | nil =>
    rintro first last rfl
    exact ⟨[], by simp, by simp [DenotesElems]⟩
  | cons piece data ih =>
    rintro first last ⟨_, ⟨value, rfl, spelt⟩, chain⟩
    obtain ⟨elems, rfl, later⟩ := ih chain
    exact ⟨value :: elems, by simp, by rw [DenotesElems]; exact ⟨spelt, later⟩⟩

section

variable (sound : Sound opts world rec) (mem : world.mem (api.settings {} elem) elem)
include sound mem

/-- The elements of a slice that was read. -/
theorem elems_within : Within (fun input => decodeSequence opts input [] (decodeElem rec elem) τ ts)
      fun elems piece => ∃ data, api.DenotesElems opts elems elem data ∧
        Collection opts ts data piece := by
  refine (within_sequence (sound.elem_within mem)).mono ?_
  rintro elems piece ⟨data, collection, chain⟩
  obtain ⟨elems, rfl, spelt⟩ := elems_of_chain chain
  exact ⟨data, spelt, collection⟩

private theorem objects_within (shape : api.shape τ = .slice elem)
    (notBytes : elem ≠ .uint8) :
    Within (fun input => api.decodeObjects opts rec input τ elem ts) (api.Form opts ts τ) := by
  intro input result n read
  obtain ⟨⟨elems, bytesRead⟩, called, read⟩ := bind_eq_ok.mp read
  obtain ⟨piece, rest, split, size, data, spelt, collection⟩ :=
    sound.elems_within mem _ _ _ called
  obtain ⟨occur, same⟩ := checked_eq_ok.mp read
  cases same
  exact ⟨piece, rest, split, size, .slice shape notBytes spelt collection fun rules =>
    mapErr_eq_ok.mp (occur rules)⟩

end

/-- What one entry of a map adds to the entries before it. -/
def Adds (api : API) (opts : Options) (key elem : GoType) (acc : List (Value × Value))
    (piece : Bytes) (next : List (Value × Value)) : Prop :=
  ∃ keyValue elemValue keyBytes elemBytes keySettings elemSettings,
    next = acc ++ [(keyValue, elemValue)] ∧ piece = keyBytes ++ elemBytes ∧
    api.getByValue key .nil = .ok keySettings ∧ api.getByValue elem .nil = .ok elemSettings ∧
    api.Denotes opts keyValue (api.settings keySettings key) key keyBytes ∧
    api.Denotes opts elemValue (api.settings elemSettings elem) elem elemBytes ∧
    api.hashable keyValue key = true ∧ ∀ entry ∈ acc, Value.goEq entry.1 keyValue = false

theorem entry_within (sound : Sound opts world rec) (keys : api.AdmitsPart world.mem key)
    (values : api.AdmitsPart world.mem elem) (acc : List (Value × Value)) :
    Within (api.decodeMapKVPair rec key elem acc)
      fun next piece => Adds api opts key elem acc piece next := by
  intro input next n read
  obtain ⟨keySettings, keyFound, read⟩ := bind_eq_ok.mp read
  obtain ⟨elemSettings, elemFound, read⟩ := bind_eq_ok.mp read
  obtain ⟨⟨keyValue, keyRead⟩, keyCalled, read⟩ := bind_eq_ok.mp read
  obtain ⟨keyBytes, behind, rfl, rfl, keyFormat⟩ :=
    sound.value (keys _ keyFound) _ _ _ (mapErr_eq_ok.mp keyCalled)
  simp only [sliceFrom_append keyBytes behind rfl, ok_bind] at read
  obtain ⟨⟨elemValue, elemRead⟩, elemCalled, read⟩ := bind_eq_ok.mp read
  obtain ⟨elemBytes, rest, rfl, rfl, elemFormat⟩ :=
    sound.value (values _ elemFound) _ _ _ (mapErr_eq_ok.mp elemCalled)
  split at read
  · cases read
  · rename_i hashed
    split at read
    · cases read
    · rename_i unique
      cases read
      refine ⟨keyBytes ++ elemBytes, rest, (append_assoc _ _ _).symm, by simp, keyValue,
        elemValue, keyBytes, elemBytes, keySettings, elemSettings, rfl, rfl, keyFound, elemFound,
        keyFormat, elemFormat, by simpa using hashed, fun entry mem => ?_⟩
      simp only [List.any_eq_true, not_exists, not_and, Bool.not_eq_true] at unique
      exact unique entry mem

private theorem entries_of_chain :
    ∀ {first last : List (Value × Value)}, Chain (Adds api opts key elem) first data last →
      api.DistinctKeys key first →
      ∃ entries, last = first ++ entries ∧ api.DenotesEntries opts entries key elem data ∧
        api.DistinctKeys key last := by
  induction data with
  | nil =>
    rintro first last rfl nodup
    exact ⟨[], by simp, by simp [DenotesEntries], nodup⟩
  | cons piece data ih =>
    rintro first last ⟨_, ⟨keyValue, elemValue, keyBytes, elemBytes, keySettings, elemSettings, rfl,
      split, keyFound, elemFound, keyFormat, elemFormat, hashed, fresh⟩, chain⟩ nodup
    have extended : api.DistinctKeys key (first ++ [(keyValue, elemValue)]) := by
      refine ⟨fun entry mem => ?_, ?_⟩
      · rcases List.mem_append.mp mem with mem | mem
        · exact nodup.1 entry mem
        · obtain rfl := List.mem_singleton.mp mem
          exact hashed
      · refine List.pairwise_append.mpr ⟨nodup.2, List.pairwise_singleton _ _, ?_⟩
        intro entry mem other single
        obtain rfl := List.mem_singleton.mp single
        exact fresh entry mem
    obtain ⟨entries, rfl, later, nodup⟩ := ih chain extended
    refine ⟨(keyValue, elemValue) :: entries, by simp, ?_, nodup⟩
    exact ⟨⟨keyBytes, elemBytes, keySettings, elemSettings, split, keyFound, elemFound, keyFormat,
      elemFormat⟩, later⟩

section

variable (sound : Sound opts world rec)
include sound

private theorem map_within (keys : api.AdmitsPart world.mem key)
    (values : api.AdmitsPart world.mem elem) (shape : api.shape τ = .map key elem) :
    Within (fun input => api.decodeMap opts rec input τ key elem ts) (api.Form opts ts τ) := by
  intro input result n read
  obtain ⟨⟨entries, bytesRead⟩, called, read⟩ := bind_eq_ok.mp read
  obtain ⟨piece, rest, split, size, data, collection, chain⟩ :=
    within_sequence (sound.entry_within keys values) _ _ _ called
  obtain ⟨entries, rfl, spelt, nodup⟩ := entries_of_chain chain ⟨by simp, List.Pairwise.nil⟩
  obtain ⟨small, same⟩ := checked_eq_ok.mp read
  cases same
  exact ⟨piece, rest, split, size, .map shape spelt collection nodup small⟩

private theorem interface_within
    (members : ∀ objects, api.interfaces τ = some objects → ∀ code σ,
      objects.fromCodeToType code = some σ → world.mem (api.settings ts σ) σ)
    (shape : api.shape τ = .interface) :
    Within (fun input => api.decodeInterface rec input τ ts) (api.Form opts ts τ) := by
  intro input result n read
  cases registered : api.interfaces τ with
  | none => simp [decodeInterface, registered] at read
  | some objects =>
    simp only [decodeInterface, registered] at read
    obtain ⟨code, _, read⟩ := bind_eq_ok.mp read
    cases known : objects.fromCodeToType code with
    | none => simp [known] at read
    | some σ =>
      simp only [known] at read
      obtain ⟨⟨inner, bytesRead⟩, called, read⟩ := bind_eq_ok.mp read
      cases read
      obtain ⟨piece, rest, split, size, spelt⟩ :=
        sound.value (members objects registered code σ known) _ _ _ called
      exact ⟨piece, rest, split, size, .iface shape registered known spelt⟩

private theorem struct_within (mem : world.structs τ) :
    Within (fun input => decodeStruct rec input τ ts) (api.Form opts ts τ) := by
  obtain ⟨decls, shape⟩ := world.structs_shape mem
  intro input result n read
  dsimp only at read
  rw [decodeStruct, if_neg (ne_time shape), at_nil] at read
  obtain ⟨d, good, read⟩ := bind_eq_ok.mp read
  obtain ⟨after, values, ran, clean, rfl, rfl⟩ := finish_ok read
  obtain ⟨behind, rfl, rfl⟩ := checkObjectType_at_ok good (sound.started ran clean)
  obtain ⟨body, rest, fields, rfl, rfl, found, spelt⟩ := sound.fields mem ran clean
  rw [structValue_eq shape]
  exact ⟨codeBytes ts ++ body, rest, (append_assoc _ _ _).symm, rfl, .struct shape found spelt⟩

/-- The decoder of the kinds returns only what the format says. -/
theorem kind_within (mem : world.mem ts τ) :
    Within (fun input => api.decodeKind opts rec input τ ts)
      fun value piece => api.Denotes opts value ts τ piece := by
  suffices Within (fun input => api.decodeKind opts rec input τ ts) (api.Form opts ts τ) from
    this.mono fun _ _ => Form.denotes
  have fits := world.mem_closed mem
  unfold Admits at fits
  unfold decodeKind
  cases shape : api.shape τ with
  | bool => exact within_bool shape _
  | num kind =>
    refine within_fixed fun piece size => ?_
    have small := size ▸ get_lt piece
    have spelt : api.Form opts ts τ _ _ := .num shape (NumKind.holds_ofWord small)
    rwa [NumKind.toWord_ofWord small, ← size, put_get] at spelt
  | string => exact within_string shape
  | slice elem =>
    rw [shape] at fits
    dsimp only
    split
    · next bytes => exact within_bytes (bytes ▸ shape)
    · next notBytes => exact sound.objects_within (fits.2 notBytes) shape notBytes
  | map key elem =>
    rw [shape] at fits
    exact sound.map_within fits.2.1 fits.2.2 shape
  | array length elem =>
    rw [shape] at fits
    subst fits
    exact within_byteArray shape
  | ptr elem =>
    intro input value n read
    cases read
  | struct decls =>
    rw [shape] at fits
    exact sound.struct_within fits
  | bigInt =>
    rw [shape] at fits
    exact fits.elim
  | time =>
    obtain rfl := api.eq_time_of_shape shape
    refine within_fixed fun piece size => ?_
    have spelt : api.Form opts ts _ _ _ := .time shape (size ▸ get_lt piece)
    rwa [← size, put_get] at spelt
  | interface =>
    rw [shape] at fits
    exact sound.interface_within fits shape

end

private theorem wrapped_within {read : Bytes → Outcome Err (Value × Nat)}
    (within : Within read format) :
    Within (fun input => do
      let (value, bytesRead) ← read input
      return (Value.ptr value, bytesRead))
      fun result piece => ∃ inner, result = .ptr inner ∧ format inner piece := by
  intro input result n decoded
  obtain ⟨⟨inner, bytesRead⟩, called, decoded⟩ := bind_eq_ok.mp decoded
  cases decoded
  obtain ⟨piece, rest, split, size, spelt⟩ := within _ _ _ called
  exact ⟨piece, rest, split, size, inner, rfl, spelt⟩

private theorem ptr_within (sound : Sound opts world rec)
    (mem : world.mem (api.pointed ts elem) elem) :
    Within (fun input => api.decodePtr opts rec input elem ts) fun result piece =>
      ∃ inner, result = .ptr inner ∧ api.Denotes opts inner (api.pointed ts elem) elem piece := by
  unfold decodePtr
  cases shape : api.shape elem
  case bool | num | string | ptr =>
    rw [pointed, shape] at mem ⊢
    exact wrapped_within (sound.value mem)
  all_goals
    rw [pointed, shape] at mem ⊢
    exact wrapped_within (sound.kind_within mem)

theorem merged_within (sound : Sound opts world rec) (mem : world.mem ts τ) :
    Within (fun input => api.decodeMerged opts rec input ts τ)
      fun value piece => api.Denotes opts value ts τ piece := by
  unfold decodeMerged
  cases shape : api.shape τ
  case ptr elem =>
    have fits := world.mem_closed mem
    unfold Admits at fits
    rw [shape] at fits
    by_cases big : τ = .ptr .bigInt
    · simp only [big, if_true]
      refine (within_fixed fun piece size => ?_).mono fun _ _ => Form.denotes
      have spelt : api.Form opts ts _ _ _ := .uint256 rfl (size ▸ get_lt piece)
      rwa [← size, put_get] at spelt
    · simp only [big, if_false]
      refine (sound.ptr_within (fits.resolve_left big)).mono ?_
      rintro _ piece ⟨inner, rfl, spelt⟩
      exact (Form.ptr shape big spelt).denotes
  all_goals exact sound.kind_within mem

/-! Fields. -/

private theorem fieldValue_started
    (read : decodeFieldValue rec d field check message = .ok (after, value))
    (clean : after.err = none) : d.err = none := by
  obtain ⟨input, _, read⟩ := bind_eq_ok.mp read
  obtain ⟨⟨value', n⟩, _, read⟩ := bind_eq_ok.mp read
  obtain ⟨⟨⟩, _, read⟩ := bind_eq_ok.mp read
  obtain ⟨d', skipped, read⟩ := bind_eq_ok.mp read
  cases read
  exact skip_started skipped clean

variable (sound : Sound opts world rec)
include sound

private theorem field_started (read : api.decodeField rec d field = .ok (after, value))
    (clean : after.err = none) : d.err = none := by
  unfold decodeField at read
  split at read
  · unfold decodeEmbedded at read
    split at read
    · split at read
      · cases read
      · obtain ⟨⟨d', values⟩, called, read⟩ := bind_eq_ok.mp read
        cases read
        exact sound.started (mapErr_eq_ok.mp called) clean
    · obtain ⟨⟨d', values⟩, called, read⟩ := bind_eq_ok.mp read
      cases read
      exact sound.started (mapErr_eq_ok.mp called) clean
  · split at read
    · obtain ⟨⟨d', length⟩, called, read⟩ := bind_eq_ok.mp read
      dsimp only at read
      have middle : d'.err = none := by
        split at read
        · cases read
          exact clean
        · exact fieldValue_started read clean
      exact readPayloadLength_started (mapErr_eq_ok.mp called) middle
    · exact fieldValue_started read clean

private theorem fieldList_started {fields : List StructField} :
    ∀ {d after : Deserializer} {values : List Value},
      api.decodeFieldList rec d fields = .ok (after, values) → after.err = none →
      d.err = none := by
  induction fields with
  | nil =>
    intro d after values read clean
    cases read
    exact clean
  | cons field fields ih =>
    intro d after values read clean
    obtain ⟨⟨d', value⟩, first, read⟩ := bind_eq_ok.mp read
    obtain ⟨⟨d'', values'⟩, later, read⟩ := bind_eq_ok.mp read
    cases read
    exact sound.field_started first (ih later clean)

section

variable {field : StructField} (mem : world.mem (api.settings field.settings.ts field.fType) field.fType)
include mem

private theorem fieldValue_within
    (read : decodeFieldValue rec (at_ before input) field check message = .ok (after, value)) :
    ∃ piece rest, input = piece ++ rest ∧ check piece.length = .ok () ∧
      after = at_ (before ++ piece) rest ∧
      api.Denotes opts value (api.settings field.settings.ts field.fType) field.fType piece := by
  simp only [decodeFieldValue, remainingBytes_at, ok_bind] at read
  obtain ⟨⟨value', n⟩, called, read⟩ := bind_eq_ok.mp read
  obtain ⟨piece, rest, rfl, rfl, spelt⟩ :=
    sound.value mem _ _ _ (mapErr_eq_ok.mp called)
  obtain ⟨⟨⟩, good, read⟩ := bind_eq_ok.mp read
  simp only [skip_at before piece rest _ rfl, ok_bind] at read
  cases read
  exact ⟨piece, rest, rfl, good, rfl, spelt⟩

private theorem optional_within
    (read : decodeOptional rec (at_ before input) field = .ok (after, value)) :
    ∃ piece rest, input = piece ++ rest ∧ after = at_ (before ++ piece) rest ∧
      ((value = .nil ∧ piece = put 4 0) ∨
        ∃ body, piece = put 4 body.length ++ body ∧ 0 < body.length ∧
          body.length < 256 ^ 4 ∧
          api.Denotes opts value (api.settings field.settings.ts field.fType) field.fType body) := by
  obtain ⟨⟨d, length⟩, called, read⟩ := bind_eq_ok.mp read
  obtain ⟨behind, small, rfl, rfl⟩ := readPayloadLength_at_ok (mapErr_eq_ok.mp called)
  dsimp only at read
  split at read
  · rename_i absent
    subst absent
    cases read
    exact ⟨_, behind, rfl, rfl, .inl ⟨rfl, rfl⟩⟩
  · obtain ⟨body, rest, rfl, good, rfl, spelt⟩ := sound.fieldValue_within mem read
    have same : body.length = length := by
      by_contra apart
      simp [checkPayloadLength, apart] at good
    subst same
    exact ⟨_, rest, (append_assoc _ _ _).symm, by rw [append_assoc],
      Or.inr ⟨body, rfl, by omega, small, spelt⟩⟩

end

private theorem embedded_within (mem : world.structs (api.deRefPointer field.fType))
    (read : api.decodeEmbedded rec (at_ before input) field = .ok (after, value))
    (clean : after.err = none) :
    ∃ piece rest, input = piece ++ rest ∧ after = at_ (before ++ piece) rest ∧
      api.DenotesEmbedded opts value field.isUnexported field.fType piece := by
  unfold deRefPointer at mem
  unfold decodeEmbedded at read
  unfold DenotesEmbedded
  cases shape : api.shape field.fType
  case ptr elem =>
    simp only [shape] at read mem
    split at read
    · cases read
    · rename_i exported
      obtain ⟨⟨d, values⟩, called, read⟩ := bind_eq_ok.mp read
      cases read
      obtain ⟨piece, rest, fields, rfl, rfl, found, spelt⟩ :=
        sound.fields mem (mapErr_eq_ok.mp called) clean
      obtain ⟨decls, pointed⟩ := world.structs_shape mem
      refine ⟨piece, rest, rfl, rfl, by simpa using exported, by rw [pointed]; rfl, ?_⟩
      rw [structValue_eq pointed]
      unfold DenotesEmbedded
      rw [pointed]
      exact ⟨fields, found, spelt⟩
  case struct decls =>
    simp only [shape] at read mem
    obtain ⟨⟨d, values⟩, called, read⟩ := bind_eq_ok.mp read
    cases read
    obtain ⟨piece, rest, fields, rfl, rfl, found, spelt⟩ :=
      sound.fields mem (mapErr_eq_ok.mp called) clean
    refine ⟨piece, rest, rfl, rfl, ?_⟩
    rw [structValue_eq shape]
    exact ⟨fields, found, spelt⟩
  all_goals
    rw [shape] at mem
    obtain ⟨decls, other⟩ := world.structs_shape mem
    rw [shape] at other
    cases other

private theorem field_within (fits : api.AdmitsField world.mem world.structs field)
    (read : api.decodeField rec (at_ before input) field = .ok (after, value))
    (clean : after.err = none) :
    ∃ piece rest, input = piece ++ rest ∧ after = at_ (before ++ piece) rest ∧
      api.DenotesField opts value field piece := by
  unfold decodeField at read
  unfold AdmitsField at fits
  unfold DenotesField
  split at read
  · rename_i embedded
    rw [if_pos embedded] at fits
    simp only [embedded, if_true]
    exact sound.embedded_within fits read clean
  · rename_i own
    rw [if_neg own] at fits
    simp only [own]
    split at read
    · rename_i optional
      simp only [optional, if_true]
      exact sound.optional_within fits read
    · rename_i required
      simp only [required]
      obtain ⟨piece, rest, split, _, moved, spelt⟩ := sound.fieldValue_within fits read
      exact ⟨piece, rest, split, moved, spelt⟩

private theorem fieldList_within {fields : List StructField} :
    ∀ {pre input : Bytes} {after : Deserializer} {values : List Value},
      (∀ field ∈ fields, api.AdmitsField world.mem world.structs field) →
      api.decodeFieldList rec (at_ pre input) fields = .ok (after, values) → after.err = none →
      ∃ piece rest, input = piece ++ rest ∧ after = at_ (pre ++ piece) rest ∧
        api.DenotesFields opts values fields piece := by
  induction fields with
  | nil =>
    intro pre input after values fits read clean
    cases read
    exact ⟨[], input, rfl, by simp, by simp [DenotesFields]⟩
  | cons field fields ih =>
    intro pre input after values fits read clean
    obtain ⟨⟨d, value⟩, called, read⟩ := bind_eq_ok.mp read
    obtain ⟨⟨d', values'⟩, later, read⟩ := bind_eq_ok.mp read
    cases read
    obtain ⟨first, behind, rfl, rfl, format⟩ :=
      sound.field_within (fits field (by simp)) called (sound.fieldList_started later clean)
    obtain ⟨piece, rest, rfl, rfl, spelt⟩ :=
      ih (fun field mem => fits field (by simp [mem])) later clean
    exact ⟨first ++ piece, rest, (append_assoc _ _ _).symm, by rw [append_assoc],
      denotesFields_cons.mpr ⟨first, piece, rfl, spelt, format⟩⟩

theorem layer (zero : GoType → Outcome Err Value) : Sound opts world
      { value := api.decodeValue opts rec, fields := api.decodeStructFields rec, zero } where
  value mem := sound.merged_within mem
  started read clean := by
    obtain ⟨fields, _, read⟩ := bind_eq_ok.mp read
    exact sound.fieldList_started read clean
  fields inside read clean := by
    obtain ⟨fields, found, read⟩ := bind_eq_ok.mp read
    have found := mapErr_eq_ok.mp found
    obtain ⟨piece, rest, split, moved, spelt⟩ :=
      sound.fieldList_within (world.structs_closed inside found) read clean
    exact ⟨piece, rest, fields, split, moved, found, spelt⟩

end Sound

/-- Under every budget the decoder returns only what the format says. -/
theorem decoders_sound (world : api.Universe) : Sound opts world (api.decoders opts fuel) := by
  induction fuel with
  | zero =>
    refine ⟨fun _ => ?_, ?_, ?_⟩
    · intro input value n read
      cases read
    · intro σ d after values read
      cases read
    · intro σ pre input after values mem read
      cases read
  | succ fuel ih => exact ih.layer _

end API

end HiveGo
