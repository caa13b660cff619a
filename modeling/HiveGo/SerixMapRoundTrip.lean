import HiveGo.SerixMapObjects
import HiveGo.SerixMapTyped
import HiveGo.SerixRoundTrip

/-! Values come back from a round trip through their map form. -/
namespace HiveGo

open OrderedMap Outcome List Float64 Hexutil Value FieldDecl

namespace API

variable {platform : Platform} {api : API} {world : api.MapUniverse}

section Values

/-- What a slice without an object code was encoded from. -/
theorem mapEncodeObjects_ok {elem : GoType}
    {encodeElems : Outcome Err (List Ele)} (uncoded : ts.objectType = none)
    (ran : api.mapEncodeObjects platform opts ts elem elems encodeElems = .ok ele) :
    (opts.validation = true → ts.checkMinMaxBoundsLength elems.length = .ok () ∧
        api.checkArrayMustOccur ts elem elems = .ok ()) ∧
      ∃ data, encodeElems = .ok data ∧ ele = .list data := by
  simp only [mapEncodeObjects, uncoded] at ran
  obtain ⟨bounds, ran⟩ := checked_eq_ok.mp ran
  obtain ⟨occurs, ran⟩ := checked_eq_ok.mp ran
  obtain ⟨data, encoded, ran⟩ := bind_eq_ok.mp ran
  cases ran
  refine ⟨fun rules => ⟨?_, ?_⟩, data, encoded, rfl⟩
  · exact mapErr_eq_ok.mp (bounds rules)
  · exact mapErr_eq_ok.mp (occurs rules)

theorem slice_back (each : ∀ value ∈ elems, Back platform opts world value) :
    Alone platform opts world (.slice elems) := by
  rintro given τ ele mem ⟨elem, shape, notBytes, typed⟩ whole ran
  have fits := world.mem_closed mem
  simp only [MapAdmits, shape] at fits
  simp only [Whole, shape] at whole
  unfold mapEncode at ran
  simp only [shape, if_neg notBytes] at ran
  obtain ⟨good, data, encoded, rfl⟩ := mapEncodeObjects_ok fits.1 ran
  have known : ∀ value ∈ elems, Back platform opts world value ∧ api.HasType value elem ∧
      api.Whole value elem := fun value listed =>
    ⟨each value listed, hasTypeAll_iff.mp typed value listed, wholeAll_iff.mp whole value listed⟩
  have back : List.Forall₂ (fun value ele =>
      ComesBack platform api opts value (api.settings {} elem) elem ele) elems data := by
    refine ((forall₂_and_left _ _).mpr ⟨known, mapEncodeElems_ok encoded⟩).imp ?_
    rintro value ele ⟨⟨back, typed, whole⟩, encoded⟩
    exact back.alone (fits.2 notBytes) typed whole encoded
  refine back_slice shape notBytes good back (.inl ?_) fun others came => ?_
  · rw [height]
    omega
  · exact restoredAll_iff.mpr came

theorem map_back (each : ∀ entry ∈ entries,
      Back platform opts world entry.1 ∧ Back platform opts world entry.2) :
    Alone platform opts world (.map entries) := by
  rintro given τ ele mem ⟨key, elem, shape, typed, nodup⟩ whole called
  have fits := world.mem_closed mem
  simp only [MapAdmits, shape] at fits
  obtain ⟨kind, keys, elems, ⟨keyTS, keyFound⟩, elemTS, elemFound⟩ := fits
  simp only [Whole, shape] at whole
  unfold mapEncode at called
  simp only [shape, mapEncodeMap] at called
  obtain ⟨bounds, called⟩ := checked_eq_ok.mp called
  obtain ⟨m, ran, called⟩ := bind_eq_ok.mp called
  cases called
  obtain ⟨pairs, encoded, rfl⟩ := mapEncodeEntries_ok keyFound elemFound ran
  have known : ∀ entry ∈ entries,
      (Back platform opts world entry.1 ∧ Back platform opts world entry.2) ∧
        (api.HasType entry.1 key ∧ api.HasType entry.2 elem) ∧
          api.Whole entry.1 key ∧ api.Whole entry.2 elem := fun entry listed =>
    ⟨each entry listed, hasTypeEntries_iff.mp typed entry listed,
      wholeEntries_iff.mp whole entry listed⟩
  have back : List.Forall₂ (EntryBack platform api opts key elem keyTS elemTS) entries pairs := by
    refine ((forall₂_and_left _ _).mpr ⟨known, encoded⟩).imp ?_
    rintro entry pair ⟨⟨back, typed, whole⟩, encodedKey, encodedElem⟩
    exact ⟨typed.1, back.1.alone (keys keyTS keyFound) typed.1 whole.1 encodedKey,
      back.2.alone (elems elemTS elemFound) typed.2 whole.2 encodedElem⟩
  refine back_map shape kind keyFound elemFound (fun rules => ?_) back nodup (.inl ?_)
    fun others came => came
  · simpa [checkMinMaxBounds, shape, Shape.hasLength, len] using bounds rules
  · rw [height]
    omega

variable (correct : platform.Correct)
include correct

/-- A nil slice or map is encoded as an empty one, and nothing else may be nil. -/
theorem nil_back : Alone platform opts world .nil := by
  intro given τ ele mem typed _ ran
  have fits := world.mem_closed mem
  unfold MapAdmits at fits
  unfold mapEncode at ran
  cases shape : api.shape τ with
  | slice elem =>
    simp only [shape] at fits ran
    by_cases isBytes : elem = .uint8
    · subst isBytes
      exact back_bytes correct shape fits.1 ran (.inr (.inl rfl))
    · rw [if_neg isBytes] at ran
      obtain ⟨good, data, encoded, rfl⟩ := mapEncodeObjects_ok fits.1 ran
      cases encoded
      refine back_slice shape isBytes good .nil (.inr rfl) fun others came => ?_
      cases came
      exact .inr (.inr (.inl rfl))
  | map key elem =>
    simp only [shape, mapEncodeMap] at fits ran
    obtain ⟨kind, -, -, ⟨keyTS, keyFound⟩, elemTS, elemFound⟩ := fits
    obtain ⟨bounds, ran⟩ := checked_eq_ok.mp ran
    cases ran
    have back : List.Forall₂ (EntryBack platform api opts key elem keyTS elemTS) [] [] := .nil
    refine back_map shape kind keyFound elemFound (fun rules => ?_) back ⟨by simp, .nil⟩
      (.inr rfl) fun others came => ?_
    · simpa [checkMinMaxBounds, shape, Shape.hasLength, len] using bounds rules
    · obtain ⟨arranged, perm, again⟩ := came
      cases restoredEntries_iff.mp again
      cases nil_perm.mp perm
      exact .inr (.inr (.inr rfl))
  | ptr elem =>
    simp only [shape] at ran
    split at ran <;> cases ran
  | interface =>
    simp only [shape] at ran
    cases ran
  | _ => simp [HasType, shape] at typed

/-- A pointer points to a struct or to a big integer. -/
theorem ptr_back {inner : Value} (back : Back platform opts world inner) :
    Alone platform opts world (.ptr inner) := by
  rintro given τ ele mem ⟨elem, shape, typed⟩ whole ran
  have fits := world.mem_closed mem
  simp only [MapAdmits, shape] at fits
  unfold mapEncode at ran
  simp only [shape] at ran
  by_cases isNumber : τ = .ptr .bigInt
  · subst isNumber
    cases inner with
    | bigInt n =>
      cases ran
      exact back_bigInt correct whole
    | _ => cases ran
  · rw [if_neg isNumber] at ran
    have fits := fits.resolve_left isNumber
    cases pointee : api.shape elem with
    | struct decls =>
      simp only [pointee] at fits ran
      cases inner with
      | struct values =>
        obtain ⟨fields, parsed⟩ := world.structs_parsed fits.1
        have wholeFields : api.WholeFields values fields := by
          simpa [Whole, deRefPointer, shape, parsed] using whole
        have fieldsBack :=
          back.struct (.inl rfl) fits.1 parsed (typed.2 fields parsed) wholeFields
        obtain ⟨entries, rfl, structBack⟩ :=
          structBack fits.1 fits.2 parsed fieldsBack ran
        exact back_ptr shape pointee structBack
      | _ => cases ran
    | array length item => simp [pointee] at fits
    | bigInt => simp [pointee] at fits
    | time => simp [pointee] at fits
    | _ =>
      simp only [pointee] at ran
      cases ran

/-- A value comes back if its parts do. -/
theorem value_back (sound : api.Consistent) (codes : api.DistinctCodes)
    (parts : ∀ part ∈ value.parts, Back platform opts world part) :
    Alone platform opts world value := by
  intro given τ ele mem typed whole ran
  have fits := world.mem_closed mem
  unfold MapAdmits at fits
  cases value with
  | nil => exact nil_back correct mem typed whole ran
  | ptr inner => exact ptr_back correct (parts _ mem_cons_self) mem typed whole ran
  | slice elems => exact slice_back parts mem typed whole ran
  | map entries =>
    refine map_back (fun entry listed => ⟨parts _ ?_, parts _ ?_⟩) mem typed whole ran
    · exact mem_flatMap.mpr ⟨entry, listed, by simp⟩
    · exact mem_flatMap.mpr ⟨entry, listed, by simp⟩
  | struct values =>
    obtain ⟨⟨decls, shape⟩, typed⟩ := typed
    simp only [shape] at fits
    obtain ⟨fields, parsed⟩ := world.structs_parsed fits.1
    unfold mapEncode at ran
    simp only [shape] at ran
    have wholeFields : api.WholeFields values fields := by simpa [Whole, parsed] using whole
    have fieldsBack := struct_back parts fits.1 parsed (typed fields parsed) wholeFields
    obtain ⟨entries, rfl, back⟩ := structBack fits.1 fits.2 parsed fieldsBack ran
    exact back_struct shape back
  | iface σ inner =>
    obtain ⟨shape, typed⟩ := typed
    simp only [shape] at fits
    unfold mapEncode at ran
    simp only [shape, mapEncodeInterface, encodeInterface_eq_ok] at ran
    obtain ⟨objects, code, registered, known, ran⟩ := ran
    obtain ⟨⟨elem, decls, pointer, pointee⟩, inside⟩ := fits.2 objects registered σ code known
    have same : api.settings ((api.getByType σ).getD {}) σ = api.settings {} σ := by
      simp [settings]
    rw [← same] at inside
    have innerBack := (parts inner mem_cons_self).alone inside typed whole ran
    rw [same] at innerBack
    exact back_interface sound codes shape registered known fits.1
      (by simp [ObjectLike, pointer, pointee]) innerBack
  | num n =>
    obtain ⟨kind, shape, held⟩ := typed
    unfold mapEncode at ran
    simp only [shape] at ran
    cases ran
    exact back_num shape held
  | array elems =>
    obtain ⟨elem, shape, notBytes, -⟩ := typed
    simp only [shape] at fits
    exact absurd fits.1 notBytes
  | bigInt | time =>
    simp only [HasType] at typed
    simp [typed] at fits
  | bool b =>
    simp only [HasType] at typed
    unfold mapEncode at ran
    simp only [typed] at ran
    cases ran
    exact back_bool typed
  | string s =>
    simp only [HasType] at typed
    unfold mapEncode at ran
    simp only [typed] at ran
    exact back_string typed ran
  | bytes b =>
    simp only [HasType] at typed
    unfold mapEncode at ran
    simp only [typed, if_true] at ran fits
    exact back_bytes correct typed fits.1 ran (Restored.refl _)
  | byteArray b =>
    simp only [HasType] at typed
    unfold mapEncode at ran
    simp only [typed, if_true] at ran fits
    exact back_byteArray correct typed fits.2 ran

end Values

/-- Every value of the universe comes back. -/
theorem backs (opts : Options) (correct : platform.Correct) (sound : api.Consistent)
    (codes : api.DistinctCodes) : Back platform opts world value := by
  induction value using induction_parts with
  | step value parts =>
    refine ⟨value_back correct sound codes parts, ?_⟩
    rintro values σ fields (rfl | rfl)
    · exact struct_back parts
    · exact (parts _ mem_cons_self).struct (.inl rfl)

/-- A pointer to the destination is read with the object type of the destination. -/
theorem alike_destination (shape : api.shape τ = .struct decls) (own : api.OwnSettings τ)
    (opts : Options) :
    api.Alike (.ptr τ) (api.settings opts.ts τ) (api.settings opts.ts (.ptr τ)) := by
  have direct : api.getByType τ = api.typeSettings τ := by
    unfold getByType
    cases api.typeSettings τ <;> simp [shape]
  have same : api.settings opts.ts (.ptr τ) = api.settings opts.ts τ := by
    rw [settings, settings, direct, own.getByType_ptr]
  rw [same]
  exact ⟨rfl, fun _ => rfl⟩

/-- Every value of a struct type that is encoded to a map, is decoded from what JSON makes of
the map, and comes back up to nil slices and maps. -/
theorem mapDecode_of_mapEncode (world : api.MapUniverse) (correct : platform.Correct)
    (consistent : api.Consistent) (codes : api.DistinctCodes) {τ : GoType} {decls : List FieldDecl}
    (shaped : api.shape τ = .struct decls) (member : world.mem (api.settings opts.ts τ) τ)
    (own : api.OwnSettings τ) {value : Value} {entries : List (Bytes × Ele)} {m : List (Bytes × Any)}
    (typed : api.HasType value τ) (whole : api.Whole value τ)
    (encoded : api.mapEncodeTop platform opts value τ = .ok entries)
    (views : Views (.object entries) (.object m)) :
    ∃ other, (Restored value other ∧ api.HasType other τ) ∧
      ∃ enough, ∀ fuel, enough < fuel → api.mapDecode platform opts fuel m τ = .ok other := by
  have fits := world.mem_closed member
  simp only [MapAdmits, shaped] at fits
  obtain ⟨values, rfl⟩ : ∃ values, value = .struct values := by
    cases value with
    | struct values => exact ⟨values, rfl⟩
    | _ => simp [HasType, shaped] at typed
  obtain ⟨fields, parsed⟩ := world.structs_parsed fits.1
  have wholeFields : api.WholeFields values fields := by simpa [Whole, parsed] using whole
  have fieldsBack := struct_back (fun value _ => backs opts correct consistent codes)
    fits.1 parsed (typed.2 fields parsed) wholeFields
  obtain ⟨ele, encodedTop, ran⟩ := bind_eq_ok.mp encoded
  unfold mapEncode at encodedTop
  simp only [shaped] at encodedTop
  obtain ⟨_, rfl, back⟩ := structBack fits.1 fits.2 parsed fieldsBack encodedTop
  cases ran
  -- The destination is read through a pointer to it.
  have pointerBack : ComesBack platform api opts (.ptr (.struct values)) (api.settings opts.ts τ)
      (.ptr τ) (.object entries) := back_ptr rfl shaped back
  obtain ⟨other, again, decoded⟩ := pointerBack.decoded _ (pointerBack.presents views)
  cases other with
  | ptr other =>
    have enough : ∀ fuel, 2 * (ptr (.struct values)).height < fuel →
        api.mapDecode platform opts fuel m τ = .ok other := by
      intro fuel enough
      obtain _ | fuel := fuel
      · omega
      rw [mapDecode, decoded opts.ts (alike_destination shaped own opts) fuel (by omega)]
      rfl
    exact ⟨other, ⟨again, mapDecode_typed (enough _ (Nat.lt_succ_self _))⟩, _, enough⟩
  | _ => simp [Restored] at again

end API

/-- The hexadecimal strings of the library; numbers out of range wrap around. -/
def hexutil : Platform where
  encode := encode
  decode := decode
  encodeBig := encodeBig
  decodeBig := decodeBig
  outOfRange kind x := ⟨kind.wrap x.trunc, kind.holds_wrap _⟩
  sprintf value := "%!d(" ++ value.goType ++ ")"

theorem hexutil_correct : hexutil.Correct where
  decode_encode := decode_encode
  decode_empty := rfl
  decodeBig_encodeBig _ low high := decodeBig_encodeBig low high

namespace BlockAPI

theorem fieldsKey_data (used : api.FieldsKey data key) : key = [118] := by
  cases used with
  | mk parsed mem used =>
    cases parsed
    rw [mem_singleton.mp mem, API.fieldKey_own rfl rfl] at used
    exact used

def mapWorld : api.MapUniverse where
  mem := Listed
  structs τ := τ = block ∨ τ = data
  mem_closed := by
    intro ts τ member
    have apart : ∀ ts, api.CodeApart ts data := fun ts _ used => by
      have key := fieldsKey_data used
      cases key
    cases member
    · exact ⟨.inl rfl, fun coded => absurd rfl coded⟩
    · exact ⟨rfl, fun _ => .parent⟩
    · trivial
    · refine ⟨rfl, fun objects registered σ code found => ?_⟩
      cases object_eq registered (distinctCodes payload objects σ code registered found)
      exact ⟨⟨data, _, rfl, rfl⟩, .pointer⟩
    · exact .inr ⟨.inr rfl, apart coded⟩
    · exact ⟨.inr rfl, apart coded⟩
    · trivial
  structs_shape := world.structs_shape
  structs_parsed := by
    rintro σ (rfl | rfl)
    · exact ⟨_, rfl⟩
    · exact ⟨_, rfl⟩
  structs_closed := by
    rintro σ fields (rfl | rfl) parsed
    · cases parsed
      simp only [forall_mem_cons]
      exact ⟨⟨.parents, by simp [api]⟩, ⟨.payload, by simp⟩, by simp⟩
    · cases parsed
      simp only [forall_mem_cons]
      exact ⟨⟨.value, by simp⟩, by simp⟩
  keys_apart := by
    rintro σ fields (rfl | rfl) parsed
    · cases parsed
      refine .cons (fun second listed key used also => ?_) (pairwise_singleton ..)
      rw [mem_singleton.mp listed, API.fieldKey_own rfl rfl] at also
      rw [API.fieldKey_own rfl rfl] at used
      cases used.symm.trans also
    · cases parsed
      exact pairwise_singleton ..

/-- The map of the block, and what JSON makes of it. -/
def entries : List (Bytes × Ele) :=
  [([112], .list [.int 2, .int 1]), ([113], .object [(keyType, .code (.uint8 7)), ([118], .int 5)])]

def document : List (Bytes × Any) :=
  [([113], .object [([118], .number (ofInt 5 (by decide))),
      (keyType, .number (ofInt 7 (by decide)))]),
    ([112], .array [.number (ofInt 2 (by decide)), .number (ofInt 1 (by decide))])]

theorem document_views : Views (.object entries) (.object document) := by
  refine ⟨_, List.Perm.swap .., ⟨rfl, ?_⟩, ⟨rfl, ?_⟩, trivial⟩
  · exact ⟨represents_ofInt, represents_ofInt, trivial⟩
  · refine ⟨_, List.Perm.swap .., ⟨rfl, ?_⟩, ⟨rfl, ?_⟩, trivial⟩
    · exact represents_ofInt
    · exact represents_ofInt

theorem block_comes_back :
    api.mapEncodeTop hexutil { validation := true } value block = .ok entries ∧
      ∃ other, (Restored value other ∧ api.HasType other block) ∧ ∃ enough, ∀ fuel, enough < fuel →
        api.mapDecode hexutil { validation := true } fuel document block = .ok other := by
  have encoded : api.mapEncodeTop hexutil { validation := true } value block = .ok entries := rfl
  have whole : api.Whole value block := by
    refine ⟨⟨trivial, trivial, trivial⟩, ?_, trivial⟩
    exact ⟨trivial, trivial⟩
  have mem : mapWorld.mem (api.settings ({ validation := true } : Options).ts block) block :=
    Listed.block
  exact ⟨encoded, API.mapDecode_of_mapEncode mapWorld hexutil_correct consistent distinctCodes rfl
    mem (.inl rfl) typed whole encoded document_views⟩

end BlockAPI

/-! Values that do not come back as they were. -/
namespace LossyAPI

def coded : TypeSettings := { objectType := some (.uint8 7) }

/-- `Outer` embeds a pointer; `Blob` has an object code; `Dir` has pointers for its elements;
the settings of `Point` are registered on the pointer. -/
def api : API where
  decl
    | "Doc" => .struct [plain [77] (.map .string .bool)]
    | "Inner" | "Point" => .struct [plain [86] (.num .uint8)]
    | "Outer" => .struct [{ name := [73], type := .ptr (.named "Inner"), anonymous := true }]
    | "Blob" => .slice .uint8
    | "Holder" => .struct [plain [66] (.named "Blob")]
    | "Dir" => .struct [plain [69] (.map .string (.ptr (.named "Inner")))]
    | _ => .interface
  typeSettings τ := if τ = .named "Blob" ∨ τ = .ptr (.named "Point") then some coded else none
  interfaces _ := none

def opts : Options := { validation := true }

/-- The value is encoded, and the map is not decoded to what was encoded. -/
def Lost (value : Value) (τ : GoType) (entries : List (Bytes × Ele)) (m : List (Bytes × Any)) : Prop :=
  api.mapEncodeTop hexutil opts value τ = .ok entries ∧ Views (.object entries) (.object m) ∧
    ∀ fuel, api.mapDecode hexutil opts fuel m τ ≠ .ok value

def one : Any := .number (ofInt 1 (by decide))

def seven : Any := .number (ofInt 7 (by decide))

theorem one_views : Views (.int 1) one := represents_ofInt

theorem encoded_and_lost :
    (Lost (.struct [.nil]) (.named "Doc") [([109], .object [])] [([109], .object [])] ∧
      api.mapDecode hexutil opts 4 [([109], .object [])] (.named "Doc") = .ok (.struct [.map []])) ∧
    Lost (.struct [.nil]) (.named "Outer") [] [] ∧ Lost (.struct [.bytes [1]]) (.named "Holder")
      [([98], .object [(keyType, .code (.uint8 7)), (keyDefaultSliceArray, .string [48, 120, 48, 49])])]
      [([98], .object [(keyType, seven), (keyDefaultSliceArray, .string [48, 120, 48, 49])])] ∧
    Lost (.struct [.map [(.string [107], .ptr (.struct [.num 1]))]]) (.named "Dir")
      [([101], .object [([107], .object [([118], .int 1)])])]
      [([101], .object [([107], .object [([118], one)])])] ∧
    Lost (.struct [.num 1]) (.named "Point") [([118], .int 1)] [([118], one)] := by
  refine ⟨⟨⟨rfl, ?_, ?_⟩, rfl⟩, ⟨rfl, ?_, ?_⟩, ⟨rfl, ?_, ?_⟩, ⟨rfl, ?_, ?_⟩, ⟨rfl, ?_, ?_⟩⟩
  · exact ⟨_, .refl _, ⟨rfl, _, .refl _, trivial⟩, trivial⟩
  · intro fuel
    rcases fuel with _ | _ | _ | fuel <;> rintro ⟨⟩
  · exact ⟨_, .refl _, trivial⟩
  · intro fuel
    rcases fuel with _ | _ | _ | fuel <;> rintro ⟨⟩
  · refine ⟨_, .refl _, ⟨rfl, _, .refl _, ⟨rfl, ?_⟩, ⟨rfl, rfl⟩, trivial⟩, trivial⟩
    exact represents_ofInt
  · intro fuel
    rcases fuel with _ | _ | _ | fuel <;> rintro ⟨⟩
  · exact ⟨_, .refl _, ⟨rfl, _, .refl _, ⟨rfl, _, .refl _, ⟨rfl, one_views⟩, trivial⟩, trivial⟩,
      trivial⟩
  · intro fuel
    rcases fuel with _ | _ | _ | fuel <;> rintro ⟨⟩
  · exact ⟨_, .refl _, ⟨rfl, one_views⟩, trivial⟩
  · intro fuel
    rcases fuel with _ | _ | fuel <;> rintro ⟨⟩

end LossyAPI

end HiveGo
