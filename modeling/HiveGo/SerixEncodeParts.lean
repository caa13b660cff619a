import HiveGo.SerixFormat
import HiveGo.SerializerWrites

/-! What the encoders of the single kinds write, in the terms of the format. -/
namespace HiveGo

open Serializer ByteOrder

namespace API

variable {api : API}
variable {α : Type}

theorem codeWriter_eq : codeWriter ts = of (codeBytes ts) := by
  unfold codeWriter codeBytes
  cases ts.objectType <;> rfl

theorem encodeByteArray_eq : encodeByteArray ts b = .ok (codeBytes ts ++ b) := by
  simp [encodeByteArray, codeWriter_eq]

theorem encodeBigInt_eq_ok : encodeBigInt (some n) = .ok b ↔
      ∃ m : Nat, n = m ∧ m < 256 ^ 32 ∧ b = LittleEndian.put 32 m := by
  unfold encodeBigInt writeUint256
  by_cases neg : n < 0
  · simp only [neg, if_true, empty_eq, fail, serialize]
    constructor
    · intro same
      cases same
    · rintro ⟨m, rfl, _⟩
      omega
  · by_cases large : n ≥ 2 ^ 256
    · simp only [neg, large, if_true, if_false, empty_eq, fail, serialize]
      constructor
      · intro same
        cases same
      · rintro ⟨m, rfl, small, _⟩
        omega
    · simp only [neg, large, if_false, empty_eq, writeBytes_of, serialize_of, List.nil_append]
      constructor
      · intro same
        cases same
        exact ⟨n.toNat, by omega, by omega, rfl⟩
      · rintro ⟨m, rfl, small, rfl⟩
        simp

theorem encodeBytes_eq_ok :
    encodeBytes τ ts s = .ok b ↔ Counted ts s.length s b ∧ InBounds ts.minMaxLen s.length := by
  unfold encodeBytes Counted InBounds
  cases set : ts.lengthPrefixType with
  | none => simp
  | some lenType =>
    rw [empty_eq, written_eq_ok, writeVariableByteSlice_of, and_comm]
    simp

theorem encodeString_eq_ok : encodeString opts ts s = .ok b ↔ Counted ts s.length s b ∧
      (opts.validation = true → InBounds ts.minMaxLen s.length ∧ validUTF8 s = true) := by
  unfold encodeString Counted InBounds
  cases set : ts.lengthPrefixType with
  | none => simp
  | some lenType =>
    cases rules : opts.validation with
    | false =>
      have unbounded : tooLong s.length 0 = false ∧ tooShort s.length 0 = false := ⟨rfl, rfl⟩
      simp only [Bool.false_and, Bool.false_eq_true, if_false]
      rw [empty_eq, written_eq_ok, writeString_of]
      simp [unbounded]
    | true =>
      cases utf8 : validUTF8 s with
      | false => simp
      | true =>
        simp only [Bool.not_true, Bool.and_false, Bool.false_eq_true, if_false, if_true]
        rw [empty_eq, written_eq_ok, writeString_of, and_comm]
        simp

/-- Whether the elements of a collection are put in order before they are written. -/
def Sorts (ts : TypeSettings) : Bool :=
  ts.lexicalOrdering == some true && ts.rules.validationMode.lexicalOrdering

/-- The order in which the elements of a collection are written. -/
def arrange (ts : TypeSettings) (data : List Bytes) : List Bytes :=
  if Sorts ts then sort data else data

private theorem bufferBytes_of_ne (filled : b ≠ []) : bufferBytes b = some b := by
  cases b with
  | nil => exact absurd rfl filled
  | cons byte rest => rfl

private theorem contents_bufferBytes : ArrayRules.contents (bufferBytes b) = b := by
  cases b <;> rfl

private theorem arranged_map :
    arranged (ts.toMode opts) ts.rules (data.map bufferBytes) =
      (arrange ts data).map bufferBytes := by
  unfold arranged arrange Sorts TypeSettings.toMode
  split
  · refine (List.map_insertionSort _ _ _ _ fun first _ second _ => ?_).symm
    rw [contents_bufferBytes, contents_bufferBytes]
  · rfl

theorem length_arrange : (arrange ts data).length = data.length := by
  unfold arrange
  split
  · exact perm_sort.length_eq
  · rfl

theorem mem_arrange : b ∈ arrange ts data ↔ b ∈ data := by
  unfold arrange
  split
  · exact perm_sort.mem_iff
  · exact .rfl

/-- The items in the order in which the byte strings next to them are written. -/
def arrangeAlong {α : Type} (ts : TypeSettings) (data : List Bytes) (items : List α) : List α :=
  if Sorts ts then sortAlong data items else items

@[simp] theorem arrangeAlong_nil : arrangeAlong ts [] ([] : List α) = [] := by
  unfold arrangeAlong
  split <;> rfl

theorem perm_arrangeAlong (ts : TypeSettings) (size : items.length ≤ data.length) :
    (arrangeAlong ts data items).Perm items := by
  unfold arrangeAlong
  split
  · exact perm_sortAlong size
  · exact List.Perm.refl items

theorem forall₂_arrangeAlong (rel : List.Forall₂ R items data) :
    List.Forall₂ R (arrangeAlong ts data items) (arrange ts data) := by
  unfold arrangeAlong arrange
  split
  · exact forall₂_sortAlong rel
  · exact rel

/-- Elements of at least one byte are written as a collection in their order. -/
theorem encodeSliceOfBytes_eq_ok (filled : ∀ element ∈ data, element ≠ []) :
    encodeSliceOfBytes opts data τ ts = .ok b ↔ Collection opts ts (arrange ts data) b := by
  have buffers : (arrange ts data).map bufferBytes = (arrange ts data).map some :=
    List.map_congr_left fun element mem => bufferBytes_of_ne (filled element (mem_arrange.mp mem))
  have spelt : ((arrange ts data).map some).map ArrayRules.contents = arrange ts data := by
    rw [List.map_map]
    exact List.map_id _
  unfold encodeSliceOfBytes Collection Counted
  cases set : ts.lengthPrefixType with
  | none => simp
  | some lenType =>
    rw [empty_eq, written_eq_ok, writeSliceOfByteSlices_of, arranged_map, buffers, spelt,
      List.length_map, length_arrange, and_comm]
    simp [TypeSettings.toMode]

/-- What holds on the right of a relation for everything on the left, holds for the whole
list on the right. -/
theorem forall_mem_right {R : α → β → Prop} {P : β → Prop} {ys : List β}
    (rel : List.Forall₂ R xs ys) (each : ∀ x ∈ xs, ∀ y, R x y → P y) : ∀ y ∈ ys, P y := by
  induction rel with
  | nil => simp
  | cons first later ih =>
    rw [List.forall_mem_cons] at each ⊢
    exact ⟨each.1 _ first, ih each.2⟩

theorem encodeElems_eq_ok : api.encodeElems opts elems sliceType elem index = .ok data ↔
      List.Forall₂ (fun value b => api.encode opts value {} elem = .ok b) elems data := by
  induction elems generalizing index data with
  | nil => simp [encodeElems, eq_comm]
  | cons value elems ih =>
    simp only [encodeElems, Outcome.bind_eq_ok, Outcome.mapErr_eq_ok, List.forall₂_cons_left_iff]
    constructor
    · rintro ⟨first, encoded, later, others, same⟩
      cases same
      exact ⟨first, later, encoded, ih.mp others, rfl⟩
    · rintro ⟨first, later, encoded, others, rfl⟩
      exact ⟨first, encoded, later, ih.mpr others, rfl⟩

/-- `b` is what the encoder writes for one entry of a map. -/
def EncodesEntry (api : API) (opts : Options) (key elem : GoType) (entry : Value × Value)
    (b : Bytes) : Prop :=
  ∃ keySettings elemSettings keyBytes elemBytes,
    api.getByValue key entry.1 = .ok keySettings ∧ api.getByValue elem entry.2 = .ok elemSettings ∧
    api.encode opts entry.1 keySettings key = .ok keyBytes ∧
    api.encode opts entry.2 elemSettings elem = .ok elemBytes ∧ b = keyBytes ++ elemBytes

theorem encodeEntries_eq_ok : api.encodeEntries opts entries key elem = .ok data ↔
      List.Forall₂ (api.EncodesEntry opts key elem) entries data := by
  induction entries generalizing data with
  | nil => simp [encodeEntries, eq_comm]
  | cons entry entries ih =>
    simp only [encodeEntries, Outcome.bind_eq_ok, Outcome.mapErr_eq_ok, List.forall₂_cons_left_iff]
    constructor
    · rintro ⟨keySettings, keyFound, elemSettings, elemFound, keyBytes, keyEncoded, elemBytes,
        elemEncoded, later, others, same⟩
      cases same
      exact ⟨_, later, ⟨keySettings, elemSettings, keyBytes, elemBytes, keyFound, elemFound,
        keyEncoded, elemEncoded, rfl⟩, ih.mp others, rfl⟩
    · rintro ⟨_, later, ⟨keySettings, elemSettings, keyBytes, elemBytes, keyFound, elemFound,
        keyEncoded, elemEncoded, rfl⟩, others, rfl⟩
      exact ⟨keySettings, keyFound, elemSettings, elemFound, keyBytes, keyEncoded, elemBytes,
        elemEncoded, later, ih.mpr others, rfl⟩

end API

end HiveGo
