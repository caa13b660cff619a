import HiveGo.SerixMapRestore
import Mathlib.Data.List.Perm.Basic

/-! Slices and maps come back from a round trip when their parts do. A JSON map is
traversed in any order, and gives the entries of the map in that order. -/
namespace HiveGo

open OrderedMap Outcome List Value

private theorem exists_of_forall₂_right {R : α → β → Prop} {xs : List α} {ys : List β}
    (rel : List.Forall₂ R xs ys) {y : β} (mem : y ∈ ys) : ∃ x ∈ xs, R x y := by
  induction rel with
  | nil => cases mem
  | cons first _ ih =>
    rcases mem_cons.mp mem with rfl | later
    · exact ⟨_, mem_cons_self .., first⟩
    · obtain ⟨x, inside, rel⟩ := ih later
      exact ⟨x, mem_cons_of_mem _ inside, rel⟩

namespace API

variable {api : API}
variable {elem : GoType}

theorem height_le_heightAll (mem : value ∈ values) : value.height ≤ heightAll values := by
  induction values with
  | nil => cases mem
  | cons first values ih =>
    rcases mem_cons.mp mem with rfl | later
    · exact Nat.le_max_left ..
    · exact Nat.le_trans (ih later) (Nat.le_max_right ..)

theorem height_le_heightEntries (mem : entry ∈ entries) :
    entry.1.height ≤ heightEntries entries ∧ entry.2.height ≤ heightEntries entries := by
  induction entries with
  | nil => cases mem
  | cons first entries ih =>
    rw [heightEntries]
    rcases mem_cons.mp mem with rfl | later
    · omega
    · have := ih later
      omega

private theorem indirectType_restored (again : Restored value other) :
    api.indirectType τ other = api.indirectType τ value := by
  unfold indirectType
  cases api.shape τ with
  | ptr elem => cases value <;> cases other <;> first | rfl | simp [Restored] at again
  | _ => rfl

/-- An element that came back has the type, and so the code, that it had. -/
theorem mustOccurType_restored (again : Restored value other) :
    api.mustOccurType elemType other = api.mustOccurType elemType value := by
  unfold mustOccurType
  cases api.shape elemType with
  | ptr elem =>
    cases value <;> cases other <;> first | rfl | simp [Restored] at again
    exact indirectType_restored again
  | interface =>
    cases value <;> cases other <;> first | rfl | simp [Restored] at again
    obtain ⟨rfl, inner⟩ := again
    exact indirectType_restored inner
  | _ => rfl

theorem strikeOut_restored (again : List.Forall₂ Restored elems others) :
    api.strikeOut elemType left others = .ok rest ↔
      api.strikeOut elemType left elems = .ok rest := by
  induction again generalizing left with
  | nil => rfl
  | cons first _ ih =>
    simp only [strikeOut, bind_eq_ok, mustOccurCode_congr (mustOccurType_restored first), ih]

/-- The required codes occur among the elements that came back. -/
theorem checkArrayMustOccur_restored (again : List.Forall₂ Restored elems others) :
    api.checkArrayMustOccur ts elemType others = .ok () ↔
      api.checkArrayMustOccur ts elemType elems = .ok () := by
  unfold checkArrayMustOccur
  split
  · rfl
  · simp only [bind_eq_ok, strikeOut_restored again]

theorem mapEncodeElems_ok
    (ran : api.mapEncodeElems platform opts values sliceType elem index = .ok data) :
    List.Forall₂ (fun value ele => api.mapEncode platform opts value {} elem = .ok ele) values
      data := by
  induction values generalizing index data with
  | nil =>
    cases ran
    exact .nil
  | cons value values ih =>
    obtain ⟨first, encoded, ran⟩ := bind_eq_ok.mp ran
    obtain ⟨later, rest, ran⟩ := bind_eq_ok.mp ran
    cases ran
    exact .cons (mapErr_eq_ok.mp encoded) (ih rest)

/-- Elements that come back one by one, come back together. -/
theorem elems_back
    (back : List.Forall₂ (fun value ele => ComesBack platform api opts value ts elem ele) values data)
    (alike : api.Alike elem ts (api.settings {} elem)) (views : List.Forall₂ Views data mapVals) :
    ∃ others, List.Forall₂ Restored values others ∧
      ∀ fuel, 2 * heightAll values < fuel →
        mapDecodeElems (api.mapDecoders platform opts fuel) elem mapVals = .ok others := by
  induction back generalizing mapVals with
  | nil =>
    cases views
    exact ⟨[], .nil, fun _ _ => rfl⟩
  | @cons value ele values data first _ ih =>
    cases views with
    | cons view views =>
      obtain ⟨other, again, read⟩ := first.decoded _ (first.presents view)
      obtain ⟨others, restoredAll, decodedAll⟩ := ih views
      refine ⟨other :: others, .cons again restoredAll, fun fuel enough => ?_⟩
      rw [heightAll] at enough
      obtain _ | fuel := fuel
      · omega
      rw [mapDecodeElems, read {} alike fuel (by omega), ok_bind, decodedAll (fuel + 1) (by omega)]
      rfl

theorem checkElems_eq_ok {length : Nat} : api.checkElems opts ts elem length values = .ok () ↔
      (opts.validation = true → ts.checkMinMaxBoundsLength length = .ok () ∧
        api.checkArrayMustOccur ts elem values = .ok ()) := by
  unfold checkElems
  cases opts.validation with
  | false => simp
  | true =>
    simp only [if_true, bind_eq_ok, mapErr_eq_ok, forall_const]
    constructor
    · rintro ⟨⟨⟩, bounds, occurs⟩
      exact ⟨bounds, occurs⟩
    · rintro ⟨bounds, occurs⟩
      exact ⟨(), bounds, occurs⟩

theorem back_slice (shape : api.shape τ = .slice elem) (notBytes : elem ≠ .uint8)
    (good : opts.validation = true → ts.checkMinMaxBoundsLength elems.length = .ok () ∧
        api.checkArrayMustOccur ts elem elems = .ok ())
    (back : List.Forall₂ (fun value ele =>
        ComesBack platform api opts value (api.settings {} elem) elem ele) elems data)
    (height : 2 * heightAll elems < 2 * value.height ∨ elems = [])
    (again : ∀ others, List.Forall₂ Restored elems others → Restored value (.slice others)) :
    ComesBack platform api opts value ts τ (.list data) := by
  refine comesBack_plain (by simp [ObjectLike, shape]) fun mapVal views => ?_
  cases mapVal with
  | array mapVals =>
    obtain ⟨others, came, decoded⟩ := elems_back back ⟨rfl, fun _ => rfl⟩ (viewsAll_iff.mp views)
    refine ⟨.slice others, again others came, fun fuel enough => ?_⟩
    have read : mapDecodeElems (api.mapDecoders platform opts fuel) elem mapVals = .ok others := by
      rcases height with small | rfl
      · exact decoded fuel (by omega)
      · cases back
        cases viewsAll_iff.mp views
        cases came
        rfl
    have passed : api.checkElems opts ts elem others.length others = .ok () := by
      refine checkElems_eq_ok.mpr fun rules => ?_
      rw [← came.length_eq, checkArrayMustOccur_restored came]
      exact good rules
    simp only [mapDecodeMerged, shape, if_neg notBytes, mapDecodeObjects, refElems,
      ok_bind, read, passed]
    rfl
  | _ => exact views.elim

/-- Keys that are encoded as strings are what they were. -/
theorem eq_of_stringKey (kind : api.StringKey key) (typed : api.HasType value key)
    (again : Restored value other) : other = value := by
  unfold StringKey at kind
  cases shape : api.shape key with
  | array length elem =>
    obtain rfl : elem = .uint8 := by simpa [shape] using kind
    cases value <;> simp [HasType, shape] at typed
    exact again
  | string =>
    cases value <;> simp [HasType, shape] at typed
    exact again
  | num =>
    cases value <;> simp [HasType, shape] at typed
    exact again
  | _ => simp [shape] at kind

/-- An entry of a map that was encoded. -/
def MapEncodesEntry (platform : Platform) (api : API) (opts : Options) (key elem : GoType)
    (keyTS elemTS : TypeSettings) (entry : Value × Value) (pair : Bytes × Ele) : Prop :=
  api.mapEncode platform opts entry.1 keyTS key = .ok (.string pair.1) ∧
    api.mapEncode platform opts entry.2 elemTS elem = .ok pair.2

theorem mapEncodeEntries_ok (keyFound : api.getByValue key .nil = .ok keyTS)
    (elemFound : api.getByValue elem .nil = .ok elemTS)
    (ran : api.mapEncodeEntries platform opts entries key elem m = .ok result) :
    ∃ pairs, List.Forall₂ (MapEncodesEntry platform api opts key elem keyTS elemTS) entries pairs ∧
      result = setAll m pairs := by
  induction entries generalizing m with
  | nil =>
    cases ran
    exact ⟨[], .nil, rfl⟩
  | cons entry entries ih =>
    unfold mapEncodeEntries at ran
    rw [api.getByValue_of_nil keyFound, api.getByValue_of_nil elemFound] at ran
    simp only [ok_bind] at ran
    obtain ⟨k, encodedKey, ran⟩ := bind_eq_ok.mp ran
    obtain ⟨v, encodedElem, ran⟩ := bind_eq_ok.mp ran
    cases k with
    | string s =>
      obtain ⟨pairs, encoded, rfl⟩ := ih ran
      refine ⟨(s, v) :: pairs, .cons ⟨?_, ?_⟩ encoded, rfl⟩
      · exact mapErr_eq_ok.mp encodedKey
      · exact mapErr_eq_ok.mp encodedElem
    | _ => cases ran

/-- An entry of a JSON map is decoded to the entry of a map, with enough fuel. -/
def DecodesEntry (platform : Platform) (api : API) (opts : Options) (key elem : GoType)
    (keyTS elemTS : TypeSettings) (need : Nat) (entry : Value × Value) (pair : Bytes × Any) : Prop :=
  ∀ fuel, need < fuel →
    (api.mapDecoders platform opts fuel).value (.string pair.1) keyTS key = .ok entry.1 ∧
      (api.mapDecoders platform opts fuel).value pair.2 elemTS elem = .ok entry.2

/-- The loop over the entries of a JSON map, whose keys are all different. -/
theorem mapDecodeEntries_eq (keyFound : api.getByValue key .nil = .ok keyTS)
    (elemFound : api.getByValue elem .nil = .ok elemTS) (enough : need < fuel)
    (decoded : List.Forall₂ (DecodesEntry platform api opts key elem keyTS elemTS need) entries pairs)
    (nodup : api.DistinctKeys key (before ++ entries)) :
    api.mapDecodeEntries (api.mapDecoders platform opts fuel) key elem before pairs =
      .ok (before ++ entries) := by
  induction decoded generalizing before with
  | nil => simp [mapDecodeEntries]
  | @cons entry pair entries pairs first _ ih =>
    obtain ⟨decodedKey, decodedElem⟩ := first fuel enough
    have hashable :=
      nodup.1 entry (mem_append_right _ (mem_cons_self ..))
    have fresh : before.any (fun other => goEq other.1 entry.1) = false := by
      rw [any_eq_false]
      intro other mem
      rw [(pairwise_append.mp nodup.2).2.2 other mem entry (mem_cons_self ..)]
      exact Bool.false_ne_true
    have read : api.mapDecodeEntry (api.mapDecoders platform opts fuel) key elem before pair.1
        pair.2 = .ok entry := by
      simp [mapDecodeEntry, keyFound, elemFound, decodedKey, decodedElem, hashable, fresh]
    rw [mapDecodeEntries, read, ok_bind, ih (by simpa using nodup)]
    simp

/-- The entries of a map come back one by one. -/
structure EntryBack (platform : Platform) (api : API) (opts : Options) (key elem : GoType)
    (keyTS elemTS : TypeSettings) (entry : Value × Value) (pair : Bytes × Ele) : Prop where
  typed : api.HasType entry.1 key
  key : ComesBack platform api opts entry.1 (api.settings keyTS key) key (.string pair.1)
  elem : ComesBack platform api opts entry.2 (api.settings elemTS elem) elem pair.2

section Entries

variable {key elem : GoType}

/-- A string gives back the key that was encoded to it. -/
theorem EntryBack.key_decoded (kind : api.StringKey key) {entry : Value × Value}
    {pair : Bytes × Ele} (back : EntryBack platform api opts key elem keyTS elemTS entry pair)
    {fuel : Nat} (enough : 2 * entry.1.height < fuel) :
    (api.mapDecoders platform opts fuel).value (.string pair.1) keyTS key = .ok entry.1 := by
  obtain ⟨other, again, read⟩ :=
    back.key.decoded _ (back.key.presents (show Views (.string pair.1) (.string pair.1) from rfl))
  obtain rfl := eq_of_stringKey kind back.typed again
  obtain _ | fuel := fuel
  · omega
  exact read keyTS ⟨rfl, fun _ => rfl⟩ fuel (by omega)

theorem goEq_self_of_stringKey (kind : api.StringKey key) (typed : api.HasType value key) :
    goEq value value = true := by
  unfold StringKey at kind
  cases shape : api.shape key with
  | array length elem =>
    obtain rfl : elem = .uint8 := by simpa [shape] using kind
    cases value <;> simp [HasType, shape] at typed
    simp [goEq]
  | string =>
    cases value <;> simp [HasType, shape] at typed
    simp [goEq]
  | num =>
    cases value <;> simp [HasType, shape] at typed
    simp [goEq]
  | _ => simp [shape] at kind

section

variable (kind : api.StringKey key) (back : List.Forall₂
    (EntryBack platform api opts key elem keyTS elemTS) entries pairs)
include kind back

/-- Different keys are encoded to different strings. -/
theorem distinct_pairs
    (nodup : entries.Pairwise fun first second => goEq first.1 second.1 = false) :
    Distinct pairs := by
  induction back with
  | nil => exact distinct_nil
  | @cons entry pair entries pairs first rest ih =>
    obtain ⟨apart, nodup⟩ := pairwise_cons.mp nodup
    refine nodup_cons.mpr ⟨fun mem => ?_, ih nodup⟩
    obtain ⟨other, listed, same⟩ := mem_map.mp mem
    obtain ⟨later, mem, second⟩ := exists_of_forall₂_right rest listed
    have one := first.key_decoded kind
      (show 2 * entry.1.height < 2 * (entry.1.height + later.1.height) + 1 by omega)
    have two := second.key_decoded kind
      (show 2 * later.1.height < 2 * (entry.1.height + later.1.height) + 1 by omega)
    rw [same, one] at two
    have equal := Outcome.ok.inj two
    have different := apart later mem
    rw [← equal, goEq_self_of_stringKey kind first.typed] at different
    cases different

/-- Entries that come back one by one, come back together. -/
theorem entries_back
    (small : ∀ entry ∈ entries, 2 * entry.1.height ≤ need ∧ 2 * entry.2.height ≤ need)
    (views : List.Forall₂ (fun pair mapVal => pair.1 = mapVal.1 ∧ Views pair.2 mapVal.2) pairs mapVals) :
    ∃ others, List.Forall₂ (fun entry other => entry.1 = other.1 ∧ Restored entry.2 other.2) entries
        others ∧
      List.Forall₂ (DecodesEntry platform api opts key elem keyTS elemTS need) others mapVals := by
  induction back generalizing mapVals with
  | nil =>
    cases views
    exact ⟨[], .nil, .nil⟩
  | @cons entry pair entries pairs first _ ih =>
    rw [forall_mem_cons] at small
    cases views with
    | @cons _ mapVal _ mapVals view views =>
      obtain ⟨others, restoredAll, decodedAll⟩ := ih small.2 views
      obtain ⟨other, again, read⟩ := first.elem.decoded _ (first.elem.presents view.2)
      refine ⟨(entry.1, other) :: others, .cons ⟨rfl, again⟩ restoredAll,
        .cons (fun fuel enough => ⟨?_, ?_⟩) decodedAll⟩
      · rw [← view.1]
        exact first.key_decoded kind (by omega)
      · obtain _ | fuel := fuel
        · omega
        exact read elemTS ⟨rfl, fun _ => rfl⟩ fuel (by omega)

end

/-- The keys of the entries that came back are as different as they were, in any order. -/
theorem distinctKeys_back (nodup : api.DistinctKeys key entries)
    (came : List.Forall₂ (fun entry other => entry.1 = other.1 ∧ Restored entry.2 other.2) entries others)
    (perm : arranged.Perm others) : api.DistinctKeys key arranged := by
  have same :=
    keys_forall₂ came ▸ perm.map Prod.fst
  have pairwise : (entries.map Prod.fst).Pairwise fun first second =>
      goEq first second = false := pairwise_map.mpr nodup.2
  refine ⟨fun entry mem => ?_, pairwise_map.mp (same.symm.pairwise pairwise ?_)⟩
  · obtain ⟨other, listed, equal⟩ :=
      mem_map.mp (same.mem_iff.mp (mem_map_of_mem mem))
    rw [← equal]
    exact nodup.1 other listed
  · intro first second apart
    rw [goEq_comm]
    exact apart

theorem back_map (shape : api.shape τ = .map key elem) (kind : api.StringKey key)
    (keyFound : api.getByValue key .nil = .ok keyTS)
    (elemFound : api.getByValue elem .nil = .ok elemTS)
    (bounds : opts.validation = true → ts.checkMinMaxBoundsLength entries.length = .ok ())
    (back : List.Forall₂ (EntryBack platform api opts key elem keyTS elemTS) entries pairs)
    (nodup : api.DistinctKeys key entries)
    (height : 2 * heightEntries entries < 2 * value.height ∨ entries = [])
    (again : ∀ others, Restored (.map entries) (.map others) → Restored value (.map others)) :
    ComesBack platform api opts value ts τ (.object (setAll [] pairs)) := by
  have distinctPairs : Distinct ([] ++ pairs) := distinct_pairs kind back nodup.2
  rw [setAll_of_distinct distinctPairs, nil_append]
  refine comesBack_plain (by simp [ObjectLike, shape]) fun mapVal views => ?_
  cases mapVal with
  | object m =>
    obtain ⟨arranged, perm, rel⟩ := views
    have bounded : ∀ entry ∈ entries, 2 * entry.1.height ≤ 2 * heightEntries entries ∧
        2 * entry.2.height ≤ 2 * heightEntries entries := by
      intro entry mem
      have := height_le_heightEntries mem
      omega
    obtain ⟨others, came, decoded⟩ := entries_back kind back bounded (viewsEntries_iff.mp rel)
    -- The entries come in the order in which the map was traversed.
    obtain ⟨traversed, read, reordered⟩ := perm_comp_forall₂ perm.symm decoded.flip
    have restoredMap : Restored (.map entries) (.map traversed) := by
      refine ⟨others, reordered.symm, restoredEntries_iff.mpr (came.imp ?_)⟩
      rintro entry other ⟨key, elem⟩
      exact ⟨key ▸ Restored.refl _, elem⟩
    refine ⟨.map traversed, again traversed restoredMap, fun fuel enough => ?_⟩
    have size :=
      reordered.length_eq.trans came.length_eq.symm
    have loop : api.mapDecodeEntries (api.mapDecoders platform opts fuel) key elem [] m =
        .ok traversed := by
      rcases height with small | rfl
      · exact mapDecodeEntries_eq keyFound elemFound (by omega) read.flip
          (distinctKeys_back nodup came reordered)
      · obtain rfl := length_eq_zero_iff.mp size
        cases read
        rfl
    simp only [mapDecodeMerged, shape, mapDecodeMap, loop, ok_bind]
    refine checked_eq_ok.mpr ⟨fun rules => ?_, rfl⟩
    simp [checkMinMaxBounds, shape, Shape.hasLength, len, size, bounds rules]
  | _ => exact views.elim

end Entries

end API

end HiveGo
