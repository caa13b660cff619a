import HiveGo.Serializable
import Mathlib.Data.List.Induction
import Mathlib.Data.List.TakeWhile

/-! The elements of a collection that the validators accept one after the other: exactly
those that meet the rules, unless a nil element is followed by another empty one. -/
namespace HiveGo
open ByteOrder List

namespace ArrayRules

/-- The key of the type in the first bytes of an element. -/
def typeKey (width : Nat) (element : Bytes) : Nat := LittleEndian.get (element.take width)

/-- Every element is long enough for a type, and no two of them have the same. -/
def TypesDiffer (width : Nat) (data : List Bytes) : Prop :=
  (∀ element ∈ data, width ≤ element.length) ∧ (data.map (take width)).Nodup

/-- What the mode asks of the elements. -/
structure Valid (rules : ArrayRules) (data : List Bytes) : Prop where
  unique : rules.validationMode.noDuplicates = true → data.Nodup
  ordered : rules.validationMode.lexicalOrdering = true → data.Pairwise Le
  byteTypes : rules.validationMode.atMostOneOfEachTypeByte = true → TypesDiffer 1 data
  uint32Types : rules.validationMode.atMostOneOfEachTypeUint32 = true → TypesDiffer 4 data

/-- The element can follow those that the validators have seen. -/
def Fits (rules : ArrayRules) (seen : Seen) (next : Bytes) : Prop :=
  (rules.validationMode.noDuplicates = true → rules.validationMode.lexicalOrdering = false →
    seen.set.lookup next = none) ∧
  (rules.validationMode.lexicalOrdering = true → ∀ prev, seen.prev = some prev →
    Le prev next ∧ (rules.validationMode.noDuplicates = true → prev ≠ next)) ∧
  (rules.validationMode.atMostOneOfEachTypeByte = true →
    1 ≤ next.length ∧ seen.byteTypes.lookup (typeKey 1 next) = none) ∧
  (rules.validationMode.atMostOneOfEachTypeUint32 = true →
    4 ≤ next.length ∧ seen.uint32Types.lookup (typeKey 4 next) = none)

/-- What the validators have seen after the element. -/
def record (rules : ArrayRules) (seen : Seen) (index : Nat) (next : Option Bytes) : Seen where
  set := if rules.validationMode.noDuplicates && !rules.validationMode.lexicalOrdering then
    (contents next, index) :: seen.set else seen.set
  prev := if rules.validationMode.lexicalOrdering then next else seen.prev
  prevIndex := if rules.validationMode.lexicalOrdering then index else seen.prevIndex
  byteTypes := if rules.validationMode.atMostOneOfEachTypeByte then
    (typeKey 1 (contents next), index) :: seen.byteTypes else seen.byteTypes
  uint32Types := if rules.validationMode.atMostOneOfEachTypeUint32 then
    (typeKey 4 (contents next), index) :: seen.uint32Types else seen.uint32Types

variable {rules : ArrayRules} {after : Seen} {next : Option Bytes}

theorem elementUniqueValidator_eq_ok : elementUniqueValidator seen index next = .ok after ↔
    seen.set.lookup (contents next) = none ∧
      { seen with set := (contents next, index) :: seen.set } = after := by
  unfold elementUniqueValidator
  split <;> simp [*]

theorem lexicalOrderValidator_eq_ok : lexicalOrderValidator seen index next = .ok after ↔
    (∀ prev, seen.prev = some prev → Le prev (contents next)) ∧
      { seen with prev := next, prevIndex := index } = after := by
  unfold lexicalOrderValidator
  split
  · simp [*]
  · split <;> simp [Le, *]

theorem lexicalOrderWithoutDupsValidator_eq_ok :
    lexicalOrderWithoutDupsValidator seen index next = .ok after ↔
      (∀ prev, seen.prev = some prev → Le prev (contents next) ∧ prev ≠ contents next) ∧
        { seen with prev := next, prevIndex := index } = after := by
  unfold lexicalOrderWithoutDupsValidator
  split
  · simp [*]
  · rename_i prev pre
    split
    · simp [Le, *]
    · rename_i same
      simp [eq_of_compare same, pre]
    · rename_i less
      have apart : prev ≠ contents next := by
        rintro rfl
        rw [compare_self] at less
        cases less
      simp [Le, *]

theorem atMostOneOfEachType_eq_ok :
    atMostOneOfEachType width seenTypes index next = .ok types ↔
      (width ≤ (contents next).length ∧ seenTypes.lookup (typeKey width (contents next)) = none) ∧
        (typeKey width (contents next), index) :: seenTypes = types := by
  unfold atMostOneOfEachType typeKey
  split
  · simp [*]
  · rename_i long
    dsimp only
    split <;> simp [not_lt.mp long, *]

/-- The validators of the mode together. -/
theorem elementValidationFunc_eq_ok : rules.elementValidationFunc seen index next = .ok after ↔
    rules.Fits seen (contents next) ∧ rules.record seen index next = after := by
  obtain ⟨_, _, _, ⟨noDuplicates, lexicalOrdering, byte, uint32⟩⟩ := rules
  cases noDuplicates <;> cases lexicalOrdering <;> cases byte <;> cases uint32 <;>
    simp [elementValidationFunc, validateIf, atMostOneOfEachTypeValidator, Fits, record,
      elementUniqueValidator_eq_ok, lexicalOrderValidator_eq_ok, Outcome.bind_eq_ok,
      lexicalOrderWithoutDupsValidator_eq_ok, atMostOneOfEachType_eq_ok, and_assoc]

theorem validateElements_concat (seen : Seen) (index : Nat) (data : List (Option Bytes)) :
    rules.validateElements seen index (data ++ [next]) = .ok after ↔
      ∃ middle, rules.validateElements seen index data = .ok middle ∧
        rules.elementValidationFunc middle (index + data.length) next = .ok after := by
  induction data generalizing seen index with
  | nil => simp [validateElements, Outcome.bind_eq_ok]
  | cons first data ih =>
    have place : index + 1 + data.length = index + (data.length + 1) := by omega
    simp only [cons_append, validateElements, Outcome.bind_eq_ok, ih, length_cons, place]
    constructor
    · rintro ⟨one, ran, middle, rest, last⟩
      exact ⟨middle, ⟨one, ran, rest⟩, last⟩
    · rintro ⟨middle, ⟨one, ran, rest⟩, last⟩
      exact ⟨one, ran, middle, rest, last⟩

/-- The validators have seen the elements. -/
structure Recorded (rules : ArrayRules) (data : List (Option Bytes)) (seen : Seen) : Prop where
  unique : rules.validationMode.noDuplicates = true → rules.validationMode.lexicalOrdering = false →
    ∀ key, seen.set.lookup key = none ↔ key ∉ data.map contents
  prev : rules.validationMode.lexicalOrdering = true → seen.prev = data.getLast?.join
  byteTypes : rules.validationMode.atMostOneOfEachTypeByte = true →
    ∀ key, seen.byteTypes.lookup key = none ↔ key ∉ (data.map contents).map (typeKey 1)
  uint32Types : rules.validationMode.atMostOneOfEachTypeUint32 = true →
    ∀ key, seen.uint32Types.lookup key = none ↔ key ∉ (data.map contents).map (typeKey 4)

theorem lookup_record [BEq α] [LawfulBEq α] {keys : List α}
    (recorded : ∀ key, records.lookup key = none ↔ key ∉ keys) (index : Nat) :
    ((new, index) :: records).lookup key = none ↔ key ∉ keys ++ [new] := by
  rw [lookup_cons]
  split
  · simp_all
  · simp_all

theorem recorded (data : List (Option Bytes)) (taken : rules.validateElements {} 0 data = .ok after) :
    rules.Recorded data after := by
  induction data using reverseRecOn generalizing after with
  | nil =>
    cases taken
    exact ⟨by simp, by simp, by simp, by simp⟩
  | append_singleton data next ih =>
    obtain ⟨middle, ran, last⟩ := (validateElements_concat {} 0 data).mp taken
    obtain ⟨-, rfl⟩ := elementValidationFunc_eq_ok.mp last
    have pre := ih ran
    refine ⟨fun bit unordered key => ?_, fun bit => ?_, fun bit key => ?_, fun bit key => ?_⟩
    · simpa [record, bit, unordered] using lookup_record (pre.unique bit unordered) 0
    · simp [record, bit]
    · simpa [record, bit] using lookup_record (pre.byteTypes bit) 0
    · simpa [record, bit] using lookup_record (pre.uint32Types bit) 0

theorem typeKey_eq_iff (long : width ≤ first.length)
    (longer : width ≤ second.length) :
    typeKey width first = typeKey width second ↔ first.take width = second.take width := by
  constructor
  · intro same
    rw [← LittleEndian.put_get_take long, ← LittleEndian.put_get_take longer]
    exact congrArg _ same
  · intro same
    rw [typeKey, same, typeKey]

theorem typesDiffer_concat : TypesDiffer width (data ++ [last]) ↔
    TypesDiffer width data ∧ width ≤ last.length ∧ typeKey width last ∉ data.map (typeKey width) := by
  simp only [TypesDiffer, map_append, nodup_append, forall_mem_append]
  constructor
  · rintro ⟨⟨long, longer⟩, nodup, -, apart⟩
    refine ⟨⟨long, nodup⟩, by simpa using longer, fun mem => ?_⟩
    obtain ⟨other, inside, same⟩ := mem_map.mp mem
    refine apart _ (mem_map_of_mem inside) (last.take width) (by simp) ?_
    exact (typeKey_eq_iff (long other inside) (by simpa using longer)).mp same
  · rintro ⟨⟨long, nodup⟩, longer, fresh⟩
    refine ⟨⟨long, by simpa using longer⟩, nodup, by simp, ?_⟩
    simp only [mem_map, map_cons, map_nil, mem_singleton]
    rintro _ ⟨other, inside, rfl⟩ _ rfl same
    have key := (typeKey_eq_iff (long other inside) longer).mpr same
    exact fresh (key ▸ mem_map_of_mem inside)

/-- With both bits, a nil element at the start is not followed by another empty one. The
validator takes it for the place before the first element. -/
def Distinguishes (rules : ArrayRules) (data : List (Option Bytes)) : Prop :=
  rules.validationMode.noDuplicates = true → rules.validationMode.lexicalOrdering = true →
    ∀ second rest, data = none :: second :: rest → contents second ≠ []

theorem distinguishes_some (data : List Bytes) : rules.Distinguishes (data.map some) := by
  rintro - - second rest same
  cases data <;> cases same

theorem map_contents_some (data : List Bytes) : (data.map some).map contents = data := by
  simp [Function.comp_def, contents]

/-- In a sorted collection the last element decides what can follow. -/
theorem follows_iff (valid : rules.Valid (data.map contents))
    (ordering : rules.validationMode.lexicalOrdering = true)
    (distinguishes : rules.Distinguishes (data ++ [next])) :
    (∀ prev, data.getLast?.join = some prev → Le prev (contents next) ∧
        (rules.validationMode.noDuplicates = true → prev ≠ contents next)) ↔
      (∀ element ∈ data.map contents, Le element (contents next)) ∧
        (rules.validationMode.noDuplicates = true → contents next ∉ data.map contents) := by
  have sorted := valid.ordered ordering
  have unique := valid.unique
  induction data using reverseRecOn with
  | nil => simp
  | append_singleton front last =>
    rw [map_append, map_singleton] at sorted unique ⊢
    obtain ⟨-, -, below⟩ := pairwise_append.mp sorted
    simp only [mem_singleton, forall_eq] at below
    cases last with
    | some prev =>
      simp only [getLast?_append, getLast?_singleton, Option.some_or, Option.join_some,
        Option.some.injEq, forall_eq', forall_mem_append, forall_mem_singleton]
      constructor
      · rintro ⟨above, apart⟩
        refine ⟨⟨fun element inside => le_trans (below element inside) above, above⟩,
          fun noDuplicates mem => ?_⟩
        rcases mem_append.mp mem with inside | here
        · exact apart noDuplicates (le_antisymm above (below _ inside))
        · exact apart noDuplicates (mem_singleton.mp here).symm
      · rintro ⟨⟨-, above⟩, fresh⟩
        refine ⟨above, fun noDuplicates same => fresh noDuplicates ?_⟩
        exact mem_append_right _ (mem_singleton.mpr same.symm)
    | none =>
      -- what comes before an empty element is empty
      have empty : ∀ element ∈ front.map contents, element = [] := fun element inside =>
        le_antisymm (below element inside) nil_le
      have each :=
        forall_mem_append.mpr ⟨empty, fun _ here => mem_singleton.mp here⟩
      refine iff_of_true (by simp) ⟨fun element mem => ?_, fun noDuplicates mem => ?_⟩
      · rw [each element mem]
        exact nil_le
      · have alone : front = [] := by
          cases front with
          | nil => rfl
          | cons first front =>
            have apart := (nodup_append.mp (unique noDuplicates)).2.2 (contents first) (by simp)
            exact absurd (empty (contents first) (by simp)) (apart [] (by simp [contents]))
        subst alone
        exact distinguishes noDuplicates ordering next [] rfl (each _ mem)

theorem valid_concat : rules.Valid (data ++ [last]) ↔ rules.Valid data ∧
    (rules.validationMode.noDuplicates = true → last ∉ data) ∧
    (rules.validationMode.lexicalOrdering = true → ∀ element ∈ data, Le element last) ∧
    (rules.validationMode.atMostOneOfEachTypeByte = true →
      1 ≤ last.length ∧ typeKey 1 last ∉ data.map (typeKey 1)) ∧
    (rules.validationMode.atMostOneOfEachTypeUint32 = true →
      4 ≤ last.length ∧ typeKey 4 last ∉ data.map (typeKey 4)) := by
  have nodup : (data ++ [last]).Nodup ↔ data.Nodup ∧ last ∉ data := by
    rw [nodup_append_comm]
    simp [and_comm]
  have sorted : (data ++ [last]).Pairwise Le ↔
      data.Pairwise Le ∧ ∀ element ∈ data, Le element last := by
    simp [pairwise_append]
  constructor
  · rintro ⟨unique, ordered, byteTypes, uint32Types⟩
    simp only [nodup, sorted, typesDiffer_concat] at unique ordered byteTypes uint32Types
    exact ⟨⟨fun bit => (unique bit).1, fun bit => (ordered bit).1, fun bit => (byteTypes bit).1,
      fun bit => (uint32Types bit).1⟩, fun bit => (unique bit).2, fun bit => (ordered bit).2,
      fun bit => (byteTypes bit).2, fun bit => (uint32Types bit).2⟩
  · rintro ⟨valid, unique, ordered, byteTypes, uint32Types⟩
    exact ⟨fun bit => nodup.mpr ⟨valid.unique bit, unique bit⟩,
      fun bit => sorted.mpr ⟨valid.ordered bit, ordered bit⟩,
      fun bit => typesDiffer_concat.mpr ⟨valid.byteTypes bit, byteTypes bit⟩,
      fun bit => typesDiffer_concat.mpr ⟨valid.uint32Types bit, uint32Types bit⟩⟩

/-- One more element after accepted ones. -/
theorem fits_iff (valid : rules.Valid (data.map contents)) (seen : rules.Recorded data middle)
    (distinguishes : rules.Distinguishes (data ++ [next])) :
    rules.Fits middle (contents next) ↔ rules.Valid (data.map contents ++ [contents next]) := by
  have byteTypes := forall_congr' fun bit => and_congr_right fun (_ : 1 ≤ (contents next).length) =>
    seen.byteTypes bit (typeKey 1 (contents next))
  have uint32Types := forall_congr' fun bit =>
    and_congr_right fun (_ : 4 ≤ (contents next).length) =>
      seen.uint32Types bit (typeKey 4 (contents next))
  rw [valid_concat, and_iff_right valid, Fits, byteTypes, uint32Types]
  by_cases ordering : rules.validationMode.lexicalOrdering = true
  · have follows := follows_iff valid ordering distinguishes
    rw [← seen.prev ordering] at follows
    simp only [ordering, follows, forall_const, Bool.true_eq_false, IsEmpty.forall_iff, implies_true,
      true_and]
    rw [and_assoc, and_left_comm]
  · have unique := fun bit => seen.unique bit (eq_false_of_ne_true ordering) (contents next)
    simp +contextual [ordering, unique]

/-- The validators accept the elements. -/
def Accepts (rules : ArrayRules) (data : List (Option Bytes)) : Prop :=
  ∃ after, rules.validateElements {} 0 data = .ok after

/-- One more element, if the acceptance of those before it depends on some of them. -/
theorem accepted_concat_iff {kept : List (Option Bytes)}
    (accepted : rules.Accepts data ↔ rules.Valid (kept.map contents))
    (seen : ∀ {middle}, rules.validateElements {} 0 data = .ok middle → rules.Recorded kept middle)
    (distinguishes : rules.Distinguishes (kept ++ [next])) :
    rules.Accepts (data ++ [next]) ↔ rules.Valid ((kept ++ [next]).map contents) := by
  simp only [Accepts, validateElements_concat, elementValidationFunc_eq_ok, map_append,
    map_singleton]
  constructor
  · rintro ⟨after, middle, ran, fits, -⟩
    exact (fits_iff (accepted.mp ⟨middle, ran⟩) (seen ran) distinguishes).mp fits
  · intro valid
    have pre := (valid_concat.mp valid).1
    obtain ⟨middle, ran⟩ := accepted.mpr pre
    exact ⟨_, middle, ran, (fits_iff pre (seen ran) distinguishes).mpr valid, rfl⟩

/-- The collections that the validators accept. -/
theorem validateElements_iff (data : List (Option Bytes)) (distinguishes : rules.Distinguishes data) :
    rules.Accepts data ↔ rules.Valid (data.map contents) := by
  induction data using reverseRecOn with
  | nil => exact iff_of_true ⟨{}, rfl⟩ ⟨by simp, by simp, by simp [TypesDiffer], by simp [TypesDiffer]⟩
  | append_singleton data next ih =>
    have fewer : rules.Distinguishes data := fun bit ordering second rest same =>
      distinguishes bit ordering second (rest ++ [next]) (by simp [same])
    exact accepted_concat_iff (ih fewer) (recorded data) distinguishes

/-- With both bits and none for types, a nil element at the start is followed by an empty one, and
what comes behind the nil elements at the start is in order and without duplicates. -/
structure Overlooked (rules : ArrayRules) (data : List (Option Bytes)) : Prop where
  mode : rules.validationMode = { noDuplicates := true, lexicalOrdering := true }
  empties : ∃ second rest, data = none :: second :: rest ∧ contents second = []
  unique : ((data.dropWhile Option.isNone).map contents).Nodup
  ordered : ((data.dropWhile Option.isNone).map contents).Pairwise Le

/-- With both bits and none for types, the nil elements at the start are not looked at. -/
theorem accepted_iff_later (data : List (Option Bytes))
    (mode : rules.validationMode = { noDuplicates := true, lexicalOrdering := true }) :
    rules.Accepts data ↔ rules.Valid ((data.dropWhile Option.isNone).map contents) := by
  induction data using reverseRecOn with
  | nil => exact iff_of_true ⟨{}, rfl⟩ ⟨by simp, by simp, by simp [mode], by simp [mode]⟩
  | append_singleton data next ih =>
    rw [dropWhile_append]
    have split := takeWhile_append_dropWhile (p := Option.isNone) (l := data)
    split
    · next nils =>
      -- the first element that is looked at
      rw [List.isEmpty_iff] at nils
      have all : data.getLast?.join = none := by
        cases ended : data.getLast? with
        | none => rfl
        | some last =>
          have unset := dropWhile_eq_nil_iff.mp nils last (mem_of_getLast? ended)
          simpa using unset
      rw [nils] at ih
      obtain ⟨middle, ran⟩ := ih.mpr ⟨by simp, by simp, by simp [mode], by simp [mode]⟩
      refine iff_of_true ?_ ?_
      · simp only [Accepts, validateElements_concat, elementValidationFunc_eq_ok]
        have pre := (recorded data ran).prev (by rw [mode])
        exact ⟨_, middle, ran, by simp [Fits, mode, pre, all], rfl⟩
      · cases next <;> exact ⟨by simp, by simp, by simp [mode], by simp [mode]⟩
    · next looked =>
      rw [List.isEmpty_iff] at looked
      have last : data.getLast? = (data.dropWhile Option.isNone).getLast? := by
        rw [← getLast?_append_of_ne_nil _ looked, split]
      refine accepted_concat_iff ih (fun ran => ⟨by simp [mode], fun bit => ?_, by simp [mode],
        by simp [mode]⟩) ?_
      · rw [← last]
        exact (recorded data ran).prev bit
      · rintro - - second rest same
        have first := head?_dropWhile_not Option.isNone data
        cases later : data.dropWhile Option.isNone with
        | nil => exact absurd later looked
        | cons head tail =>
          rw [later] at first same
          rw [(cons.inj same).1] at first
          cases first

/-- A collection with two empty elements is not valid. -/
theorem not_valid_of_empties (bit : rules.validationMode.noDuplicates = true)
    (empty : contents second = []) : ¬ rules.Valid ((none :: second :: rest).map contents) := by
  intro valid
  have unique := valid.unique bit
  rw [map_cons, map_cons, empty] at unique
  exact (nodup_cons.mp unique).1 mem_cons_self

/-- The collections that the validators accept, whatever they start with. -/
theorem accepted_iff (data : List (Option Bytes)) :
    rules.Accepts data ↔ rules.Valid (data.map contents) ∨ rules.Overlooked data := by
  by_cases distinguishes : rules.Distinguishes data
  · rw [validateElements_iff data distinguishes, or_iff_left]
    rintro ⟨mode, ⟨second, rest, same, empty⟩, -, -⟩
    exact distinguishes (by rw [mode]) (by rw [mode]) second rest same empty
  · simp only [Distinguishes, not_forall, not_not] at distinguishes
    obtain ⟨bit, ordering, second, rest, rfl, empty⟩ := distinguishes
    rw [or_iff_right (not_valid_of_empties bit empty)]
    by_cases mode : rules.validationMode = { noDuplicates := true, lexicalOrdering := true }
    · rw [accepted_iff_later _ mode]
      exact ⟨fun valid => ⟨mode, ⟨second, rest, rfl, empty⟩, valid.unique bit, valid.ordered ordering⟩,
        fun overlooked => ⟨fun _ => overlooked.unique, fun _ => overlooked.ordered, by simp [mode],
          by simp [mode]⟩⟩
    · -- an empty element is too short for a type
      refine iff_of_false ?_ fun overlooked => mode overlooked.mode
      rintro ⟨after, taken⟩
      obtain ⟨_, first, -⟩ := Outcome.bind_eq_ok.mp taken
      obtain ⟨⟨-, -, byte, uint32⟩, -⟩ := elementValidationFunc_eq_ok.mp first
      apply mode
      obtain ⟨_, _, _, ⟨noDuplicates, lexicalOrdering, atByte, atUint32⟩⟩ := rules
      cases bit
      cases ordering
      cases atByte <;> cases atUint32 <;> simp_all [contents]

/-- The validators accept what meets the rules, and take a nil element like an empty one, exactly
for the collections that are not overlooked. -/
theorem validateElements_exact (rules : ArrayRules) (data : List (Option Bytes)) :
    ((rules.Accepts data ↔ rules.Valid (data.map contents)) ↔ ¬ rules.Overlooked data) ∧
    ∀ other, other.map contents = data.map contents →
      ((rules.Accepts data ↔ rules.Accepts other) ↔
        (rules.Overlooked data ↔ rules.Overlooked other)) := by
  have duplicates : ∀ data, rules.Overlooked data → ¬ rules.Valid (data.map contents) := by
    rintro _ ⟨mode, ⟨second, rest, rfl, empty⟩, -, -⟩
    exact not_valid_of_empties (by rw [mode]) empty
  have here := duplicates data
  rw [accepted_iff]
  refine ⟨by tauto, fun other same => ?_⟩
  have there := duplicates other
  rw [accepted_iff, same] at *
  tauto

/-- Both bits, which compare neighbours. -/
def sortedSet : ArrayRules where
  validationMode := { noDuplicates := true, lexicalOrdering := true }

/-- Of two nil elements the second passes for the first of the collection; as empty slices of
the input they are duplicates. -/
theorem nil_elements_accepted_twice :
    sortedSet.Accepts [none, none] ∧ ¬ sortedSet.Valid ([none, none].map contents) ∧
      ¬ sortedSet.Accepts [some [], some []] := by
  refine ⟨⟨_, rfl⟩, fun valid => ?_, ?_⟩
  · exact absurd (valid.unique rfl) (by decide)
  · rintro ⟨after, taken⟩
    cases taken

theorem valid_of_accepted
    (taken : rules.validateElements {} 0 (data.map some) = .ok after) : rules.Valid data := by
  have valid := (validateElements_iff (data.map some) (distinguishes_some data)).mp ⟨after, taken⟩
  rwa [map_contents_some] at valid

end ArrayRules

end HiveGo
