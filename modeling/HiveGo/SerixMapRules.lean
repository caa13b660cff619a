import HiveGo.ElementValidation
import HiveGo.SerixMapRoundTrip

/-! The rules of a slice in the two formats. Both look at the number of the elements and at the
types that have to occur. The validation mode speaks of their bytes, and only the binary format
looks at it. -/
namespace HiveGo

open OrderedMap TypeSettings

/-- The same settings with another validation mode. -/
def TypeSettings.withMode (ts : TypeSettings) (mode : ArrayValidationMode) : TypeSettings :=
  { ts with arrayRules := ts.arrayRules.map fun rules => { rules with validationMode := mode } }

/-- Too few or too many elements. -/
def TypeSettings.OutOfBounds (ts : TypeSettings) (length : Nat) : Prop :=
  (∃ minLen, ts.minLen = some minLen ∧ length < minLen.toNat) ∨
    ∃ maxLen, ts.maxLen = some maxLen ∧ maxLen.toNat < length

/-- The bytes of the elements violate the validation mode: there are duplicates, or elements
of the same type, or they are neither in order nor put in order. -/
def TypeSettings.Violated (ts : TypeSettings) (data : List Bytes) : Prop :=
  (ts.rules.validationMode.noDuplicates = true ∧ ¬ data.Nodup) ∨
    (ts.rules.validationMode.atMostOneOfEachTypeByte = true ∧ ¬ (data.map (List.take 1)).Nodup) ∨
    (ts.rules.validationMode.atMostOneOfEachTypeUint32 = true ∧ ¬ (data.map (List.take 4)).Nodup) ∨
    (ts.rules.validationMode.lexicalOrdering = true ∧ ts.lexicalOrdering ≠ some true ∧
      ¬ data.Pairwise ByteOrder.Le)

/-- The elements of a slice; a nil slice has none. -/
def Value.Lists : Value → List Value → Prop
  | .slice elems, others => others = elems
  | .nil, others => others = []
  | _, _ => False

namespace API

variable {platform : Platform} {api : API} {opts : Options}

/-- The types of the elements can be told, and one that has to occur is not among them. -/
def Missing (api : API) (ts : TypeSettings) (elem : GoType) (elems : List Value) : Prop :=
  (∀ value ∈ elems, (api.mustOccurType elem value).Returned) ∧
    ∃ code ∈ ts.rules.mustOccur, ∀ value ∈ elems, api.mustOccurCode elem value ≠ .ok code

theorem Missing.restored (missing : api.Missing ts elem elems)
    (again : List.Forall₂ Restored elems others) : api.Missing ts elem others := by
  obtain ⟨types, code, required, absent⟩ := missing
  refine ⟨forall_mem_right again fun value inside other same => ?_, code, required,
    forall_mem_right again fun value inside other same => ?_⟩
  · rw [mustOccurType_restored same]
    exact types value inside
  · rw [Ne, mustOccurCode_congr (mustOccurType_restored same)]
    exact absent value inside

section Rejected

theorem checkMinMaxBoundsLength_cases (ts : TypeSettings) :
    (∃ error, ts.checkMinMaxBoundsLength length = .err error) ∨
      (ts.checkMinMaxBoundsLength length = .ok () ∧ ¬ ts.OutOfBounds length) := by
  unfold checkMinMaxBoundsLength
  split
  · exact .inl ⟨_, rfl⟩
  · next enough =>
    split
    · exact .inl ⟨_, rfl⟩
    · next few =>
      refine .inr ⟨rfl, ?_⟩
      rw [Option.filter_eq_none_iff] at enough few
      rintro (⟨minLen, set, short⟩ | ⟨maxLen, set, long⟩)
      · exact enough minLen set (by simpa using short)
      · exact few maxLen set (by simpa using long)

theorem checkArrayMustOccur_err (missing : api.Missing ts elem elems) :
    ∃ error, api.checkArrayMustOccur ts elem elems = .err error := by
  obtain ⟨types, code, required, absent⟩ := missing
  have done : (api.checkArrayMustOccur ts elem elems).Returned :=
    checkArrayMustOccur_returned types
  cases good : api.checkArrayMustOccur ts elem elems with
  | err error => exact ⟨error, rfl⟩
  | ok passed =>
    rcases checkArrayMustOccur_eq_ok.mp good with free | ⟨-, occurs⟩
    · rw [free] at required
      cases required
    · obtain ⟨value, mem, found⟩ := occurs code required
      exact absurd found (absent value mem)
  | panicked | timeout =>
    rw [good] at done
    exact done.elim

/-- The two checks, one after the other, fail if one of the rules is broken. -/
theorem rejected (broken : ts.OutOfBounds elems.length ∨ api.Missing ts elem elems)
    (length types : Err → Err) (rest : Outcome Err α) : ∃ error, (do
      (ts.checkMinMaxBoundsLength elems.length).mapErr length
      (api.checkArrayMustOccur ts elem elems).mapErr types
      rest) = .err error := by
  rcases checkMinMaxBoundsLength_cases ts with ⟨error, failed⟩ | ⟨passed, mem⟩
  · rw [failed]
    exact ⟨_, rfl⟩
  · rcases broken with outside | missing
    · exact absurd outside mem
    · obtain ⟨error, failed⟩ := checkArrayMustOccur_err missing
      rw [passed, failed]
      exact ⟨_, rfl⟩

end Rejected

/-- The serializer has looked at the elements in the order that they are written in. -/
theorem not_violated (rules : opts.validation = true) (filled : ∀ element ∈ data, element ≠ [])
    (ran : encodeSliceOfBytes opts data τ ts = .ok b) : ¬ ts.Violated data := by
  obtain ⟨-, validated⟩ := (encodeSliceOfBytes_eq_ok filled).mp ran
  obtain ⟨-, seen, taken⟩ := validated rules
  have valid := ArrayRules.valid_of_accepted taken
  have perm : (arrange ts data).Perm data := by
    unfold arrange
    split
    · exact ByteOrder.perm_sort
    · exact .refl _
  rintro (⟨bit, again⟩ | ⟨bit, again⟩ | ⟨bit, again⟩ | ⟨bit, unsorted, disorder⟩)
  · exact again (perm.nodup_iff.mp (valid.unique bit))
  · exact again ((perm.map _).nodup_iff.mp (valid.byteTypes bit).2)
  · exact again ((perm.map _).nodup_iff.mp (valid.uint32Types bit).2)
  · have kept : arrange ts data = data := by simp [arrange, Sorts, unsorted]
    rw [kept] at valid
    exact disorder (valid.ordered bit)

@[simp] theorem objectType_withMode (ts : TypeSettings) :
    (ts.withMode mode).objectType = ts.objectType := rfl

@[simp] theorem checkMinMaxBoundsLength_withMode (ts : TypeSettings) :
    (ts.withMode mode).checkMinMaxBoundsLength length = ts.checkMinMaxBoundsLength length := by
  unfold checkMinMaxBoundsLength minLen maxLen
    withMode
  cases ts.arrayRules <;> rfl

@[simp] theorem checkArrayMustOccur_withMode :
    api.checkArrayMustOccur (ts.withMode mode) elem elems = api.checkArrayMustOccur ts elem elems := by
  unfold checkArrayMustOccur rules withMode
  cases ts.arrayRules <;> rfl

section Slice

variable {given : TypeSettings} {τ elem : GoType} {value : Value}
variable (shape : api.shape τ = .slice elem) (notBytes : elem ≠ .uint8)
include shape notBytes

section

variable (mem : value.Lists elems)
include mem

theorem encode_slice : api.encode opts value given τ = (do
      if opts.validation then api.checkMinMaxBounds (api.settings given τ) τ (.slice elems)
      api.encodeObjects opts τ elem elems (api.settings given τ)
        (api.encodeElems opts elems τ elem 0)) := by
  cases value with
  | slice others =>
    cases mem
    unfold encode
    simp [shape, if_neg notBytes]
  | nil =>
    cases mem
    unfold encode
    simp only [shape, if_neg notBytes]
    rfl
  | _ => exact mem.elim

theorem mapEncode_slice : api.mapEncode platform opts value given τ =
      api.mapEncodeObjects platform opts (api.settings given τ) elem elems
        (api.mapEncodeElems platform opts elems τ elem 0) := by
  cases value with
  | slice others =>
    cases mem
    unfold mapEncode
    simp [shape, if_neg notBytes]
  | nil =>
    cases mem
    unfold mapEncode
    simp only [shape, if_neg notBytes]
    rfl
  | _ => exact mem.elim

variable (rules : opts.validation = true) (broken : (api.settings given τ).OutOfBounds elems.length ∨
    api.Missing (api.settings given τ) elem elems)
include rules broken

theorem encode_rejected : ∃ error, api.encode opts value given τ = .err error := by
  rw [encode_slice shape notBytes mem]
  unfold checkMinMaxBounds encodeObjects
  simp only [rules, shape, Shape.hasLength, Value.len, if_true]
  exact rejected broken _ _ _

theorem mapEncode_rejected (uncoded : (api.settings given τ).objectType = none) :
    ∃ error, api.mapEncode platform opts value given τ = .err error := by
  rw [mapEncode_slice shape notBytes mem]
  unfold mapEncodeObjects
  simp only [rules, uncoded, if_true]
  exact rejected broken _ _ _

end

/-- Decoding the map form of the elements gives them back, and then looks at the rules. -/
theorem mapDecode_rejected {world : api.MapUniverse} (correct : platform.Correct)
    (sound : api.Consistent) (codes : api.DistinctCodes) (rules : opts.validation = true)
    (mem : world.mem (api.settings given τ) τ)
    (known : ∀ value ∈ elems, api.HasType value elem ∧ api.Whole value elem)
    (broken : (api.settings given τ).OutOfBounds elems.length ∨
      api.Missing (api.settings given τ) elem elems)
    (encoded : api.mapEncodeElems platform opts elems τ elem 0 = .ok data)
    (views : Views (.list data) mapVal) :
    ∃ enough, ∀ fuel, enough < fuel →
      ∃ error, (api.mapDecoders platform opts fuel).value mapVal given τ = .err error := by
  have fits := world.mem_closed mem
  simp only [MapAdmits, shape] at fits
  have back : List.Forall₂ (fun value ele =>
      ComesBack platform api opts value (api.settings {} elem) elem ele) elems data := by
    refine ((List.forall₂_and_left _ _).mpr ⟨known, mapEncodeElems_ok encoded⟩).imp ?_
    rintro value ele ⟨⟨typed, whole⟩, encoded⟩
    exact (backs opts correct sound codes).alone (fits.2 notBytes) typed whole
      encoded
  cases mapVal with
  | array mapVals =>
    obtain ⟨others, came, read⟩ := elems_back back ⟨rfl, fun _ => rfl⟩ (viewsAll_iff.mp views)
    refine ⟨2 * Value.heightAll elems + 1, fun fuel enough => ?_⟩
    obtain _ | fuel := fuel
    · omega
    simp only [mapDecoders, mapDecodeValue, mapDecodeMerged, shape, if_neg notBytes,
      mapDecodeObjects, refElems, Outcome.ok_bind, read fuel (by omega)]
    unfold checkElems
    simp only [rules, if_true]
    rw [Outcome.bind_assoc]
    rw [came.length_eq] at broken
    exact rejected (broken.imp_right (·.restored came)) _ _ _
  | _ => exact views.elim

theorem encode_violated (rules : opts.validation = true) (mem : value.Lists elems)
    (encoded : api.encodeElems opts elems τ elem 0 = .ok data)
    (filled : ∀ element ∈ data, element ≠ []) (violated : (api.settings given τ).Violated data)
    (b : Bytes) : api.encode opts value given τ ≠ .ok b := by
  intro ran
  rw [encode_slice shape notBytes mem] at ran
  obtain ⟨-, ran⟩ := Outcome.checked_eq_ok.mp ran
  unfold encodeObjects at ran
  obtain ⟨-, ran⟩ := Outcome.checked_eq_ok.mp ran
  rw [encoded] at ran
  exact not_violated rules filled ran violated

theorem mapDecode_withMode
    (changed : api.settings other τ = (api.settings given τ).withMode mode) (fuel : Nat)
    (mapVal : Any) :
    (api.mapDecoders platform opts fuel).value mapVal other τ =
      (api.mapDecoders platform opts fuel).value mapVal given τ := by
  cases fuel with
  | zero => rfl
  | succ fuel =>
    simp [mapDecoders, mapDecodeValue, mapDecodeMerged, shape, if_neg notBytes, mapDecodeObjects,
      checkElems, changed]

omit shape notBytes

/-- Broken bounds and missing types make all functions fail. Elements that violate the validation
mode are rejected by the binary format, while the map format does the same in every mode. -/
theorem slice_rules (world : api.MapUniverse) (correct : platform.Correct)
    (consistent : api.Consistent) (codes : api.DistinctCodes) (validation : opts.validation = true)
    (member : world.mem (api.settings given τ) τ) (shaped : api.shape τ = .slice elem)
    (notBytes : elem ≠ .uint8) (listed : value.Lists elems)
    (known : ∀ value ∈ elems, api.HasType value elem ∧ api.Whole value elem) :
    ((api.settings given τ).OutOfBounds elems.length ∨
        api.Missing (api.settings given τ) elem elems →
      (∃ error, api.encode opts value given τ = .err error) ∧
        (∃ error, api.mapEncode platform opts value given τ = .err error) ∧
        ∀ data mapVal, api.mapEncodeElems platform opts elems τ elem 0 = .ok data →
          Views (.list data) mapVal → ∃ enough, ∀ fuel, enough < fuel →
            ∃ error, (api.mapDecoders platform opts fuel).value mapVal given τ = .err error) ∧
    (∀ data, api.encodeElems opts elems τ elem 0 = .ok data → (∀ element ∈ data, element ≠ []) →
      (api.settings given τ).Violated data → ∀ b, api.encode opts value given τ ≠ .ok b) ∧
    ∀ other mode, api.settings other τ = (api.settings given τ).withMode mode →
      api.mapEncode platform opts value other τ = api.mapEncode platform opts value given τ ∧
        ∀ fuel mapVal, (api.mapDecoders platform opts fuel).value mapVal other τ =
          (api.mapDecoders platform opts fuel).value mapVal given τ := by
  have uncoded : (api.settings given τ).objectType = none := by
    have fits := world.mem_closed member
    simp only [MapAdmits, shaped] at fits
    exact fits.1
  refine ⟨fun broken => ⟨?_, ?_, ?_⟩, ?_, ?_⟩
  · exact encode_rejected shaped notBytes listed validation broken
  · exact mapEncode_rejected shaped notBytes listed validation broken uncoded
  · intro data mapVal encoded views
    exact mapDecode_rejected shaped notBytes correct consistent codes validation member known broken
      encoded views
  · intro data encoded filled violated
    exact encode_violated shaped notBytes validation listed encoded filled violated
  · intro other mode changed
    refine ⟨?_, mapDecode_withMode shaped notBytes changed⟩
    rw [mapEncode_slice shaped notBytes listed, mapEncode_slice shaped notBytes listed]
    unfold mapEncodeObjects
    simp [changed, uncoded]

end Slice

end API

/-! A list of numbers in a struct, with rules for the list. -/
namespace RulesAPI

def ids : GoType := .named "Ids"

def settings (rules : ArrayRules) : TypeSettings :=
  { lengthPrefixType := some .asByte, arrayRules := some rules }

def api (rules : ArrayRules) : API where
  decl
    | "Doc" => .struct [FieldDecl.plain [73] ids]
    | "Ids" => .slice (.num .uint32)
    | _ => .interface
  typeSettings τ := if τ = ids then some (settings rules) else none

def opts : Options := { validation := true }

def world (rules : ArrayRules) : (api rules).MapUniverse where
  mem ts τ := (ts = settings rules ∧ τ = ids) ∨ (ts = {} ∧ τ = .num .uint32)
  structs _ := False
  mem_closed := by
    rintro ts τ (⟨rfl, rfl⟩ | ⟨rfl, rfl⟩)
    · exact ⟨rfl, fun _ => .inr ⟨rfl, rfl⟩⟩
    · trivial
  structs_shape := False.elim
  structs_parsed := False.elim
  structs_closed := False.elim
  keys_apart := False.elim

/-- Three different numbers are asked for. -/
def rules : ArrayRules := { min := 3, validationMode := { noDuplicates := true } }

/-- A number in a document. -/
def number (n : UInt32) : Any := .number (Float64.ofInt n.toNat (by have := n.toNat_lt; omega))

theorem number_views : Views (.int n.toNat) (number n) :=
  Float64.represents_ofInt

theorem two_equal_rejected :
    ((∃ error, (api rules).encode opts (.slice [.num 1, .num 1]) {} ids = .err error) ∧
      (∃ error, (api rules).mapEncode hexutil opts (.slice [.num 1, .num 1]) {} ids = .err error) ∧
      ∃ enough, ∀ fuel, enough < fuel → ∃ error,
        ((api rules).mapDecoders hexutil opts fuel).value (.array [number 1, number 1]) {} ids = .err error) ∧
    (∀ b, (api rules).encode opts (.slice [.num 1, .num 1]) {} ids ≠ .ok b) ∧
    (api rules).mapEncode hexutil opts (.slice [.num 1, .num 1]) (settings { min := 3 }) ids =
      (api rules).mapEncode hexutil opts (.slice [.num 1, .num 1]) {} ids := by
  obtain ⟨rejected, violated, modes⟩ := API.slice_rules (world rules) hexutil_correct
    (by rintro _ _ _ _ ⟨⟩) (by rintro _ _ _ _ ⟨⟩)
    (show opts.validation = true from rfl)
    (show (world rules).mem ((api rules).settings {} ids) ids from .inl ⟨rfl, rfl⟩) rfl (by decide)
    (show Value.Lists (.slice [.num 1, .num 1]) [.num 1, .num 1] from rfl)
    (by simp [API.HasType, API.Whole, API.shape]; decide)
  have views : Views (.list [.int 1, .int 1]) (.array [number 1, number 1]) :=
    ⟨number_views, number_views, trivial⟩
  obtain ⟨binary, map, read⟩ := rejected (.inl (.inl ⟨3, rfl, by decide⟩))
  refine ⟨⟨binary, map, read _ _ rfl views⟩, ?_, (modes _ {} rfl).1⟩
  exact violated [[1, 0, 0, 0], [1, 0, 0, 0]] rfl (by decide) (.inl ⟨rfl, by decide⟩)

def doc : GoType := .named "Doc"

/-- The binary format refuses the two numbers under the validation mode, and the map format
takes them there and back. -/
def Admitted (mode : ArrayValidationMode) (first second : UInt32) : Prop :=
  let value : Value := .struct [.slice [.num first.toNat, .num second.toNat]]
  let entries : List (Bytes × Ele) := [([105], .list [.int first.toNat, .int second.toNat])]
  let m : List (Bytes × Any) := [([105], .array [number first, number second])]
  (∃ error, (api { validationMode := mode }).encode opts value {} doc = .err error) ∧
    (api { validationMode := mode }).mapEncodeTop hexutil opts value doc = .ok entries ∧
    Views (.object entries) (.object m) ∧
    (api { validationMode := mode }).mapDecode hexutil opts 5 m doc = .ok value

theorem modes_unchecked :
    Admitted { noDuplicates := true } 1 1 ∧ Admitted { atMostOneOfEachTypeByte := true } 1 257 ∧
      Admitted { atMostOneOfEachTypeUint32 := true } 1 1 ∧
      Admitted { lexicalOrdering := true } 2 1 := by
  refine ⟨?_, ?_, ?_, ?_⟩
  all_goals exact ⟨⟨_, rfl⟩, rfl, ⟨_, .refl _, ⟨rfl, number_views, number_views, trivial⟩, trivial⟩, rfl⟩

end RulesAPI

end HiveGo
