import HiveGo.DeserializerTotal
import HiveGo.SerixDecodeComplete
import HiveGo.SerixDecodeSound
import HiveGo.SerixValues

/-! Decoding always comes back. Every nested call is made on fewer bytes, or on a type
that is directly contained in the one before. -/
namespace HiveGo

open Outcome Deserializer PrefixReader Moves

namespace API

variable {api : API}

variable {value : Value}

/-- Ranks that go down from a type to those that it directly contains: what it points to, its
fields and its embedded structs. Optional fields and elements are behind a length, objects of an
interface behind their code. -/
structure Grounded (world : api.Universe) (rank : GoType → Nat) (bound : Nat) : Prop where
  types : ∀ {ts τ}, world.mem ts τ → rank τ ≤ bound
  structs : ∀ {σ}, world.structs σ → rank σ ≤ bound
  pointers : ∀ {ts τ elem}, world.mem ts τ → api.shape τ = .ptr elem → τ ≠ .ptr .bigInt →
    rank elem < rank τ
  embedded : ∀ {σ fields}, world.structs σ → api.getStructFields σ = .ok fields →
    ∀ field ∈ fields, (field.isEmbedded && !field.settings.inlined) = true →
      rank (api.deRefPointer field.fType) < rank σ
  fields : ∀ {σ fields}, world.structs σ → api.getStructFields σ = .ok fields →
    ∀ field ∈ fields, (field.isEmbedded && !field.settings.inlined) = false →
      field.settings.isOptional = false → rank field.fType < rank σ

/-- Every value of the type of a key can be a key. -/
def KeysHashable (world : api.Universe) : Prop :=
  ∀ {ts τ key elem}, world.mem ts τ → api.shape τ = .map key elem →
    ∀ value, api.HasType value key → api.hashable value key = true

/-- The budget that one byte, or one level of nesting, is worth. -/
def width (bound : Nat) : Nat := 2 * bound + 4

/-- A layer of decoders that comes back on every input that the budget allows for. -/
structure Total (opts : Options) (world : api.Universe) (rank : GoType → Nat) (bound : Nat)
    (rec : Decoders) (fuel : Nat) : Prop where
  sound : Sound opts world rec
  value : ∀ {given τ b}, world.mem (api.settings given τ) τ →
    b.length * width bound + 2 * rank τ + 2 ≤ fuel → (rec.value b given τ).Returned
  object : ∀ {given σ rest}, world.mem (api.settings given σ) σ → api.WritesCode σ →
    codeBytes (api.settings given σ) ≠ [] →
    (codeBytes (api.settings given σ) ++ rest).length * width bound ≤ fuel →
    (rec.value (codeBytes (api.settings given σ) ++ rest) given σ).Returned
  fields : ∀ {σ d}, world.structs σ → Inside d → d.left * width bound + 2 * rank σ + 1 ≤ fuel →
    Safe d (rec.fields d σ)

/-! Leaves. -/

theorem finish_returned (mk : α → Value) {read : Outcome Err (Deserializer × α)}
    (returned : read.Returned) : (finish mk read).Returned := by
  refine returned.bind fun result _ => Returned.bind ?_ fun _ _ => trivial
  unfold done
  split <;> trivial

private theorem inside_start (b : Bytes) : Inside { src := b } := Nat.zero_le _

theorem decodeString_returned (supported : Prefixed ts) : (decodeString opts b ts).Returned := by
  unfold decodeString
  split
  · trivial
  · rename_i lenType set
    refine (readString_safe (inside_start b) [] (supported lenType set) _ _ _).1.bind fun _ _ => ?_
    dsimp only
    split
    · trivial
    · exact finish_returned _ trivial

theorem decodeBytes_returned (supported : Prefixed ts) : (decodeBytes b τ ts).Returned := by
  unfold decodeBytes
  split
  · trivial
  · rename_i lenType set
    exact finish_returned _
      (readVariableByteSlice_safe (inside_start b) [] (supported lenType set) _ _ _).1

theorem checkObjectType_moves (mem : d.Inside) :
    ∃ next, checkObjectType d ts = .ok next ∧ d.Moves next := by
  unfold checkObjectType
  split
  · exact ⟨d, rfl, refl mem⟩
  · rename_i objectType set
    have coded : objectType.typeDenAndCode.1 ≠ .none := by
      cases objectType <;> rintro ⟨⟩
    exact checkTypePrefix_moves mem coded

theorem decodeByteArray_returned : (decodeByteArray b ts length).Returned := by
  obtain ⟨next, good, moves⟩ := checkObjectType_moves (inside_start b)
  unfold decodeByteArray
  rw [good, ok_bind]
  exact finish_returned _ (readFixed_safe moves.inside).1

/-! Collections. -/

theorem decodeSequence_returned {item : σ → Bytes → Outcome Err (σ × Nat)}
    (items : ItemSafe item limit) (supported : Prefixed ts) (short : b.length ≤ limit) (acc : σ) :
    (decodeSequence opts b acc item τ ts).Returned := by
  unfold decodeSequence
  split
  · trivial
  · rename_i lenType set
    refine (readSequenceOfObjects_safe (inside_start b) items short acc (supported lenType set)
      _ _).1.bind fun _ _ => Returned.bind ?_ fun _ _ => trivial
    unfold done
    split <;> trivial

@[simp] theorem checkMinMaxBoundsLength_returned (ts : TypeSettings) :
    (ts.checkMinMaxBoundsLength length).Returned := by
  unfold TypeSettings.checkMinMaxBoundsLength
  split
  · trivial
  · split <;> trivial

@[simp] theorem checkMinMaxBounds_returned (ts : TypeSettings) :
    (api.checkMinMaxBounds ts τ value).Returned := by
  unfold checkMinMaxBounds
  split <;> simp

/-- The code of an element that stands in the format can be asked for. -/
private theorem indirectType_returned (spelt : api.Denotes opts value ts τ b) :
    (api.indirectType τ value).Returned := by
  unfold indirectType
  cases shape : api.shape τ with
  | ptr elem =>
    unfold Denotes at spelt
    rw [shape] at spelt
    cases value <;> first | exact spelt.elim | trivial
  | _ => trivial

private theorem mustOccurType_returned (spelt : api.Denotes opts value ts τ b) :
    (api.mustOccurType τ value).Returned := by
  unfold mustOccurType
  unfold Denotes at spelt
  cases shape : api.shape τ with
  | ptr elem =>
    rw [shape] at spelt
    cases value <;> try exact spelt.elim
    dsimp only at spelt ⊢
    split at spelt
    · rename_i num
      subst num
      cases shape
      trivial
    · exact indirectType_returned spelt
  | interface =>
    rw [shape] at spelt
    cases value <;> try exact spelt.elim
    exact indirectType_returned spelt.2
  | _ => trivial

private theorem mustOccurTypes_returned (spelt : api.DenotesElems opts elems elem data) :
    ∀ value ∈ elems, (api.mustOccurType elem value).Returned := by
  induction elems generalizing data with
  | nil => simp
  | cons value elems ih =>
    cases data with
    | nil => simp [DenotesElems] at spelt
    | cons b data =>
      exact List.forall_mem_cons.mpr ⟨mustOccurType_returned spelt.1, ih spelt.2⟩

/-- A byte is worth a step from any rank to any other. -/
theorem behind (short : less < more) (ranked : rank ≤ bound) (low : more * width bound ≤ fuel + 1) :
    less * width bound + 2 * rank + 2 ≤ fuel := by
  have step : (less + 1) * width bound ≤ more * width bound := Nat.mul_le_mul_right _ short
  rw [Nat.add_mul, Nat.one_mul] at step
  unfold width at *
  omega

private theorem scaled (short : less ≤ more) :
    less * width bound ≤ more * width bound := Nat.mul_le_mul_right _ short

private theorem wrapped_returned {read : Outcome Err (Value × Nat)} (done : read.Returned) :
    (do
      let (value, bytesRead) ← read
      return (Value.ptr value, bytesRead) : Outcome Err (Value × Nat)).Returned :=
  done.bind fun _ _ => trivial

namespace Total

variable {world : api.Universe} {rec : Decoders}

variable (total : Total opts world rank bound rec fuel)
include total

private theorem read_le (mem : world.mem (api.settings given τ) τ)
    (ran : rec.value b given τ = .ok (value, n)) : n ≤ b.length := by
  obtain ⟨piece, rest, rfl, rfl, _⟩ := total.sound.value mem _ _ _ ran
  simp

variable (grounded : Grounded world rank bound)
include grounded

private theorem elem_safe (mem : world.mem (api.settings {} elem) elem)
    (low : limit * width bound ≤ fuel + 1) : ItemSafe (decodeElem rec elem) limit := by
  intro acc b short
  constructor
  · exact (total.value mem (behind short (grounded.types mem) low)).bind fun _ _ => trivial
  · intro next n read
    obtain ⟨⟨value, bytesRead⟩, called, read⟩ := bind_eq_ok.mp read
    cases read
    exact total.read_le mem called

private theorem objects_returned (supported : Prefixed ts)
    (mem : world.mem (api.settings {} elem) elem) (low : b.length * width bound ≤ fuel + 1)
    (τ : GoType) : (api.decodeObjects opts rec b τ elem ts).Returned := by
  refine (decodeSequence_returned (total.elem_safe grounded mem low) supported (Nat.le_refl _)
    []).bind fun result ran => ?_
  obtain ⟨piece, rest, _, _, data, spelt, _⟩ :=
    total.sound.elems_within mem _ _ _ ran
  exact returned_checked (returned_mapErr.mpr
    (checkArrayMustOccur_returned (mustOccurTypes_returned spelt))) trivial

section Entries

variable (keys : api.AdmitsPart world.mem key) (values : api.AdmitsPart world.mem elem)
  (found : (∃ ts, api.getByValue key .nil = .ok ts) ∧ ∃ ts, api.getByValue elem .nil = .ok ts)
  (hashed : ∀ value, api.HasType value key → api.hashable value key = true)
include keys values found hashed

private theorem entry_safe (low : limit * width bound ≤ fuel + 1) :
    ItemSafe (api.decodeMapKVPair rec key elem) limit := by
  obtain ⟨⟨keySettings, keyFound⟩, elemSettings, elemFound⟩ := found
  intro entries b short
  have keyMember := keys _ keyFound
  have elemMember := values _ elemFound
  constructor
  · unfold decodeMapKVPair
    rw [keyFound, elemFound, ok_bind, ok_bind]
    have keyReturned := total.value keyMember (behind short (grounded.types keyMember) low)
    refine (returned_mapErr.mpr keyReturned).bind fun keyRead keyCalled => ?_
    obtain ⟨keyValue, keyBytesRead⟩ := keyRead
    obtain ⟨keyBytes, rest, rfl, rfl, keyFormat⟩ :=
      total.sound.value keyMember _ _ _ (mapErr_eq_ok.mp keyCalled)
    have shorter : rest.length < limit := by
      rw [List.length_append] at short
      omega
    have elemReturned := total.value elemMember (behind shorter (grounded.types elemMember) low)
    dsimp only
    rw [sliceFrom_append keyBytes rest rfl, ok_bind]
    refine (returned_mapErr.mpr elemReturned).bind fun elemRead _ => ?_
    rw [hashed _ (hasType_of_denotes keyFormat)]
    split
    · rename_i no
      cases no
    · split <;> trivial
  · intro next n read
    obtain ⟨piece, rest, rfl, rfl, _⟩ := total.sound.entry_within keys values entries _ _ _ read
    simp

private theorem map_returned (supported : Prefixed ts)
    (low : b.length * width bound ≤ fuel + 1) (τ : GoType) :
    (api.decodeMap opts rec b τ key elem ts).Returned := by
  have ordered : Prefixed ts.ensureOrdering := supported
  exact (decodeSequence_returned (total.entry_safe grounded keys values found hashed low)
    ordered (Nat.le_refl _) []).bind fun result ran => returned_checked (by simp) trivial

end Entries

omit grounded

private theorem interface_returned (coded : Coded world) (mem : world.mem ts τ)
    (shape : api.shape τ = .interface) (low : b.length * width bound ≤ fuel) :
    (api.decodeInterface rec b τ ts).Returned := by
  have fits := world.mem_closed mem
  unfold Admits at fits
  rw [shape] at fits
  unfold decodeInterface
  split
  · trivial
  · rename_i objects registered
    refine (getObjectType_returned (inside_start b)).bind fun code peeked => ?_
    split
    · trivial
    · rename_i σ known
      refine Returned.bind ?_ fun _ _ => trivial
      obtain ⟨objectType, set, spelt⟩ := settings_objectType (coded.unset mem shape)
        (coded.consistent τ objects code σ registered known).2
      obtain ⟨same, some, _⟩ := codeBytes_eq set spelt
      rw [at_nil] at peeked
      obtain ⟨rest, rfl⟩ := getObjectType_at_ok some peeked
      have filled : codeBytes (api.settings ts σ) ≠ [] := by
        rw [codeBytes, set]
        cases objectType <;> rintro ⟨⟩
      rw [← same] at low ⊢
      exact total.object (fits objects registered code σ known)
        (coded.writes mem shape registered known) filled low

private theorem struct_returned (mem : world.structs τ) (ts : TypeSettings)
    (low : ∀ next, checkObjectType { src := b } ts = .ok next →
        next.left * width bound + 2 * rank τ + 1 ≤ fuel) :
    (decodeStruct rec b τ ts).Returned := by
  obtain ⟨decls, shape⟩ := world.structs_shape mem
  obtain ⟨next, good, moves⟩ := checkObjectType_moves (inside_start b)
  unfold decodeStruct
  rw [if_neg (ne_time shape), good, ok_bind]
  exact finish_returned _ (total.fields mem moves.inside (low next good)).1

include grounded

/-- What is read of a struct or a byte array behind its code. -/
private theorem coded_returned (mem : world.mem ts τ)
    (kind : (∃ decls, api.shape τ = .struct decls) ∨ ∃ length, api.shape τ = .array length .uint8)
    (filled : codeBytes ts ≠ []) (low : (codeBytes ts ++ rest).length * width bound ≤ fuel + 1) :
    (api.decodeKind opts rec (codeBytes ts ++ rest) τ ts).Returned := by
  have fits := world.mem_closed mem
  unfold Admits at fits
  unfold decodeKind
  rcases kind with ⟨decls, shape⟩ | ⟨length, shape⟩
  · rw [shape] at fits ⊢
    refine total.struct_returned fits ts fun next good => ?_
    rw [at_nil, checkObjectType_at] at good
    cases good
    have short : rest.length < (codeBytes ts ++ rest).length := by
      have := List.length_pos_iff.mpr filled
      rw [List.length_append]
      omega
    have left : (at_ (codeBytes ts) rest).left = rest.length := by
      simp [at_, Deserializer.left]
    rw [left]
    have := behind short (grounded.structs fits) low
    omega
  · rw [shape]
    exact decodeByteArray_returned

variable (coded : Coded world) (parts : PartsFound world) (hashed : KeysHashable world)
include coded parts hashed

theorem kind_returned (mem : world.mem ts τ) (simple : (api.shape τ).isPtr = false)
    (low : b.length * width bound + 2 * rank τ + 1 ≤ fuel) :
    (api.decodeKind opts rec b τ ts).Returned := by
  have fits := world.mem_closed mem
  unfold Admits at fits
  unfold decodeKind
  cases shape : api.shape τ with
  | bool => exact finish_returned _ (readBool_safe (inside_start b) _).1
  | num kind => exact finish_returned _ (readFixed_safe (inside_start b)).1
  | string =>
    rw [shape] at fits
    exact decodeString_returned fits
  | slice elem =>
    rw [shape] at fits
    dsimp only
    split
    · exact decodeBytes_returned fits.1
    · rename_i notBytes
      exact total.objects_returned grounded fits.1 (fits.2 notBytes) (by omega) τ
  | map key elem =>
    rw [shape] at fits
    exact total.map_returned grounded fits.2.1 fits.2.2 (parts mem shape) (hashed mem shape)
      fits.1 (by omega) τ
  | array length elem =>
    rw [shape] at fits
    subst fits
    exact decodeByteArray_returned
  | ptr elem =>
    rw [shape] at simple
    cases simple
  | struct decls =>
    rw [shape] at fits
    refine total.struct_returned fits ts fun next good => ?_
    obtain ⟨_, same, moves⟩ := checkObjectType_moves (inside_start b)
    cases same.symm.trans good
    have shorter : next.left * width bound ≤ b.length * width bound := scaled moves.left_le
    omega
  | bigInt =>
    rw [shape] at fits
    exact fits.elim
  | time =>
    obtain rfl := api.eq_time_of_shape shape
    exact finish_returned _ (readFixed_safe (inside_start b)).1
  | interface => exact total.interface_returned coded mem shape (by omega)

theorem ptr_returned (mem : world.mem (api.pointed ts elem) elem)
    (low : b.length * width bound + 2 * rank elem + 2 ≤ fuel) :
    (api.decodePtr opts rec b elem ts).Returned := by
  unfold decodePtr
  cases pointee : api.shape elem
  case bool | num | string | ptr =>
    rw [pointed, pointee] at mem
    exact wrapped_returned (total.value mem low)
  all_goals
    rw [pointed, pointee] at mem
    exact wrapped_returned (total.kind_returned grounded coded parts hashed mem
      (by rw [pointee]; rfl) (by omega))

theorem merged_returned (mem : world.mem ts τ)
    (low : b.length * width bound + 2 * rank τ + 1 ≤ fuel) :
    (api.decodeMerged opts rec b ts τ).Returned := by
  have fits := world.mem_closed mem
  unfold Admits at fits
  unfold decodeMerged
  cases shape : api.shape τ
  case ptr elem =>
    rw [shape] at fits
    dsimp only
    split
    · exact finish_returned _ (readFixed_safe (inside_start b)).1
    · rename_i other
      have less := grounded.pointers mem shape other
      exact total.ptr_returned grounded coded parts hashed (fits.resolve_left other) (by omega)
  all_goals
    exact total.kind_returned grounded coded parts hashed mem (by rw [shape]; rfl) (by omega)

omit coded parts hashed

private theorem object_returned
    (mem : world.mem ts σ) (writes : api.WritesCode σ) (filled : codeBytes ts ≠ [])
    (low : (codeBytes ts ++ rest).length * width bound ≤ fuel + 1) :
    (api.decodeMerged opts rec (codeBytes ts ++ rest) ts σ).Returned := by
  have fits := world.mem_closed mem
  unfold Admits at fits
  unfold WritesCode at writes
  unfold decodeMerged
  cases shape : api.shape σ
  case struct decls =>
    exact total.coded_returned grounded mem (.inl ⟨decls, shape⟩) filled low
  case array length elem =>
    rw [shape] at writes
    subst writes
    exact total.coded_returned grounded mem (.inr ⟨length, shape⟩) filled low
  case ptr elem =>
    rw [shape] at writes fits
    obtain ⟨other, writes⟩ := writes
    have inside := fits.resolve_left other
    simp only [other, if_false]
    unfold decodePtr
    cases pointee : api.shape elem
    case struct decls =>
      rw [pointed, pointee] at inside
      exact wrapped_returned (total.coded_returned grounded inside (.inl ⟨decls, pointee⟩) filled low)
    case array length item =>
      rw [pointee] at writes
      subst writes
      rw [pointed, pointee] at inside
      exact wrapped_returned (total.coded_returned grounded inside (.inr ⟨length, pointee⟩) filled low)
    all_goals
      rw [pointee] at writes
      exact writes.elim
  all_goals
    rw [shape] at writes
    exact writes.elim

/-! Fields. -/

omit grounded

private theorem fieldValue_safe
    (mem : world.mem (api.settings field.settings.ts field.fType) field.fType)
    (good : ∀ n, (check n).Returned) (inside : d.Inside)
    (low : d.left * width bound + 2 * rank field.fType + 2 ≤ fuel) :
    Safe d (decodeFieldValue rec d field check message) := by
  unfold decodeFieldValue
  rw [remainingBytes_eq inside, ok_bind]
  have done := total.value (b := d.src.drop d.offset) mem (by rw [length_drop_src]; exact low)
  constructor
  · refine (returned_mapErr.mpr done).bind fun read _ => ?_
    obtain ⟨value, bytesRead⟩ := read
    refine (good bytesRead).bind fun _ _ => ?_
    obtain ⟨next, skipped, _⟩ := skip_moves inside
    rw [skipped]
    trivial
  · intro last value same
    obtain ⟨⟨_, bytesRead⟩, _, same⟩ := bind_eq_ok.mp same
    obtain ⟨_, _, same⟩ := bind_eq_ok.mp same
    obtain ⟨next, skipped, moves⟩ := skip_moves inside
    rw [skipped] at same
    cases same
    exact moves

private theorem embedded_safe (admits : world.structs (api.deRefPointer field.fType))
    (mem : d.Inside)
    (low : d.left * width bound + 2 * rank (api.deRefPointer field.fType) + 1 ≤ fuel) :
    Safe d (api.decodeEmbedded rec d field) := by
  have read := total.fields admits mem low
  unfold deRefPointer at read
  unfold decodeEmbedded
  cases shape : api.shape field.fType
  case ptr elem =>
    rw [shape] at read
    dsimp only
    split
    · exact safe_err
    · exact (read.mapErr _).bind fun next values _ moves => safe_ok (refl moves.inside)
  all_goals
    rw [shape] at read
    exact (read.mapErr _).bind fun next values _ moves => safe_ok (refl moves.inside)

include grounded

private theorem optional_safe
    (mem : world.mem (api.settings field.settings.ts field.fType) field.fType)
    (inside : d.Inside) (low : d.left * width bound ≤ fuel + 1) :
    Safe d (decodeOptional rec d field) := by
  obtain ⟨length, behindLength⟩ := readPayloadLength_safe inside
  refine (length.mapErr _).bind fun next payloadLength ran moves => ?_
  have short := behindLength next payloadLength (mapErr_eq_ok.mp ran)
  dsimp only
  split
  · exact safe_ok (refl moves.inside)
  · refine total.fieldValue_safe mem (fun n => ?_) moves.inside
      (behind short (grounded.types mem) low)
    unfold checkPayloadLength
    split <;> trivial

private theorem field_safe {fields : List StructField} (inside : world.structs σ)
    (parsed : api.getStructFields σ = .ok fields) (mem : field ∈ fields) (start : d.Inside)
    (low : d.left * width bound + 2 * rank σ + 1 ≤ fuel + 1) :
    Safe d (api.decodeField rec d field) := by
  have admits := world.structs_closed inside parsed field mem
  unfold AdmitsField at admits
  unfold decodeField
  cases embedded : field.isEmbedded && !field.settings.inlined with
  | true =>
    simp only [embedded, if_true] at admits ⊢
    have less := grounded.embedded inside parsed field mem embedded
    exact total.embedded_safe admits start (by omega)
  | false =>
    simp only [embedded, Bool.false_eq_true, if_false] at admits ⊢
    cases optional : field.settings.isOptional with
    | true => exact total.optional_safe grounded admits start (by omega)
    | false =>
      have less := grounded.fields inside parsed field mem embedded optional
      exact total.fieldValue_safe admits (fun _ => returned_ok) start (by omega)

private theorem fieldList_safe (inside : world.structs σ)
    (parsed : api.getStructFields σ = .ok all) {fields : List StructField} :
    ∀ {d : Deserializer}, (∀ field ∈ fields, field ∈ all) → d.Inside →
      d.left * width bound + 2 * rank σ + 1 ≤ fuel + 1 →
      Safe d (api.decodeFieldList rec d fields) := by
  induction fields with
  | nil => exact fun _ start _ => safe_ok (refl start)
  | cons field fields ih =>
    intro d mem start low
    rw [List.forall_mem_cons] at mem
    refine (total.field_safe grounded inside parsed mem.1 start low).bind
      fun next value _ moves => ?_
    have shorter : next.left * width bound ≤ d.left * width bound := scaled moves.left_le
    exact (ih mem.2 moves.inside (by omega)).bind
      fun last values _ moves => safe_ok (refl moves.inside)

private theorem structFields_safe (inside : world.structs σ) (start : d.Inside)
    (low : d.left * width bound + 2 * rank σ + 1 ≤ fuel + 1) :
    Safe d (api.decodeStructFields rec d σ) := by
  have done := api.getStructFields_returned σ
  unfold decodeStructFields
  cases parsed : api.getStructFields σ with
  | ok fields => exact total.fieldList_safe grounded inside parsed (fun _ mem => mem) start low
  | err error => exact safe_err
  | _ => rw [parsed] at done; exact done.elim

include coded parts hashed

/-- One more layer allows for one more call. -/
theorem layer (zero : GoType → Outcome Err Value) :
    Total opts world rank bound
      { value := api.decodeValue opts rec, fields := api.decodeStructFields rec, zero }
      (fuel + 1) where
  sound := total.sound.layer zero
  value mem low := total.merged_returned grounded coded parts hashed mem (by omega)
  object mem writes filled low := total.object_returned grounded mem writes filled low
  fields inside start low := total.structFields_safe grounded inside start low

end Total

/-- Every layer of the decoder comes back on what its budget allows for. -/
theorem decoders_total {world : api.Universe} (coded : Coded world)
    (grounded : Grounded world rank bound) (parts : PartsFound world) (hashed : KeysHashable world) :
    Total opts world rank bound (api.decoders opts fuel) fuel := by
  induction fuel with
  | zero =>
    refine ⟨decoders_sound world, fun _ low => by omega, fun {given σ rest} _ _ filled low => ?_,
      fun _ _ low => by omega⟩
    have more := List.length_pos_iff.mpr filled
    have wide : 1 * width bound ≤ (codeBytes (api.settings given σ) ++ rest).length * width bound :=
      scaled (by rw [List.length_append]; omega)
    unfold width at *
    omega
  | succ fuel ih => exact ih.layer grounded coded parts hashed _

end API

end HiveGo
