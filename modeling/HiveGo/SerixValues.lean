import HiveGo.SerixUniverse
import HiveGo.SerixEncodeParts

/-! Values of a type, and the value that a round trip gives back. -/
namespace HiveGo
open Value

namespace API

variable (api : API) (opts : Options)

mutual

/-- The value is one of the type. The entries of a map have distinct keys. -/
def HasType : Value → GoType → Prop
  | .bool _, τ => api.shape τ = .bool
  | .num n, τ => ∃ kind, api.shape τ = .num kind ∧ kind.Holds n
  | .string _, τ => api.shape τ = .string
  | .bytes _, τ => api.shape τ = .slice .uint8
  | .byteArray b, τ => api.shape τ = .array b.length .uint8
  | .slice elems, τ => ∃ elem, api.shape τ = .slice elem ∧ elem ≠ .uint8 ∧ HasTypeAll elems elem
  | .array elems, τ =>
    ∃ elem, api.shape τ = .array elems.length elem ∧ elem ≠ .uint8 ∧ HasTypeAll elems elem
  | .map entries, τ =>
    ∃ key elem, api.shape τ = .map key elem ∧ HasTypeEntries entries key elem ∧
      api.DistinctKeys key entries
  | .nil, τ =>
    match api.shape τ with
    | .slice _ | .map _ _ | .ptr _ | .interface => True
    | _ => False
  | .ptr inner, τ => ∃ elem, api.shape τ = .ptr elem ∧ HasType inner elem
  | .struct values, τ =>
    (∃ decls, api.shape τ = .struct decls) ∧
      ∀ fields, api.getStructFields τ = .ok fields → HasTypeFields values fields
  | .iface σ inner, τ => api.shape τ = .interface ∧ HasType inner σ
  | .bigInt _, τ => api.shape τ = .bigInt
  | .time _, τ => api.shape τ = .time

def HasTypeAll : List Value → GoType → Prop
  | [], _ => True
  | value :: values, elem => HasType value elem ∧ HasTypeAll values elem

def HasTypeEntries : List (Value × Value) → GoType → GoType → Prop
  | [], _, _ => True
  | (keyValue, elemValue) :: entries, key, elem =>
    HasType keyValue key ∧ HasType elemValue elem ∧ HasTypeEntries entries key elem

def HasTypeFields : List Value → List StructField → Prop
  | [], [] => True
  | value :: values, field :: fields => HasType value field.fType ∧ HasTypeFields values fields
  | _, _ => False

end

section

-- The equations of the family are generated here, once.
attribute [local simp] HasType HasTypeAll HasTypeEntries HasTypeFields

end

/-- The bytes of the elements of a collection that was encoded. -/
def spelled : Outcome Err (List Bytes) → List Bytes
  | .ok data => data
  | _ => []

/-- What comes back for a nil pointer to an embedded struct, which is not written: a pointer that
is read from no bytes, if there is one. -/
noncomputable def unwritten (field : StructField) : Value :=
  open Classical in
  if read : ∃ inner, api.DenotesEmbedded opts (.ptr inner) field.isUnexported field.fType [] then
    .ptr read.choose
  else .nil

/-- The settings of the keys or the elements of a map. -/
def partSettings (σ : GoType) : TypeSettings :=
  match api.getByValue σ .nil with
  | .ok ts => api.settings ts σ
  | _ => api.settings {} σ

mutual

/-- The value in its normal form: nil slices and maps are empty ones, the entries of a map, and
the elements of a slice that is sorted, are in the order of their bytes. -/
noncomputable def normal : Value → TypeSettings → GoType → Value
  | .nil, _, τ =>
    match api.shape τ with
    | .slice elem => if elem = .uint8 then .bytes [] else .slice []
    | .map _ _ => .map []
    | _ => .nil
  | .slice elems, ts, τ =>
    match api.shape τ with
    | .slice elem =>
      .slice (arrangeAlong ts (spelled (api.encodeElems opts elems τ elem 0)) (normalAll elems elem))
    | _ => .slice elems
  | .map entries, ts, τ =>
    match api.shape τ with
    | .map key elem =>
      .map (arrangeAlong ts.ensureOrdering (spelled (api.encodeEntries opts entries key elem))
        (normalEntries entries key elem))
    | _ => .map entries
  | .ptr inner, ts, τ =>
    match api.shape τ with
    | .ptr elem => .ptr (normal inner (api.pointed ts elem) elem)
    | _ => .ptr inner
  | .struct values, _, τ =>
    match api.getStructFields τ with
    | .ok fields => .struct (normalFields values fields)
    | _ => .struct values
  | .iface σ inner, ts, _ => .iface σ (normal inner (api.settings ts σ) σ)
  | value, _, _ => value

noncomputable def normalAll : List Value → GoType → List Value
  | [], _ => []
  | value :: values, elem => normal value (api.settings {} elem) elem :: normalAll values elem

noncomputable def normalEntries : List (Value × Value) → GoType → GoType → List (Value × Value)
  | [], _, _ => []
  | (keyValue, elemValue) :: entries, key, elem =>
    (normal keyValue (api.partSettings key) key, normal elemValue (api.partSettings elem) elem) ::
      normalEntries entries key elem

noncomputable def normalFields : List Value → List StructField → List Value
  | value :: values, field :: fields =>
    (if field.isEmbedded && !field.settings.inlined && value.isNil then api.unwritten opts field
      else normal value (api.settings field.settings.ts field.fType) field.fType) ::
      normalFields values fields
  | _, _ => []

end

section

attribute [local simp] normal normalAll normalEntries normalFields

end

section

variable {api opts}

theorem hasTypeAll_iff : api.HasTypeAll elems elem ↔ ∀ value ∈ elems, api.HasType value elem := by
  induction elems with
  | nil => simp [HasTypeAll]
  | cons value values ih => simp [HasTypeAll, ih]

theorem hasTypeEntries_iff : api.HasTypeEntries entries key elem ↔
      ∀ entry ∈ entries, api.HasType entry.1 key ∧ api.HasType entry.2 elem := by
  induction entries with
  | nil => simp [HasTypeEntries]
  | cons entry entries ih =>
    simp [HasTypeEntries, ih, and_assoc]

theorem normalAll_eq : api.normalAll opts elems elem =
      elems.map fun value => api.normal opts value (api.settings {} elem) elem := by
  induction elems with
  | nil => rfl
  | cons value values ih => simp [normalAll, ih]

/-- An entry of a map with its key and its element in their normal forms. -/
noncomputable def normalEntry (api : API) (opts : Options) (key elem : GoType) (entry : Value × Value) :
    Value × Value :=
  (api.normal opts entry.1 (api.partSettings key) key,
    api.normal opts entry.2 (api.partSettings elem) elem)

theorem normalEntries_eq :
    api.normalEntries opts entries key elem = entries.map (api.normalEntry opts key elem) := by
  induction entries with
  | nil => rfl
  | cons entry entries ih =>
    simp [normalEntries, normalEntry, ih]

/-- What comes back for a field of a struct. -/
noncomputable def normalField (api : API) (opts : Options) (value : Value) (field : StructField) :
    Value :=
  if field.isEmbedded && !field.settings.inlined && value.isNil then api.unwritten opts field
  else api.normal opts value (api.settings field.settings.ts field.fType) field.fType

section Keys

private theorem goEqAll_eq (each : ∀ value ∈ left, ∀ other, goEq value other = true → value = other)
    (same : goEqAll left right = true) : left = right := by
  induction left generalizing right with
  | nil =>
    cases right with
    | nil => rfl
    | cons => cases same
  | cons value values ih =>
    rw [List.forall_mem_cons] at each
    cases right with
    | nil => cases same
    | cons other others =>
      simp only [goEqAll, Bool.and_eq_true] at same
      rw [each.1 other same.1, ih each.2 same.2]

/-- Keys that are equal are the same, as pointers never are. -/
private theorem goEq_eq (same : goEq left right = true) : left = right := by
  induction left using induction generalizing right with
  | array elems ih | struct elems ih =>
    cases right <;> simp only [goEq, Bool.false_eq_true] at same
    exact congrArg _ (goEqAll_eq (fun value mem other => ih value mem) same)
  | iface σ inner ih =>
    cases right <;> simp only [goEq, Bool.false_eq_true, Bool.and_eq_true, beq_iff_eq] at same
    rw [same.1, ih same.2]
  | _ => cases right <;> simp_all [goEq]

/-- A nil pointer to an embedded struct comes back as a pointer or as it is. -/
theorem unwritten_cases (api : API) (opts : Options) (field : StructField) :
    (∃ inner, api.unwritten opts field = .ptr inner) ∨ api.unwritten opts field = .nil := by
  unfold unwritten
  split
  · exact .inl ⟨_, rfl⟩
  · exact .inr rfl

private theorem normal_nil_key (key : api.hashable .nil τ = true) :
    api.normal opts .nil ts τ = .nil := by
  cases shape : api.shape τ with
  | slice elem => simp [hashable, shape] at key
  | map keyType elem => simp [hashable, shape] at key
  | _ => simp [normal, shape]

private theorem hashableAll_normalFields
    (each : ∀ value ∈ values, ∀ ts τ, api.hashable value τ = true →
      api.hashable (api.normal opts value ts τ) τ = true)
    (keys : api.hashableAll values (fields.map StructField.fType) = true) :
    api.hashableAll (api.normalFields opts values fields) (fields.map StructField.fType) = true := by
  induction values generalizing fields with
  | nil => cases fields <;> rfl
  | cons value values ih =>
    rw [List.forall_mem_cons] at each
    cases fields with
    | nil => rfl
    | cons field fields =>
      simp only [List.map_cons, hashableAll, Bool.and_eq_true, normalFields] at keys ⊢
      refine ⟨?_, ih each.2 keys.2⟩
      split
      · next skipped =>
        obtain ⟨inner, set⟩ | unset := api.unwritten_cases opts field
        · simp [set, hashable]
        · cases value <;> simp [isNil] at skipped
          rw [unset, keys.1]
      · exact each.1 _ _ keys.1

/-- The normal form of a key is a key. -/
theorem hashable_normal (key : api.hashable value τ = true) :
    api.hashable (api.normal opts value ts τ) τ = true := by
  induction value using induction generalizing ts τ with
  | slice | bytes | map => cases key
  | nil => rwa [normal_nil_key key]
  | struct values ih =>
    simp only [normal]
    cases parsed : api.getStructFields τ with
    | ok fields =>
      simp only [parsed, hashable] at key ⊢
      exact hashableAll_normalFields (fun value mem ts τ => ih value mem) key
    | _ => simp [hashable, parsed]
  | iface σ inner ih =>
    exact ih key
  | ptr inner ih =>
    simp only [normal]
    split <;> simp [hashable]
  | _ => exact key

private theorem normalFields_of_key
    (each : ∀ value ∈ values, ∀ ts τ, api.HasType value τ → api.hashable value τ = true →
      goEq (api.normal opts value ts τ) (api.normal opts value ts τ) = true →
      api.normal opts value ts τ = value)
    (typed : api.HasTypeFields values fields)
    (keys : api.hashableAll values (fields.map StructField.fType) = true)
    (plain : goEqAll (api.normalFields opts values fields) (api.normalFields opts values fields) =
      true) : api.normalFields opts values fields = values := by
  induction values generalizing fields with
  | nil => cases fields <;> rfl
  | cons value values ih =>
    rw [List.forall_mem_cons] at each
    cases fields with
    | nil => exact typed.elim
    | cons field fields =>
      simp only [List.map_cons, hashableAll, Bool.and_eq_true, normalFields, goEqAll] at keys plain ⊢
      rw [ih each.2 typed.2 keys.2 plain.2, List.cons.injEq]
      refine ⟨?_, rfl⟩
      have first := plain.1
      split at first
      · next skipped =>
        obtain ⟨inner, set⟩ | unset := api.unwritten_cases opts field
        · simp [set, goEq] at first
        · rw [if_pos skipped, unset]
          cases value <;> simp [isNil] at skipped ⊢
      · next written =>
        rw [if_neg written]
        exact each.1 _ _ typed.1 keys.1 first

/-- A key whose normal form can be found in a map is in its normal form. -/
private theorem normal_of_key (typed : api.HasType value τ) (key : api.hashable value τ = true)
    (plain : goEq (api.normal opts value ts τ) (api.normal opts value ts τ) = true) :
    api.normal opts value ts τ = value := by
  induction value using induction generalizing ts τ with
  | slice | bytes | map => cases key
  | nil => exact normal_nil_key key
  | struct values ih =>
    simp only [normal] at plain ⊢
    cases parsed : api.getStructFields τ with
    | ok fields =>
      simp only [parsed, hashable] at key plain ⊢
      exact congrArg _ (normalFields_of_key (fun value mem ts τ => ih value mem)
        (typed.2 fields parsed) key plain)
    | _ => rfl
  | iface σ inner ih =>
    simp only [normal, goEq, Bool.and_eq_true] at plain ⊢
    rw [ih typed.2 key plain.2]
  | ptr inner ih =>
    obtain ⟨elem, shape, -⟩ := typed
    simp [normal, shape, goEq] at plain
  | _ => rfl

end Keys

/-- The entries of a map still have distinct keys when they are in their normal form and
in another order. -/
theorem distinctKeys_normal (typed : api.HasTypeEntries entries key elem)
    (nodup : api.DistinctKeys key entries)
    (same : arranged.Perm (api.normalEntries opts entries key elem)) :
    api.DistinctKeys key arranged := by
  rw [normalEntries_eq] at same
  rw [hasTypeEntries_iff] at typed
  constructor
  · intro entry mem
    obtain ⟨pre, inside, rfl⟩ := List.mem_map.mp (same.mem_iff.mp mem)
    exact hashable_normal (nodup.1 pre inside)
  · refine (same.pairwise_iff fun apart => by rwa [goEq_comm]).mpr ?_
    rw [List.pairwise_map]
    refine nodup.2.imp_of_mem fun {first second} firstInside secondInside apart => ?_
    refine Bool.eq_false_iff.mpr fun equal => ?_
    have same := goEq_eq equal
    rw [← same] at equal
    have one := normal_of_key (typed first firstInside).1 (nodup.1 first firstInside) equal
    rw [same] at equal
    have two : (api.normalEntry opts key elem second).1 = second.1 :=
      normal_of_key (typed second secondInside).1 (nodup.1 second secondInside) equal
    rw [one.symm.trans (same.trans two)] at apart
    rw [two, apart] at equal
    cases equal

section MustOccur

private theorem indirectType_normal :
    api.indirectType τ (api.normal opts value ts τ) = api.indirectType τ value := by
  unfold indirectType
  cases shape : api.shape τ with
  | ptr elem =>
    cases value with
    | struct values =>
      simp only [normal]
      cases api.getStructFields τ <;> rfl
    | _ => simp [normal, shape]
  | _ => rfl

/-- An element and its normal form have the same code. -/
theorem mustOccurCode_normal :
    api.mustOccurCode elemType (api.normal opts value ts elemType) = .ok code ↔
      api.mustOccurCode elemType value = .ok code := by
  refine mustOccurCode_congr ?_
  unfold mustOccurType
  cases shape : api.shape elemType with
  | ptr elem =>
    cases value with
    | struct values =>
      simp only [normal]
      cases api.getStructFields elemType <;> rfl
    | ptr inner => simp [normal, shape, indirectType_normal]
    | _ => simp [normal, shape]
  | interface =>
    cases value with
    | struct values =>
      simp only [normal]
      cases api.getStructFields elemType <;> rfl
    | iface σ inner => simp [normal, indirectType_normal]
    | _ => simp [normal, shape]
  | _ => rfl

end MustOccur

section Denoted

/-- Whatever stands for the value, alone or as an embedded struct, the value has the type. -/
private structure Typed (api : API) (opts : Options) (value : Value) : Prop where
  alone : ∀ {ts τ b}, api.Denotes opts value ts τ b → api.HasType value τ
  embedded : ∀ {isUnexported τ b}, api.DenotesEmbedded opts value isUnexported τ b →
    api.HasType value τ

private theorem typed_elems (each : ∀ value ∈ elems, Typed api opts value)
    (spelt : api.DenotesElems opts elems elem data) : api.HasTypeAll elems elem := by
  induction elems generalizing data with
  | nil => simp [HasTypeAll]
  | cons value elems ih =>
    rw [List.forall_mem_cons] at each
    cases data with
    | nil => simp [DenotesElems] at spelt
    | cons b data =>
      exact ⟨each.1.alone spelt.1, ih each.2 spelt.2⟩

private theorem typed_entries
    (each : ∀ entry ∈ entries, Typed api opts entry.1 ∧ Typed api opts entry.2)
    (spelt : api.DenotesEntries opts entries key elem data) :
    api.HasTypeEntries entries key elem := by
  induction entries generalizing data with
  | nil => simp [HasTypeEntries]
  | cons entry entries ih =>
    rw [List.forall_mem_cons] at each
    cases data with
    | nil => simp [DenotesEntries] at spelt
    | cons b data =>
      obtain ⟨⟨_, _, _, _, _, _, _, keyFormat, elemFormat⟩, later⟩ := spelt
      exact ⟨each.1.1.alone keyFormat, each.1.2.alone elemFormat, ih each.2 later⟩

private theorem typed_fields (each : ∀ value ∈ values, Typed api opts value)
    (nilable : ∀ field ∈ fields, api.Nilable field)
    (spelt : api.DenotesFields opts values fields body) : api.HasTypeFields values fields := by
  induction values generalizing fields body with
  | nil =>
    cases fields with
    | nil => simp [HasTypeFields]
    | cons field fields => simp [DenotesFields] at spelt
  | cons value values ih =>
    rw [List.forall_mem_cons] at each
    cases fields with
    | nil => simp [DenotesFields] at spelt
    | cons field fields =>
      rw [List.forall_mem_cons] at nilable
      obtain ⟨first, later, _, others, spelt⟩ := denotesFields_cons.mp spelt
      refine ⟨?_, ih each.2 nilable.2 others⟩
      unfold DenotesField at spelt
      split at spelt
      · exact each.1.embedded spelt
      · split at spelt
        · rename_i set
          rcases spelt with ⟨rfl, _⟩ | ⟨_, _, _, _, spelt⟩
          · have legal := nilable.1 set
            unfold HasType
            cases shape : api.shape field.fType with
            | slice | map | ptr | interface => trivial
            | _ =>
              rw [shape] at legal
              simp [Shape.isPtr, Shape.isInterface] at legal
          · exact each.1.alone spelt
        · exact each.1.alone spelt

private theorem typed_struct (each : ∀ value ∈ values, Typed api opts value)
    (shape : api.shape τ = .struct decls) (parsed : api.getStructFields τ = .ok fields)
    (spelt : api.DenotesFields opts values fields body) : api.HasType (.struct values) τ := by
  refine ⟨⟨decls, shape⟩, fun others same => ?_⟩
  cases parsed.symm.trans same
  exact typed_fields each (api.getStructFields_optional parsed) spelt

private theorem typed (value : Value) : Typed api opts value := by
  induction value using induction_parts with
  | step value ih =>
    constructor
    · intro ts τ b spelt
      cases form spelt with
      | bool shape | string shape | bytes shape | byteArray shape | time shape => exact shape
      | num shape held => exact ⟨_, shape, held⟩
      | slice shape notBytes each => exact ⟨_, shape, notBytes, typed_elems ih each⟩
      | map shape each _ nodup =>
        exact ⟨_, _, shape, typed_entries (parts_map ih) each, nodup⟩
      | uint256 number =>
        subst number
        exact ⟨.bigInt, rfl, rfl⟩
      | ptr shape _ inner => exact ⟨_, shape, (ih _ List.mem_cons_self).alone inner⟩
      | struct shape parsed each => exact typed_struct ih shape parsed each
      | iface shape _ _ inner => exact ⟨shape, (ih _ List.mem_cons_self).alone inner⟩
    · intro isUnexported τ b spelt
      rcases embedded_cases spelt with ⟨elem, inner, shape, rfl, _, _, spelt⟩ |
        ⟨decls, values, fields, shape, rfl, parsed, spelt⟩
      · exact ⟨elem, shape, (ih inner List.mem_cons_self).embedded spelt⟩
      · exact typed_struct ih shape parsed spelt

/-- Only a value of the type stands in the format of the type. -/
theorem hasType_of_denotes (spelt : api.Denotes opts value ts τ b) : api.HasType value τ :=
  (typed value).alone spelt

theorem hasTypeAll_of_denotes (spelt : api.DenotesElems opts elems elem data) :
    api.HasTypeAll elems elem :=
  typed_elems (fun value _ => typed value) spelt

theorem hasTypeEntries_of_denotes (spelt : api.DenotesEntries opts entries key elem data) :
    api.HasTypeEntries entries key elem :=
  typed_entries (fun entry _ => ⟨typed entry.1, typed entry.2⟩) spelt

end Denoted

end

end API

end HiveGo
