import HiveGo.TypeSettings

/-! Looking up and registering type settings and interfaces, and the struct fields
that serix handles. -/
namespace HiveGo
open Outcome

namespace API

variable (api : API)

/-- The kind of a type; a named type has the kind of its declaration. A type that is declared as
one of the two structs of the standard library is another type. -/
def shape : GoType → Shape
  | .bool => .bool
  | .num kind => .num kind
  | .string => .string
  | .slice elem => .slice elem
  | .array length elem => .array length elem
  | .map key elem => .map key elem
  | .ptr elem => .ptr elem
  | .bigInt => .bigInt
  | .time => .time
  | .named name =>
    match api.decl name with
    | .bigInt | .time => .struct []
    | shape => shape

@[simp] theorem shape_ptr (elem : GoType) : api.shape (.ptr elem) = .ptr elem := rfl

/-- Only `time.Time` has the kind of a time. -/
theorem eq_time_of_shape (shaped : api.shape τ = .time) : τ = .time := by
  cases τ with
  | time => rfl
  | named name =>
    simp only [shape] at shaped
    split at shaped
    · cases shaped
    · cases shaped
    · rename_i notTime
      exact absurd shaped notTime
  | _ => cases shaped

/-- Only `big.Int` has the kind of a big integer. -/
theorem eq_bigInt_of_shape (shaped : api.shape τ = .bigInt) : τ = .bigInt := by
  cases τ with
  | bigInt => rfl
  | named name =>
    simp only [shape] at shaped
    split at shaped
    · cases shaped
    · cases shaped
    · rename_i notNumber _
      exact absurd shaped notNumber
  | _ => cases shaped

/-- The settings registered for the type, or else those of the type it points to. -/
def getByType (τ : GoType) : Option TypeSettings :=
  match api.typeSettings τ with
  | some ts => some ts
  | none =>
    match api.shape τ with
    | .ptr elem => api.typeSettings elem
    | _ => none

/-- The settings that a call merges into the ones it was given. -/
def settings (ts : TypeSettings) (τ : GoType) : TypeSettings :=
  ts.merge ((api.getByType τ).getD {})

/-- The settings of a value, looked up through all of its indirections. A nil one without settings
of its own leads to the zero `reflect.Value`, whose type cannot be asked for. -/
def getByValue : GoType → Value → Outcome Err TypeSettings
  | τ, value =>
    match api.typeSettings τ with
    | some ts => .ok ts
    | none =>
      match api.shape τ, value with
      | .ptr elem, .ptr inner => getByValue elem inner
      | .interface, .iface σ inner => getByValue σ inner
      | .ptr _, _ => .panicked
      | .interface, _ => .panicked
      | _, _ => .ok {}
termination_by structural _ value => value

/-- Settings that are found on the nil value are found on every value. -/
theorem getByValue_of_nil (found : api.getByValue τ .nil = .ok ts) :
    api.getByValue τ value = .ok ts := by
  unfold getByValue at found ⊢
  cases known : api.typeSettings τ with
  | some own => simpa [known] using found
  | none =>
    cases shape : api.shape τ <;> simp_all

/-- `DeRefPointer`: a type that is a pointer is replaced by what it points to. -/
def deRefPointer (τ : GoType) : GoType :=
  match api.shape τ with
  | .ptr elem => elem
  | _ => τ

/-- Whether a declared field is embedded in the sense of serix. -/
def isEmbedded (field : FieldDecl) : Bool :=
  field.anonymous && ((api.shape (api.deRefPointer field.type)).isStruct ||
    (api.shape (api.deRefPointer field.type)).isInterface)

/-- Check the tag of a field that has one. -/
def checkTag (field : FieldDecl) (tag : TagSettings) : Outcome Err StructField :=
  let shape := api.shape field.type
  let name := spell field.name
  let kind := shape.kind
  let embedded := api.isEmbedded field
  let isInterface := (api.shape (api.deRefPointer field.type)).isInterface
  if tag.isOptional && !shape.isPtr && !shape.isInterface then
    .err (.text s!"struct field {name} is invalid: 'optional' setting can only be used with pointers or interfaces, got {kind}")
  else if tag.isOptional && embedded && !isInterface then
    .err (.text s!"struct field {name} is invalid: 'optional' setting can't be used with embedded structs")
  else if tag.isOptional && embedded then
    .err (.text s!"struct field {name} is invalid: 'optional' setting can't be used with embedded interfaces")
  else if tag.inlined && field.isUnexported then
    .err (.text s!"struct field {name} is invalid: 'inlined' setting can't be used with unexported types")
  else if !tag.inlined && embedded && isInterface then
    .err (.text s!"struct field {name} is invalid: 'inlined' setting needs to be used for embedded interfaces")
  else
    .ok { name := field.name
          isUnexported := field.isUnexported
          fType := field.type
          isEmbedded := embedded
          settings := tag }

/-- The fields with a serix tag, in their order. Unexported fields count only when they
are embedded. -/
def parseStructFields : List FieldDecl → Outcome Err (List StructField)
  | [] => .ok []
  | field :: rest =>
    if field.isUnexported && !api.isEmbedded field then parseStructFields rest
    else
      match field.tag with
      | none => parseStructFields rest
      | some (.error error) =>
        let name := spell field.name
        .err (.wrap error s!"failed to parse serix struct tag for field {name}")
      | some (.ok tag) => do
        let first ← api.checkTag field tag
        let later ← parseStructFields rest
        return first :: later

/-- The fields of a struct type. The two structs of the standard library have no
serix tags. -/
def getStructFields (τ : GoType) : Outcome Err (List StructField) :=
  match api.shape τ with
  | .struct fields =>
    let name := τ.str
    (api.parseStructFields fields).mapErr (.wrap · s!"failed to parse struct type {name}")
  | _ => .ok []

/-- Only pointers and interfaces are optional. -/
def Nilable (field : StructField) : Prop := field.settings.isOptional = true →
  (api.shape field.fType).isPtr = true ∨ (api.shape field.fType).isInterface = true

private theorem checkTag_optional {decl : FieldDecl} (good : api.checkTag decl tag = .ok field) :
    api.Nilable field := by
  intro optional
  unfold checkTag at good
  dsimp only at good
  split at good
  · cases good
  · rename_i legal
    have fields : field.settings = tag ∧ field.fType = decl.type := by
      repeat
        split at good
        · cases good
      cases good
      exact ⟨rfl, rfl⟩
    obtain ⟨rfl, type⟩ := fields
    rw [type]
    by_contra neither
    rw [not_or, Bool.not_eq_true, Bool.not_eq_true] at neither
    simp [optional, neither.1, neither.2] at legal

/-- An embedded field that is not inlined is a struct, or a pointer to one. -/
theorem checkTag_embedded {decl : FieldDecl} (good : api.checkTag decl tag = .ok field)
    (embedded : (field.isEmbedded && !field.settings.inlined) = true) :
    (api.shape (api.deRefPointer field.fType)).isStruct = true := by
  unfold checkTag at good
  dsimp only at good
  iterate 4
    split at good
    · cases good
  split at good
  · cases good
  · rename_i legal
    cases good
    obtain ⟨isEmbedded, notInlined⟩ : api.isEmbedded decl = true ∧ (!tag.inlined) = true :=
      Bool.and_eq_true_iff.mp embedded
    have notInterface : (api.shape (api.deRefPointer decl.type)).isInterface = false := by
      simpa [isEmbedded, notInlined] using legal
    have kind := (Bool.and_eq_true_iff.mp isEmbedded).2
    rwa [notInterface, Bool.or_false] at kind

/-- What the check of the tags ensures, holds for every field. -/
private theorem parseStructFields_checked {P : StructField → Prop}
    (ensured : ∀ {decl tag field}, api.checkTag decl tag = .ok field → P field)
    (parsed : api.parseStructFields decls = .ok fields) : ∀ field ∈ fields, P field := by
  induction decls generalizing fields with
  | nil =>
    cases parsed
    simp
  | cons decl decls ih =>
    unfold parseStructFields at parsed
    split at parsed
    · exact ih parsed
    · split at parsed
      · exact ih parsed
      · cases parsed
      · obtain ⟨first, good, parsed⟩ := bind_eq_ok.mp parsed
        obtain ⟨later, rest, parsed⟩ := bind_eq_ok.mp parsed
        cases parsed
        exact List.forall_mem_cons.mpr ⟨ensured good, ih rest⟩

private theorem parseStructFields_returned : (api.parseStructFields decls).Returned := by
  induction decls with
  | nil => trivial
  | cons decl decls ih =>
    unfold parseStructFields
    split
    · exact ih
    · split
      · exact ih
      · trivial
      · refine Outcome.Returned.bind ?_ fun first _ => ih.bind fun later _ => trivial
        unfold checkTag
        dsimp only
        repeat (split; trivial)
        trivial

/-- The fields of a struct are found, or there is an error. -/
theorem getStructFields_returned (τ : GoType) : (api.getStructFields τ).Returned := by
  unfold getStructFields
  split
  · exact returned_mapErr.mpr api.parseStructFields_returned
  · trivial

theorem getStructFields_checked {P : StructField → Prop}
    (ensured : ∀ {decl tag field}, api.checkTag decl tag = .ok field → P field)
    (parsed : api.getStructFields τ = .ok fields) : ∀ field ∈ fields, P field := by
  unfold getStructFields at parsed
  split at parsed
  · exact api.parseStructFields_checked ensured (mapErr_eq_ok.mp parsed)
  · cases parsed
    simp

theorem getStructFields_optional (parsed : api.getStructFields τ = .ok fields) :
    ∀ field ∈ fields, api.Nilable field :=
  api.getStructFields_checked api.checkTag_optional parsed

def checkMinMaxBounds (ts : TypeSettings) (τ : GoType) (value : Value) : Outcome Err Unit :=
  if (api.shape τ).hasLength then
    let kind := (api.shape τ).kind
    (ts.checkMinMaxBoundsLength value.len).mapErr (.wrap · s!"can't serialize '{kind}' type")
  else .ok ()

/-- `reflect.Indirect` on the type of a value: the type it has after following one
pointer. -/
def indirectType (τ : GoType) (value : Value) : Outcome Err GoType :=
  match api.shape τ, value with
  | .ptr elem, .ptr _ => .ok elem
  | .ptr _, _ => .panicked
  | _, _ => .ok τ

/-- The type whose settings give the code of a slice element. -/
def mustOccurType (elemType : GoType) (elem : Value) : Outcome Err GoType :=
  match api.shape elemType, elem with
  | .ptr pointed, .ptr inner => api.indirectType pointed inner
  | .interface, .iface σ inner => api.indirectType σ inner
  | .ptr _, _ => .panicked
  | .interface, _ => .panicked
  | _, _ => .ok elemType

/-- The value that `mustOccurType` is the type of. -/
def mustOccurValue : Value → Value
  | .ptr (.ptr elem) | .iface _ (.ptr elem) => elem
  | .ptr elem | .iface _ elem => elem
  | elem => elem

/-- The code of a slice element. -/
def mustOccurCode (elemType : GoType) (elem : Value) : Outcome Err UInt32 := do
  let τ ← api.mustOccurType elemType elem
  match api.getByType τ with
  | none =>
    let shown := api.sprintf 's' τ (mustOccurValue elem)
    .err (.text s!"missing type settings for {shown}; needed to check Must Occur rules")
  | some ts =>
    match ts.objectType with
    | none => .err (.text "can't detect type denotation type: object code is nil interface")
    | some objectType => return objectType.typeDenAndCode.2

/-- The codes that are left after striking out those of the elements. -/
def strikeOut (elemType : GoType) : List UInt32 → List Value → Outcome Err (List UInt32)
  | left, [] => .ok left
  | left, elem :: rest => do
    let code ← api.mustOccurCode elemType elem
    strikeOut elemType (left.filter (· ≠ code)) rest

def checkArrayMustOccur (ts : TypeSettings) (elemType : GoType) (elems : List Value) :
    Outcome Err Unit :=
  if ts.rules.mustOccur.isEmpty then .ok ()
  else do
    let left ← api.strikeOut elemType ts.rules.mustOccur elems
    if left.isEmpty then return ()
    else .err (.wrap (.sentinel .errArrayValidationTypesNotOccurred)
      s!"expected type prefixes that did not occur: {left}")

section MustOccur

variable {api}

private theorem strikeOut_eq_nil : api.strikeOut elemType left elems = .ok [] ↔
      (∀ elem ∈ elems, ∃ code, api.mustOccurCode elemType elem = .ok code) ∧
        ∀ code ∈ left, ∃ elem ∈ elems, api.mustOccurCode elemType elem = .ok code := by
  induction elems generalizing left with
  | nil => simp [strikeOut, List.eq_nil_iff_forall_not_mem]
  | cons elem elems ih =>
    simp only [strikeOut, bind_eq_ok, ih, List.forall_mem_cons]
    constructor
    · rintro ⟨code, coded, others, occurring⟩
      refine ⟨⟨⟨code, coded⟩, others⟩, fun required mem => ?_⟩
      by_cases same : required = code
      · exact ⟨elem, List.mem_cons_self, same ▸ coded⟩
      · obtain ⟨other, inside, is⟩ := occurring required (by simp [mem, same])
        exact ⟨other, List.mem_cons_of_mem _ inside, is⟩
    · rintro ⟨⟨⟨code, coded⟩, others⟩, occurring⟩
      refine ⟨code, coded, others, fun required mem => ?_⟩
      rw [List.mem_filter] at mem
      obtain ⟨other, inside, is⟩ := occurring required mem.1
      rcases List.mem_cons.mp inside with rfl | inside
      · rw [coded] at is
        cases is
        simp at mem
      · exact ⟨other, inside, is⟩

/-- The check passes when no code is required, or when every element has a code and every
required code is one of these. -/
theorem checkArrayMustOccur_eq_ok : api.checkArrayMustOccur ts elemType elems = .ok () ↔
      ts.rules.mustOccur = [] ∨
        (∀ elem ∈ elems, ∃ code, api.mustOccurCode elemType elem = .ok code) ∧
          ∀ code ∈ ts.rules.mustOccur, ∃ elem ∈ elems, api.mustOccurCode elemType elem = .ok code := by
  unfold checkArrayMustOccur
  rw [← strikeOut_eq_nil]
  by_cases free : ts.rules.mustOccur = []
  · simp [free]
  · have required : ts.rules.mustOccur.isEmpty = false := by simpa using free
    simp only [required, Bool.false_eq_true, if_false, bind_eq_ok, free, false_or]
    constructor
    · rintro ⟨left, struck, good⟩
      cases left with
      | nil => exact struck
      | cons code codes => cases good
    · intro struck
      exact ⟨[], struck, rfl⟩

/-- The type of an element decides its code. -/
theorem mustOccurCode_congr
    (same : api.mustOccurType elemType other = api.mustOccurType elemType elem) :
    api.mustOccurCode elemType other = .ok code ↔ api.mustOccurCode elemType elem = .ok code := by
  unfold mustOccurCode
  rw [same]
  cases api.mustOccurType elemType elem with
  | ok τ =>
    rw [ok_bind, ok_bind]
    cases api.getByType τ <;> simp
  | _ => rfl

theorem mustOccurCode_returned (type : (api.mustOccurType elemType elem).Returned) :
    (api.mustOccurCode elemType elem).Returned := by
  refine type.bind fun σ _ => ?_
  split
  · trivial
  · split <;> trivial

variable {elems : List Value} (types : ∀ elem ∈ elems, (api.mustOccurType elemType elem).Returned)
include types

private theorem strikeOut_returned (left : List UInt32) :
    (api.strikeOut elemType left elems).Returned := by
  induction elems generalizing left with
  | nil => trivial
  | cons elem elems ih =>
    rw [List.forall_mem_cons] at types
    exact (mustOccurCode_returned types.1).bind fun _ _ => ih types.2 _

/-- The check comes back if the elements have the types that it asks for. -/
theorem checkArrayMustOccur_returned : (api.checkArrayMustOccur ts elemType elems).Returned := by
  unfold checkArrayMustOccur
  split
  · trivial
  · refine (strikeOut_returned types _).bind fun rest _ => ?_
    split <;> trivial

end MustOccur

end API

end HiveGo
