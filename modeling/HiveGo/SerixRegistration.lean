import HiveGo.SerixUniverse
import HiveGo.Runs

/-! Registering type settings and interface objects. An interface takes the code of an object from
its settings at that time; settings are never replaced, but those of a pointer type can come after
those of its element and hide them. -/
namespace HiveGo

namespace API

variable (api : API)

def registerTypeSettings (τ : GoType) (ts : TypeSettings) : API × Outcome Err Unit :=
  let name := τ.str
  if (api.typeSettings τ).isSome then
    (api, .err (.text s!"type settings for object {name} are already registered"))
  else
    ({ api with typeSettings := fun σ => if σ = τ then some ts else api.typeSettings σ }, .ok ())

/-- The denotation and the code of a registered object. -/
def getObjectMetadata (obj : GoType) : Outcome Err (TypeDenotationType × UInt32) :=
  let name := obj.str
  let wrapped (text : String) : Err :=
    .wrap (.text text) s!"failed to get type denotation for object {name}"
  match api.getByType obj with
  | none => .err (wrapped s!"no type settings was found for object {name}you must register object with its type settings first")
  | some ts =>
    match ts.objectType with
    | none => .err (wrapped s!"type settings for object {name} doesn't contain object code")
    | some objectType => .ok objectType.typeDenAndCode

end API

def InterfaceObjects.addObject (objects : InterfaceObjects) (objCode : UInt32) (objType : GoType) :
    InterfaceObjects :=
  { objects with
    fromCodeToType := fun code => if code = objCode then some objType else objects.fromCodeToType code
    fromTypeToCode := fun σ => if σ = objType then some objCode else objects.fromTypeToCode σ }

namespace API

variable (api : API)

/-- Add the objects one by one; those before a failing one stay added. -/
def addObjects (first : GoType) : InterfaceObjects → List GoType → InterfaceObjects × Outcome Err Unit
  | objects, [] => (objects, .ok ())
  | objects, obj :: rest =>
    match api.getObjectMetadata obj with
    | .ok (typeDen, code) =>
      if objects.typeDen ≠ typeDen then
        let firstName := first.str
        let name := obj.str
        let known := objects.typeDen.str
        let other := typeDen.str
        (objects, .err (.text s!"all registered objects must have the same type denotation: object {firstName} has {known} and object {name} has {other}"))
      else addObjects first (objects.addObject code obj) rest
    | .err error => (objects, .err error)
    | .panicked => (objects, .panicked)
    | .timeout => (objects, .timeout)

/-- Register objects for the interface that `iType` points to. A new interface is kept only
if all of its objects are. -/
def registerInterfaceObjects (iType : GoType) (objs : List GoType) : API × Outcome Err Unit :=
  match api.shape iType with
  | .ptr elem =>
    if (api.shape elem).isInterface then
      match objs with
      | [] => (api, .ok ())
      | first :: _ =>
        match api.interfaces elem with
        | some objects =>
          let (objects, result) := api.addObjects first objects objs
          ({ api with interfaces := fun σ => if σ = elem then some objects else api.interfaces σ }, result)
        | none =>
          match api.getObjectMetadata first with
          | .ok (typeDen, _) =>
            match api.addObjects first { typeDen } objs with
            | (objects, .ok ()) =>
              ({ api with interfaces := fun σ =>
                  if σ = elem then some objects else api.interfaces σ }, .ok ())
            | (_, failed) => (api, failed)
          | .err error => (api, .err error)
          | .panicked => (api, .panicked)
          | .timeout => (api, .timeout)
    else
      let kind := (api.shape elem).kind
      (api, .err (.text s!"'iType' pointer must contain an interface, got {kind}"))
  | other =>
    let kind := other.kind
    (api, .err (.text s!"'iType' parameter must be a pointer, got {kind}"))

/-- The objects of an interface are known by the codes that are in their settings. -/
def Knows (objects : InterfaceObjects) : Prop :=
  ∀ code σ, objects.fromCodeToType code = some σ →
    objects.fromTypeToCode σ = some code ∧ api.registeredCode σ = some (objects.typeDen, code)

section

variable {api}

theorem consistent_iff : api.Consistent ↔
    ∀ τ objects, api.interfaces τ = some objects → api.Knows objects :=
  ⟨fun sound τ objects known code σ => sound τ objects code σ known,
    fun each τ objects code σ known => each τ objects known code σ⟩

theorem getObjectMetadata_eq_ok :
    api.getObjectMetadata obj = .ok (typeDen, code) ↔ api.registeredCode obj = some (typeDen, code) := by
  unfold getObjectMetadata registeredCode
  cases api.getByType obj with
  | none => simp
  | some ts => cases set : ts.objectType <;> simp [set]

/-- An object that an interface knows under one code, is not added under another. -/
theorem Knows.addObject (knows : api.Knows objects)
    (coded : api.registeredCode obj = some (objects.typeDen, code)) :
    api.Knows (objects.addObject code obj) := by
  intro other σ found
  by_cases same : other = code
  · subst same
    simp only [InterfaceObjects.addObject, if_true, Option.some.injEq] at found ⊢
    subst found
    exact ⟨if_pos rfl, coded⟩
  · simp only [InterfaceObjects.addObject, same, if_false] at found ⊢
    obtain ⟨known, registered⟩ := knows other σ found
    have apart : σ ≠ obj := by
      rintro rfl
      rw [coded] at registered
      cases registered
      exact same rfl
    exact ⟨by rw [if_neg apart, known], registered⟩

theorem Knows.addObjects (knows : api.Knows objects) :
    api.Knows (api.addObjects first objects objs).1 := by
  induction objs generalizing objects with
  | nil => exact knows
  | cons obj objs ih =>
    unfold API.addObjects
    split
    · rename_i typeDen code found
      split
      · exact knows
      · rename_i same
        rw [not_not] at same
        subst same
        exact ih (knows.addObject (getObjectMetadata_eq_ok.mp found))
    · exact knows
    · exact knows
    · exact knows

/-- Registering objects keeps the interfaces consistent. -/
theorem Consistent.registerInterfaceObjects (sound : api.Consistent) (iType : GoType)
    (objs : List GoType) : (api.registerInterfaceObjects iType objs).1.Consistent := by
  rw [consistent_iff] at sound
  have kept : ∀ elem objects, api.Knows objects → ({ api with
      interfaces := fun σ => if σ = elem then some objects else api.interfaces σ } : API).Consistent := by
    intro elem objects knows
    rw [consistent_iff]
    intro τ others known
    dsimp only at known
    split at known
    · cases known
      exact knows
    · exact sound τ others known
  unfold API.registerInterfaceObjects
  split
  · rename_i elem shape
    split
    · cases objs with
      | nil => exact consistent_iff.mpr sound
      | cons first rest =>
        dsimp only
        split
        · rename_i objects known
          exact kept _ _ (sound elem objects known).addObjects
        · split
          · rename_i typeDen code _
            have fresh : api.Knows { typeDen } := by rintro _ _ ⟨⟩
            have added : api.Knows (api.addObjects first { typeDen } (first :: rest)).1 :=
              fresh.addObjects
            split
            · rename_i objects outcome
              rw [outcome] at added
              exact kept _ _ added
            · exact consistent_iff.mpr sound
          all_goals exact consistent_iff.mpr sound
    · exact consistent_iff.mpr sound
  · exact consistent_iff.mpr sound

/-- Registering the settings of a type that is not an object yet keeps the interfaces
consistent. -/
theorem Consistent.registerTypeSettings (sound : api.Consistent)
    (early : ∀ σ objects, api.interfaces σ = some objects → objects.fromTypeToCode τ = none)
    (ts : TypeSettings) : (api.registerTypeSettings τ ts).1.Consistent := by
  unfold API.registerTypeSettings
  split
  · exact sound
  · rename_i free
    simp only [Bool.not_eq_true, Option.isSome_eq_false_iff, Option.isNone_iff_eq_none] at free
    intro iface objects code σ registered known
    obtain ⟨coded, settled⟩ := sound iface objects code σ registered known
    refine ⟨coded, ?_⟩
    have other : σ ≠ τ := by
      rintro rfl
      rw [early iface objects registered] at coded
      cases coded
    have found : api.getByType σ ≠ none := by
      intro miss
      simp [registeredCode, miss] at settled
    have same : ({ api with typeSettings := fun σ => if σ = τ then some ts else api.typeSettings σ } :
        API).getByType σ = api.getByType σ := by
      unfold getByType at found ⊢
      dsimp only
      rw [if_neg other]
      cases own : api.typeSettings σ with
      | some settings => rfl
      | none =>
        rw [own] at found
        cases shape : api.shape σ with
        | ptr elem =>
          rw [shape] at found
          have apart : elem ≠ τ := by
            rintro rfl
            exact found free
          show (match api.shape σ with
            | .ptr elem => if elem = τ then some ts else api.typeSettings elem
            | _ => none) = _
          rw [shape]
          exact if_neg apart
        | _ =>
          rw [shape] at found
          exact absurd rfl found
    rw [← settled]
    exact congrArg (fun ts => ts.bind fun ts => ts.objectType.map ObjectType.typeDenAndCode) same

end

/-- A call that changes the registries. -/
inductive Registration where
  | typeSettings (τ : GoType) (ts : TypeSettings)
  | interfaceObjects (iType : GoType) (objs : List GoType)

/-- The registries after a call, whether it failed or not. -/
def register (api : API) : Registration → API
  | .typeSettings τ ts => (api.registerTypeSettings τ ts).1
  | .interfaceObjects iType objs => (api.registerInterfaceObjects iType objs).1

/-- The settings of a type are registered before the type becomes an object of an interface. -/
def Registration.Early (api : API) : Registration → Prop
  | .typeSettings τ _ =>
    ∀ σ objects, api.interfaces σ = some objects → objects.fromTypeToCode τ = none
  | .interfaceObjects _ _ => True

/-- Registrations in the documented order lead to consistent interfaces. -/
theorem consistent_of_registrations {api last : API} (fresh : ∀ τ, api.interfaces τ = none)
    {registrations : List Registration}
    (order : Along (fun api call => some (register api call)) Registration.Early api registrations)
    (ran : run (fun api call => some (register api call)) api registrations = some last) :
    last.Consistent := by
  refine run_invariant_along ?_ ?_ order ran
  · rintro pre call next sound early ⟨⟩
    cases call with
    | typeSettings τ ts => exact sound.registerTypeSettings early ts
    | interfaceObjects iType objs => exact sound.registerInterfaceObjects iType objs
  · intro τ objects code σ known
    rw [fresh τ] at known
    cases known

end API

end HiveGo
