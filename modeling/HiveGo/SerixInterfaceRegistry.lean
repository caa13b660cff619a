import HiveGo.SerixRegistration
import Mathlib.Data.List.TakeWhile

/-! When the two maps of an interface stay inverse to each other. Objects that share a code
overwrite each other in one map only, and a call that fails half way keeps what it added to a
known interface. -/
namespace HiveGo
open Option

/-- The two maps of an interface are mutually inverse. -/
def InterfaceObjects.Bijective (objects : InterfaceObjects) : Prop :=
  ∀ code σ, objects.fromCodeToType code = some σ ↔ objects.fromTypeToCode σ = some code

namespace API

variable (api : API)

variable {objs : List GoType}

/-- The maps of every registered interface are mutually inverse. -/
def Bijective : Prop := ∀ τ objects, api.interfaces τ = some objects → objects.Bijective

/-- The object has a code under the denotation. -/
def Accepts (typeDen : TypeDenotationType) (obj : GoType) : Bool :=
  (api.registeredCode obj).map Prod.fst = some typeDen

/-- No object of the list has the code of another one, or of one that is known already. -/
def Separate (objects : InterfaceObjects) (objs : List GoType) : Prop :=
  ∀ obj ∈ objs, ∀ other, (other ∈ objs ∨ objects.fromTypeToCode other ≠ none) →
    api.registeredCode other = api.registeredCode obj → other = obj

/-- A call of `RegisterInterfaceObjects`. -/
structure ObjectsCall where
  iType : GoType
  objs : List GoType

namespace ObjectsCall

def next (call : ObjectsCall) : API := (api.registerInterfaceObjects call.iType call.objs).1

def result (call : ObjectsCall) : Outcome Err Unit :=
  (api.registerInterfaceObjects call.iType call.objs).2

/-- After success the maps are inverse, and a failure changes nothing. -/
def Keeps (call : ObjectsCall) : Prop :=
  (call.result api = .ok () → (call.next api).Bijective) ∧
    ∀ error, call.result api = .err error → (call.next api).interfaces = api.interfaces

/-- What is asked of a call for an interface: objects that are all accepted have codes of their
own; if one is not and the interface is known, then so are all objects before it. -/
def SafeFor (elem : GoType) (objs : List GoType) : Prop :=
  match api.interfaces elem with
  | some objects =>
    if ∀ obj ∈ objs, api.Accepts objects.typeDen obj = true then api.Separate objects objs
    else ∀ obj ∈ objs.takeWhile (api.Accepts objects.typeDen), objects.fromTypeToCode obj ≠ none
  | none =>
    ∀ typeDen, (∀ obj ∈ objs, api.Accepts typeDen obj = true) → api.Separate { typeDen } objs

def Safe (call : ObjectsCall) : Prop :=
  ∀ elem, api.shape call.iType = .ptr elem → (api.shape elem).isInterface = true →
    SafeFor api elem call.objs

end ObjectsCall

/-- The interfaces know the objects by their codes, and every code is there. -/
def Registered (objects : InterfaceObjects) : Prop :=
  api.Knows objects ∧ ∀ σ code, objects.fromTypeToCode σ = some code →
    api.registeredCode σ = some (objects.typeDen, code) ∧ objects.fromCodeToType code ≠ none

/-- Add one object that has a code. -/
def enroll (objects : InterfaceObjects) (obj : GoType) : InterfaceObjects :=
  match api.registeredCode obj with
  | some (_, code) => objects.addObject code obj
  | none => objects

section

variable {api}

theorem accepts_iff :
    api.Accepts typeDen obj = true ↔ ∃ code, api.registeredCode obj = some (typeDen, code) := by
  simp [Accepts]

theorem getObjectMetadata_cases :
    (∃ typeDen code, api.registeredCode obj = some (typeDen, code) ∧
      api.getObjectMetadata obj = .ok (typeDen, code)) ∨
    (api.registeredCode obj = none ∧ ∃ error, api.getObjectMetadata obj = .err error) := by
  cases coded : api.registeredCode obj with
  | some pair => exact .inl ⟨pair.1, pair.2, rfl, getObjectMetadata_eq_ok.mpr coded⟩
  | none =>
    refine .inr ⟨rfl, ?_⟩
    unfold registeredCode at coded
    unfold getObjectMetadata
    cases found : api.getByType obj with
    | none => exact ⟨_, rfl⟩
    | some ts =>
      rw [found, bind_some, map_eq_none_iff] at coded
      dsimp only
      rw [coded]
      exact ⟨_, rfl⟩

theorem enroll_typeDen (objects : InterfaceObjects) (obj : GoType) :
    (api.enroll objects obj).typeDen = objects.typeDen := by
  unfold enroll
  split <;> rfl

/-- The objects up to the first that is not accepted are added; the call succeeds if that
is all of them. -/
theorem addObjects_eq (first : GoType) (objects : InterfaceObjects) (objs : List GoType) :
    (api.addObjects first objects objs).1 =
        (objs.takeWhile (api.Accepts objects.typeDen)).foldl api.enroll objects ∧
      if ∀ obj ∈ objs, api.Accepts objects.typeDen obj = true then
        (api.addObjects first objects objs).2 = .ok ()
      else ∃ error, (api.addObjects first objects objs).2 = .err error := by
  induction objs generalizing objects with
  | nil => exact ⟨rfl, by simp [addObjects]⟩
  | cons obj objs ih =>
    by_cases taken : api.Accepts objects.typeDen obj = true
    · obtain ⟨code, coded⟩ := accepts_iff.mp taken
      have fits : api.enroll objects obj = objects.addObject code obj := by rw [enroll, coded]
      have added : api.addObjects first objects (obj :: objs) =
          api.addObjects first (api.enroll objects obj) objs := by
        rw [addObjects, getObjectMetadata_eq_ok.mpr coded, fits]
        simp
      have rest := ih (api.enroll objects obj)
      rw [enroll_typeDen] at rest
      rw [added, List.takeWhile_cons_of_pos taken, List.foldl_cons]
      simpa [taken] using rest
    · have failed : ∃ error, api.addObjects first objects (obj :: objs) = (objects, .err error) := by
        unfold addObjects
        obtain ⟨typeDen, code, coded, found⟩ | ⟨-, error, found⟩ := api.getObjectMetadata_cases
        · have other : objects.typeDen ≠ typeDen := by
            rintro rfl
            exact taken (accepts_iff.mpr ⟨code, coded⟩)
          rw [found]
          exact ⟨_, if_pos other⟩
        · rw [found]
          exact ⟨error, rfl⟩
      obtain ⟨error, failed⟩ := failed
      rw [failed, List.takeWhile_cons_of_neg taken]
      refine ⟨rfl, ?_⟩
      rw [if_neg fun all => taken (all obj List.mem_cons_self)]
      exact ⟨error, rfl⟩

section

variable (registered : api.Registered objects)
include registered

theorem Registered.enroll
    (taken : api.Accepts objects.typeDen obj = true) : api.Registered (api.enroll objects obj) := by
  obtain ⟨code, coded⟩ := accepts_iff.mp taken
  unfold API.enroll
  rw [coded]
  refine ⟨registered.1.addObject coded, fun σ other known => ?_⟩
  simp only [InterfaceObjects.addObject] at known ⊢
  split at known
  · rename_i same
    cases known
    exact ⟨same ▸ coded, by simp⟩
  · obtain ⟨settled, there⟩ := registered.2 σ other known
    refine ⟨settled, ?_⟩
    split
    · simp
    · exact there

/-- What the types are known by after objects were added. -/
theorem enroll_all
    (taken : ∀ obj ∈ objs, api.Accepts objects.typeDen obj = true) :
    api.Registered (objs.foldl api.enroll objects) ∧
      (objs.foldl api.enroll objects).typeDen = objects.typeDen ∧
      ∀ σ, (objs.foldl api.enroll objects).fromTypeToCode σ ≠ none ↔
        σ ∈ objs ∨ objects.fromTypeToCode σ ≠ none := by
  induction objs generalizing objects with
  | nil => exact ⟨registered, rfl, by simp⟩
  | cons obj objs ih =>
    have now := taken obj List.mem_cons_self
    obtain ⟨code, coded⟩ := accepts_iff.mp now
    have later : ∀ other ∈ objs, api.Accepts (api.enroll objects obj).typeDen other = true := by
      rw [enroll_typeDen]
      exact fun other mem => taken other (List.mem_cons_of_mem _ mem)
    obtain ⟨kept, same, known⟩ := ih (registered.enroll now) later
    refine ⟨kept, same.trans (enroll_typeDen objects obj), fun σ => ?_⟩
    rw [List.foldl_cons, known σ, List.mem_cons]
    have here : (api.enroll objects obj).fromTypeToCode σ ≠ none ↔
        σ = obj ∨ objects.fromTypeToCode σ ≠ none := by
      unfold API.enroll
      rw [coded]
      simp only [InterfaceObjects.addObject]
      split
      · rename_i same
        simp [same]
      · rename_i other
        simp [other]
    tauto

/-- The maps are inverse exactly when no two types are known under one code. -/
theorem bijective_iff :
    objects.Bijective ↔ ∀ σ other code, objects.fromTypeToCode σ = some code →
      objects.fromTypeToCode other = some code → other = σ := by
  constructor
  · intro bijective σ other code known also
    have found := (bijective code σ).mpr known
    rw [(bijective code other).mpr also] at found
    exact some.inj found
  · intro injective code σ
    refine ⟨fun found => (registered.1 code σ found).1, fun known => ?_⟩
    obtain ⟨other, found⟩ := ne_none_iff_exists'.mp (registered.2 σ code known).2
    rw [found, injective σ other code known (registered.1 code other found).1]

/-- Objects that were all accepted leave inverse maps exactly when they are separate. -/
theorem enroll_bijective_iff (bijective : objects.Bijective)
    (taken : ∀ obj ∈ objs, api.Accepts objects.typeDen obj = true) :
    (objs.foldl api.enroll objects).Bijective ↔ api.Separate objects objs := by
  obtain ⟨kept, den, known⟩ := enroll_all registered taken
  have codes : ∀ σ code, (objs.foldl api.enroll objects).fromTypeToCode σ = some code →
      api.registeredCode σ = some (objects.typeDen, code) := by
    intro σ code found
    rw [(kept.2 σ code found).1, den]
  rw [bijective_iff kept]
  constructor
  · intro injective obj mem other present same
    obtain ⟨code, found⟩ := ne_none_iff_exists'.mp ((known obj).mpr (.inl mem))
    obtain ⟨shared, also⟩ := ne_none_iff_exists'.mp ((known other).mpr present)
    rw [codes obj code found, codes other shared also] at same
    cases same
    exact injective obj other code found also
  · intro separate σ other code found also
    have same := (codes other code also).trans (codes σ code found).symm
    rcases (known σ).mp (by simp [found]) with mem | before
    · exact separate σ mem other ((known other).mp (by simp [also])) same
    · rcases (known other).mp (by simp [also]) with mem | earlier
      · exact (separate other mem σ (.inr before) same.symm).symm
      · obtain ⟨old, knownOld⟩ := ne_none_iff_exists'.mp before
        obtain ⟨young, knownYoung⟩ := ne_none_iff_exists'.mp earlier
        rw [(registered.2 σ old knownOld).1, (registered.2 other young knownYoung).1] at same
        cases same
        exact (bijective_iff registered).mp bijective σ other old knownOld knownYoung

/-- Objects that are known already change nothing. -/
theorem enroll_known (bijective : objects.Bijective)
    (known : objects.fromTypeToCode obj ≠ none) : api.enroll objects obj = objects := by
  obtain ⟨code, found⟩ := ne_none_iff_exists'.mp known
  have coded := (registered.2 obj code found).1
  have back := (bijective code obj).mpr found
  have codes : (objects.addObject code obj).fromCodeToType = objects.fromCodeToType := by
    funext other
    simp only [InterfaceObjects.addObject]
    split
    · rename_i same
      rw [same, back]
    · rfl
  have types : (objects.addObject code obj).fromTypeToCode = objects.fromTypeToCode := by
    funext other
    simp only [InterfaceObjects.addObject]
    split
    · rename_i same
      rw [same, found]
    · rfl
  rw [API.enroll, coded]
  exact InterfaceObjects.mk.injEq .. ▸ ⟨rfl, codes, types⟩

/-- Objects that are accepted change nothing exactly when they are known already. -/
theorem enroll_all_eq_iff (bijective : objects.Bijective)
    (taken : ∀ obj ∈ objs, api.Accepts objects.typeDen obj = true) :
    objs.foldl api.enroll objects = objects ↔ ∀ obj ∈ objs, objects.fromTypeToCode obj ≠ none := by
  constructor
  · intro same obj mem
    have known := (enroll_all registered taken).2.2 obj
    rw [same] at known
    exact known.mpr (.inl mem)
  · intro known
    induction objs with
    | nil => rfl
    | cons obj objs ih =>
      rw [List.foldl_cons, enroll_known registered bijective (known obj List.mem_cons_self)]
      exact ih (fun other mem => taken other (List.mem_cons_of_mem _ mem))
        (fun other mem => known other (List.mem_cons_of_mem _ mem))

end

/-- The registry with the objects of one interface replaced. -/
def put (api : API) (elem : GoType) (objects : InterfaceObjects) : API :=
  { api with interfaces := fun σ => if σ = elem then some objects else api.interfaces σ }

theorem register_empty (iType : GoType) : (api.registerInterfaceObjects iType []).1 = api := by
  unfold registerInterfaceObjects
  split
  · split <;> rfl
  · rfl

/-- Only a pointer to an interface is looked at. -/
theorem register_other
    (other : ∀ elem, api.shape iType = .ptr elem → ¬ (api.shape elem).isInterface = true)
    (objs : List GoType) : (api.registerInterfaceObjects iType objs).1 = api := by
  unfold registerInterfaceObjects
  split
  · rename_i elem shape
    rw [if_neg (other elem shape)]
  · rfl

section

variable (shape : api.shape iType = .ptr elem) (isInterface : (api.shape elem).isInterface = true)
include shape isInterface

theorem register_known (known : api.interfaces elem = some objects)
    (first : GoType) (rest : List GoType) : api.registerInterfaceObjects iType (first :: rest) =
      (api.put elem (api.addObjects first objects (first :: rest)).1,
        (api.addObjects first objects (first :: rest)).2) := by
  simp only [registerInterfaceObjects, shape, isInterface, if_true, known]
  rfl

/-- A new interface is registered if all of its objects are accepted, under the denotation
of the first. -/
theorem register_new (unknown : api.interfaces elem = none)
    (first : GoType) (rest : List GoType) :
    (∃ typeDen, (∀ obj ∈ first :: rest, api.Accepts typeDen obj = true) ∧
      api.registerInterfaceObjects iType (first :: rest) =
        (api.put elem ((first :: rest).foldl api.enroll { typeDen }), .ok ())) ∨
    ((∀ typeDen, ¬ ∀ obj ∈ first :: rest, api.Accepts typeDen obj = true) ∧
      ∃ error, api.registerInterfaceObjects iType (first :: rest) = (api, .err error)) := by
  simp only [registerInterfaceObjects, shape, isInterface, if_true, unknown]
  obtain ⟨typeDen, code, coded, found⟩ | ⟨uncoded, error, found⟩ := api.getObjectMetadata_cases
  · obtain ⟨added, outcome⟩ := api.addObjects_eq first { typeDen } (first :: rest)
    rw [found]
    dsimp only at added outcome ⊢
    split at outcome
    · rename_i taken
      refine .inl ⟨typeDen, taken, ?_⟩
      rw [List.takeWhile_eq_self_iff.mpr taken] at added
      rw [← added, put]
      generalize api.addObjects first { typeDen } (first :: rest) = pair at outcome ⊢
      obtain ⟨objects, result⟩ := pair
      cases outcome
      rfl
    · rename_i refused
      obtain ⟨error, failed⟩ := outcome
      refine .inr ⟨fun other taken => ?_, error, ?_⟩
      · obtain ⟨also, same⟩ := accepts_iff.mp (taken first List.mem_cons_self)
        rw [coded] at same
        cases same
        exact refused taken
      · generalize api.addObjects first { typeDen } (first :: rest) = pair at failed ⊢
        obtain ⟨objects, result⟩ := pair
        cases failed
        rfl
  · rw [found]
    refine .inr ⟨fun typeDen taken => ?_, error, rfl⟩
    obtain ⟨code, coded⟩ := accepts_iff.mp (taken first List.mem_cons_self)
    rw [uncoded] at coded
    cases coded

end

/-- Every registered interface knows its objects by their codes. -/
def Settled (api : API) : Prop := ∀ τ objects, api.interfaces τ = some objects → api.Registered objects

theorem registered_empty (typeDen : TypeDenotationType) : api.Registered { typeDen } :=
  ⟨by rintro _ _ ⟨⟩, by rintro _ _ ⟨⟩⟩

theorem Settled.put (settled : api.Settled) (known : api.Registered objects) :
    (api.put elem objects).Settled := by
  intro τ others found
  simp only [API.put] at found
  split at found
  · cases found
    exact known
  · exact settled τ others found

theorem bijective_put (bijective : api.Bijective) :
    (api.put elem objects).Bijective ↔ objects.Bijective := by
  constructor
  · intro all
    exact all elem objects (if_pos rfl)
  · intro inverse τ others found
    simp only [API.put] at found
    split at found
    · cases found
      exact inverse
    · exact bijective τ others found

theorem put_interfaces_eq (known : api.interfaces elem = some objects) :
    (api.put elem others).interfaces = api.interfaces ↔ others = objects := by
  constructor
  · intro same
    have here := congrFun same elem
    simp only [API.put, if_true, known, some.injEq] at here
    exact here
  · rintro rfl
    funext σ
    simp only [API.put]
    split
    · rename_i same
      rw [same, known]
    · rfl

end

namespace ObjectsCall

variable {api}

theorem next_settled (settled : api.Settled) (call : ObjectsCall) : (call.next api).Settled := by
  obtain ⟨iType, objs⟩ := call
  unfold next
  by_cases target : ∃ elem, api.shape iType = .ptr elem ∧ (api.shape elem).isInterface = true
  · obtain ⟨elem, shape, isInterface⟩ := target
    cases objs with
    | nil => exact (register_empty iType).symm ▸ settled
    | cons first rest =>
      cases known : api.interfaces elem with
      | some objects =>
        rw [register_known shape isInterface known, (addObjects_eq first objects _).1]
        exact settled.put (enroll_all (settled elem objects known) fun obj => List.mem_takeWhile_imp).1
      | none =>
        obtain ⟨typeDen, taken, registered⟩ | ⟨-, error, refused⟩ :=
          register_new shape isInterface known first rest
        · rw [registered]
          exact settled.put (enroll_all (registered_empty typeDen) taken).1
        · exact refused ▸ settled
  · have other := register_other (fun elem shape isInterface => target ⟨elem, shape, isInterface⟩) objs
    exact other.symm ▸ settled

/-- From inverse maps, a call keeps what is claimed of it exactly when it is safe. -/
theorem keeps_iff (settled : api.Settled) (bijective : api.Bijective) (call : ObjectsCall) :
    call.Keeps api ↔ call.Safe api := by
  obtain ⟨iType, objs⟩ := call
  unfold Keeps Safe result next
  have unchanged : (api.registerInterfaceObjects iType objs).1 = api →
      ((api.registerInterfaceObjects iType objs).2 = .ok () →
        (api.registerInterfaceObjects iType objs).1.Bijective) ∧
      ∀ error, (api.registerInterfaceObjects iType objs).2 = .err error →
        (api.registerInterfaceObjects iType objs).1.interfaces = api.interfaces := by
    intro same
    rw [same]
    exact ⟨fun _ => bijective, fun _ _ => rfl⟩
  by_cases target : ∃ elem, api.shape iType = .ptr elem ∧ (api.shape elem).isInterface = true
  · obtain ⟨elem, shape, isInterface⟩ := target
    have only : (∀ elem, api.shape iType = .ptr elem → (api.shape elem).isInterface = true →
        SafeFor api elem objs) ↔ SafeFor api elem objs := by
      refine ⟨fun all => all elem shape isInterface, fun safe other same _ => ?_⟩
      rw [shape] at same
      cases same
      exact safe
    rw [only]
    cases objs with
    | nil =>
      refine iff_of_true (unchanged (register_empty iType)) ?_
      unfold SafeFor
      cases api.interfaces elem <;> simp [Separate]
    | cons first rest =>
      unfold SafeFor
      cases known : api.interfaces elem with
      | some objects =>
        have registered := settled elem objects known
        have inverse := bijective elem objects known
        obtain ⟨added, outcome⟩ := api.addObjects_eq first objects (first :: rest)
        rw [register_known shape isInterface known, added]
        dsimp only
        split at outcome
        · rename_i taken
          rw [if_pos taken, outcome, bijective_put bijective,
            List.takeWhile_eq_self_iff.mpr taken, enroll_bijective_iff registered inverse taken]
          simp
        · rename_i refused
          obtain ⟨error, failed⟩ := outcome
          rw [if_neg refused, failed, put_interfaces_eq known,
            enroll_all_eq_iff registered inverse fun obj => List.mem_takeWhile_imp]
          simp
      | none =>
        obtain ⟨typeDen, taken, done⟩ | ⟨refused, error, done⟩ :=
          register_new shape isInterface known first rest
        · have empty : InterfaceObjects.Bijective { typeDen } := fun _ _ => ⟨by rintro ⟨⟩, by rintro ⟨⟩⟩
          rw [done]
          rw [bijective_put bijective, enroll_bijective_iff (registered_empty typeDen) empty taken]
          constructor
          · rintro ⟨separate, -⟩ other also
            exact separate rfl
          · intro separate
            exact ⟨fun _ => separate typeDen taken, by simp⟩
        · rw [done]
          refine iff_of_true ⟨by simp, fun _ _ => rfl⟩ fun typeDen taken => ?_
          exact absurd taken (refused typeDen)
  · have other := register_other (fun elem shape isInterface => target ⟨elem, shape, isInterface⟩) objs
    refine iff_of_true (unchanged other) fun elem shape isInterface => ?_
    exact absurd ⟨elem, shape, isInterface⟩ target

theorem returns (api : API) (call : ObjectsCall) :
    call.next api = api ∨ call.result api = .ok () ∨ ∃ error, call.result api = .err error := by
  obtain ⟨iType, objs⟩ := call
  unfold next result
  by_cases target : ∃ elem, api.shape iType = .ptr elem ∧ (api.shape elem).isInterface = true
  · obtain ⟨elem, shape, isInterface⟩ := target
    cases objs with
    | nil => exact .inl (register_empty iType)
    | cons first rest =>
      refine .inr ?_
      cases known : api.interfaces elem with
      | some objects =>
        have outcome := (api.addObjects_eq first objects (first :: rest)).2
        rw [register_known shape isInterface known]
        split at outcome
        · exact .inl outcome
        · exact .inr outcome
      | none =>
        obtain ⟨typeDen, -, done⟩ | ⟨-, error, done⟩ :=
          register_new shape isInterface known first rest
        · exact .inl (by rw [done])
        · exact .inr ⟨error, by rw [done]⟩
  · exact .inl (register_other (fun elem shape isInterface => target ⟨elem, shape, isInterface⟩) objs)

theorem next_bijective (bijective : api.Bijective) {call : ObjectsCall} (keeps : call.Keeps api) :
    (call.next api).Bijective := by
  obtain same | done | ⟨error, done⟩ := call.returns api
  · exact same.symm ▸ bijective
  · exact keeps.1 done
  · intro τ objects found
    rw [keeps.2 error done] at found
    exact bijective τ objects found

/-- The registry after one more call. -/
def step (api : API) (call : ObjectsCall) : Option API := some (call.next api)

/-- The calls from an empty registry keep the maps inverse, and the failing ones change
nothing, exactly when every one of them is safe. -/
theorem registry_bijection_iff (api : API) (calls : List ObjectsCall) :
    Along step (fun api call => call.Keeps api) { api with interfaces := fun _ => none } calls ↔
      Along step (fun api call => call.Safe api) { api with interfaces := fun _ => none } calls := by
  refine along_congr (fun api => api.Settled ∧ api.Bijective) ?_ ?_ ?_
  · rintro api call ⟨settled, bijective⟩
    exact keeps_iff settled bijective call
  · rintro api call next ⟨settled, bijective⟩ keeps ⟨⟩
    exact ⟨next_settled settled call, next_bijective bijective keeps⟩
  · exact ⟨by rintro _ _ ⟨⟩, by rintro _ _ ⟨⟩⟩

/-- `Left` and `Right` have the same code, `Other` has one of its own and `Plain` has none. -/
def shared : API where
  decl
    | "Iface" => .interface
    | _ => .struct []
  typeSettings τ :=
    if τ = .named "Left" ∨ τ = .named "Right" then some { objectType := some (.uint8 1) }
    else if τ = .named "Other" then some { objectType := some (.uint8 2) }
    else none

/-- The objects of the interface. -/
def ofIface (objs : List String) : ObjectsCall := ⟨.ptr (.named "Iface"), objs.map .named⟩

/-- A shared code leaves a type whose code belongs to another one, and a call that fails on
its second object keeps the first. -/
theorem registry_not_bijection :
    ¬ Along step (fun api call => call.Keeps api) shared [ofIface ["Left", "Right"]] ∧
    ¬ Along step (fun api call => call.Keeps api) shared
      [ofIface ["Left"], ofIface ["Other", "Plain"]] := by
  constructor
  · rintro ⟨⟨inverse, -⟩, -⟩
    have back := inverse rfl (.named "Iface") _ rfl 1 (.named "Left")
    exact absurd (back.mpr rfl) (by decide)
  · rintro ⟨-, rest⟩
    obtain ⟨⟨-, unchanged⟩, -⟩ := rest _ rfl
    have same := congrFun (unchanged _ rfl) (.named "Iface")
    have known := congrArg (Option.map fun objects => objects.fromTypeToCode (.named "Other")) same
    exact absurd known (by decide)

end ObjectsCall

end API

end HiveGo
