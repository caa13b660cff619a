import HiveGo.DsSet
import HiveGo.ReactiveCallback

/-! The reactive `Set`: every write operation applies its mutations and delivers them to the
registered callbacks. The model returns them with the labels of these callbacks. -/
namespace HiveGo
open OrderedSet DsSet

variable {α κ : Type}

/-- A reactive set whose callbacks are identified by labels of type `κ`. -/
structure ReactiveSet (α κ : Type) where
  value : OrderedSet α
  subscriptions : Subscriptions κ

/-- The outcome of a write: the set afterwards, the mutations it delivered and
the callbacks it invoked with them. -/
structure Delivery (α κ : Type) where
  set : ReactiveSet α κ
  mutations : SetMutations α
  invoked : List κ

/-- A call of one of the seven write operations with its arguments. -/
inductive Write (α : Type) where
  | add (element : α)
  | addAll (elements : SetRef α)
  | delete (element : α)
  | deleteAll (elements : SetRef α)
  | apply (mutations : MutationsRef α)
  | compute (mutationFactory : OrderedSet α → MutationsRef α)
  | replace (elements : SetRef α)

/-- Everything but `Replace`. -/
def Write.IsMutation : Write α → Prop
  | .replace _ => False
  | _ => True

/-- The call is not a `Replace` that is handed the very set it is called on. -/
def Write.NotSelfReplacing : Write α → Prop
  | .replace .self => False
  | _ => True

namespace ReactiveSet

/-- The labels of the registered callbacks, in registration order. -/
def labels (s : ReactiveSet α κ) : List κ := s.subscriptions.labels

variable [DecidableEq α]

def new (elements : List α) : ReactiveSet α κ := ⟨ofList elements, .new⟩

/-- `set.Apply`: empty arguments are not applied and empty results not delivered. -/
def apply (s : ReactiveSet α κ) (mutations : MutationsRef α) : Delivery α κ :=
  if mutations.isEmpty s.value then ⟨s, .empty, []⟩
  else
    let (value, appliedMutations) := DsSet.apply s.value mutations
    if appliedMutations.isEmpty then ⟨⟨value, s.subscriptions.advance⟩, appliedMutations, []⟩
    else ⟨⟨value, s.subscriptions.fire.1⟩, appliedMutations, s.subscriptions.fire.2⟩

/-- `set.Compute`: the result is delivered even when it is empty. -/
def compute (s : ReactiveSet α κ) (mutationFactory : OrderedSet α → MutationsRef α) : Delivery α κ :=
  let (value, appliedMutations) := DsSet.apply s.value (mutationFactory s.value)
  ⟨⟨value, s.subscriptions.fire.1⟩, appliedMutations, s.subscriptions.fire.2⟩

/-- `set.Replace`: the arguments are delivered as added and the previous
content as deleted, whatever they have in common. -/
def replace (s : ReactiveSet α κ) (elements : SetRef α) : Delivery α κ :=
  let addedElements := ofList (elements.read s.value).elems
  let (value, previousElements) := DsSet.replace s.value elements
  ⟨⟨value, s.subscriptions.fire.1⟩, ⟨addedElements, previousElements⟩, s.subscriptions.fire.2⟩

def add (s : ReactiveSet α κ) (element : α) : Delivery α κ :=
  s.apply ⟨.other (ofList [element]), .other .empty⟩

def addAll (s : ReactiveSet α κ) (elements : SetRef α) : Delivery α κ :=
  s.apply ⟨.other (ofList (elements.read s.value).elems), .other .empty⟩

def delete (s : ReactiveSet α κ) (element : α) : Delivery α κ :=
  s.apply ⟨.other .empty, .other (ofList [element])⟩

def deleteAll (s : ReactiveSet α κ) (elements : SetRef α) : Delivery α κ :=
  s.apply ⟨.other .empty, .other (clone (elements.read s.value))⟩

def write (s : ReactiveSet α κ) : Write α → Delivery α κ
  | .add element => s.add element
  | .addAll elements => s.addAll elements
  | .delete element => s.delete element
  | .deleteAll elements => s.deleteAll elements
  | .apply mutations => s.apply mutations
  | .compute mutationFactory => s.compute mutationFactory
  | .replace elements => s.replace elements

/-- `readableSet.OnUpdate`: the set with the callback registered, and the
mutations of the initial invocation if there is one. -/
def onUpdate (s : ReactiveSet α κ) (k : κ) (triggerWithInitialZeroValue : Bool) :
    ReactiveSet α κ × Option (SetMutations α) :=
  let mutations : SetMutations α := ⟨clone s.value, .empty⟩
  (⟨s.value, s.subscriptions.register k⟩,
    if !mutations.isEmpty || triggerWithInitialZeroValue then some mutations else none)

/-- The unsubscribe function returned by `OnUpdate`. -/
def unsubscribe [DecidableEq κ] (s : ReactiveSet α κ) (k : κ) : ReactiveSet α κ :=
  ⟨s.value, s.subscriptions.unregister k⟩

/-- What a write can do to the set and its callbacks: it keeps the registered
labels and either invokes all of them, or delivers nothing and keeps the content. -/
structure Delivers (s : ReactiveSet α κ) (d : Delivery α κ) : Prop where
  labels : d.set.labels = s.labels
  reaches : d.invoked = s.labels ∨ d.invoked = [] ∧ ∀ x, x ∈ d.set.value ↔ x ∈ s.value

/-- A delivery of net mutations: they can be replayed, and they account for
every change of the content. -/
structure DeliversNet (s : ReactiveSet α κ) (d : Delivery α κ) : Prop extends Delivers s d where
  replays : SetMutations.Replays s.value d.mutations d.set.value
  accounts : SetMutations.Accounts s.value d.mutations d.set.value

variable (s : ReactiveSet α κ)
include s

theorem apply_net (m : MutationsRef α) : DeliversNet s (s.apply m) := by
  unfold apply
  split
  · refine ⟨⟨rfl, .inr ⟨rfl, fun x => Iff.rfl⟩⟩, ?_, ?_⟩
    · intro x
      simp [SetMutations.empty]
    · intro x
      simp [SetMutations.empty, ind]
  · have replays := apply_replays s.value m
    have accounts := apply_accounts s.value m
    dsimp only
    split
    · rename_i nothing
      obtain ⟨noneAdded, noneDeleted⟩ := SetMutations.isEmpty_iff.mp nothing
      refine ⟨⟨rfl, .inr ⟨rfl, fun x => ?_⟩⟩, replays, accounts⟩
      rw [replays x]
      simp [noneAdded x, noneDeleted x]
    · exact ⟨⟨s.subscriptions.labels_fire, .inl s.subscriptions.invoked_fire⟩, replays, accounts⟩

theorem compute_net : DeliversNet s (s.compute factory) :=
  ⟨⟨s.subscriptions.labels_fire, .inl s.subscriptions.invoked_fire⟩,
    apply_replays _ _, apply_accounts _ _⟩

/-- Every write but `Replace` delivers net mutations. -/
theorem write_net (mutation : w.IsMutation) : DeliversNet s (s.write w) := by
  cases w with
  | replace elements => exact mutation.elim
  | compute factory => exact compute_net s
  | add element => exact apply_net s ⟨.other (ofList [element]), .other .empty⟩
  | delete element => exact apply_net s ⟨.other .empty, .other (ofList [element])⟩
  | _ => exact apply_net s ⟨_, _⟩

theorem replace_delivers : Delivers s (s.replace elements) :=
  ⟨s.subscriptions.labels_fire, .inl s.subscriptions.invoked_fire⟩

/-- Whatever is written, the callbacks stay registered and are all invoked
unless nothing changed. -/
theorem write_delivers (w : Write α) : Delivers s (s.write w) := by
  cases w with
  | replace elements => exact replace_delivers s
  | _ => exact DeliversNet.toDelivers (write_net s trivial)

theorem mem_replace_added (elements : SetRef α) :
    x ∈ (s.replace elements).mutations.addedElements ↔ x ∈ elements.read s.value := by
  simp [replace]

theorem mem_replace_deleted (elements : SetRef α) :
    x ∈ (s.replace elements).mutations.deletedElements ↔ x ∈ s.value :=
  DsSet.mem_replace_previous elements

/-- A replacement by another set can be replayed exactly when the two contents
are disjoint: a common element is delivered as added and then as deleted. -/
theorem replace_other_replays_iff :
    SetMutations.Replays s.value (s.replace (.other elements)).mutations
        (s.replace (.other elements)).set.value ↔ ∀ x ∈ elements, x ∉ s.value := by
  have content : ∀ x, x ∈ (s.replace (.other elements)).set.value ↔ x ∈ elements :=
    fun x => DsSet.mem_replace_other s.value elements
  simp only [SetMutations.Replays, content, mem_replace_added, mem_replace_deleted, SetRef.read]
  constructor
  · intro replays x new
    exact ((replays x).mp new).2
  · intro disjoint x
    constructor
    · exact fun new => ⟨.inr new, disjoint x new⟩
    · rintro ⟨old | new, gone⟩
      · exact (gone old).elim
      · exact new

/-- A set replaced by itself ends up empty, and so does every consumer. -/
theorem replace_self_replays :
    SetMutations.Replays s.value (s.replace .self).mutations (s.replace .self).set.value := by
  intro x
  have emptied : x ∉ (s.replace .self).set.value := DsSet.not_mem_replace_self s.value
  simp [emptied, mem_replace_added, mem_replace_deleted, SetRef.read]

/-- A replacement by another set accounts for every occurrence, overlapping or not. -/
theorem replace_other_accounts :
    SetMutations.Accounts s.value (s.replace (.other elements)).mutations
      (s.replace (.other elements)).set.value := by
  intro x
  have added := ind_congr (mem_replace_added s (.other elements) (x := x))
  have deleted := ind_congr (mem_replace_deleted s (.other elements) (x := x))
  have content := ind_congr (DsSet.mem_replace_other s.value elements (x := x))
  rw [added, deleted, show (s.replace (.other elements)).set.value.ind x =
    elements.ind x from content, SetRef.read]
  omega

/-- The delivered mutations of every write can be replayed, except for a
replacement by another set that shares an element with the old content. -/
theorem write_replays
    (disjoint : ∀ elements, w = .replace (.other elements) → ∀ x ∈ elements, x ∉ s.value) :
    SetMutations.Replays s.value (s.write w).mutations (s.write w).set.value := by
  cases w with
  | replace elements =>
    cases elements with
    | self => exact replace_self_replays s
    | other elements => exact (replace_other_replays_iff s).mpr (disjoint elements rfl)
  | _ => exact DeliversNet.replays (write_net s trivial)

/-- Every write that is not a replacement by the set itself accounts for the
change of every occurrence. -/
theorem write_accounts (legal : w.NotSelfReplacing) :
    SetMutations.Accounts s.value (s.write w).mutations (s.write w).set.value := by
  cases w with
  | replace elements =>
    cases elements with
    | self => exact legal.elim
    | other elements => exact replace_other_accounts s
  | _ => exact DeliversNet.accounts (write_net s trivial)

@[simp] theorem onUpdate_labels (k : κ) (init : Bool) :
    (s.onUpdate k init).1.labels = s.labels ++ [k] := s.subscriptions.labels_register

@[simp] theorem onUpdate_value : (s.onUpdate k initial).1.value = s.value := rfl

omit [DecidableEq α] in
@[simp] theorem unsubscribe_labels [DecidableEq κ] :
    (s.unsubscribe k).labels = s.labels.filter (· ≠ k) := s.subscriptions.labels_unregister

omit [DecidableEq α] in
@[simp] theorem unsubscribe_value [DecidableEq κ] : (s.unsubscribe k).value = s.value := rfl

/-- The initial invocation delivers the current content, and is left out only
when there is none. -/
theorem onUpdate_initial (k : κ) (init : Bool) :
    (∃ m, (s.onUpdate k init).2 = some m ∧ (∀ x, x ∈ m.addedElements ↔ x ∈ s.value) ∧
        ∀ x, x ∉ m.deletedElements) ∨
      (s.onUpdate k init).2 = none ∧ ∀ x, x ∉ s.value := by
  unfold onUpdate
  dsimp only
  split
  · exact .inl ⟨_, rfl, fun x => mem_clone, not_mem_empty⟩
  · rename_i skipped
    refine .inr ⟨rfl, fun x held => skipped ?_⟩
    have nonempty : (SetMutations.isEmpty ⟨clone s.value, empty⟩) = false := by
      rw [← Bool.not_eq_true, SetMutations.isEmpty_iff]
      exact fun nothing => nothing.1 x (mem_clone.mpr held)
    simp [nonempty]

end ReactiveSet
end HiveGo
