import HiveGo.OrderedSet

/-! The single-threaded `ds.Set`: application of mutations, replacement, and the arithmetic that
turns counts into net mutations. A call may be handed the very set it writes to. -/
namespace HiveGo
open OrderedSet

variable {α : Type}

/-- Elements to add and elements to remove, in this order. -/
structure SetMutations (α : Type) where
  addedElements : OrderedSet α
  deletedElements : OrderedSet α

namespace SetMutations

def empty : SetMutations α := ⟨.empty, .empty⟩

def isEmpty (m : SetMutations α) : Bool := m.addedElements.isEmpty && m.deletedElements.isEmpty

theorem isEmpty_iff {m : SetMutations α} :
    m.isEmpty = true ↔ (∀ x, x ∉ m.addedElements) ∧ ∀ x, x ∉ m.deletedElements := by
  rw [isEmpty, Bool.and_eq_true, OrderedSet.isEmpty_iff, OrderedSet.isEmpty_iff]

/-- The set `new` is what a consumer holding `old` reaches by first adding the
added elements and then removing the deleted ones. -/
def Replays (old : OrderedSet α) (m : SetMutations α) (new : OrderedSet α) : Prop :=
  ∀ x, x ∈ new ↔ (x ∈ old ∨ x ∈ m.addedElements) ∧ x ∉ m.deletedElements

/-- The mutations account for the change of every occurrence: additions count
one, deletions minus one, and an element on both sides cancels. -/
def Accounts [DecidableEq α] (old : OrderedSet α) (m : SetMutations α) (new : OrderedSet α) : Prop :=
  ∀ x, new.ind x = old.ind x + m.addedElements.ind x - m.deletedElements.ind x

end SetMutations

/-- A `ReadableSet` handed to a write operation: the written set itself, or
another set whose elements do not change during the call. -/
inductive SetRef (α : Type) where
  | self
  | other (elements : OrderedSet α)

/-- The elements a traversal of the reference visits when the written set
currently holds `current`. -/
def SetRef.read (current : OrderedSet α) : SetRef α → OrderedSet α
  | .self => current
  | .other elements => elements

/-- Mutations handed to a write operation. -/
structure MutationsRef (α : Type) where
  addedElements : SetRef α
  deletedElements : SetRef α

def SetMutations.ref (m : SetMutations α) : MutationsRef α :=
    ⟨.other m.addedElements, .other m.deletedElements⟩

def MutationsRef.isEmpty (current : OrderedSet α) (m : MutationsRef α) : Bool :=
  (m.addedElements.read current).isEmpty && (m.deletedElements.read current).isEmpty

namespace DsSet

variable [DecidableEq α]

/-- Visit of one element to add: `Set` reports whether it was present before. -/
def addElement (state : OrderedSet α × OrderedSet α) (x : α) : OrderedSet α × OrderedSet α :=
  if x ∈ state.1 then state else (state.1.insert x, state.2.insert x)

/-- Visit of one element to remove: `Delete` reports whether it was present. -/
def deleteElement (state : OrderedSet α × OrderedSet α) (x : α) : OrderedSet α × OrderedSet α :=
  if x ∈ state.1 then (state.1.erase x, state.2.insert x) else state

/-- `set.apply`. The deleted elements are read after the additions; a traversal
of the set itself still visits every entry, since a removed entry keeps its
link to the next one. -/
def apply (s : OrderedSet α) (mutations : MutationsRef α) : OrderedSet α × SetMutations α :=
  let (withAdded, addedElements) := (mutations.addedElements.read s).elems.foldl addElement (s, .empty)
  let (result, removedElements) :=
    (mutations.deletedElements.read withAdded).elems.foldl deleteElement (withAdded, .empty)
  (result, ⟨addedElements, removedElements⟩)

/-- `set.Replace` with the previous elements as second component. The set is
cleared before the new elements are traversed. -/
def replace (s : OrderedSet α) (elements : SetRef α) : OrderedSet α × OrderedSet α :=
  let previousElements := ofList s.elems
  let cleared := empty
  ((elements.read cleared).elems.foldl insert cleared, previousElements)

/-- `readableSet.Clone`: `AddAll` into a fresh set returns what was added. -/
def clone (s : OrderedSet α) : OrderedSet α := (s.elems.foldl addElement (.empty, .empty)).2

theorem mem_foldl_addElement (xs : List α) (s collected : OrderedSet α) :
    (y ∈ (xs.foldl addElement (s, collected)).1 ↔ y ∈ s ∨ y ∈ xs) ∧
      (y ∈ (xs.foldl addElement (s, collected)).2 ↔ y ∈ collected ∨ y ∈ xs ∧ y ∉ s) := by
  induction xs generalizing s collected with
  | nil => simp
  | cons x xs ih =>
    rw [List.foldl_cons]
    by_cases present : x ∈ s
    · rw [show addElement (s, collected) x = (s, collected) from if_pos present]
      grind
    · rw [show addElement (s, collected) x = (s.insert x, collected.insert x) from if_neg present]
      obtain ⟨content, added⟩ := ih (s.insert x) (collected.insert x)
      rw [content, added, mem_insert, mem_insert]
      grind

theorem mem_foldl_deleteElement (xs : List α) (s collected : OrderedSet α) :
    (y ∈ (xs.foldl deleteElement (s, collected)).1 ↔ y ∈ s ∧ y ∉ xs) ∧
      (y ∈ (xs.foldl deleteElement (s, collected)).2 ↔ y ∈ collected ∨ y ∈ xs ∧ y ∈ s) := by
  induction xs generalizing s collected with
  | nil => simp
  | cons x xs ih =>
    rw [List.foldl_cons]
    by_cases present : x ∈ s
    · rw [show deleteElement (s, collected) x = (s.erase x, collected.insert x) from if_pos present]
      obtain ⟨content, removed⟩ := ih (s.erase x) (collected.insert x)
      rw [content, removed, mem_erase, mem_insert]
      grind
    · rw [show deleteElement (s, collected) x = (s, collected) from if_neg present]
      grind

@[simp] theorem mem_clone {x : α} : x ∈ clone s ↔ x ∈ s := by
  rw [clone, (mem_foldl_addElement s.elems .empty .empty).2]
  simp

section

variable (s : OrderedSet α) (m : MutationsRef α)
include s m

/-- What the three results of `apply` hold, element by element. -/
theorem mem_apply :
    ∃ toAdd toDelete : OrderedSet α,
      toAdd = m.addedElements.read s ∧
      (∀ x, x ∈ (apply s m).2.addedElements ↔ x ∈ toAdd ∧ x ∉ s) ∧
      (∀ x, x ∈ (apply s m).2.deletedElements ↔ x ∈ toDelete ∧ (x ∈ s ∨ x ∈ toAdd)) ∧
      ∀ x, x ∈ (apply s m).1 ↔ (x ∈ s ∨ x ∈ toAdd) ∧ x ∉ toDelete := by
  refine ⟨_, m.deletedElements.read ((m.addedElements.read s).elems.foldl addElement
    (s, .empty)).1, rfl, ?_, ?_, ?_⟩
  · intro x
    have added := (mem_foldl_addElement (m.addedElements.read s).elems s .empty (y := x)).2
    simpa [apply] using added
  · intro x
    rw [apply, (mem_foldl_deleteElement _ _ _).2, (mem_foldl_addElement _ _ _).1]
    simp
  · intro x
    rw [apply, (mem_foldl_deleteElement _ _ _).1, (mem_foldl_addElement _ _ _).1]
    simp

/-- Applied mutations are net mutations: a consumer can replay them. -/
theorem apply_replays : SetMutations.Replays s (apply s m).2 (apply s m).1 := by
  obtain ⟨toAdd, toDelete, -, added, deleted, content⟩ := mem_apply s m
  intro x
  grind

/-- Applied mutations count every change exactly once. -/
theorem apply_accounts : SetMutations.Accounts s (apply s m).2 (apply s m).1 := by
  obtain ⟨toAdd, toDelete, -, added, deleted, content⟩ := mem_apply s m
  intro x
  simp only [ind, added, deleted, content]
  grind

end

/-- Applying already collected mutations adds and then deletes them. -/
theorem mem_apply_ref (m : SetMutations α) :
    x ∈ (apply s m.ref).1 ↔ (x ∈ s ∨ x ∈ m.addedElements) ∧ x ∉ m.deletedElements := by
  rw [apply, (mem_foldl_deleteElement _ _ _).1, (mem_foldl_addElement _ _ _).1]
  exact .rfl

theorem mem_replace_other (s elements : OrderedSet α) :
    x ∈ (replace s (.other elements)).1 ↔ x ∈ elements := by
  rw [replace, mem_foldl_insert]
  simp [SetRef.read]

/-- Replacing a set by itself empties it, because it is cleared first. -/
theorem not_mem_replace_self (s : OrderedSet α) : x ∉ (replace s .self).1 := by
  rw [replace, mem_foldl_insert]
  simp [SetRef.read]

theorem mem_replace_previous (elements : SetRef α) : x ∈ (replace s elements).2 ↔ x ∈ s := by
  simp [replace]

end DsSet
end HiveGo
