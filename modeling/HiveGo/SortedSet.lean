import HiveGo.ReactiveSet
import HiveGo.ReactiveVariable
import Mathlib.Order.Lattice

/-! The `SortedSet`: a reactive set whose elements are kept in a slice sorted by reactive weights.
An undefined result stands for a panic. -/
namespace HiveGo
open Function

variable {α ω ν : Type}

/-- What a sorted set is created with: the weight variable of every element, and
the `Less` method of the element type if it has one. -/
structure SortedSetConfig (α ν : Type) where
  weightVariable : α → ν
  less : Option (α → α → Bool)

/-- `sortedSetElement`; the element itself is the key it is stored under. -/
structure SortedSetElement (ω : Type) where
  weight : ω
  index : Nat

/-- The fields of `sortedSet` besides the embedded set, with the current values
of the heaviest and lightest variables and the weight variables it observes. -/
structure SortedElements (α ω ν : Type) where
  elements : α → Option (SortedSetElement ω)
  sortedElements : List α
  heaviestElement : α
  lightestElement : α
  weights : ν → ReactiveVariable ω α

namespace SortedElements

variable [DecidableEq α] [DecidableEq ν] [LinearOrder ω] [Inhabited α] [Inhabited ω]

/-- `Ascending`: every entry is written to the mirrored position of a new slice. -/
def ascending (s : SortedElements α ω ν) : List α :=
  s.sortedElements.zipIdx.foldl (fun slice entry => slice.set (s.sortedElements.length - entry.2 - 1) entry.1)
    (List.replicate s.sortedElements.length default)

/-- `Descending`: every entry is written to its own position of a new slice. -/
def descending (s : SortedElements α ω ν) : List α :=
  s.sortedElements.zipIdx.foldl (fun slice entry => slice.set entry.2 entry.1)
    (List.replicate s.sortedElements.length default)

/-- The condition under which `swap` exchanges its arguments. -/
def swaps (cfg : SortedSetConfig α ν) (left right : α) (leftWeight rightWeight : ω) : Bool :=
  decide (leftWeight < rightWeight) || (decide (leftWeight = rightWeight) &&
      match cfg.less with
      | some less => less left right
      | none => false)

def swap (cfg : SortedSetConfig α ν) (left right : α) (s : SortedElements α ω ν) :
    Option (SortedElements α ω ν × Bool) := do
  let leftEntry ← s.elements left
  let rightEntry ← s.elements right
  if swaps cfg left right leftEntry.weight rightEntry.weight then
    let atRight ← s.sortedElements[rightEntry.index]?
    let atLeft ← s.sortedElements[leftEntry.index]?
    some ({ s with
      sortedElements := (s.sortedElements.set leftEntry.index atRight).set rightEntry.index atLeft
      elements := update (update s.elements left (some ⟨leftEntry.weight, rightEntry.index⟩))
        right (some ⟨rightEntry.weight, leftEntry.index⟩) }, true)
  else some (s, false)

/-- The loop of `updatePosition` to the left; the fuel bounds its rounds. -/
def moveLeft (cfg : SortedSetConfig α ν) (x : α) : Nat → Bool → SortedElements α ω ν →
    Option (SortedElements α ω ν × Bool)
  | 0, _, _ => none
  | fuel + 1, moved, s => do
    let entry ← s.elements x
    if entry.index = 0 then some (s, moved)
    else
      let left ← s.sortedElements[entry.index - 1]?
      let (next, swapped) ← s.swap cfg left x
      if swapped then moveLeft cfg x fuel true next else some (s, moved)

/-- The loop of `updatePosition` to the right. -/
def moveRight (cfg : SortedSetConfig α ν) (x : α) : Nat → Bool → SortedElements α ω ν →
    Option (SortedElements α ω ν × Bool)
  | 0, _, _ => none
  | fuel + 1, moved, s => do
    let entry ← s.elements x
    if entry.index = s.sortedElements.length - 1 then some (s, moved)
    else
      let right ← s.sortedElements[entry.index + 1]?
      let (next, swapped) ← s.swap cfg x right
      if swapped then moveRight cfg x fuel true next else some (s, moved)

/-- The heaviest element after element `x` moved from `fromIndex` to `index`. -/
def heaviestAfterMove (x : α) (fromIndex index : Nat) (moved : Bool) (s : SortedElements α ω ν) : Option α :=
  if moved ∧ fromIndex = 0 then s.sortedElements[0]?
  else if index = 0 then some x
  else some s.heaviestElement

/-- The lightest element after element `x` moved from `fromIndex` to `index`. -/
def lightestAfterMove (x : α) (fromIndex index : Nat) (moved : Bool) (s : SortedElements α ω ν) : Option α :=
  if moved ∧ fromIndex = s.sortedElements.length - 1 then s.sortedElements[s.sortedElements.length - 1]?
  else if index = s.sortedElements.length - 1 then some x
  else some s.lightestElement

/-- The deferred part of `updatePosition`. -/
def updateEnds (x : α) (fromIndex : Nat) (moved : Bool) (s : SortedElements α ω ν) :
    Option (SortedElements α ω ν) := do
  let entry ← s.elements x
  let heaviestElement ← s.heaviestAfterMove x fromIndex entry.index moved
  let lightestElement ← s.lightestAfterMove x fromIndex entry.index moved
  some { s with heaviestElement, lightestElement }

def updatePosition (cfg : SortedSetConfig α ν) (x : α) (s : SortedElements α ω ν) : Option
    (SortedElements α ω ν) := do
  let entry ← s.elements x
  let (movedLeft, moved) ← s.moveLeft cfg x (s.sortedElements.length + 1) false
  let (placed, moved) ←
    if moved then some (movedLeft, moved) else movedLeft.moveRight cfg x (s.sortedElements.length + 1) false
  placed.updateEnds x entry.index moved

/-- The callback an entry registers at its weight variable. -/
def onWeightUpdate (cfg : SortedSetConfig α ν) (newWeight : ω) (x : α) (s : SortedElements α ω ν) :
    Option (SortedElements α ω ν) := do
  let entry ← s.elements x
  updatePosition cfg x { s with elements := update s.elements x (some ⟨newWeight, entry.index⟩) }

def addSorted (cfg : SortedSetConfig α ν) (s : SortedElements α ω ν) (x : α) : Option
    (SortedElements α ω ν) :=
  match s.elements x with
  | some _ => some s
  | none =>
    let (watched, initial) := (s.weights (cfg.weightVariable x)).onUpdate x true
    let created : SortedElements α ω ν :=
      { s with
        elements := update s.elements x (some ⟨default, s.sortedElements.length⟩)
        sortedElements := s.sortedElements ++ [x]
        weights := update s.weights (cfg.weightVariable x) watched }
    match initial with
    | none => some created
    | some weight => onWeightUpdate cfg weight x created

/-- The loop of `deleteSorted` that moves the following entries one place forward. -/
def shiftLeft : Nat → Nat → SortedElements α ω ν → Option (SortedElements α ω ν)
  | 0, _, s => some s
  | rounds + 1, i, s => do
    let following ← s.sortedElements[i + 1]?
    let entry ← s.elements following
    shiftLeft rounds (i + 1)
      { s with
        sortedElements := s.sortedElements.set i following
        elements := update s.elements following (some ⟨entry.weight, entry.index - 1⟩) }

/-- The heaviest element after the entry at `index` was deleted. -/
def heaviestAfterDelete (index : Nat) (remaining : List α) (heaviestElement : α) : Option α :=
  if index = 0 then (if 0 < remaining.length then remaining[0]? else some default) else some heaviestElement

/-- The lightest element after the entry at `index` was deleted. -/
def lightestAfterDelete (index : Nat) (remaining : List α) (lightestElement : α) : Option α :=
  if index = remaining.length then
    (if 0 < remaining.length then remaining[remaining.length - 1]? else some default)
  else some lightestElement

def deleteSorted (cfg : SortedSetConfig α ν) (s : SortedElements α ω ν) (x : α) : Option
    (SortedElements α ω ν) :=
  match s.elements x with
  | none => some s
  | some deleted => do
    let unwatched := (s.weights (cfg.weightVariable x)).unsubscribe x
    let shifted ← shiftLeft (s.sortedElements.length - 1 - deleted.index) deleted.index
      { s with
        elements := update s.elements x none
        weights := update s.weights (cfg.weightVariable x) unwatched }
    if shifted.sortedElements = [] then none
    else
      let remaining := shifted.sortedElements.dropLast
      let heaviestElement ← heaviestAfterDelete deleted.index remaining s.heaviestElement
      let lightestElement ← lightestAfterDelete deleted.index remaining s.lightestElement
      some { shifted with sortedElements := remaining, heaviestElement, lightestElement }

/-- The callback a sorted set registers at its embedded set. -/
def onSetUpdate (cfg : SortedSetConfig α ν) (mutations : SetMutations α) (s : SortedElements α ω ν) :
    Option (SortedElements α ω ν) := do
  let added ← mutations.addedElements.elems.foldlM (addSorted cfg) s
  mutations.deletedElements.elems.foldlM (deleteSorted cfg) added

/-- `Compute` on a weight variable, with all the entries that observe it. -/
def computeWeight (cfg : SortedSetConfig α ν) (v : ν) (computeFunc : ω → ω) (s : SortedElements α ω ν) :
    Option (SortedElements α ω ν) :=
  let (updated, invoked) := (s.weights v).compute computeFunc
  invoked.foldlM (fun s x => onWeightUpdate cfg updated.value x s)
    { s with weights := update s.weights v updated }

end SortedElements

/-- A sorted set with its embedded reactive set. -/
structure SortedSet (α ω ν : Type) where
  set : ReactiveSet α Unit
  sorted : SortedElements α ω ν

/-- A write to the set or an update of a weight variable. -/
inductive SortedSetEvent (α ω ν : Type) where
  | write (call : Write α)
  | computeWeight (v : ν) (computeFunc : ω → ω)

/-- The event does not replace the content of the set. -/
def SortedSetEvent.IsMutation : SortedSetEvent α ω ν → Prop
  | .write call => call.IsMutation
  | .computeWeight _ _ => True

namespace SortedSet

variable [DecidableEq α] [DecidableEq ν] [LinearOrder ω] [Inhabited α] [Inhabited ω]

/-- `newSortedSet` over weight variables nobody observes so far. -/
def new (weights : ν → ω × (ω → ω → ω)) : SortedSet α ω ν where
  set := ((ReactiveSet.new []).onUpdate () false).1
  sorted :=
    { elements := fun _ => none
      sortedElements := []
      heaviestElement := default
      lightestElement := default
      weights := fun v => ⟨(weights v).1, (weights v).2, .new⟩ }

def step (cfg : SortedSetConfig α ν) (s : SortedSet α ω ν) : SortedSetEvent α ω ν → Option (SortedSet α ω ν)
  | .write call => do
    let delivery := s.set.write call
    let sorted ← delivery.invoked.foldlM (fun sorted _ => sorted.onSetUpdate cfg delivery.mutations) s.sorted
    some ⟨delivery.set, sorted⟩
  | .computeWeight v computeFunc => do
    let sorted ← s.sorted.computeWeight cfg v computeFunc
    some ⟨s.set, sorted⟩

end SortedSet
end HiveGo
