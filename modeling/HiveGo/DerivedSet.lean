import HiveGo.SetArithmetic
import HiveGo.ReactiveSet

/-! The `DerivedSet`: a reactive set that inherits the mutations of its sources
by counting occurrences. -/
namespace HiveGo
open SetArithmetic

variable {α κ : Type} [DecidableEq α]

/-- A derived set: the embedded reactive set and the occurrence counts. -/
structure DerivedSet (α κ : Type) where
  set : ReactiveSet α κ
  setArithmetic : SetArithmetic α

namespace DerivedSet

def new : DerivedSet α κ := ⟨ReactiveSet.new [], SetArithmetic.new⟩

/-- `derivedSet.applyInheritedMutations`: the counts move, and the elements that
crossed the threshold of one occurrence are applied to the value. -/
def applyInheritedMutations (d : DerivedSet α κ) (mutations : SetMutations α) :
    SetArithmetic α × OrderedSet α × SetMutations α :=
  let (added, collected) :=
    mutations.addedElements.elems.foldl (addedElementsCollector 1) (d.setArithmetic, .empty)
  let (counted, inheritedMutations) :=
    mutations.deletedElements.elems.foldl (subtractedElementsCollector 1) (added, collected)
  let (value, appliedMutations) := DsSet.apply d.set.value inheritedMutations.ref
  (counted, value, appliedMutations)

/-- `derivedSet.inheritMutations` with the applied mutations and the callbacks
it invokes with them. -/
def inheritMutations (d : DerivedSet α κ) (mutations : SetMutations α) :
    DerivedSet α κ × SetMutations α × List κ :=
  let (counted, value, appliedMutations) := d.applyInheritedMutations mutations
  (⟨⟨value, d.set.subscriptions.fire.1⟩, counted⟩, appliedMutations, d.set.subscriptions.fire.2)

/-- The callback `InheritFrom` registers at a source: the mutations pass through
the tracked copy of the source's elements before they are inherited. -/
def onSourceUpdate (d : DerivedSet α κ) (sourceElements : OrderedSet α) (mutations : SetMutations α) :
    DerivedSet α κ × OrderedSet α :=
  let (tracked, appliedMutations) := DsSet.apply sourceElements mutations.ref
  ((d.inheritMutations appliedMutations).1, tracked)

/-- The `removeSourceElements` function of an inheritance. -/
def removeSourceElements (d : DerivedSet α κ) (sourceElements : OrderedSet α) : DerivedSet α κ :=
  (d.inheritMutations ⟨.empty, sourceElements⟩).1

/-- The value holds exactly the elements that occur at least once. -/
def Counted (d : DerivedSet α κ) : Prop := SetArithmetic.Holds 1 d.setArithmetic d.set.value

variable {d : DerivedSet α κ}

omit [DecidableEq α] in
theorem counted_iff : d.Counted ↔ ∀ x, x ∈ d.set.value ↔ 1 ≤ d.setArithmetic x := Iff.rfl

theorem new_counted : (new : DerivedSet α κ).Counted := by
  intro x
  simp [new, ReactiveSet.new, SetArithmetic.new]

/-- Inheriting counts the occurrences the mutations report and keeps the value
in agreement with the counts. -/
theorem inheritMutations_spec (counted : d.Counted) (m : SetMutations α) :
    (d.inheritMutations m).1.Counted ∧ ∀ x, (d.inheritMutations m).1.setArithmetic x =
      d.setArithmetic x + m.addedElements.ind x - m.deletedElements.ind x :=
  ⟨holds_apply counted (add_crossings 1 m), add_count 1 d.setArithmetic m⟩

/-- A delivery to an inheritance replaces the occurrences of the tracked copy
before the delivery by those after it. -/
theorem onSourceUpdate_spec (counted : d.Counted) (tracked : OrderedSet α) (m : SetMutations α) :
    (d.onSourceUpdate tracked m).1.Counted ∧
      (∀ x, (d.onSourceUpdate tracked m).1.setArithmetic x =
        d.setArithmetic x - tracked.ind x + (d.onSourceUpdate tracked m).2.ind x) ∧
      SetMutations.Replays tracked m (d.onSourceUpdate tracked m).2 := by
  obtain ⟨kept, counts⟩ := inheritMutations_spec counted (DsSet.apply tracked m.ref).2
  refine ⟨kept, fun x => ?_, fun x => DsSet.mem_apply_ref m⟩
  have change := DsSet.apply_accounts tracked m.ref x
  have count := counts x
  simp only [onSourceUpdate]
  omega

theorem removeSourceElements_spec (counted : d.Counted) :
    (d.removeSourceElements tracked).Counted ∧
      ∀ x, (d.removeSourceElements tracked).setArithmetic x = d.setArithmetic x - tracked.ind x := by
  obtain ⟨kept, counts⟩ := inheritMutations_spec counted ⟨.empty, tracked⟩
  refine ⟨kept, fun x => ?_⟩
  have zero := OrderedSet.ind_of_not_mem (OrderedSet.not_mem_empty x)
  rw [removeSourceElements, counts x, zero, Int.add_zero]

end DerivedSet
end HiveGo
