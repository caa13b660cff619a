import HiveGo.DsSet
import Mathlib.Algebra.Ring.Int.Defs

/-! Occurrence arithmetic. A `SetArithmetic` counts how often each element
occurs and reports the net mutations of the set of elements whose count is at
least a threshold. -/
namespace HiveGo
open OrderedSet Function

variable {α : Type}

/-- The occurrence counts; a missing entry counts zero and counts may be negative. -/
abbrev SetArithmetic (α : Type) := α → Int

namespace SetArithmetic

def new : SetArithmetic α := fun _ => 0

section Collectors

variable [DecidableEq α]

/-- `setArithmetic.elementsCollector`: one visited element moves its count by
one and, when the count meets the threshold from the matching side, is dropped
from the opposing set or else joins the target set. -/
def elementsCollector (increase : Bool) (threshold : Int) (s : SetArithmetic α)
    (targetSet opposingSet : OrderedSet α) (x : α) : SetArithmetic α × OrderedSet α × OrderedSet α :=
  let count := s x + (if increase then 1 else -1)
  let counted := update s x count
  if count = (if increase then threshold else threshold - 1) then
    if x ∈ opposingSet then (counted, targetSet, opposingSet.erase x)
    else (counted, targetSet.insert x, opposingSet)
  else (counted, targetSet, opposingSet)

def addedElementsCollector (threshold : Int) (state : SetArithmetic α × SetMutations α) (x : α) :
    SetArithmetic α × SetMutations α :=
  let (counted, added, deleted) :=
    elementsCollector true threshold state.1 state.2.addedElements state.2.deletedElements x
  (counted, ⟨added, deleted⟩)

def subtractedElementsCollector (threshold : Int) (state : SetArithmetic α × SetMutations α) (x : α) :
    SetArithmetic α × SetMutations α :=
  let (counted, deleted, added) :=
    elementsCollector false threshold state.1 state.2.deletedElements state.2.addedElements x
  (counted, ⟨added, deleted⟩)

/-- `setArithmetic.Add` with its optional threshold made explicit. -/
def add (threshold : Int) (s : SetArithmetic α) (mutations : SetMutations α) :
    SetArithmetic α × SetMutations α :=
  mutations.deletedElements.elems.foldl (subtractedElementsCollector threshold)
    (mutations.addedElements.elems.foldl (addedElementsCollector threshold) (s, .empty))

/-- `setArithmetic.Subtract` with its optional threshold made explicit. -/
def subtract (threshold : Int) (s : SetArithmetic α) (mutations : SetMutations α) :
    SetArithmetic α × SetMutations α :=
  mutations.deletedElements.elems.foldl (addedElementsCollector threshold)
    (mutations.addedElements.elems.foldl (subtractedElementsCollector threshold) (s, .empty))

end Collectors

/-- The collected mutations are exactly the crossings of the threshold between
the counts at the start and the current counts. -/
def Crossings (threshold : Int) (start : SetArithmetic α) (state : SetArithmetic α × SetMutations α) : Prop :=
  ∀ x, (x ∈ state.2.addedElements ↔ start x < threshold ∧ threshold ≤ state.1 x) ∧
    (x ∈ state.2.deletedElements ↔ state.1 x < threshold ∧ threshold ≤ start x)

theorem crossings_start : Crossings threshold s (s, .empty) := by
  intro x
  simp only [SetMutations.empty, not_mem_empty, false_iff]
  omega

theorem foldl_crossings
    (keeps : ∀ state x, Crossings threshold start state → Crossings threshold start (collector state x))
    (xs : List α) (state : SetArithmetic α × SetMutations α)
    (crossings : Crossings threshold start state) :
    Crossings threshold start (xs.foldl collector state) := by
  induction xs generalizing state with
  | nil => exact crossings
  | cons x xs ih => exact ih _ (keeps state x crossings)

/-- The set holds exactly the elements whose count reached the threshold. -/
def Holds (threshold : Int) (s : SetArithmetic α) (value : OrderedSet α) : Prop :=
  ∀ x, x ∈ value ↔ threshold ≤ s x

variable [DecidableEq α]

variable {state : SetArithmetic α × SetMutations α}

theorem addedElementsCollector_crossings (crossings : Crossings threshold start state) :
    Crossings threshold start (addedElementsCollector threshold state x) := by
  intro y
  have pre := crossings y
  simp only [addedElementsCollector, elementsCollector, ↓reduceIte]
  by_cases same : y = x
  · split
    · split
      · simp only [mem_erase]
        grind
      · simp only [mem_insert]
        grind
    · grind
  · split
    · split
      · simpa [same] using pre
      · simpa [same] using pre
    · simpa [same] using pre

theorem subtractedElementsCollector_crossings (crossings : Crossings threshold start state) :
    Crossings threshold start (subtractedElementsCollector threshold state x) := by
  intro y
  have pre := crossings y
  simp only [subtractedElementsCollector, elementsCollector, Bool.false_eq_true, ↓reduceIte]
  by_cases same : y = x
  · subst y
    split
    · split
      · simp only [mem_erase]
        grind
      · simp only [mem_insert]
        grind
    · grind
  · split
    · split
      · simpa [same] using pre
      · simpa [same] using pre
    · simpa [same] using pre

theorem elementsCollector_count (increase : Bool) (s : SetArithmetic α) (target opposing : OrderedSet α)
    (x : α) : (elementsCollector increase threshold s target opposing x).1 =
      update s x (s x + if increase then 1 else -1) := by
  simp only [elementsCollector, apply_ite Prod.fst, ite_self]

/-- A pass of a collector over distinct elements moves the count of each of
them by the collector's step and keeps every other count. -/
theorem foldl_count (step : Int)
    (counts : ∀ state x, (collector state x).1 = update state.1 x (state.1 x + step))
    (xs : OrderedSet α) (state : SetArithmetic α × SetMutations α) (y : α) :
    (xs.elems.foldl collector state).1 y = state.1 y + step * xs.ind y := by
  obtain ⟨elems, nodup⟩ := xs
  rw [show ind ⟨elems, nodup⟩ y = if y ∈ elems then 1 else 0 from rfl]
  induction elems generalizing state with
  | nil => simp
  | cons x elems ih =>
    obtain ⟨fresh, nodup⟩ := List.nodup_cons.mp nodup
    rw [List.foldl_cons, ih _ nodup, counts]
    by_cases same : y = x
    · subst y
      simp [fresh]
    · simp [same]

/-- `Add` moves every count by the occurrences the mutations account for. -/
theorem add_count (threshold : Int) (s : SetArithmetic α) (m : SetMutations α) (x : α) :
    (add threshold s m).1 x = s x + m.addedElements.ind x - m.deletedElements.ind x := by
  rw [add, foldl_count (-1) fun _ => elementsCollector_count false _ _ _,
    foldl_count 1 fun _ => elementsCollector_count true _ _ _]
  dsimp only
  omega

theorem subtract_count (threshold : Int) (s : SetArithmetic α) (m : SetMutations α) (x : α) :
    (subtract threshold s m).1 x = s x - m.addedElements.ind x + m.deletedElements.ind x := by
  rw [subtract, foldl_count 1 fun _ => elementsCollector_count true _ _ _,
    foldl_count (-1) fun _ => elementsCollector_count false _ _ _]
  dsimp only
  omega

theorem add_crossings (threshold : Int) (m : SetMutations α) :
    Crossings threshold s (add threshold s m) :=
  foldl_crossings (fun _ _ crossings => subtractedElementsCollector_crossings crossings) _ _
    (foldl_crossings (fun _ _ crossings => addedElementsCollector_crossings crossings) _ _
      crossings_start)

theorem subtract_crossings (threshold : Int) (m : SetMutations α) :
    Crossings threshold s (subtract threshold s m) :=
  foldl_crossings (fun _ _ crossings => addedElementsCollector_crossings crossings) _ _
    (foldl_crossings (fun _ _ crossings => subtractedElementsCollector_crossings crossings) _ _
      crossings_start)

/-- Applying the crossings of a count update to the set of elements over the
threshold yields the set of elements over the threshold after the update. -/
theorem holds_apply (holds : Holds threshold start value)
    (crossings : Crossings threshold start state) :
    Holds threshold state.1 (DsSet.apply value state.2.ref).1 := by
  intro x
  rw [DsSet.mem_apply_ref, holds x, (crossings x).1, (crossings x).2]
  omega

/-- A call with its mutations. -/
inductive Call (α : Type) where
  | add (mutations : SetMutations α)
  | subtract (mutations : SetMutations α)

namespace Call

def perform (threshold : Int) (s : SetArithmetic α) : Call α → SetArithmetic α × SetMutations α
  | add mutations => SetArithmetic.add threshold s mutations
  | subtract mutations => SetArithmetic.subtract threshold s mutations

/-- The additions of an element minus its subtractions. -/
def net (x : α) : Call α → Int
  | add mutations => mutations.addedElements.ind x - mutations.deletedElements.ind x
  | subtract mutations => mutations.deletedElements.ind x - mutations.addedElements.ind x

theorem perform_crossings (call : Call α) : Crossings threshold s (call.perform threshold s) := by
  cases call with
  | add mutations => exact add_crossings threshold mutations
  | subtract mutations => exact subtract_crossings threshold mutations

theorem perform_count (call : Call α) : (call.perform threshold s).1 x = s x + call.net x := by
  cases call with
  | add mutations =>
    rw [perform, add_count, net]
    omega
  | subtract mutations =>
    rw [perform, subtract_count, net]
    omega

/-- The call, and what it returns applied to a set. -/
def track (threshold : Int) (both : SetArithmetic α × OrderedSet α) (call : Call α) :
    SetArithmetic α × OrderedSet α :=
  let (counted, mutations) := call.perform threshold both.1
  (counted, (DsSet.apply both.2 mutations.ref).1)

theorem foldl_track (calls : List (Call α)) (holds : Holds threshold s value) :
    Holds threshold (calls.foldl (track threshold) (s, value)).1
        (calls.foldl (track threshold) (s, value)).2 ∧
      ∀ x, (calls.foldl (track threshold) (s, value)).1 x = s x + (calls.map (net x)).sum := by
  induction calls generalizing s value with
  | nil => exact ⟨holds, fun x => (Int.add_zero _).symm⟩
  | cons call calls ih =>
    obtain ⟨held, counted⟩ := ih (holds_apply holds call.perform_crossings)
    refine ⟨held, fun x => ?_⟩
    rw [List.map_cons, List.sum_cons, ← Int.add_assoc, ← perform_count]
    exact counted x

/-- After every sequence of calls, the set that their mutations were applied to holds the elements
whose net count is at least the threshold, and no call both adds and deletes an element. -/
theorem track_net (threshold : Int) (positive : 1 ≤ threshold) (calls : List (Call α)) :
    let last := calls.foldl (track threshold) (new, .empty)
    (∀ x, x ∈ last.2 ↔ threshold ≤ (calls.map (net x)).sum) ∧
      ∀ (call : Call α) x, x ∈ (call.perform threshold last.1).2.addedElements →
        x ∉ (call.perform threshold last.1).2.deletedElements := by
  have start : Holds threshold (new : SetArithmetic α) .empty := by
    intro x
    have below : ¬ threshold ≤ (new : SetArithmetic α) x := by
      change ¬ threshold ≤ 0
      omega
    simp [below]
  obtain ⟨held, counted⟩ := foldl_track calls start
  refine ⟨fun x => ?_, fun call x added deleted => ?_⟩
  · rw [held x, counted x]
    exact iff_of_eq (congrArg (threshold ≤ ·) (Int.zero_add _))
  · have up := (call.perform_crossings x).1.mp added
    have down := (call.perform_crossings x).2.mp deleted
    omega

/-- An element counted twice is held at threshold two. -/
theorem twice_added_tracked :
    let mutations : SetMutations Nat := ⟨.singleton 7, .empty⟩
    7 ∈ ([.add mutations, .add mutations].foldl (track 2) (new, .empty)).2 :=
  ((track_net 2 (by decide) [.add _, .add _]).1 7).mpr (by decide)

end Call

end SetArithmetic
end HiveGo
