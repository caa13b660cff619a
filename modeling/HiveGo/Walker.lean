import HiveGo.OrderedSet
import HiveGo.Runs

/-! The walker: a queue of elements to be visited, with a memory of what was pushed. -/
namespace HiveGo
open List

structure Walker (T : Type) where
  stack : List T := []
  pushedElements : OrderedSet T := .empty
  walkStopped : Bool := false
  revisitElements : Bool := false

namespace Walker

variable {T : Type}

def hasNext (w : Walker T) : Bool := decide (w.stack.length > 0) && !w.walkStopped

/-- Removing the front of an empty list panics. -/
def next (w : Walker T) : Option (T × Walker T) :=
  match w.stack with
  | [] => none
  | nextElement :: stack => some (nextElement, { w with stack })

variable [DecidableEq T]

def push (w : Walker T) (nextElement : T) : Walker T :=
  let pushedElements := w.pushedElements.insert nextElement
  if nextElement ∈ w.pushedElements ∧ w.revisitElements = false then { w with pushedElements }
  else { w with pushedElements, stack := w.stack ++ [nextElement] }

def pushAll (w : Walker T) (nextElements : List T) : Walker T := nextElements.foldl push w

/-- A known element ends the loop. -/
def pushFront (w : Walker T) : List T → Walker T
  | [] => w
  | nextElement :: nextElements =>
    let pushedElements := w.pushedElements.insert nextElement
    if nextElement ∈ w.pushedElements ∧ w.revisitElements = false then { w with pushedElements }
    else pushFront { w with pushedElements, stack := nextElement :: w.stack } nextElements

inductive Call (T : Type) where
  | push (nextElement : T)
  | pushAll (nextElements : List T)
  | pushFront (nextElements : List T)
  | next

def Call.elements : Call T → List T
  | push nextElement => [nextElement]
  | pushAll nextElements | pushFront nextElements => nextElements
  | next => []

/-- A call, and the elements that were visited so far. -/
def step (s : Walker T × List T) : Call T → Option (Walker T × List T)
  | .push nextElement => some (s.1.push nextElement, s.2)
  | .pushAll nextElements => some (s.1.pushAll nextElements, s.2)
  | .pushFront nextElements => some (s.1.pushFront nextElements, s.2)
  | .next => do
    if !s.1.hasNext then none
    let (nextElement, w) ← s.1.next
    return (w, s.2 ++ [nextElement])

/-- Only the last element that is pushed to the front may be known. -/
def New (s : Walker T × List T) : Call T → Prop
  | .pushFront nextElements =>
    nextElements.dropLast.Nodup ∧ ∀ x ∈ nextElements.dropLast, x ∉ s.1.pushedElements
  | _ => True

/-- What was pushed was visited or is still to be, once. -/
structure Holds (w : Walker T) (visited : List T) : Prop where
  nodup : (visited ++ w.stack).Nodup
  pushed : ∀ x, x ∈ w.pushedElements ↔ x ∈ visited ++ w.stack
  once : w.revisitElements = false
  going : w.walkStopped = false

variable {w : Walker T} {visited queue xs : List T} {s t : Walker T × List T}

/-- The elements become known. -/
def Adds (w : Walker T) (xs : List T) (after : Walker T) (visited : List T) : Prop :=
  Holds after visited ∧ ∀ x, x ∈ after.pushedElements ↔ x ∈ w.pushedElements ∨ x ∈ xs

section

variable (holds : Holds w visited)
include holds

theorem Holds.known (known : x ∈ w.pushedElements) :
    Adds w [x] { w with pushedElements := w.pushedElements.insert x } visited := by
  have same : ∀ y, y ∈ w.pushedElements.insert x ↔ y ∈ w.pushedElements := by
    intro y
    rw [OrderedSet.mem_insert, or_iff_left_of_imp fun same => same ▸ known]
  exact ⟨⟨holds.nodup, fun y => (same y).trans (holds.pushed y), holds.once, holds.going⟩,
    fun y => by simp⟩

theorem Holds.fresh (fresh : x ∉ w.pushedElements)
    (perm : queue.Perm (x :: w.stack)) :
    Adds w [x] { w with pushedElements := w.pushedElements.insert x, stack := queue } visited := by
  have moved :=
    (perm.append_left visited).trans perm_middle
  refine ⟨⟨?_, fun y => ?_, holds.once, holds.going⟩, fun y => by simp⟩
  · rw [moved.nodup_iff, nodup_cons, ← holds.pushed]
    exact ⟨fresh, holds.nodup⟩
  · rw [moved.mem_iff, OrderedSet.mem_insert, holds.pushed, mem_cons, or_comm]

theorem push_adds (x : T) : Adds w [x] (w.push x) visited := by
  unfold push
  by_cases known : x ∈ w.pushedElements
  · rw [if_pos ⟨known, holds.once⟩]
    exact holds.known known
  · rw [if_neg fun both => known both.1]
    exact holds.fresh known (perm_append_singleton ..)

theorem pushAll_adds (xs : List T) : Adds w xs (w.pushAll xs) visited := by
  induction xs generalizing w with
  | nil => exact ⟨holds, by simp [pushAll]⟩
  | cons x xs ih =>
    have first := push_adds holds x
    have rest := ih first.1
    exact ⟨rest.1, fun y => by rw [pushAll, foldl_cons, ← pushAll, rest.2, first.2]; simp [or_assoc]⟩

theorem pushFront_adds (nodup : xs.dropLast.Nodup)
    (fresh : ∀ x ∈ xs.dropLast, x ∉ w.pushedElements) : Adds w xs (w.pushFront xs) visited := by
  induction xs generalizing w with
  | nil => exact ⟨holds, by simp [pushFront]⟩
  | cons x xs ih =>
    unfold pushFront
    by_cases known : x ∈ w.pushedElements
    · rw [if_pos ⟨known, holds.once⟩]
      cases xs with
      | nil => exact holds.known known
      | cons y xs => exact absurd known (fresh x (by simp))
    · rw [if_neg fun both => known both.1]
      have first := holds.fresh known (Perm.refl _)
      have later : xs.dropLast.Nodup ∧ ∀ y ∈ xs.dropLast, y ∉ w.pushedElements.insert x := by
        cases xs with
        | nil => simp
        | cons y xs =>
          rw [dropLast_cons_cons, nodup_cons] at nodup
          refine ⟨nodup.2, fun z mem => ?_⟩
          rw [OrderedSet.mem_insert, not_or]
          exact ⟨fresh z (.tail _ mem), fun same => nodup.1 (same ▸ mem)⟩
      have rest := ih first.1 later.1 later.2
      exact ⟨rest.1, fun y => by rw [rest.2, first.2, mem_singleton, mem_cons, or_assoc]⟩

end

theorem step_next (going : w.walkStopped = false) : step ({ w with stack := x :: queue }, visited) .next =
    some ({ w with stack := queue }, visited ++ [x]) := by
  simp [step, hasNext, next, going]

theorem step_adds (holds : Holds s.1 s.2) (new : New s call) (ran : step s call = some t) :
    Adds s.1 call.elements t.1 t.2 := by
  cases call with
  | push x =>
    cases ran
    exact push_adds holds x
  | pushAll xs =>
    cases ran
    exact pushAll_adds holds xs
  | pushFront xs =>
    cases ran
    exact pushFront_adds holds new.1 new.2
  | next =>
    obtain ⟨⟨queue, pushedElements, stopped, revisit⟩, visited⟩ := s
    obtain ⟨nodup, pushed, once, going⟩ := holds
    cases queue with
    | nil => simp [step, hasNext] at ran
    | cons x queue =>
      cases (step_next going).symm.trans ran
      exact ⟨⟨by simpa using nodup, by simpa using pushed, once, going⟩, by simp [Call.elements]⟩

theorem run_adds {calls : List (Call T)} (holds : Holds s.1 s.2) (new : Along step New s calls)
    (ran : run step s calls = some t) : Adds s.1 (calls.flatMap Call.elements) t.1 t.2 := by
  induction calls generalizing s with
  | nil =>
    cases ran
    exact ⟨holds, by simp⟩
  | cons call calls ih =>
    obtain ⟨next, stepped, ran⟩ := Option.bind_eq_some_iff.mp ran
    have first := step_adds holds new.1 stepped
    have rest := ih first.1 (new.2 next stepped) ran
    exact ⟨rest.1, fun x => by rw [rest.2, first.2, flatMap_cons, mem_append, or_assoc]⟩

/-- Visiting until nothing is left takes as many calls as there are elements. -/
theorem run_next (going : w.walkStopped = false) : run step ({ w with stack := queue }, visited)
    (replicate queue.length .next) = some ({ w with stack := [] }, visited ++ queue) := by
  induction queue generalizing visited with
  | nil => simp
  | cons x queue ih =>
    rw [length_cons, replicate_succ, run_cons, step_next going, Option.bind_some, ih, append_assoc,
      singleton_append]

/-- Whatever is pushed before and between the visits is visited once, and nothing else is. -/
theorem walk_complete {calls : List (Call T)} (new : Along step New ({}, []) calls)
    (ran : run step ({}, []) calls = some (w, visited)) :
    ∃ last, run step (w, visited) (replicate w.stack.length .next) = some last ∧
      last.1.hasNext = false ∧ last.2.Nodup ∧ ∀ x, x ∈ last.2 ↔ ∃ call ∈ calls, x ∈ call.elements := by
  have start : Holds ({} : Walker T) [] := ⟨nodup_nil, fun x => by simp, rfl, rfl⟩
  obtain ⟨holds, pushed⟩ := run_adds start new ran
  refine ⟨_, run_next holds.going, rfl, holds.nodup, fun x => ?_⟩
  rw [← holds.pushed, pushed]
  simp

theorem walk_of_two : ∃ last : Walker Nat × List Nat,
    run step (⟨[2], .ofList [2, 3], false, false⟩, [3]) [.next] = some last ∧
      last.1.hasNext = false ∧ last.2.Nodup ∧
      ∀ x, x ∈ last.2 ↔ ∃ call ∈ [.pushFront [2, 3], .next, .push 3], x ∈ Call.elements call :=
  walk_complete ⟨⟨by decide, by decide⟩, fun _ _ => ⟨trivial, fun _ _ => ⟨trivial, fun _ _ => trivial⟩⟩⟩ rfl

/-- An element that is known hides the ones behind it. -/
theorem hidden_not_visited : run step (({} : Walker Nat), []) [.push 1, .pushFront [1, 2], .next] =
    some (⟨[], .ofList [1], false, false⟩, [1]) := rfl

end Walker
end HiveGo
