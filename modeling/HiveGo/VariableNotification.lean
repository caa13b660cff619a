import HiveGo.Runs
import Mathlib.Data.List.Basic

/-! Sequences of changes of one value, each given by the value before and the value after. -/
namespace HiveGo.ChangeChain

variable {ω : Type}

/-- Every change starts where the one before it ended, the first one at `start`. -/
def Linked (start : ω) : List (ω × ω) → Prop
  | [] => True
  | change :: changes => change.1 = start ∧ Linked change.2 changes

/-- The value after all of the changes. -/
def finish (start : ω) : List (ω × ω) → ω
  | [] => start
  | change :: changes => finish change.2 changes

theorem finish_concat (start : ω) : finish start (changes ++ [change]) = change.2 := by
  induction changes generalizing start with
  | nil => rfl
  | cons first changes ih => exact ih first.2

/-- A change that starts where the sequence ends prolongs it. -/
theorem linked_concat (linked : Linked start changes) :
    Linked start (changes ++ [(finish start changes, value)]) := by
  induction changes generalizing start with
  | nil => exact ⟨rfl, trivial⟩
  | cons first changes ih => exact ⟨linked.1, ih linked.2⟩

/-- The changes are changes, but for a first one that may repeat the value. -/
def Strict (repeats : Prop) (changes : List (ω × ω)) : Prop :=
  (∀ change ∈ changes.head?, change.1 = change.2 → repeats) ∧
    ∀ change ∈ changes.tail, change.1 ≠ change.2

theorem strict_concat (strict : Strict repeats changes)
    (differs : change.1 ≠ change.2) : Strict repeats (changes ++ [change]) := by
  cases changes with
  | nil =>
    refine ⟨?_, nofun⟩
    rintro _ ⟨⟩ same
    exact absurd same differs
  | cons first changes =>
    refine ⟨strict.1, fun other mem => ?_⟩
    rcases List.mem_append.mp mem with before | here
    · exact strict.2 other before
    · cases List.mem_singleton.mp here
      exact differs

end HiveGo.ChangeChain

/-! A variable with many writers and many subscribers at once. Writers take turns, but a
subscriber may register or leave at any moment: what keeps the order is the execution mutex of the
callback. -/
namespace HiveGo.VariableNotification

/-- How far `OnUpdate` is for a callback. -/
inductive Registration (ω : Type) where
  | unregistered
  | calling (currentValue : ω)
  | returning
  | returned
  deriving DecidableEq

/-- A callback with what it has received so far. `removed` says that its unsubscribe function
has taken it out of the list; the function returns once `unsubscribed` is set. -/
structure Subscriber (ω : Type) where
  registration : Registration ω := .unregistered
  triggerWithInitialZeroValue : Bool := false
  executionMutex : Bool := false
  lastUpdate : BitVec 64 := 0
  removed : Bool := false
  unsubscribed : Bool := false
  received : List (ω × ω) := []

/-- Where the loop over the callbacks is. -/
inductive Stage (κ : Type) where
  | looping
  | locked (k : κ)
  | invoked (k : κ)

/-- The write that holds `updateOrderMutex`, with the callbacks it still has to notify. -/
structure Writer (ω κ : Type) where
  previousValue : ω
  newValue : ω
  updateID : BitVec 64
  remaining : List κ
  stage : Stage κ

structure State (ω κ : Type) where
  value : ω
  uniqueUpdateID : BitVec 64 := 0
  registeredCallbacks : List κ := []
  writer : Option (Writer ω κ) := none
  subscribers : κ → Subscriber ω := fun _ => {}

inductive Event (ω κ : Type) where
  | write (computeFunc : ω → ω)
  /-- The write in progress goes on. -/
  | notify
  | register (k : κ) (triggerWithInitialZeroValue : Bool)
  /-- `OnUpdate` goes on. -/
  | registration (k : κ)
  | remove (k : κ)
  | markUnsubscribed (k : κ)

variable {ω κ : Type}

/-- `callback.LockExecution`, for a callback whose mutex is free. -/
def Subscriber.lockExecution (updateID : BitVec 64) (c : Subscriber ω) : Option (Subscriber ω) :=
  if c.unsubscribed || (updateID != 0 && updateID == c.lastUpdate) then none
  else some { c with lastUpdate := updateID, executionMutex := true }

variable [DecidableEq κ]

def State.update (s : State ω κ) (k : κ) (c : Subscriber ω) : State ω κ :=
  { s with subscribers := Function.update s.subscribers k c }

/-- `updateValue`: without a change there are no callbacks to trigger, and the write is over. -/
def updateValue [DecidableEq ω] (transformationFunc : ω → ω → ω) (s : State ω κ)
    (computeFunc : ω → ω) : State ω κ :=
  let newValue := transformationFunc s.value (computeFunc s.value)
  if newValue = s.value then s
  else
    { s with
      value := newValue
      uniqueUpdateID := s.uniqueUpdateID + 1
      writer := some {
        previousValue := s.value, newValue, updateID := s.uniqueUpdateID + 1
        remaining := s.registeredCallbacks, stage := .looping } }

/-- The next operation of the loop in `Compute`. -/
def notify (s : State ω κ) (w : Writer ω κ) : Option (State ω κ) :=
  match w.stage, w.remaining with
  | .looping, [] => some { s with writer := none }
  | .looping, k :: remaining =>
    if (s.subscribers k).executionMutex then none
    else
      match (s.subscribers k).lockExecution w.updateID with
      | none => some { s with writer := some { w with remaining } }
      | some c => some { s.update k c with writer := some { w with remaining, stage := .locked k } }
  | .locked k, _ =>
    let c := s.subscribers k
    some { s.update k { c with received := c.received ++ [(w.previousValue, w.newValue)] } with
      writer := some { w with stage := .invoked k } }
  | .invoked k, _ =>
    some { s.update k { s.subscribers k with executionMutex := false } with
      writer := some { w with stage := .looping } }

/-- `OnUpdate` up to the release of the value mutex. -/
def register (s : State ω κ) (k : κ) (triggerWithInitialZeroValue : Bool) : State ω κ :=
  let createdCallback : Subscriber ω :=
    { registration := .calling s.value, triggerWithInitialZeroValue }
  { s.update k ((createdCallback.lockExecution s.uniqueUpdateID).getD createdCallback) with
    registeredCallbacks := s.registeredCallbacks ++ [k] }

def step [DecidableEq ω] [Inhabited ω] (transformationFunc : ω → ω → ω) (s : State ω κ) :
    Event ω κ → Option (State ω κ)
  | .write computeFunc =>
    match s.writer with
    | some _ => none
    | none => some (updateValue transformationFunc s computeFunc)
  | .notify => s.writer.bind (notify s)
  | .register k triggerWithInitialZeroValue =>
    match (s.subscribers k).registration with
    | .unregistered => some (register s k triggerWithInitialZeroValue)
    | _ => none
  | .registration k =>
    let c := s.subscribers k
    match c.registration with
    | .calling currentValue =>
      if currentValue ≠ default ∨ c.triggerWithInitialZeroValue = true then
        some (s.update k { c with
          registration := .returning, received := c.received ++ [(default, currentValue)] })
      else some (s.update k { c with registration := .returning })
    | .returning =>
      some (s.update k { c with registration := .returned, executionMutex := false })
    | _ => none
  | .remove k =>
    let c := s.subscribers k
    match c.registration with
    | .returned =>
      some { s.update k { c with removed := true } with
        registeredCallbacks := s.registeredCallbacks.erase k }
    | _ => none
  | .markUnsubscribed k =>
    let c := s.subscribers k
    if c.removed ∧ c.executionMutex = false then some (s.update k { c with unsubscribed := true })
    else none

end HiveGo.VariableNotification
