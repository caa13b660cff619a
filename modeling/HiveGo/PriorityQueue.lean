import HiveGo.GeneralHeap
import Mathlib.Data.Multiset.Range

/-! The priority queue, as a multiset of elements that are taken out in the order of their
priorities or by the function that was returned when they were pushed. Its operations hold a
lock. -/
namespace HiveGo.PriorityQueue

open GeneralHeap

variable {K V : Type} (compareTo : K → K → Int)

/-- The element that was pushed stands for the function that removes it. -/
def push (s : State K V) (element : V) (priority : K) : Option (Nat × State K V) := do
  let heapElement := s.elements.length
  return (heapElement, ← BinaryHeap.push (interface compareTo) (s.newElement priority element)
    heapElement)

def remove (s : State K V) (heapElement : Nat) : Option (State K V) := do
  let index := (← s.elements[heapElement]?).index
  if index ≠ -1 then
    -- an index below the first place would panic
    if index < 0 then none
    else (BinaryHeap.remove (interface compareTo) s index.toNat).map Prod.snd
  else return s

def peek (s : State K V) : Option (Option V) :=
  if s.len ≠ 0 then (s.at_ 0).map fun element => some element.value else some none

/-- The value of the element that is removed first. -/
def popValue (s : State K V) : Option (V × State K V) := do
  let (heapElement, s) ← BinaryHeap.pop (interface compareTo) s
  return ((← s.elements[heapElement]?).value, s)

def pop (s : State K V) : Option (Option V × State K V) :=
  if s.len ≠ 0 then (popValue compareTo s).map fun (value, s) => (some value, s)
  else some (none, s)

/-- Take out elements as long as the first one meets the condition. The budget is an upper bound
on the number of rounds. -/
def popWhile (condition : HeapElement K V → Bool) :
    (budget : Nat) → State K V → Option (List V × State K V)
  | 0, _ => none
  | budget + 1, s =>
    if s.len = 0 then some ([], s)
    else do
      if condition (← s.at_ 0) then
        let (value, s) ← popValue compareTo s
        let (values, s) ← popWhile condition budget s
        return (value :: values, s)
      else return ([], s)

def popUntil (s : State K V) (priority : K) : Option (List V × State K V) :=
  popWhile compareTo (fun element => compareTo element.key priority ≤ 0) (s.len + 1) s

def popAll (s : State K V) : Option (List V × State K V) :=
  popWhile compareTo (fun _ => true) (s.len + 1) s

inductive Operation (K V : Type) where
  | push (element : V) (priority : K)
  | pop
  | peek
  | popUntil (priority : K)
  | popAll
  /-- Call the function that was returned by the given call of `Push`. -/
  | remove (heapElement : Nat)

inductive Result (V : Type) where
  | done
  | element (value : Option V)
  | elements (values : List V)
  deriving Repr, DecidableEq

def step (s : State K V) : Operation K V → Option (Result V × State K V)
  | .push element priority => do
    let (_, s) ← push compareTo s element priority
    return (.done, s)
  | .pop => do
    let (value, s) ← pop compareTo s
    return (.element value, s)
  | .peek => do return (.element (← peek s), s)
  | .popUntil priority => do
    let (values, s) ← popUntil compareTo s priority
    return (.elements values, s)
  | .popAll => do
    let (values, s) ← popAll compareTo s
    return (.elements values, s)
  | .remove heapElement => do return (.done, ← remove compareTo s heapElement)

/-- The results of a sequence of operations, and the queue after it. -/
def execute (s : State K V) : List (Operation K V) → Option (List (Result V) × State K V)
  | [] => some ([], s)
  | operation :: operations => do
    let (result, s) ← step compareTo s operation
    let (results, s) ← execute s operations
    return (result :: results, s)

/-! The multiset that the queue stands for. -/

/-- How many elements were pushed, and those that are in the queue. -/
structure Bag (K V : Type) where
  pushed : Nat := 0
  queued : Multiset (Entry K V) := 0

/-- An entry of minimal priority. -/
def Minimal (queued : Multiset (Entry K V)) (entry : Entry K V) : Prop :=
  entry ∈ queued ∧ ∀ other ∈ queued, Entry.Le compareTo entry other

/-- What an operation does: its result and the entries that leave the queue. -/
inductive Effect : Bag K V → Operation K V → Result V → List (Entry K V) → Bag K V → Prop
  | push {n queued} (element : V) (priority : K) :
    Effect ⟨n, queued⟩ (.push element priority) .done [] ⟨n + 1, ⟨n, priority, element⟩ ::ₘ queued⟩
  | popEmpty {n} : Effect ⟨n, 0⟩ .pop (.element none) [] ⟨n, 0⟩
  | pop {n queued} {entry : Entry K V} (minimal : Minimal compareTo (entry ::ₘ queued) entry) :
    Effect ⟨n, entry ::ₘ queued⟩ .pop (.element (some entry.value)) [entry] ⟨n, queued⟩
  | peekEmpty {n} : Effect ⟨n, 0⟩ .peek (.element none) [] ⟨n, 0⟩
  | peek {n queued} {entry : Entry K V} (minimal : Minimal compareTo queued entry) :
    Effect ⟨n, queued⟩ .peek (.element (some entry.value)) [] ⟨n, queued⟩
  | popUntil {n queued} {priority : K} {leaving : List (Entry K V)}
    (sorted : leaving.Pairwise (Entry.Le compareTo))
    (exactly : ↑leaving = queued.filter fun entry => compareTo entry.key priority ≤ 0) :
    Effect ⟨n, queued⟩ (.popUntil priority) (.elements (leaving.map Entry.value)) leaving
      ⟨n, queued.filter fun entry => ¬ compareTo entry.key priority ≤ 0⟩
  | popAll {n} {leaving : List (Entry K V)} (sorted : leaving.Pairwise (Entry.Le compareTo)) :
    Effect ⟨n, ↑leaving⟩ .popAll (.elements (leaving.map Entry.value)) leaving ⟨n, 0⟩
  | remove {n queued} (entry : Entry K V) :
    Effect ⟨n, entry ::ₘ queued⟩ (.remove entry.pointer) .done [entry] ⟨n, queued⟩
  | removeGone {n queued heapElement} (called : heapElement < n)
    (gone : ∀ entry ∈ queued, entry.pointer ≠ heapElement) :
    Effect ⟨n, queued⟩ (.remove heapElement) .done [] ⟨n, queued⟩

/-- What a sequence of operations does, with all entries that leave the queue on the way. -/
inductive Effects : Bag K V → List (Operation K V) → List (Result V) → List (Entry K V) →
    Bag K V → Prop
  | nil {bag} : Effects bag [] [] [] bag
  | cons {bag next last operation operations result results leaving later}
    (first : Effect compareTo bag operation result leaving next)
    (rest : Effects next operations results later last) :
    Effects bag (operation :: operations) (result :: results) (leaving ++ later) last

/-- The operation can be called after so many calls of `Push`. -/
def Operation.CallableAt (pushed : Nat) : Operation K V → Prop
  | .remove heapElement => heapElement < pushed
  | _ => True

/-- How many calls of `Push` there were after the operation. -/
def Operation.pushes (pushed : Nat) : Operation K V → Nat
  | .push _ _ => pushed + 1
  | _ => pushed

/-- Only functions that were returned by `Push` are called. -/
def Callable : (pushed : Nat) → List (Operation K V) → Prop
  | _, [] => True
  | pushed, operation :: operations =>
    operation.CallableAt pushed ∧ Callable (operation.pushes pushed) operations

end HiveGo.PriorityQueue
