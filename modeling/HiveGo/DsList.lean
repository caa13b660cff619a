import Mathlib.Logic.Function.Basic

/-! The doubly linked list with a sentinel. Fields of an element that were never stored are nil. A
call is undefined when it follows a nil pointer. The lists are used by one goroutine at a time,
without locks. -/
namespace HiveGo.DsList
open Function

/-- The sentinel of a list, or one of the elements that were created. -/
inductive Pointer where
  | root (l : Nat)
  | element (i : Nat)
  deriving Repr, DecidableEq

/-- The fields of all elements and of all lists. -/
structure Memory (T : Type) where
  next : Pointer → Option Pointer := fun _ => none
  prev : Pointer → Option Pointer := fun _ => none
  /-- The list that an element belongs to. -/
  list : Pointer → Option Nat := fun _ => none
  value : Pointer → Option T := fun _ => none
  len : Nat → Int := fun _ => 0
  /-- How many elements and how many lists were created. -/
  elements : Nat := 0
  lists : Nat := 0

variable {T : Type}

namespace Memory

/-- Store the next pointer. -/
def setNext (m : Memory T) (p : Pointer) (target : Option Pointer) : Memory T :=
  { m with next := update m.next p target }

/-- Store the previous pointer. -/
def setPrev (m : Memory T) (p : Pointer) (target : Option Pointer) : Memory T :=
  { m with prev := update m.prev p target }

/-- Take an element out from between its neighbours. -/
def unlink (m : Memory T) (e : Pointer) : Option (Memory T) := do
  let m := m.setNext (← m.prev e) (m.next e)
  return m.setPrev (← m.next e) (m.prev e)

/-- Put an element behind another one. -/
def link (m : Memory T) (e at_ : Pointer) : Option (Memory T) := do
  let m := m.setPrev e (some at_)
  let m := m.setNext e (m.next at_)
  let m := m.setNext (← m.prev e) (some e)
  return m.setPrev (← m.next e) (some e)

/-- Initialize or clear the list. The elements that were in it are not looked at. -/
def init (m : Memory T) (l : Nat) : Memory T :=
  let m := (m.setNext (.root l) (some (.root l))).setPrev (.root l) (some (.root l))
  { m with len := update m.len l 0 }

/-- One list more. -/
def newList (m : Memory T) : Memory T := init { m with lists := m.lists + 1 } m.lists

/-- Initialize a list that was never used. -/
def lazyInit (m : Memory T) (l : Nat) : Memory T :=
  if m.next (.root l) = none then m.init l else m

/-- Link an element and count it. -/
def insert (m : Memory T) (l : Nat) (e at_ : Pointer) : Option (Memory T) := do
  let m ← m.link e at_
  return { m with
    list := update m.list e (some l), len := update m.len l (m.len l + 1) }

/-- Memory with one element more, which holds the value. -/
def newElement (m : Memory T) (v : T) : Memory T :=
  { m with
    value := update m.value (.element m.elements) (some v), elements := m.elements + 1 }

/-- Create an element behind another one. -/
def insertValue (m : Memory T) (l : Nat) (v : T) (at_ : Pointer) : Option (Pointer × Memory T) := do
  let newElement := .element m.elements
  return (newElement, ← (m.newElement v).insert l newElement at_)

/-- Unlink an element, which then belongs to no list. -/
def removeElement (m : Memory T) (l : Nat) (e : Pointer) : Option (Memory T) := do
  let m ← m.unlink e
  let m := (m.setNext e none).setPrev e none
  return { m with
    list := update m.list e none, len := update m.len l (m.len l - 1) }

/-- Link an element behind another one of its list. -/
def move (m : Memory T) (e at_ : Pointer) : Option (Memory T) :=
  if e = at_ then some m
  else do
    let m ← m.unlink e
    m.link e at_

/-- The first element. -/
def front (m : Memory T) (l : Nat) : Option Pointer :=
  if m.len l = 0 then none else m.next (.root l)

/-- The last element. -/
def back (m : Memory T) (l : Nat) : Option Pointer :=
  if m.len l = 0 then none else m.prev (.root l)

/-- `ListElement.Next` and `ListElement.Prev`. -/
def neighbour (m : Memory T) (direction : Pointer → Option Pointer) (e : Pointer) :
    Option Pointer :=
  match m.list e with
  | some l => if direction e ≠ some (.root l) then direction e else none
  | none => none

/-- A new element behind the sentinel. -/
def pushFront (m : Memory T) (l : Nat) (value : T) : Option (Pointer × Memory T) :=
  (m.lazyInit l).insertValue l value (.root l)

/-- A new element before the sentinel. -/
def pushBack (m : Memory T) (l : Nat) (value : T) : Option (Pointer × Memory T) := do
  let m := m.lazyInit l
  m.insertValue l value (← m.prev (.root l))

/-- The value, also of an element that is not in the list. -/
def remove (m : Memory T) (l : Nat) (e : Pointer) : Option (T × Memory T) := do
  let m ← if m.list e = some l then m.removeElement l e else some m
  return (← m.value e, m)

/-- The new element, or nil if the position is not in the list. -/
def insertBefore (m : Memory T) (l : Nat) (value : T) (position : Pointer) :
    Option (Option Pointer × Memory T) := do
  if m.list position ≠ some l then return (none, m)
  let (e, m) ← m.insertValue l value (← m.prev position)
  return (some e, m)

/-- As `insertBefore`, on the other side. -/
def insertAfter (m : Memory T) (l : Nat) (value : T) (position : Pointer) :
    Option (Option Pointer × Memory T) := do
  if m.list position ≠ some l then return (none, m)
  let (e, m) ← m.insertValue l value position
  return (some e, m)

/-- An element of another list stays where it is. -/
def moveToFront (m : Memory T) (l : Nat) (element : Pointer) : Option (Memory T) :=
  if m.list element ≠ some l ∨ m.next (.root l) = some element then some m
  else m.move element (.root l)

/-- As `moveToFront`, at the other end. -/
def moveToBack (m : Memory T) (l : Nat) (element : Pointer) : Option (Memory T) :=
  if m.list element ≠ some l ∨ m.prev (.root l) = some element then some m
  else do m.move element (← m.prev (.root l))

/-- The typed position is that of the element, not that of the position. -/
def moveBefore (m : Memory T) (l : Nat) (element position : Pointer) : Option (Memory T) :=
  let positionTyped := element
  if m.list element ≠ some l ∨ element = position ∨ m.list positionTyped ≠ some l then some m
  else do m.move element (← m.prev positionTyped)

/-- As `moveBefore`, on the other side. -/
def moveAfter (m : Memory T) (l : Nat) (element position : Pointer) : Option (Memory T) :=
  let positionTyped := element
  if m.list element ≠ some l ∨ element = position ∨ m.list positionTyped ≠ some l then some m
  else m.move element positionTyped

/-- The loop of `PushBackList`, with the number of elements that are left. -/
def pushBackAll (m : Memory T) (l : Nat) : (i : Nat) → (e : Option Pointer) → Option (Memory T)
  | 0, _ => some m
  | i + 1, e => do
    let e ← e
    let (_, m) ← m.insertValue l (← m.value e) (← m.prev (.root l))
    pushBackAll m l i (m.neighbour m.next e)

/-- Copy as many elements as the other list has at first. -/
def pushBackList (m : Memory T) (l other : Nat) : Option (Memory T) :=
  let m := m.lazyInit l
  m.pushBackAll l (m.len other).toNat (m.front other)

/-- The loop of `PushFrontList`. -/
def pushFrontAll (m : Memory T) (l : Nat) : (i : Nat) → (e : Option Pointer) → Option (Memory T)
  | 0, _ => some m
  | i + 1, e => do
    let e ← e
    let (_, m) ← m.insertValue l (← m.value e) (.root l)
    pushFrontAll m l i (m.neighbour m.prev e)

/-- As `pushBackList`, from the last element on. -/
def pushFrontList (m : Memory T) (l other : Nat) : Option (Memory T) :=
  let m := m.lazyInit l
  m.pushFrontAll l (m.len other).toNat (m.back other)

/-- The elements that a loop over a list meets. It is undefined when they are more than there
are elements at all. -/
def walk (m : Memory T) (direction : Pointer → Option Pointer) :
    (budget : Nat) → Option Pointer → Option (List Pointer)
  | _, none => some []
  | 0, some _ => none
  | budget + 1, some e => do
    return e :: (← m.walk direction budget (m.neighbour direction e))

/-- The elements of a list, from `Front` on. -/
def elementsOf (m : Memory T) (l : Nat) : Option (List Pointer) :=
  m.walk m.next m.elements (m.front l)

/-- The values of a list. -/
def values (m : Memory T) (l : Nat) : Option (List T) := do
  (← m.elementsOf l).mapM m.value

end Memory

/-- The operations that change a list. -/
inductive Operation (T : Type) where
  | newList
  | init (l : Nat)
  | pushFront (l : Nat) (value : T)
  | pushBack (l : Nat) (value : T)
  | remove (l : Nat) (e : Pointer)
  | insertBefore (l : Nat) (value : T) (position : Pointer)
  | insertAfter (l : Nat) (value : T) (position : Pointer)
  | moveToFront (l : Nat) (element : Pointer)
  | moveToBack (l : Nat) (element : Pointer)
  | moveBefore (l : Nat) (element position : Pointer)
  | moveAfter (l : Nat) (element position : Pointer)
  | pushBackList (l other : Nat)
  | pushFrontList (l other : Nat)

/-- The lists that an operation is made on. -/
def Operation.lists : Operation T → List Nat
  | newList => []
  | init l | pushFront l _ | pushBack l _ | remove l _ | insertBefore l _ _ | insertAfter l _ _
  | moveToFront l _ | moveToBack l _ | moveBefore l _ _ | moveAfter l _ _ => [l]
  | pushBackList l other | pushFrontList l other => [l, other]

/-- An operation, without what it returns. -/
def perform (m : Memory T) : Operation T → Option (Memory T)
  | .newList => some m.newList
  | .init l => some (m.init l)
  | .pushFront l value => (m.pushFront l value).map Prod.snd
  | .pushBack l value => (m.pushBack l value).map Prod.snd
  | .remove l e => (m.remove l e).map Prod.snd
  | .insertBefore l value position => (m.insertBefore l value position).map Prod.snd
  | .insertAfter l value position => (m.insertAfter l value position).map Prod.snd
  | .moveToFront l element => m.moveToFront l element
  | .moveToBack l element => m.moveToBack l element
  | .moveBefore l element position => m.moveBefore l element position
  | .moveAfter l element position => m.moveAfter l element position
  | .pushBackList l other => m.pushBackList l other
  | .pushFrontList l other => m.pushFrontList l other

/-- An operation on lists that were created. -/
def step (m : Memory T) (operation : Operation T) : Option (Memory T) :=
  if ∀ l ∈ operation.lists, l < m.lists then perform m operation else none

end HiveGo.DsList
