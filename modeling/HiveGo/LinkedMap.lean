import HiveGo.ShrinkingMap

/-! The ordered map: a dictionary of elements that are linked in the order in which their keys
were set. The elements of all maps live in one memory, and nil is `none`. A call is undefined when
it follows a nil pointer, or when a loop visits more elements than there are. -/
namespace HiveGo.LinkedMap

/-- An entry of a map with its neighbours. -/
structure Element (K V : Type) where
  key : K
  value : V
  prev : Option Nat := none
  next : Option Nat := none
  deriving Repr, DecidableEq

/-- The fields of a map. -/
structure OrderedMap (K : Type) where
  head : Option Nat := none
  tail : Option Nat := none
  dictionary : ShrinkingMap K Nat := .new
  size : Int := 0

/-- The memory and the map that a call is made on. -/
structure State (K V : Type) where
  heap : List (Element K V)
  map : OrderedMap K

variable {K V σ γ : Type} [DecidableEq K]

namespace State

omit [DecidableEq K] in
/-- The next pointer of an element; the one after nil is the head. -/
def setNext (s : State K V) (place target : Option Nat) : Option (State K V) :=
  match place with
  | none => some { s with map := { s.map with head := target } }
  | some pointer => do
    let element ← s.heap[pointer]?
    return { s with heap := s.heap.set pointer { element with next := target } }

omit [DecidableEq K] in
/-- The previous pointer of an element; the one before nil is the tail. -/
def setPrev (s : State K V) (place target : Option Nat) : Option (State K V) :=
  match place with
  | none => some { s with map := { s.map with tail := target } }
  | some pointer => do
    let element ← s.heap[pointer]?
    return { s with heap := s.heap.set pointer { element with prev := target } }

/-- An empty map. -/
def new (heap : List (Element K V)) : State K V := { heap, map := {} }

omit [DecidableEq K] in
/-- The entry at one of the ends. -/
def entryAt (s : State K V) (place : Option Nat) : Option (Option (K × V)) :=
  match place with
  | none => some none
  | some pointer => do
    let element ← s.heap[pointer]?
    return some (element.key, element.value)

omit [DecidableEq K] in
/-- The first entry. -/
def head (s : State K V) : Option (Option (K × V)) := s.entryAt s.map.head

omit [DecidableEq K] in
/-- The last entry. -/
def tail (s : State K V) : Option (Option (K × V)) := s.entryAt s.map.tail

/-- Whether a key is set. -/
def has (s : State K V) (key : K) : Bool := s.map.dictionary.has key

/-- The value of a key. -/
def get (s : State K V) (key : K) : Option (Option V) :=
  match s.map.dictionary.get key with
  | none => some none
  | some pointer => do
    let orderedMapElement ← s.heap[pointer]?
    return some orderedMapElement.value

omit [DecidableEq K] in
/-- The new element becomes the head of an empty map, and the one after the tail of another. -/
def linkBehindTail (s : State K V) (newElement : Nat) : Option (State K V) :=
  match s.map.head with
  | none => s.setNext none (some newElement)
  | some _ => do
    let tail ← s.map.tail
    let s ← s.setNext (some tail) (some newElement)
    s.setPrev (some newElement) s.map.tail

/-- The value of a key that is there already is replaced. A new element is put behind the tail. -/
def set (s : State K V) (key : K) (newValue : V) : Option (Option V × State K V) :=
  match s.map.dictionary.get key with
  | some pointer => do
    let oldValue ← s.heap[pointer]?
    return (some oldValue.value,
      { s with heap := s.heap.set pointer { oldValue with value := newValue } })
  | none => do
    let newElement := s.heap.length
    let s : State K V := { s with heap := s.heap ++ [{ key, value := newValue }] }
    let s ← s.linkBehindTail newElement
    let s ← s.setPrev none (some newElement)
    return (none, { s with map := { s.map with
      size := s.map.size + 1, dictionary := s.map.dictionary.set key newElement } })

/-- The loop of an iteration. The consumer may change whatever the memory is part of; where the
iteration goes on is read after the call. -/
def iterate (heapOf : σ → List (Element K V)) (follow : Element K V → Option Nat)
    (consumer : K → V → σ → Option (Bool × σ)) :
    (budget : Nat) → (currentEntry : Option Nat) → σ → Option (Bool × σ)
  | _, none, s => some (true, s)
  | 0, some _, _ => none
  | budget + 1, some pointer, s => do
    let currentEntry ← (heapOf s)[pointer]?
    let (goOn, s) ← consumer currentEntry.key currentEntry.value s
    if !goOn then return (false, s)
    let currentEntry ← (heapOf s)[pointer]?
    iterate heapOf follow consumer budget (follow currentEntry) s

omit [DecidableEq K] in
/-- From the head on, until the consumer returns false. -/
def forEach (s : State K V) (consumer : K → V → State K V × γ → Option (Bool × State K V × γ))
    (kept : γ) : Option (Bool × State K V × γ) :=
  iterate (fun both => both.1.heap) Element.next consumer s.heap.length s.map.head (s, kept)

omit [DecidableEq K] in
/-- From the tail on. -/
def forEachReverse (s : State K V)
    (consumer : K → V → State K V × γ → Option (Bool × State K V × γ)) (kept : γ) :
    Option (Bool × State K V × γ) :=
  iterate (fun both => both.1.heap) Element.prev consumer s.heap.length s.map.tail (s, kept)

/-- The elements stay in memory. -/
def clear (s : State K V) : State K V := new s.heap

/-- Delete a key. Its element keeps its own pointers. -/
def delete (s : State K V) (key : K) : Option (Bool × State K V) := do
  match ← s.get key with
  | none => return (false, s)
  | some _ =>
    match s.map.dictionary.get key with
    | none => return (false, s)
    | some pointer =>
      let s := { s with map := { s.map with
        dictionary := s.map.dictionary.delete key, size := s.map.size - 1 } }
      let value ← s.heap[pointer]?
      let s ← s.setNext value.prev value.next
      let value ← s.heap[pointer]?
      let s ← s.setPrev value.next value.prev
      return (true, s)

omit [DecidableEq K] in
/-- The number of keys. -/
def size (s : State K V) : Int := s.map.size

/-- The copy, in the memory that has its elements as well. -/
def clone (s : State K V) : Option (State K V) := do
  let (_, cloned) ← iterate State.heap Element.next
    (fun key value cloned => do
      let (_, cloned) ← cloned.set key value
      return (true, cloned))
    s.heap.length s.map.head (new s.heap)
  return cloned

end State

end HiveGo.LinkedMap
