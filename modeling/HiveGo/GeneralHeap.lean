import HiveGo.BinaryHeap
import HiveGo.OrderedMap

/-! The heap of the priority queues. Its elements are shared with the functions that remove them,
so every element stores the place that it has in the heap. -/
namespace HiveGo.GeneralHeap
open List BinaryHeap Option

structure HeapElement (K V : Type) where
  value : V
  key : K
  index : Int
  deriving Repr, DecidableEq

/-- The elements that were created, and the heap of pointers to some of them. -/
structure State (K V : Type) where
  elements : List (HeapElement K V) := []
  heap : List Nat := []
  deriving Repr, DecidableEq

variable {K V : Type} (compareTo : K → K → Int)
variable {i : Nat}

namespace State

/-- The element at a place of the heap. -/
def at_ (s : State K V) (i : Nat) : Option (HeapElement K V) := do
  s.elements[← s.heap[i]?]?

def setIndex (s : State K V) (pointer : Nat) (index : Int) : State K V :=
  { s with elements := s.elements.modify pointer fun element => { element with index } }

/-- One element more, which is not in the heap yet. -/
def newElement (s : State K V) (key : K) (value : V) : State K V :=
  { s with elements := s.elements ++ [{ key, value, index := 0 }] }

def len (s : State K V) : Nat := s.heap.length

def less (s : State K V) (i j : Nat) : Option Bool := do
  return decide (compareTo (← s.at_ i).key (← s.at_ j).key < 0)

def swap (s : State K V) (i j : Nat) : Option (State K V) := do
  let a ← s.heap[i]?
  let b ← s.heap[j]?
  let s := { s with heap := (s.heap.set i b).set j a }
  return (s.setIndex b i).setIndex a j

def push (s : State K V) (data : Nat) : Option (State K V) :=
  let s := { s with heap := s.heap ++ [data] }
  some (s.setIndex data (s.len - 1 : Nat))

def pop (s : State K V) : Option (Nat × State K V) := do
  let data ← s.heap.getLast?
  let s := { s with heap := s.heap.dropLast }
  return (data, s.setIndex data (-1))

end State

def interface : BinaryHeap.Interface (State K V) Nat where
  len := State.len
  less := State.less compareTo
  swap := State.swap
  push := State.push
  pop := State.pop

/-- `CompareTo` is a total preorder. -/
structure IsTotalPreorder : Prop where
  sign : ∀ a b, compareTo a b < 0 ↔ 0 < compareTo b a
  trans : ∀ a b c, compareTo a b ≤ 0 → compareTo b c ≤ 0 → compareTo a c ≤ 0

/-- An element that is queued. -/
structure Entry (K V : Type) where
  pointer : Nat
  key : K
  value : V
  deriving Repr, DecidableEq

namespace Entry

def lt (a b : Entry K V) : Bool := decide (compareTo a.key b.key < 0)

/-- The first entry is to be taken before the second, or they are equal. -/
def Le (a b : Entry K V) : Prop := compareTo a.key b.key ≤ 0

end Entry

variable {compareTo}

theorem IsTotalPreorder.lt_eq_false_iff (preorder : IsTotalPreorder compareTo) :
    Entry.lt compareTo b a = false ↔ Entry.Le compareTo a b := by
  have sign := preorder.sign b.key a.key
  unfold Entry.lt Entry.Le
  rw [decide_eq_false_iff_not]
  omega

theorem IsTotalPreorder.isStrict (preorder : IsTotalPreorder compareTo) :
    BinaryHeap.IsStrict (Entry.lt (V := V) compareTo) where
  asymm a b less := by
    have sign := preorder.sign a.key b.key
    rw [Entry.lt, decide_eq_true_iff] at less
    rw [Entry.lt, decide_eq_false_iff_not]
    omega
  trans a b c first second := by
    rw [preorder.lt_eq_false_iff] at first second ⊢
    exact preorder.trans _ _ _ first second

namespace State

/-- The key and the value of an element. -/
def contents (s : State K V) : List (K × V) :=
  s.elements.map fun element => (element.key, element.value)

def indexOf (s : State K V) (pointer : Nat) : Option Int :=
  s.elements[pointer]?.map HeapElement.index

@[simp] theorem contents_setIndex (s : State K V) :
    (s.setIndex pointer index).contents = s.contents := by
  apply ext_getElem?
  intro i
  simp only [contents, setIndex, getElem?_map, getElem?_modify]
  cases s.elements[i]? with
  | none => rfl
  | some element =>
    split <;> rfl

@[simp] theorem length_setIndex (s : State K V) :
    (s.setIndex pointer index).elements.length = s.elements.length := length_modify ..

theorem indexOf_setIndex (s : State K V) (made : pointer < s.elements.length) :
    (s.setIndex pointer index).indexOf other =
      if other = pointer then some index else s.indexOf other := by
  unfold indexOf setIndex
  rw [getElem?_modify]
  by_cases same : pointer = other
  · subst same
    rw [getElem?_eq_getElem made]
    simp
  · rw [if_neg (Ne.symm same)]
    simp [same]

end State

/-- The heap consists of the entries, and every element knows its place. The keys and the values
of all elements are given. -/
structure Holds (elements : List (K × V)) (s : State K V) (entries : List (Entry K V)) : Prop where
  contents : s.contents = elements
  heap : s.heap = entries.map Entry.pointer
  stored : ∀ entry ∈ entries, elements[entry.pointer]? = some (entry.key, entry.value)
  distinct : s.heap.Nodup
  inside : ∀ (i pointer : Nat), s.heap[i]? = some pointer → s.indexOf pointer = some (i : Int)
  outside : ∀ pointer, pointer < elements.length → pointer ∉ s.heap → s.indexOf pointer = some (-1)

namespace Holds

variable {entries : List (Entry K V)}

section

variable {elements : List (K × V)} {s : State K V} (holds : Holds elements s entries)
include holds

theorem length_eq : s.elements.length = elements.length := by
  rw [← holds.contents, State.contents, length_map]

theorem pointer_lt (mem : entry ∈ entries) : entry.pointer < s.elements.length := by
  rw [holds.length_eq]
  exact (List.getElem?_eq_some_iff.mp (holds.stored entry mem)).1

theorem getElem?_heap (found : entries[i]? = some entry) : s.heap[i]? = some entry.pointer := by
  rw [holds.heap, getElem?_map, found]
  rfl

theorem at_eq (found : entries[i]? = some entry) :
    ∃ element, s.at_ i = some element ∧ element.key = entry.key ∧ element.value = entry.value := by
  have stored := holds.stored entry (mem_of_getElem? found)
  rw [← holds.contents, State.contents, getElem?_map, map_eq_some_iff] at stored
  obtain ⟨element, here, equal⟩ := stored
  refine ⟨element, ?_, congrArg Prod.fst equal, congrArg Prod.snd equal⟩
  rw [State.at_, holds.getElem?_heap found]
  exact here

/-- Equal pointers are at equal places. -/
theorem place_inj (first : s.heap[i]? = some pointer)
    (second : s.heap[j]? = some pointer) : i = j := by
  have bound := (List.getElem?_eq_some_iff.mp first).1
  exact (List.getElem?_inj bound holds.distinct).mp (first.trans second.symm)

theorem swap (left : i < entries.length)
    (right : j < entries.length) :
    ∃ t, s.swap i j = some t ∧ Holds elements t (exchange entries i j) := by
  have first := holds.getElem?_heap (getElem?_eq_getElem left)
  have second := holds.getElem?_heap (getElem?_eq_getElem right)
  have firstCreated := holds.pointer_lt (getElem_mem left)
  have secondCreated := holds.pointer_lt (getElem_mem right)
  set a := entries[i].pointer
  set b := entries[j].pointer
  have exchanged := exchange_eq first second
  let swapped : State K V := { s with heap := exchange s.heap i j }
  have perm := exchange_perm s.heap i j
  have index : ∀ ptr, ((swapped.setIndex b i).setIndex a j).indexOf ptr =
      if ptr = a then some ↑j else if ptr = b then some ↑i else s.indexOf ptr := by
    intro ptr
    rw [State.indexOf_setIndex _ (by simpa using firstCreated),
      State.indexOf_setIndex _ (by exact secondCreated)]
    rfl
  refine ⟨(swapped.setIndex b i).setIndex a j, ?_, ?_, ?_, ?_, ?_, ?_, ?_⟩
  · simp only [State.swap, first, second, bind_eq_bind, bind_some, swapped, exchanged]
    rfl
  · rw [State.contents_setIndex, State.contents_setIndex]
    exact holds.contents
  · rw [map_exchange, ← holds.heap]
    rfl
  · intro entry mem
    exact holds.stored entry ((exchange_perm entries i j).mem_iff.mp mem)
  · exact perm.nodup_iff.mpr holds.distinct
  · intro k ptr found
    change (exchange s.heap i j)[k]? = some ptr at found
    rw [getElem?_exchange first second] at found
    rw [index]
    by_cases atRight : k = j
    · rw [if_pos atRight, some.injEq] at found
      rw [if_pos found.symm, atRight]
    · rw [if_neg atRight] at found
      by_cases atLeft : k = i
      · rw [if_pos atLeft, some.injEq] at found
        have apart : ptr ≠ a := by
          rintro rfl
          exact atRight (atLeft.trans (holds.place_inj first (found ▸ second)))
        rw [if_neg apart, if_pos found.symm, atLeft]
      · rw [if_neg atLeft] at found
        rw [if_neg, if_neg]
        · exact holds.inside k ptr found
        · rintro rfl
          exact atRight (holds.place_inj found second)
        · rintro rfl
          exact atLeft (holds.place_inj found first)
  · intro ptr made absent
    have missing : ptr ∉ s.heap := fun mem => absent (perm.mem_iff.mpr mem)
    rw [index, if_neg, if_neg]
    · exact holds.outside ptr made missing
    · rintro rfl
      exact missing (mem_of_getElem? second)
    · rintro rfl
      exact missing (mem_of_getElem? first)

end

/-- The last element of the heap leaves it. -/
theorem pop (holds : Holds elements s (entries ++ [entry])) :
    ∃ t, s.pop = some (entry.pointer, t) ∧ Holds elements t entries := by
  have heap : s.heap = entries.map Entry.pointer ++ [entry.pointer] := by
    rw [holds.heap, map_append]
    rfl
  have made := holds.pointer_lt (mem_append_right entries (mem_singleton_self entry))
  have nodup := holds.distinct
  rw [heap, nodup_append] at nodup
  let shorter : State K V := { s with heap := entries.map Entry.pointer }
  have index : ∀ ptr, (shorter.setIndex entry.pointer (-1)).indexOf ptr =
      if ptr = entry.pointer then some (-1) else s.indexOf ptr := by
    intro ptr
    rw [State.indexOf_setIndex _ (by exact made)]
    rfl
  refine ⟨shorter.setIndex entry.pointer (-1), ?_, ?_, rfl, ?_, nodup.1, ?_, ?_⟩
  · simp only [State.pop, heap, getLast?_concat, dropLast_concat]
    rfl
  · rw [State.contents_setIndex]
    exact holds.contents
  · intro other mem
    exact holds.stored other (mem_append_left _ mem)
  · intro i ptr found
    rw [index, if_neg]
    · refine holds.inside i ptr ?_
      rw [heap]
      exact getElem?_append_of_some found _
    · exact nodup.2.2 ptr (mem_of_getElem? found) _ (mem_singleton_self _)
  · intro ptr bound absent
    rw [index]
    split
    · rfl
    · rename_i other
      refine holds.outside ptr bound ?_
      rw [heap, mem_append, mem_singleton]
      exact not_or.mpr ⟨absent, other⟩

/-- A new element is put at the end of the heap. -/
theorem push (holds : Holds elements s entries) (key : K) (value : V) :
    ∃ t, (s.newElement key value).push s.elements.length = some t ∧
      Holds (elements ++ [(key, value)]) t (entries ++ [⟨s.elements.length, key, value⟩]) := by
  have fresh : s.elements.length ∉ s.heap := by
    rw [holds.heap, List.mem_map]
    rintro ⟨entry, mem, same⟩
    exact Nat.lt_irrefl _ (same ▸ holds.pointer_lt mem)
  let longer : State K V := { s.newElement key value with heap := s.heap ++ [s.elements.length] }
  have made : s.elements.length < longer.elements.length := by simp [longer, State.newElement]
  have index : ∀ ptr, (longer.setIndex s.elements.length s.heap.length).indexOf ptr =
      if ptr = s.elements.length then some ↑s.heap.length else s.indexOf ptr := by
    intro ptr
    rw [State.indexOf_setIndex _ made]
    split
    · rfl
    · rename_i apart
      simp only [State.indexOf, longer, State.newElement, getElem?_concat, if_neg apart]
  refine ⟨longer.setIndex s.elements.length s.heap.length, ?_, ?_, ?_, ?_, ?_, ?_, ?_⟩
  · simp [State.push, State.len, State.newElement, longer]
  · rw [State.contents_setIndex, ← holds.contents]
    simp [State.contents, longer, State.newElement]
  · change s.heap ++ [s.elements.length] = _
    rw [map_append, holds.heap]
    rfl
  · intro entry mem
    rcases mem_append.mp mem with older | new
    · exact getElem?_append_of_some (holds.stored entry older) _
    · cases mem_singleton.mp new
      rw [holds.length_eq]
      exact getElem?_concat_length
  · change (s.heap ++ [s.elements.length]).Nodup
    rw [nodup_append]
    refine ⟨holds.distinct, nodup_singleton _, fun ptr mem other new equal => ?_⟩
    cases mem_singleton.mp new
    exact fresh (equal ▸ mem)
  · intro i ptr found
    change (s.heap ++ [s.elements.length])[i]? = some ptr at found
    rw [index]
    rcases getElem?_concat_eq_some.mp found with older | ⟨rfl, rfl⟩
    · rw [if_neg]
      · exact holds.inside i ptr older
      · rintro rfl
        exact fresh (mem_of_getElem? older)
    · rw [if_pos rfl]
  · intro ptr bound absent
    change ptr ∉ s.heap ++ [s.elements.length] at absent
    rw [mem_append, mem_singleton, not_or] at absent
    rw [index, if_neg absent.2]
    refine holds.outside ptr ?_ absent.1
    have other := absent.2
    rw [holds.length_eq] at other
    rw [length_append, length_singleton] at bound
    omega

end Holds

theorem implements (elements : List (K × V)) :
    BinaryHeap.Implements (interface compareTo) (Entry.lt compareTo) (Holds elements) where
  len s entries holds := by
    change s.heap.length = _
    rw [holds.heap, length_map]
  less s entries i j a b holds first second := by
    obtain ⟨left, here, leftKey, -⟩ := holds.at_eq first
    obtain ⟨right, there, rightKey, -⟩ := holds.at_eq second
    change s.less compareTo i j = _
    simp only [State.less, here, there, bind_eq_bind, bind_some, leftKey, rightKey]
    rfl
  swap s entries i j holds left right := holds.swap left right

end HiveGo.GeneralHeap
