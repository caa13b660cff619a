import HiveGo.Runs

/-! The ring buffer of `ds/ringbuffer`. -/
namespace HiveGo

structure RingBuffer (T : Type) where
  buffer : List T
  pos : Nat := 0
  capacity : Nat
  size : Nat := 0

namespace RingBuffer

variable {T : Type} {b : List T} {c : Nat}

/-- `NewRingBuffer`; `zero` fills what `make` allocates. -/
def new (zero : T) (capacity : Nat) : RingBuffer T :=
  { buffer := .replicate capacity zero, capacity }

/-- `Add`; an index out of range and a division by zero panic. -/
def add (r : RingBuffer T) (element : T) : Option (RingBuffer T) :=
  if r.pos < r.buffer.length ∧ r.capacity ≠ 0 then
    some { r with
      buffer := r.buffer.set r.pos element
      pos := (r.pos + 1) % r.capacity
      size := if r.size < r.capacity then r.size + 1 else r.size }
  else none

/-- `i--`, and around the end below zero. -/
def previous (capacity i : Nat) : Nat := if i = 0 then capacity - 1 else i - 1

/-- The loop of `ToSlice` over `count` places. -/
def readBack (buffer : List T) (capacity : Nat) : (count i : Nat) → Option (List T)
  | 0, _ => some []
  | count + 1, i => do
    let element ← buffer[i]?
    let older ← readBack buffer capacity count (previous capacity i)
    some (element :: older)

def toSlice (r : RingBuffer T) : Option (List T) :=
  readBack r.buffer r.capacity r.size (previous r.capacity r.pos)

/-- Fewer places give the newer elements. -/
theorem readBack_take (read : readBack b c count i = some elements) (n : Nat) :
    readBack b c (min n count) i = some (elements.take n) := by
  induction count generalizing i elements n with
  | zero =>
    cases read
    simp [readBack]
  | succ count ih =>
    cases n with
    | zero => simp [readBack]
    | succ n =>
      simp only [readBack, Option.bind_eq_bind, Option.bind_eq_some_iff] at read
      obtain ⟨element, found, older, rest, same⟩ := read
      cases same
      simp [Nat.succ_min_succ, readBack, found, ih rest n]

/-- The place `p` is not read when it is further back than `count` places. -/
theorem readBack_set (small : p < c) (inside : i < c)
    (far : count ≤ if p ≤ i then i - p else i + c - p) (element : T) :
    readBack (b.set p element) c count i = readBack b c count i := by
  induction count generalizing i with
  | zero => rfl
  | succ count ih =>
    have apart : p ≠ i := by
      rintro rfl
      simp at far
    rw [readBack, readBack, List.getElem?_set_ne apart,
      ih (i := previous c i) (by grind [previous]) (by grind [previous])]

/-- The buffer after the given elements, newest first. -/
structure Holds (c : Nat) (r : RingBuffer T) (added : List T) : Prop where
  capacity : r.capacity = c
  length : r.buffer.length = c
  inside : r.pos < c
  size : r.size = min added.length c
  read : readBack r.buffer c r.size (previous c r.pos) = some (added.take c)

theorem Holds.add (holds : Holds c r added) (element : T) :
    ∃ next, r.add element = some next ∧ Holds c next (element :: added) := by
  obtain ⟨buffer, p, capacity, size⟩ := r
  obtain ⟨rfl, length, inside, sized, read⟩ := holds
  dsimp only at length inside sized read ⊢
  have grown : (if size < capacity then size + 1 else size) = min (capacity - 1) size + 1 := by
    grind
  have back : previous capacity ((p + 1) % capacity) = p := by
    obtain last | last := Nat.lt_or_eq_of_le (Nat.succ_le_of_lt inside)
    · simp [previous, Nat.mod_eq_of_lt last]
    · simp [previous, ← last]
  have older := readBack_take read (capacity - 1)
  rw [← readBack_set inside (by grind [previous]) (by grind [previous]) element,
    List.take_take] at older
  have first : (buffer.set p element)[p]? = some element :=
    List.getElem?_set_self (length ▸ inside)
  refine ⟨_, if_pos ⟨length ▸ inside, by grind⟩, rfl, ?_, Nat.mod_lt _ (by grind), ?_, ?_⟩
  · simpa using length
  · change (if size < capacity then size + 1 else size) = min (added.length + 1) capacity
    omega
  · simp only [back, grown, readBack, first, older]
    simp [List.take_cons (by omega : 0 < capacity)]

theorem Holds.addAll (holds : Holds c r added) (elements : List T) :
    ∃ last, run RingBuffer.add r elements = some last ∧ Holds c last (elements.reverse ++ added) := by
  induction elements generalizing r added with
  | nil => exact ⟨r, rfl, holds⟩
  | cons element elements ih =>
    obtain ⟨next, ran, kept⟩ := holds.add element
    obtain ⟨last, rest, final⟩ := ih kept
    exact ⟨last, by simp [ran, rest], by simpa using final⟩

/-- No call panics, and the last `c` elements are returned from newest to oldest. -/
theorem toSlice_addAll (zero : T) (pos : 0 < c) (elements : List T) :
    ∃ r, run add (new zero c) elements = some r ∧ r.toSlice = some (elements.reverse.take c) := by
  have start : Holds c (new zero c) [] := by constructor <;> simp [new, readBack, pos]
  obtain ⟨last, ran, holds⟩ := start.addAll elements
  refine ⟨last, ran, ?_⟩
  rw [toSlice, holds.capacity, holds.read, List.append_nil]

theorem toSlice_of_three : ∃ r, run add (new 0 2) [1, 2, 3] = some r ∧ r.toSlice = some [3, 2] :=
  toSlice_addAll 0 (by decide) [1, 2, 3]

end RingBuffer

end HiveGo
