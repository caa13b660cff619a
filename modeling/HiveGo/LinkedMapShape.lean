import HiveGo.LinkedMap
import HiveGo.LinkedRing

/-! The shape of an ordered map in memory: its elements form a ring with nil as its root, its
dictionary knows the element of every key, and its size is their number. It is read like the list
of its entries. -/
namespace HiveGo.LinkedMap.State
open List Function Option

variable {K V σ γ : Type}
variable {s : State K V}

/-- The links of a map. Nil stands between the tail and the head. -/
def links (s : State K V) : Links (Option Nat) where
  next
    | none => s.map.head
    | some pointer => s.heap[pointer]?.bind Element.next
  prev
    | none => s.map.tail
    | some pointer => s.heap[pointer]?.bind Element.prev

/-- The entry that an element holds. -/
def contents (s : State K V) (pointer : Nat) : Option (K × V) :=
  s.heap[pointer]?.map fun element => (element.key, element.value)

/-- Only links were changed, and only those of the given places. -/
structure Relinked (s t : State K V) (touched : List (Option Nat)) : Prop where
  contents : t.contents = s.contents
  length : t.heap.length = s.heap.length
  dictionary : t.map.dictionary = s.map.dictionary
  size : t.map.size = s.map.size
  elsewhere : ∀ pointer, some pointer ∉ touched → t.heap[pointer]? = s.heap[pointer]?

theorem Relinked.trans (pre : Relinked s t first) (after : Relinked t u second) :
    Relinked s u (first ++ second) where
  contents := after.contents.trans pre.contents
  length := after.length.trans pre.length
  dictionary := after.dictionary.trans pre.dictionary
  size := after.size.trans pre.size
  elsewhere pointer outside := by
    rw [mem_append, not_or] at outside
    rw [after.elsewhere pointer outside.2, pre.elsewhere pointer outside.1]

theorem Relinked.mono (relinked : Relinked s t touched) (included : ∀ place ∈ touched, place ∈ more) :
    Relinked s t more where
  contents := relinked.contents
  length := relinked.length
  dictionary := relinked.dictionary
  size := relinked.size
  elsewhere pointer outside := relinked.elsewhere pointer fun mem => outside (included _ mem)

/-- The place is nil or an element in memory. -/
def Valid (s : State K V) (place : Option Nat) : Prop :=
  ∀ pointer, place = some pointer → pointer < s.heap.length

theorem valid_none (s : State K V) : s.Valid none := by
  rintro ptr ⟨⟩

theorem getElem?_set_of_some {heap : List (Element K V)}
    (found : heap[pointer]? = some element) :
    (heap.set pointer changed)[other]? = if other = pointer then some changed else heap[other]? := by
  have bound := (List.getElem?_eq_some_iff.mp found).1
  by_cases same : pointer = other
  · simp [same, same ▸ bound]
  · simp [same, Ne.symm same]

/-- Storing an element with the same entry changes nothing but its links. -/
theorem relinked_set (found : s.heap[pointer]? = some element)
    (key : changed.key = element.key) (value : changed.value = element.value) :
    Relinked s { s with heap := s.heap.set pointer changed } [some pointer] := by
  refine ⟨?_, length_set, rfl, rfl, fun other out => ?_⟩
  · funext other
    simp only [contents, getElem?_set_of_some found]
    split
    · rename_i same
      rw [same, found, map_some, map_some, key, value]
    · rfl
  · rw [mem_singleton, some.injEq] at out
    rw [getElem?_set_of_some found, if_neg out]

/-- The links after an element was stored. -/
theorem links_set (found : s.heap[ptr]? = some element)
    (changed : Element K V) : links { s with heap := s.heap.set ptr changed } =
      ⟨update s.links.next (some ptr) changed.next,
        update s.links.prev (some ptr) changed.prev⟩ := by
  ext place : 2 <;> cases place with
  | none => rfl
  | some other =>
    simp only [links, getElem?_set_of_some found, update_apply, some.injEq]
    split <;> rfl

theorem links_of_some (found : s.heap[pointer]? = some element) :
    s.links.next (some pointer) = element.next ∧ s.links.prev (some pointer) = element.prev := by
  simp [links, found]

theorem setNext_spec (valid : s.Valid place) (target : Option Nat) :
    ∃ t, s.setNext place target = some t ∧ Relinked s t [place] ∧
      t.links = ⟨update s.links.next place target, s.links.prev⟩ := by
  cases place with
  | none =>
    refine ⟨_, rfl, ⟨rfl, rfl, rfl, rfl, fun _ _ => rfl⟩, ?_⟩
    ext other : 2 <;> cases other <;> rfl
  | some ptr =>
    have bound := valid ptr rfl
    have found := getElem?_eq_getElem bound
    refine ⟨{ s with heap := s.heap.set ptr { s.heap[ptr] with next := target } },
      by rw [setNext, found]; rfl, relinked_set found rfl rfl, ?_⟩
    rw [links_set found, ← (links_of_some found).2, update_eq_self]

theorem setPrev_spec (valid : s.Valid place) (target : Option Nat) :
    ∃ t, s.setPrev place target = some t ∧ Relinked s t [place] ∧
      t.links = ⟨s.links.next, update s.links.prev place target⟩ := by
  cases place with
  | none =>
    refine ⟨_, rfl, ⟨rfl, rfl, rfl, rfl, fun _ _ => rfl⟩, ?_⟩
    ext other : 2 <;> cases other <;> rfl
  | some ptr =>
    have bound := valid ptr rfl
    have found := getElem?_eq_getElem bound
    refine ⟨{ s with heap := s.heap.set ptr { s.heap[ptr] with prev := target } },
      by rw [setPrev, found]; rfl, relinked_set found rfl rfl, ?_⟩
    rw [links_set found, ← (links_of_some found).1, update_eq_self]

/-- The entries of a list of elements. -/
def entries (nodes : List (Nat × K × V)) : List (K × V) := nodes.map Prod.snd

/-- The places of a list of elements. -/
def places (nodes : List (Nat × K × V)) : List (Option Nat) := nodes.map fun node => some node.1

variable [DecidableEq K]

/-- The map consists of these elements, in this order. -/
structure Represents (s : State K V) (nodes : List (Nat × K × V)) : Prop where
  ring : s.links.Ring none (places nodes)
  stored : ∀ node ∈ nodes, s.contents node.1 = some node.2
  distinct : OrderedMap.Distinct (entries nodes)
  dictionary : ∀ key pointer,
    s.map.dictionary.get key = some pointer ↔ ∃ value, (pointer, key, value) ∈ nodes
  size : s.map.size = nodes.length

namespace Represents

variable {s : State K V} {nodes : List (Nat × K × V)}

omit [DecidableEq K] in
theorem lt_of_contents (found : s.contents pointer = some entry) : pointer < s.heap.length := by
  obtain ⟨element, here, -⟩ := map_eq_some_iff.mp found
  exact (List.getElem?_eq_some_iff.mp here).1

variable (represents : Represents s nodes)
include represents

theorem valid (mem : place ∈ none :: places nodes) : s.Valid place := by
  rintro ptr rfl
  rcases mem_cons.mp mem with absurd | inside
  · cases absurd
  · obtain ⟨node, held, same⟩ := mem_map.mp inside
    cases same
    exact lt_of_contents (represents.stored node held)

/-- The map is the same when its own elements are. -/
theorem frame (map : t.map = s.map) (same : ∀ node ∈ nodes, t.heap[node.1]? = s.heap[node.1]?) :
    Represents t nodes := by
  refine ⟨represents.ring.congr fun place mem => ?_, fun node mem => ?_,
    represents.distinct, ?_, ?_⟩
  · cases place with
    | none => simp [links, map]
    | some ptr =>
      rcases mem_cons.mp mem with absurd | inside
      · cases absurd
      · obtain ⟨node, held, equal⟩ := mem_map.mp inside
        cases equal
        simp [links, same node held]
  · rw [contents, same node mem]
    exact represents.stored node mem
  · rw [map]
    exact represents.dictionary
  · rw [map]
    exact represents.size

/-- The element of a key cuts the map in two. -/
theorem exists_split (found : s.map.dictionary.get key = some pointer) :
    ∃ front value back, nodes = front ++ (pointer, key, value) :: back ∧
      key ∉ (entries front).map Prod.fst ∧ key ∉ (entries back).map Prod.fst := by
  obtain ⟨value, mem⟩ := (represents.dictionary key pointer).mp found
  obtain ⟨front, back, rfl⟩ := append_of_mem mem
  refine ⟨front, value, back, rfl, ?_⟩
  have nodup := represents.distinct
  unfold OrderedMap.Distinct entries at nodup
  rw [map_append, map_append, map_cons, map_cons, nodup_middle,
    nodup_cons, mem_append, not_or] at nodup
  exact nodup.1

/-- A key without an element has no entry. -/
theorem fresh_of_get_none (missing : s.map.dictionary.get key = none) :
    key ∉ (entries nodes).map Prod.fst := by
  intro mem
  obtain ⟨entry, held, rfl⟩ := mem_map.mp mem
  obtain ⟨node, inside, rfl⟩ := mem_map.mp held
  have found := (represents.dictionary node.2.1 node.1).mpr ⟨node.2.2, inside⟩
  rw [missing] at found
  cases found

/-- The element of a key holds its value. -/
theorem lookup (found : s.map.dictionary.get key = some ptr) :
    ∃ value, OrderedMap.get key (entries nodes) = some value ∧
      s.contents ptr = some (key, value) := by
  obtain ⟨front, value, back, rfl, pre, -⟩ := represents.exists_split found
  refine ⟨value, ?_, represents.stored (ptr, key, value) (mem_append_right _ mem_cons_self)⟩
  rw [entries, map_append, map_cons]
  exact OrderedMap.get_append_cons pre

theorem get_eq (key : K) : s.get key = some (OrderedMap.get key (entries nodes)) := by
  unfold State.get
  cases found : s.map.dictionary.get key with
  | none => rw [OrderedMap.get_eq_none.mpr (represents.fresh_of_get_none found)]
  | some ptr =>
    obtain ⟨value, entry, held⟩ := represents.lookup found
    obtain ⟨element, here, equal⟩ := map_eq_some_iff.mp held
    cases equal
    simp [here, entry]

theorem has_eq (key : K) : s.has key = (OrderedMap.get key (entries nodes)).isSome := by
  unfold State.has ShrinkingMap.has
  cases found : s.map.dictionary.get key with
  | none => rw [OrderedMap.get_eq_none.mpr (represents.fresh_of_get_none found)]; rfl
  | some ptr =>
    obtain ⟨value, entry, -⟩ := represents.lookup found
    rw [entry]
    rfl

/-- The entry of the first place, and with it that of every end of the ring. -/
theorem entryAt_eq (mem : ∀ node ∈ part, node ∈ nodes) :
    s.entryAt ((places part).headD none) = some (entries part).head? := by
  cases part with
  | nil => rfl
  | cons node part =>
    obtain ⟨element, here, equal⟩ := map_eq_some_iff.mp
      (represents.stored node (mem node mem_cons_self))
    change (s.heap[node.1]?).bind _ = _
    rw [here, bind_some, entries, map_cons, head?_cons, ← equal]
    rfl

theorem head_eq : s.head = some (entries nodes).head? := by
  have first : s.map.head = (places nodes).headD none := represents.ring.next_root
  rw [State.head, first]
  exact represents.entryAt_eq fun _ => id

theorem tail_eq : s.tail = some (entries nodes).getLast? := by
  have last : s.map.tail = (places nodes.reverse).headD none := by
    have flipped := represents.ring.flip.next_root
    rw [places, map_reverse]
    exact flipped
  rw [State.tail, last, represents.entryAt_eq fun node mem => mem_reverse.mp mem]
  rw [entries, map_reverse, head?_reverse]
  rfl

end Represents

end HiveGo.LinkedMap.State
