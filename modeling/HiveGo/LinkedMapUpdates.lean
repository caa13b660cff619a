import HiveGo.LinkedMapShape

/-! Setting and deleting a key. Both keep the shape of the map, do to its entries what they do
to a list of entries, and leave the elements of other maps alone. -/
namespace HiveGo.LinkedMap.State
open List Function

variable {K V : Type}

/-- What an operation did to the memory: it created elements, and changed those of its own map
only. -/
structure Footprint (before after : List (Element K V)) (old new : List (Nat × K × V)) : Prop where
  grows : before.length ≤ after.length
  frame : ∀ pointer < before.length, some pointer ∉ places old → after[pointer]? = before[pointer]?
  own : ∀ node ∈ new, some node.1 ∈ places old ∨ before.length ≤ node.1

theorem Footprint.refl {heap : List (Element K V)} : Footprint heap heap nodes nodes :=
  ⟨Nat.le_refl _, fun _ _ _ => rfl, fun node mem => .inl (mem_map.mpr ⟨node, mem, rfl⟩)⟩

/-- The operation gives the result, and leaves a map of the entries. -/
def Leaves [DecidableEq K] (s : State K V) (nodes : List (Nat × K × V))
    (done : Option (ρ × State K V)) (result : ρ) (list : List (K × V)) : Prop :=
  ∃ t new, done = some (result, t) ∧ Represents t new ∧ entries new = list ∧
    Footprint s.heap t.heap nodes new

namespace Represents

/-- A new element has no links yet, like a place that is not in memory. -/
theorem links_create (s : State K V) (key : K) (value : V) :
    links { s with heap := s.heap ++ [{ key, value }] } = s.links := by
  have read : ∀ (field : Element K V → Option Nat) (ptr : Nat), field { key, value } = none →
      (s.heap ++ [({ key, value } : Element K V)])[ptr]?.bind field = s.heap[ptr]?.bind field := by
    intro field ptr blank
    rw [getElem?_concat]
    split <;> simp_all
  ext place : 2
  · cases place with
    | none => rfl
    | some ptr => exact read Element.next ptr rfl
  · cases place with
    | none => rfl
    | some ptr => exact read Element.prev ptr rfl

variable [DecidableEq K] {s : State K V}

omit [DecidableEq K] in
theorem links_setValue (found : s.heap[pointer]? = some element) (value : V) :
    links { s with heap := s.heap.set pointer { element with value } } = s.links := by
  rw [links_set found, ← (links_of_some found).1, ← (links_of_some found).2,
    update_eq_self, update_eq_self]

/-- The other elements of a map are at other places. -/
theorem ne_of_mem (models : Represents s nodes)
    (split : nodes = front ++ (pointer, entry) :: back) :
    ∀ node ∈ front ++ back, node.1 ≠ pointer := by
  subst split
  have nodup := (nodup_cons.mp models.ring.nodup).2
  rw [places, map_append, map_cons, nodup_middle, nodup_cons, ← map_append] at nodup
  rintro node mem rfl
  exact nodup.1 (mem_map.mpr ⟨node, mem, rfl⟩)

/-- Setting a key that is there replaces its value. -/
theorem set_found (models : Represents s nodes)
    (found : s.map.dictionary.get key = some ptr) :
    s.Leaves nodes (s.set key newValue) (OrderedMap.get key (entries nodes))
      (OrderedMap.set key newValue (entries nodes)) := by
  obtain ⟨front, value, back, split, pre, after⟩ := models.exists_split found
  have apart := models.ne_of_mem split
  subst split
  have held := models.stored (ptr, key, value) (mem_append_right _ mem_cons_self)
  obtain ⟨element, here, equal⟩ := Option.map_eq_some_iff.mp held
  obtain ⟨sameKey, sameValue⟩ := Prod.mk.inj equal
  have cut : ∀ value, entries (front ++ (ptr, key, value) :: back) =
      entries front ++ (key, value) :: entries back := fun value => by simp [entries]
  have samePlaces : places (front ++ (ptr, key, newValue) :: back) =
      places (front ++ (ptr, key, value) :: back) := by simp [places]
  refine ⟨{ s with heap := s.heap.set ptr { element with value := newValue } },
    front ++ (ptr, key, newValue) :: back, ?_, ⟨?_, ?_, ?_, ?_, ?_⟩, ?_, ⟨?_, ?_, ?_⟩⟩
  · rw [State.set, found, cut, OrderedMap.get_append_cons pre, ← sameValue]
    simp [here]
  · rw [links_setValue here, samePlaces]
    exact models.ring
  · intro node mem
    rw [contents, getElem?_set_of_some here]
    rw [mem_append, mem_cons, or_left_comm, ← mem_append] at mem
    rcases mem with rfl | other
    · rw [if_pos rfl, ← sameKey]
      rfl
    · rw [if_neg (apart node other)]
      refine models.stored node ?_
      rw [mem_append, mem_cons, or_left_comm, ← mem_append]
      exact .inr other
  · rw [cut]
    have nodup := models.distinct
    rw [cut] at nodup
    unfold OrderedMap.Distinct at nodup ⊢
    simpa using nodup
  · intro otherKey other
    rw [models.dictionary otherKey other]
    simp only [mem_append, mem_cons, Prod.mk.injEq, or_left_comm, exists_or]
    refine or_congr ?_ Iff.rfl
    constructor <;> rintro ⟨_, ptr, key, -⟩ <;> exact ⟨_, ptr, key, rfl⟩
  · rw [models.size, length_append, length_append, length_cons,
      length_cons]
  · rw [cut, cut, OrderedMap.set_append_cons pre]
  · rw [length_set]
  · intro other _ out
    refine getElem?_set_of_some here |>.trans (if_neg ?_)
    rintro rfl
    exact out (mem_map.mpr ⟨_, mem_append_right _ mem_cons_self, rfl⟩)
  · intro node mem
    rw [← samePlaces]
    exact .inl (mem_map.mpr ⟨node, mem, rfl⟩)

omit [DecidableEq K] in
/-- Linking an element behind the tail connects the two. -/
theorem linkBehindTail_spec {ring : List Nat} (linked : s.links.Ring none (ring.map some))
    (bound : newElement < s.heap.length)
    (valid : s.Valid s.map.tail) (blank : s.links.prev (some newElement) = none) :
    ∃ t, s.linkBehindTail newElement = some t ∧ Relinked s t [s.map.tail, some newElement] ∧
      t.links = s.links.connect s.map.tail (some newElement) := by
  have first : s.map.head = (ring.map some).headD none := linked.next_root
  have last : s.map.tail = (ring.map some).getLastD none := linked.prev_root
  unfold State.linkBehindTail
  cases ring with
  | nil =>
    rw [map_nil, getLastD_nil] at last
    obtain ⟨t, done, relinked, now⟩ := setNext_spec (last ▸ valid) (some newElement)
    refine ⟨t, by rw [first]; exact done, relinked.mono ?_, ?_⟩
    · rw [last]
      exact fun place mem => mem_cons.mpr (.inl (mem_singleton.mp mem))
    · have kept : update s.links.prev (some newElement) none = s.links.prev :=
        update_eq_self_iff.mpr blank.symm
      rw [now, last, Links.connect, kept]
  | cons head ring =>
    obtain ⟨tail, isTail⟩ : ∃ tail, s.map.tail = some tail := by
      have inside : s.map.tail ∈ some head :: ring.map some := by
        rw [last, map_cons, getLastD_cons]
        exact getLastD_mem_cons
      rcases mem_cons.mp inside with same | mem
      · exact ⟨head, same⟩
      · obtain ⟨tail, -, same⟩ := mem_map.mp mem
        exact ⟨tail, same.symm⟩
    obtain ⟨t, done, relinked, now⟩ := setNext_spec valid (some newElement)
    have sameTail : t.map.tail = s.map.tail := by
      have both := congrArg (fun links => links.prev none) now
      exact both
    have stillValid : t.Valid (some newElement) := by
      rintro ptr ⟨⟩
      rw [relinked.length]
      exact bound
    obtain ⟨u, finished, again, final⟩ := setPrev_spec stillValid t.map.tail
    refine ⟨u, ?_, relinked.trans again, ?_⟩
    · rw [first, map_cons, headD_cons]
      rw [isTail] at done ⊢
      simp [done, finished]
    · rw [final, now, sameTail]
      rfl

section

variable {nodes : List (Nat × K × V)} (models : Represents s nodes)
include models

theorem tail_mem : s.map.tail ∈ none :: places nodes := by
  have last : s.map.tail = (places nodes).getLastD none := models.ring.prev_root
  rw [last]
  exact getLastD_mem_cons

/-- Creating an element and linking it behind the tail puts it into the ring, between the tail
and nil. -/
theorem append_spec (key : K) (value : V) :
    ∃ t u, linkBehindTail { s with heap := s.heap ++ [{ key, value }] } s.heap.length = some t ∧
      t.setPrev none (some s.heap.length) = some u ∧
      Relinked { s with heap := s.heap ++ [{ key, value }] } u
        [s.map.tail, some s.heap.length, none] ∧
      u.links.Ring none (places nodes ++ [some s.heap.length]) := by
  have createdLinks := links_create s key value
  generalize made : ({ s with heap := s.heap ++ [{ key, value }] } : State K V) = created
    at createdLinks
  have length : created.heap.length = s.heap.length + 1 := by simp [← made]
  have tail : created.map.tail = s.map.tail := by rw [← made]
  have last : s.map.tail = (places nodes).getLastD none := models.ring.prev_root
  have mem := models.tail_mem
  have fresh : some s.heap.length ∉ none :: places nodes := fun inside =>
    Nat.lt_irrefl _ (models.valid inside _ rfl)
  have blank : s.links.next (some s.heap.length) = none ∧
      s.links.prev (some s.heap.length) = none := by
    simp [links]
  have ring : created.links.Ring none ((nodes.map Prod.fst).map some) := by
    rw [createdLinks, map_map]
    exact models.ring
  have bound : s.heap.length < created.heap.length := by omega
  have validTail : created.Valid created.map.tail := by
    rw [tail]
    intro ptr same
    exact Nat.lt_trans (models.valid mem ptr same) bound
  have noPrev : created.links.prev (some s.heap.length) = none := by
    rw [createdLinks]
    exact blank.2
  obtain ⟨t, done, relinked, now⟩ := linkBehindTail_spec ring bound validTail noPrev
  obtain ⟨u, finished, again, final⟩ := setPrev_spec t.valid_none (some s.heap.length)
  refine ⟨t, u, done, finished, ?_, ?_⟩
  · have both := relinked.trans again
    rwa [tail] at both
  · have inserted := models.ring
    rw [← append_nil (places nodes)] at inserted fresh
    have ring := inserted.insert fresh
    rw [headD_nil, ← last, ← createdLinks, ← tail, ← now, Links.connect] at ring
    have unchanged : update t.links.next (some s.heap.length) none = t.links.next := by
      refine update_eq_self_iff.mpr ?_
      have other : some s.heap.length ≠ created.map.tail := by
        rw [tail]
        rintro same
        rw [← same, ← append_nil (places nodes)] at mem
        exact fresh mem
      rw [now, Links.connect_next_of_ne other, createdLinks]
      exact blank.1.symm
    rw [unchanged, ← final] at ring
    exact ring

/-- Setting a new key puts an element behind the tail. -/
theorem set_missing (missing : s.map.dictionary.get key = none) :
    s.Leaves nodes (s.set key newValue) (OrderedMap.get key (entries nodes))
      (OrderedMap.set key newValue (entries nodes)) := by
  have freshKey := models.fresh_of_get_none missing
  have inBounds : ∀ node ∈ nodes, node.1 < s.heap.length := fun node mem =>
    lt_of_contents (models.stored node mem)
  obtain ⟨t, u, done, finished, relinked, ring⟩ := models.append_spec key newValue
  have contents : ∀ ptr, u.contents ptr =
      if ptr = s.heap.length then some (key, newValue) else s.contents ptr := by
    intro ptr
    rw [relinked.contents]
    simp only [State.contents, getElem?_concat]
    split <;> rfl
  have grown : entries (nodes ++ [(s.heap.length, key, newValue)]) =
      OrderedMap.set key newValue (entries nodes) := by
    rw [OrderedMap.set_of_fresh freshKey, entries, map_append]
    rfl
  have tail := models.tail_mem
  refine ⟨{ u with map := { u.map with
      size := u.map.size + 1, dictionary := u.map.dictionary.set key s.heap.length } },
    nodes ++ [(s.heap.length, key, newValue)], ?_, ⟨?_, ?_, ?_, ?_, ?_⟩, ?_, ⟨?_, ?_, ?_⟩⟩
  · rw [State.set, missing, OrderedMap.get_eq_none.mpr freshKey]
    simp only [Option.bind_eq_bind, done, finished, Option.bind_some]
    rfl
  · have samePlaces : places (nodes ++ [(s.heap.length, key, newValue)]) =
        places nodes ++ [some s.heap.length] := by simp [places]
    rw [samePlaces]
    exact ring
  · intro node mem
    change u.contents node.1 = _
    rw [contents]
    rcases mem_append.mp mem with old | new
    · rw [if_neg (Nat.ne_of_lt (inBounds node old))]
      exact models.stored node old
    · rw [mem_singleton.mp new, if_pos rfl]
  · rw [grown]
    exact models.distinct.set key newValue
  · intro other ptr
    rw [ShrinkingMap.get_set, relinked.dictionary]
    by_cases same : key = other
    · subst same
      have absent : ∀ value, (ptr, key, value) ∉ nodes := fun value mem =>
        freshKey (mem_map.mpr ⟨_, mem_map.mpr ⟨_, mem, rfl⟩, rfl⟩)
      simp [absent, eq_comm]
    · rw [if_neg same, models.dictionary other ptr]
      simp [Ne.symm same]
  · rw [relinked.size]
    rw [models.size, length_append, length_singleton]
    rfl
  · exact grown
  · rw [relinked.length, length_append]
    omega
  · intro ptr bound out
    rw [relinked.elsewhere ptr, getElem?_append_left bound]
    intro touched
    rcases mem_cons.mp touched with same | created
    · rw [← same] at tail
      exact out (mem_of_ne_of_mem (by simp) tail)
    · simp at created
      omega
  · intro node mem
    rcases mem_append.mp mem with old | new
    · exact .inl (mem_map.mpr ⟨node, old, rfl⟩)
    · rw [mem_singleton.mp new]
      exact .inr (Nat.le_refl _)

theorem set_spec :
    s.Leaves nodes (s.set key newValue) (OrderedMap.get key (entries nodes))
      (OrderedMap.set key newValue (entries nodes)) := by
  cases found : s.map.dictionary.get key with
  | none => exact models.set_missing found
  | some ptr => exact models.set_found found

end

omit [DecidableEq K] in
/-- Unlinking an element takes it out of the ring. -/
theorem unlink_spec (ring : s.links.Ring none (front ++ some ptr :: back))
    (valid : ∀ place ∈ none :: (front ++ some ptr :: back), s.Valid place)
    (here : s.heap[ptr]? = some element) :
    ∃ t again u, s.setNext element.prev element.next = some t ∧
      t.heap[ptr]? = some again ∧ t.setPrev again.next again.prev = some u ∧
      Relinked s u (none :: (front ++ some ptr :: back)) ∧
      u.links.Ring none (front ++ back) := by
  have prev : s.links.prev (some ptr) = element.prev := by simp [links, here]
  have next : s.links.next (some ptr) = element.next := by simp [links, here]
  have validPrev := prev ▸ valid _ ring.prev_mem
  have validNext := next ▸ valid _ ring.next_mem
  obtain ⟨t, done, relinked, now⟩ := setNext_spec validPrev element.next
  obtain ⟨again, found⟩ : ∃ again, t.heap[ptr]? = some again := by
    refine ⟨_, getElem?_eq_getElem ?_⟩
    rw [relinked.length]
    exact (List.getElem?_eq_some_iff.mp here).1
  have samePrev : again.prev = element.prev := by
    have read : t.links.prev (some ptr) = again.prev := by simp [links, found]
    rw [← read, now, ← prev]
  have sameNext : again.next = element.next := by
    have read : t.links.next (some ptr) = again.next := by simp [links, found]
    rw [← read, now]
    simp [update_apply, next]
  have stillValid : t.Valid again.next := by
    intro ptr same
    rw [relinked.length]
    exact validNext ptr (sameNext ▸ same)
  obtain ⟨u, finished, after, final⟩ := setPrev_spec stillValid again.prev
  refine ⟨t, again, u, done, found, finished, ?_, ?_⟩
  · rw [sameNext] at after
    refine (relinked.trans after).mono fun place touched => ?_
    rcases mem_cons.mp touched with rfl | touched
    · exact prev ▸ ring.prev_mem
    · cases mem_singleton.mp touched
      exact next ▸ ring.next_mem
  · have removed := ring.remove
    rw [prev, next] at removed
    rw [final, now, sameNext, samePrev]
    exact removed

/-- Deleting a key that is there takes its element out. -/
theorem delete_found (models : Represents s nodes)
    (found : s.map.dictionary.get key = some pointer) :
    s.Leaves nodes (s.delete key) true (OrderedMap.erase key (entries nodes)) := by
  obtain ⟨stored, entry, held⟩ := models.lookup found
  obtain ⟨element, here, -⟩ := Option.map_eq_some_iff.mp held
  have read := models.get_eq key
  rw [entry] at read
  obtain ⟨front, value, back, split, pre, after⟩ := models.exists_split found
  subst split
  have splitPlaces : places (front ++ (pointer, key, value) :: back) =
      places front ++ some pointer :: places back := by simp [places]
  have smaller : (front ++ back).Sublist (front ++ (pointer, key, value) :: back) :=
    (sublist_cons_self _ back).append_left front
  let shrunk : State K V := { s with map := { s.map with
    dictionary := s.map.dictionary.delete key, size := s.map.size - 1 } }
  obtain ⟨t, again, u, done, reread, finished, relinked, ring⟩ := unlink_spec (s := shrunk)
    (splitPlaces ▸ models.ring) (splitPlaces ▸ fun place mem => models.valid mem) here
  refine ⟨u, front ++ back, ?_, ⟨?_, ?_, ?_, ?_, ?_⟩, ?_, ⟨?_, ?_, ?_⟩⟩
  · rw [State.delete, read]
    simp only [Option.bind_eq_bind, Option.bind_some, found, here, shrunk, done, reread, finished]
    rfl
  · rw [places, map_append]
    exact ring
  · intro node mem
    rw [relinked.contents]
    exact models.stored node (smaller.subset mem)
  · exact models.distinct.sublist ((smaller.map Prod.snd).map Prod.fst)
  · intro other place
    rw [relinked.dictionary]
    rw [ShrinkingMap.get_delete]
    by_cases same : key = other
    · subst same
      rw [if_pos rfl]
      refine ⟨fun absurd => (by cases absurd), ?_⟩
      rintro ⟨value, mem⟩
      rcases mem_append.mp mem with inside | inside
      · exact absurd (mem_map.mpr ⟨_, mem_map.mpr ⟨_, inside, rfl⟩, rfl⟩) pre
      · exact absurd (mem_map.mpr ⟨_, mem_map.mpr ⟨_, inside, rfl⟩, rfl⟩) after
    · rw [if_neg same, models.dictionary other place]
      simp [Ne.symm same]
  · rw [relinked.size]
    change s.map.size - 1 = _
    rw [models.size, length_append, length_append, length_cons]
    omega
  · rw [entries, entries, map_append, map_append, map_cons]
    exact (OrderedMap.erase_append_cons pre after).symm
  · rw [relinked.length]
  · intro other bound out
    rw [splitPlaces] at out
    exact relinked.elsewhere other fun inside =>
      out (mem_of_ne_of_mem (Option.some_ne_none other) inside)
  · intro node mem
    exact .inl (mem_map.mpr ⟨node, smaller.subset mem, rfl⟩)

theorem delete_spec (models : Represents s nodes) :
    s.Leaves nodes (s.delete key) (OrderedMap.get key (entries nodes)).isSome
      (OrderedMap.erase key (entries nodes)) := by
  cases found : s.map.dictionary.get key with
  | none =>
    have fresh := models.fresh_of_get_none found
    have read := models.get_eq key
    refine ⟨s, nodes, ?_, models, (OrderedMap.erase_of_fresh fresh).symm, .refl⟩
    rw [State.delete, read, OrderedMap.get_eq_none.mpr fresh]
    rfl
  | some ptr =>
    obtain ⟨value, entry, -⟩ := models.lookup found
    rw [entry]
    exact models.delete_found found

end Represents

theorem represents_new [DecidableEq K] (heap : List (Element K V)) : (new heap).Represents [] where
  ring := Links.ring_nil_iff.mpr ⟨rfl, rfl⟩
  stored _ mem := by cases mem
  distinct := OrderedMap.distinct_nil
  dictionary key pointer := by simp [new]
  size := rfl

end HiveGo.LinkedMap.State
