import HiveGo.DsList
import HiveGo.LinkedRing
import HiveGo.Runs
import Mathlib.Data.List.Perm.Subperm

/-! The shape of lists in memory: every list is a ring of its own elements around its sentinel,
and an element is owned by the list it is in. Elements that were cleared out of a list still name
it, so the shape is kept as long as none of them is used again. -/
namespace HiveGo.DsList

open Links List Pointer Function

variable {T : Type}
variable {m after : Memory T} {touched : List Pointer}

namespace Memory

/-- The links of all elements. Nil is linked to itself. -/
def links (m : Memory T) : Links (Option Pointer) where
  next place := place.bind m.next
  prev place := place.bind m.prev

theorem links_setNext :
    (m.setNext p target).links = ⟨update m.links.next (some p) target, m.links.prev⟩ := by
  ext place : 2
  · cases place with
    | none => rfl
    | some other => simp [links, setNext, update_apply]
  · rfl

theorem links_setPrev :
    (m.setPrev p target).links = ⟨m.links.next, update m.links.prev (some p) target⟩ := by
  ext place : 2
  · rfl
  · cases place with
    | none => rfl
    | some other => simp [links, setPrev, update_apply]

/-- Only links were changed, and only those of the given elements. -/
structure Relinked (m after : Memory T) (touched : List Pointer) : Prop where
  list : after.list = m.list
  value : after.value = m.value
  len : after.len = m.len
  elements : after.elements = m.elements
  lists : after.lists = m.lists
  elsewhere : ∀ p ∉ touched, after.next p = m.next p ∧ after.prev p = m.prev p

theorem Relinked.trans (first : Relinked m between touched)
    (second : Relinked between after touched) : Relinked m after touched where
  list := second.list.trans first.list
  value := second.value.trans first.value
  len := second.len.trans first.len
  elements := second.elements.trans first.elements
  lists := second.lists.trans first.lists
  elsewhere p out :=
    ⟨(second.elsewhere p out).1.trans (first.elsewhere p out).1,
      (second.elsewhere p out).2.trans (first.elsewhere p out).2⟩

theorem Relinked.mono (relinked : Relinked m after touched) (included : touched ⊆ more) :
    Relinked m after more where
  list := relinked.list
  value := relinked.value
  len := relinked.len
  elements := relinked.elements
  lists := relinked.lists
  elsewhere p outside := relinked.elsewhere p fun mem => outside (included mem)

theorem relinked_setNext : Relinked m (m.setNext p target) [p] := by
  refine ⟨rfl, rfl, rfl, rfl, rfl, fun other out => ⟨?_, rfl⟩⟩
  exact update_of_ne (mem_singleton.not.mp out) ..

theorem relinked_setPrev (p : Pointer) : Relinked m (m.setPrev p target) [p] := by
  refine ⟨rfl, rfl, rfl, rfl, rfl, fun other out => ⟨rfl, ?_⟩⟩
  exact update_of_ne (mem_singleton.not.mp out) ..

theorem unlink_spec (prev : m.prev e = some a) (next : m.next e = some b) :
    ∃ after, m.unlink e = some after ∧ Relinked m after [a, b] ∧
      after.links = m.links.connect (some a) (some b) := by
  have next' : (m.setNext a (some b)).next e = some b := by
    simp [setNext, update_apply, next]
  have prev' : (m.setNext a (some b)).prev e = some a := prev
  refine ⟨(m.setNext a (some b)).setPrev b (some a), ?_, ?_, ?_⟩
  · simp only [unlink, prev, next, Option.bind_eq_bind, Option.bind_some, next', prev']
    rfl
  · exact (relinked_setNext.mono (by simp)).trans
      ((relinked_setPrev b).mono (by simp))
  · rw [links_setPrev, links_setNext]
    rfl

theorem link_spec (next : m.next at_ = some b) (ne : e ≠ at_) :
    ∃ after, m.link e at_ = some after ∧ Relinked m after [e, at_, b] ∧
      after.links = (m.links.connect (some at_) (some e)).connect (some e) (some b) := by
  let first := (m.setPrev e (some at_)).setNext e (some b)
  let second := first.setNext at_ (some e)
  have prev : first.prev e = some at_ := update_self ..
  have next' : second.next e = some b := by
    simp [second, first, setNext, ne]
  have reads : (m.setPrev e (some at_)).next at_ = some b := next
  refine ⟨second.setPrev b (some e), ?_, ?_, ?_⟩
  · simp only [link, reads]
    change (first.prev e).bind (fun place => ((first.setNext place (some e)).next e).bind _) = _
    rw [prev, Option.bind_some]
    rw [next']
    rfl
  · have start : Relinked m first [e, at_, b] :=
      ((relinked_setPrev e).mono (by simp)).trans (relinked_setNext.mono (by simp))
    exact (start.trans (relinked_setNext.mono (by simp))).trans
      ((relinked_setPrev b).mono (by simp))
  · rw [links_setPrev, links_setNext, links_setNext, links_setPrev]
    ext place : 2
    · simp only [connect]
      rw [update_comm (by simpa using ne)]
    · rfl

/-- The list consists of these elements, in this order. -/
structure Shape (m : Memory T) (l : Nat) (members : List Pointer) : Prop where
  ring : m.links.Ring (some (.root l)) (members.map some)
  owned : ∀ p ∈ members, m.list p = some l
  created : ∀ p ∈ members, ∃ i < m.elements, p = .element i
  len : m.len l = members.length

/-- Only elements that were created have an owner, and all of them have a value. -/
structure Allocated (m : Memory T) : Prop where
  fresh : ∀ i, m.elements ≤ i → m.list (.element i) = none
  roots : ∀ l, m.list (.root l) = none
  stored : ∀ i < m.elements, (m.value (.element i)).isSome

/-- Every list has its shape. -/
structure WellFormed (m : Memory T) : Prop extends Allocated m where
  shape : ∀ l < m.lists, ∃ members, Shape m l members

namespace Shape

variable {m after : Memory T} {front back : List Pointer}

theorem nodup (shape : Shape m l members) : (root l :: members).Nodup := by
  have nodup := shape.ring.nodup
  rw [← map_cons (f := some)] at nodup
  exact nodup.of_map some

/-- The element before a gap of the list, and the one after it. -/
theorem next_gap (shape : Shape m l (front ++ back)) :
    m.next (front.getLastD (.root l)) = some (back.headD (.root l)) := by
  have ring := shape.ring
  rw [map_append] at ring
  have linked := ring.split.2.2.1
  rw [getLastD_map, headD_map] at linked
  exact linked

theorem prev_gap (shape : Shape m l (front ++ back)) :
    m.prev (back.headD (.root l)) = some (front.getLastD (.root l)) := by
  have ring := shape.ring
  rw [map_append] at ring
  have linked := ring.split.2.2.2
  rw [getLastD_map, headD_map] at linked
  exact linked

/-- The neighbours of an element. -/
theorem next_eq (shape : Shape m l (front ++ e :: back)) :
    m.next e = some (back.headD (.root l)) := by
  rw [append_cons] at shape
  have next := shape.next_gap
  rwa [getLastD_concat] at next

theorem prev_eq (shape : Shape m l (front ++ e :: back)) :
    m.prev e = some (front.getLastD (.root l)) := shape.prev_gap

section

variable (shape : Shape m l members)
include shape

theorem prev_root : m.prev (.root l) = some (members.getLastD (.root l)) := by
  rw [← append_nil members] at shape
  exact shape.prev_gap

theorem next_root : m.next (.root l) = some (members.headD (.root l)) := by
  have whole : Shape m l ([] ++ members) := shape
  exact whole.next_gap

/-- There are not more elements in a list than were created. -/
theorem length_le : members.length ≤ m.elements := by
  have within : members ⊆ (List.range m.elements).map element := by
    intro p mem
    obtain ⟨i, bound, rfl⟩ := shape.created p mem
    exact mem_map_of_mem (mem_range.mpr bound)
  have counted := (subperm_of_subset (nodup_cons.mp shape.nodup).2 within).length_le
  rwa [length_map, length_range] at counted

theorem front_eq : m.front l = members.head? := by
  unfold Memory.front
  rw [shape.len, shape.next_root]
  cases members with
  | nil => rfl
  | cons first rest =>
    rfl

end

theorem neighbour_eq (shape : Shape m l (front ++ e :: back)) :
    m.neighbour m.next e = back.head? := by
  unfold neighbour
  rw [shape.owned e (by simp), shape.next_eq]
  cases back with
  | nil => simp
  | cons first rest =>
    obtain ⟨i, -, rfl⟩ := shape.created first (by simp)
    simp

/-- A walk from one of the elements on meets those behind it. -/
theorem walk_eq (shape : Shape m l (front ++ back)) (enough : back.length ≤ budget) :
    m.walk m.next budget back.head? = some back := by
  induction back generalizing front budget with
  | nil =>
    unfold walk
    rfl
  | cons e back ih =>
    obtain ⟨budget, rfl⟩ := Nat.exists_eq_add_of_le' (Nat.zero_lt_of_lt enough)
    rw [head?_cons, walk, shape.neighbour_eq]
    rw [append_cons] at shape
    rw [ih shape (Nat.le_of_succ_le_succ enough)]
    rfl

theorem elementsOf_eq (shape : Shape m l members) : m.elementsOf l = some members := by
  have whole : Shape m l ([] ++ members) := shape
  rw [elementsOf, shape.front_eq]
  exact whole.walk_eq shape.length_le

/-- Lists that keep their links, owners and length keep their shape. -/
theorem frame (shape : Shape m l members)
    (links : ∀ p ∈ root l :: members, after.next p = m.next p ∧ after.prev p = m.prev p)
    (list : ∀ p ∈ members, after.list p = m.list p) (len : after.len l = m.len l)
    (elements : m.elements ≤ after.elements) : Shape after l members where
  ring := by
    refine shape.ring.congr fun place mem => ?_
    rw [← map_cons (f := some)] at mem
    obtain ⟨p, inside, rfl⟩ := mem_map.mp mem
    exact links p inside
  owned p mem := (list p mem).trans (shape.owned p mem)
  created p mem := by
    obtain ⟨i, bound, same⟩ := shape.created p mem
    exact ⟨i, lt_of_lt_of_le bound elements, same⟩
  len := len.trans shape.len

end Shape

section ring

variable {m : Memory T} {front back : List Pointer}

/-- Taking an element out of a ring. -/
theorem unlink_ring (shape : Shape m l (front ++ e :: back)) :
    ∃ after, m.unlink e = some after ∧ Relinked m after (.root l :: (front ++ e :: back)) ∧
      after.links.Ring (some (.root l)) ((front ++ back).map some) := by
  obtain ⟨after, ran, relinked, links⟩ := unlink_spec shape.prev_eq shape.next_eq
  have pre : front.getLastD (.root l) ∈ root l :: front := getLastD_mem_cons
  have behind := headD_mem_cons back (root l)
  refine ⟨after, ran, relinked.mono ?_, ?_⟩
  · rw [mem_cons] at pre behind
    simp only [cons_subset, nil_subset, and_true, mem_cons, mem_append]
    tauto
  · have ring := shape.ring
    rw [map_append, map_cons] at ring
    have removed := ring.remove
    rw [ring.prev_eq, ring.next_eq, getLastD_map, headD_map, ← map_append] at removed
    rwa [links]

/-- Putting an element into a ring, behind a part of its places. -/
theorem link_ring (ring : m.links.Ring (some (.root l)) ((front ++ back).map some))
    (fresh : e ∉ root l :: (front ++ back)) :
    ∃ after, m.link e (front.getLastD (.root l)) = some after ∧
      Relinked m after (.root l :: (front ++ e :: back)) ∧
      after.links.Ring (some (.root l)) ((front ++ e :: back).map some) := by
  rw [map_append] at ring
  have pre : front.getLastD (.root l) ∈ root l :: front := getLastD_mem_cons
  have behind := headD_mem_cons back (root l)
  have next : m.next (front.getLastD (.root l)) = some (back.headD (.root l)) := by
    have linked := ring.split.2.2.1
    rw [getLastD_map, headD_map] at linked
    exact linked
  have ne : e ≠ front.getLastD (.root l) := by
    rintro rfl
    exact fresh (cons_subset_cons _ (subset_append_left front back) pre)
  obtain ⟨after, ran, relinked, links⟩ := link_spec next ne
  refine ⟨after, ran, relinked.mono ?_, ?_⟩
  · rw [mem_cons] at pre behind
    simp only [cons_subset, nil_subset, and_true, mem_cons, mem_append]
    tauto
  · have out : some e ∉ some (root l) :: (front.map some ++ back.map some) := by
      simpa using fresh
    have inserted := ring.insert out
    rw [getLastD_map, headD_map, ← map_cons, ← map_append] at inserted
    rwa [links]

end ring

/-- What an operation on one list leaves behind: the list has the given elements now, and
every other list is as it was. -/
structure Updated (m after : Memory T) (l : Nat) (members : List Pointer) : Prop where
  shape : Shape after l members
  others : ∀ other, other ≠ l → ∀ elements, Shape m other elements → Shape after other elements
  allocated : Allocated after
  value : ∀ i < m.elements, after.value (.element i) = m.value (.element i)
  elements : m.elements ≤ after.elements
  lists : after.lists = m.lists

/-- Lists share no elements, so a change to the elements of one of them, and to those that are in
none, leaves the others alone. -/
theorem Shape.others
    (within : ∀ p ∈ touched, p = .root l ∨ (∃ i, p = .element i) ∧ (m.list p = some l ∨ m.list p = none))
    (elsewhere : ∀ p ∉ touched, (after.next p = m.next p ∧ after.prev p = m.prev p) ∧ after.list p = m.list p)
    (len : ∀ other, other ≠ l → after.len other = m.len other)
    (elements : m.elements ≤ after.elements) (other : Nat) (ne : other ≠ l) (members : List Pointer)
    (shape : Shape m other members) : Shape after other members := by
  have apart : ∀ p ∈ members, p ∉ touched := by
    intro p mem inside
    obtain ⟨i, -, rfl⟩ := shape.created p mem
    have owned := shape.owned _ mem
    rcases within _ inside with absurd | ⟨-, owner | owner⟩
    · cases absurd
    · cases owner.symm.trans owned
      exact ne rfl
    · cases owner.symm.trans owned
  have rootApart : root other ∉ touched := by
    intro inside
    rcases within _ inside with same | ⟨⟨i, absurd⟩, -⟩
    · cases same
      exact ne rfl
    · cases absurd
  refine shape.frame (fun p mem => ?_) (fun p mem => ?_) (len other ne) elements
  · rcases mem_cons.mp mem with rfl | inside
    · exact (elsewhere _ rootApart).1
    · exact (elsewhere p (apart p inside)).1
  · exact (elsewhere p (apart p mem)).2

theorem Shape.within (shape : Shape m l members) (p : Pointer) (mem : p ∈ members) :
    (∃ i, p = .element i) ∧ (m.list p = some l ∨ m.list p = none) := by
  obtain ⟨i, -, same⟩ := shape.created p mem
  exact ⟨⟨i, same⟩, .inl (shape.owned p mem)⟩

namespace Updated

variable {m after : Memory T}

theorem refl (allocated : Allocated m) (shape : Shape m l members) :
    Updated m m l members where
  shape := shape
  others _ _ _ := id
  allocated := allocated
  value _ _ := rfl
  elements := le_rfl
  lists := rfl

theorem trans (first : Updated m between l members) (second : Updated between after l finally_) :
    Updated m after l finally_ where
  shape := second.shape
  others other ne _ shape := second.others other ne _ (first.others other ne _ shape)
  allocated := second.allocated
  value i bound := (second.value i (lt_of_lt_of_le bound first.elements)).trans (first.value i bound)
  elements := first.elements.trans second.elements
  lists := second.lists.trans first.lists

theorem wellFormed (wellFormed : WellFormed m) (updated : Updated m after l members) :
    WellFormed after where
  toAllocated := updated.allocated
  shape other created := by
    by_cases same : other = l
    · exact ⟨members, same ▸ updated.shape⟩
    · rw [updated.lists] at created
      obtain ⟨elements, shape⟩ := wellFormed.shape other created
      exact ⟨elements, updated.others other same elements shape⟩

end Updated

end Memory

end HiveGo.DsList
