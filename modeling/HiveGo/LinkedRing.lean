import Mathlib.Data.List.Chain
import Mathlib.Data.List.Nodup

/-! Doubly linked rings. A ring runs from a root through a list of places and back to it. A list
that ends in a nil pointer is such a ring as well: its root is nil, and what comes after nil is
the head. -/
namespace HiveGo
open List Function

/-- The pointers of all places. -/
@[ext] structure Links (P : Type) where
  next : P → P
  prev : P → P

namespace Links

variable {P : Type}
variable {places : List P} {place : P}

/-- The second place follows the first one, in both directions. -/
def Linked (links : Links P) (a b : P) : Prop := links.next a = b ∧ links.prev b = a

/-- The ring of the root and of the places after it, in their order. -/
structure Ring (links : Links P) (root : P) (places : List P) : Prop where
  nodup : (root :: places).Nodup
  linked : (root :: places ++ [root]).IsChain links.Linked

/-- The pointers with both directions exchanged. -/
def flip (links : Links P) : Links P := ⟨links.prev, links.next⟩

variable {links : Links P}

/-- A chain uses the next pointers of all places but the last, and the previous pointers of all
but the first. -/
theorem chain_congr {other : Links P} (chain : places.IsChain links.Linked)
    (next : ∀ place ∈ places.dropLast, other.next place = links.next place)
    (prev : ∀ place ∈ places.tail, other.prev place = links.prev place) :
    places.IsChain other.Linked := by
  induction places with
  | nil => exact .nil
  | cons a rest ih =>
    cases rest with
    | nil => exact .singleton a
    | cons b rest =>
      rw [isChain_cons_cons] at chain ⊢
      rw [dropLast_cons_cons, forall_mem_cons] at next
      rw [tail_cons, forall_mem_cons] at prev
      refine ⟨⟨next.1.trans chain.1.1, prev.1.trans chain.1.2⟩, ih chain.2 next.2 ?_⟩
      exact prev.2

/-- What a ring is depends on the pointers of its own places only. -/
theorem Ring.congr {other : Links P} (ring : links.Ring root places)
    (same : ∀ place ∈ root :: places, other.next place = links.next place ∧
        other.prev place = links.prev place) :
    other.Ring root places := by
  refine ⟨ring.nodup, chain_congr ring.linked (fun place mem => ?_) fun place mem => ?_⟩
  · rw [dropLast_concat] at mem
    exact (same place mem).1
  · rw [cons_append, tail_cons, mem_append, mem_singleton] at mem
    exact (same place (mem_cons.mpr mem.symm)).2

theorem ring_nil_iff : links.Ring root [] ↔ links.next root = root ∧ links.prev root = root := by
  constructor
  · intro ring
    exact (isChain_cons_cons.mp ring.linked).1
  · intro linked
    exact ⟨nodup_singleton root, isChain_cons_cons.mpr ⟨linked, .singleton root⟩⟩

/-- Seen from its other side, a ring runs through its places in reverse order. -/
theorem Ring.flip (ring : links.Ring root places) : links.flip.Ring root places.reverse := by
  refine ⟨?_, ?_⟩
  · have nodup := ring.nodup
    rw [nodup_cons] at nodup ⊢
    rw [mem_reverse, nodup_reverse]
    exact nodup
  · have reversed : root :: places.reverse ++ [root] = (root :: places ++ [root]).reverse := by
      simp
    rw [reversed, isChain_reverse]
    exact ring.linked.imp fun a b linked => ⟨linked.2, linked.1⟩

theorem chain_cons_append : (root :: front ++ (back ++ [root])).IsChain R ↔
      (root :: front).IsChain R ∧ (back ++ [root]).IsChain R ∧
        R (front.getLastD root) (back.headD root) := by
  rw [isChain_append]
  have last : (root :: front).getLast? = some (front.getLastD root) := by
    rw [getLast?_cons, getLastD_eq_getLast?]
  have first : (back ++ [root]).head? = some (back.headD root) := by
    cases back <;> rfl
  simp [last, first]

/-- A ring that is cut in two: both arcs are chains, and they are linked where they meet. -/
theorem Ring.split (ring : links.Ring root (front ++ back)) :
    (root :: front).IsChain links.Linked ∧ (back ++ [root]).IsChain links.Linked ∧
      links.Linked (front.getLastD root) (back.headD root) := by
  have linked := ring.linked
  rw [← cons_append, append_assoc] at linked
  exact chain_cons_append.mp linked

section

variable {root : P} {front back : List P} (ring : links.Ring root (front ++ place :: back))
include ring

/-- The neighbours of a place. -/
theorem Ring.prev_eq :
    links.prev place = front.getLastD root := ring.split.2.2.2

theorem Ring.next_eq : links.next place = back.headD root := by
  rw [append_cons] at ring
  have linked := ring.split.2.2.1
  rwa [getLastD_concat] at linked

/-- The neighbours of a place are places of the ring. -/
theorem Ring.prev_mem : links.prev place ∈ root :: (front ++ place :: back) := by
  rw [ring.prev_eq]
  rcases mem_cons.mp (getLastD_mem_cons (l := front) (a := root)) with same | inside
  · rw [same]
    exact mem_cons_self
  · exact mem_cons_of_mem _ (mem_append_left _ inside)

theorem Ring.next_mem : links.next place ∈ root :: (front ++ place :: back) := by
  rw [ring.next_eq]
  cases back with
  | nil => exact mem_cons_self
  | cons first rest =>
    exact mem_cons_of_mem _ (mem_append_right _ (mem_cons_of_mem _ mem_cons_self))

end

/-- The first and the last place. -/
theorem Ring.next_root (ring : links.Ring root places) : links.next root = places.headD root := by
  have whole : links.Ring root ([] ++ places) := ring
  exact whole.split.2.2.1

theorem Ring.prev_root (ring : links.Ring root places) :
    links.prev root = places.getLastD root := by
  rw [← append_nil places] at ring
  exact ring.split.2.2.2

section connect

theorem nodup_parts (nodup : (root :: (front ++ back)).Nodup) :
    (root :: front).Nodup ∧ (root :: back).Nodup ∧ ∀ place ∈ front, place ∉ back := by
  rw [nodup_cons, mem_append, not_or, nodup_append] at nodup
  obtain ⟨⟨outFront, outBack⟩, frontNodup, backNodup, disjoint⟩ := nodup
  exact ⟨nodup_cons.mpr ⟨outFront, frontNodup⟩, nodup_cons.mpr ⟨outBack, backNodup⟩,
    fun place mem also => disjoint place mem place also rfl⟩

theorem headD_mem_cons (back : List P) (root : P) : back.headD root ∈ root :: back := by
  cases back with
  | nil => exact mem_cons_self
  | cons first rest => exact mem_cons_of_mem root mem_cons_self

theorem dropLast_append_getLastD :
    (root :: front).dropLast ++ [front.getLastD root] = root :: front := by
  induction front generalizing root with
  | nil => rfl
  | cons first rest ih =>
    rw [dropLast_cons_cons, getLastD_cons, cons_append, ih]

theorem ne_getLastD_of_mem_dropLast (nodup : (root :: front).Nodup)
    (mem : place ∈ (root :: front).dropLast) : place ≠ front.getLastD root := by
  rw [← dropLast_append_getLastD, nodup_append] at nodup
  exact nodup.2.2 place mem _ (mem_singleton_self _)

theorem ne_headD_of_mem_tail (nodup : (root :: back).Nodup) (mem : place ∈ (back ++ [root]).tail) :
    place ≠ back.headD root := by
  cases back with
  | nil => cases mem
  | cons first rest =>
    rw [cons_append, tail_cons, mem_append, mem_singleton] at mem
    rw [nodup_cons, nodup_cons, mem_cons, not_or] at nodup
    rintro rfl
    rcases mem with inside | same
    · exact nodup.2.1 inside
    · exact nodup.1.1 same.symm

/-- The last place of the front is none of the back, and the first place of the back is none of
the front; an empty part stands for the root. -/
theorem ne_getLastD_of_mem_back (nodup : (root :: (front ++ back)).Nodup) (mem : place ∈ back) :
    place ≠ front.getLastD root := by
  obtain ⟨-, backNodup, disjoint⟩ := nodup_parts nodup
  intro same
  have inside : front.getLastD root ∈ root :: front := getLastD_mem_cons
  rw [← same, mem_cons] at inside
  rcases inside with rfl | inside
  · exact (nodup_cons.mp backNodup).1 mem
  · exact disjoint place inside mem

theorem ne_headD_of_mem_front (nodup : (root :: (front ++ back)).Nodup) (mem : place ∈ front) :
    place ≠ back.headD root := by
  obtain ⟨frontNodup, -, disjoint⟩ := nodup_parts nodup
  intro same
  have inside := headD_mem_cons back root
  rw [← same, mem_cons] at inside
  rcases inside with rfl | inside
  · exact (nodup_cons.mp frontNodup).1 mem
  · exact disjoint place mem inside

variable [DecidableEq P]

/-- Make the second place the one after the first. -/
def connect (links : Links P) (a b : P) : Links P where
  next := update links.next a b
  prev := update links.prev b a

theorem connect_next_of_ne (ne : place ≠ a) :
    (links.connect a b).next place = links.next place := update_of_ne ne ..

theorem connect_prev_of_ne (ne : place ≠ b) :
    (links.connect a b).prev place = links.prev place := update_of_ne ne ..

/-- Two arcs that are connected at one side are a ring when they are connected at the other. -/
theorem ring_connect (nodup : (root :: (front ++ back)).Nodup)
    (first : (root :: front).IsChain links.Linked) (second : (back ++ [root]).IsChain links.Linked) :
    (links.connect (front.getLastD root) (back.headD root)).Ring root (front ++ back) := by
  obtain ⟨frontNodup, backNodup, -⟩ := nodup_parts nodup
  refine ⟨nodup, ?_⟩
  rw [← cons_append, append_assoc]
  refine chain_cons_append.mpr ⟨chain_congr first ?_ ?_, chain_congr second ?_ ?_, ?_⟩
  · intro place mem
    exact connect_next_of_ne (ne_getLastD_of_mem_dropLast frontNodup mem)
  · intro place mem
    exact connect_prev_of_ne (ne_headD_of_mem_front nodup mem)
  · intro place mem
    rw [dropLast_concat] at mem
    exact connect_next_of_ne (ne_getLastD_of_mem_back nodup mem)
  · intro place mem
    exact connect_prev_of_ne (ne_headD_of_mem_tail backNodup mem)
  · exact ⟨update_self .., update_self ..⟩

/-- Connecting the neighbours of a place takes it out. -/
theorem Ring.remove (ring : links.Ring root (front ++ place :: back)) :
    (links.connect (links.prev place) (links.next place)).Ring root (front ++ back) := by
  have nodup :=
    ring.nodup.sublist ((sublist_cons_self place back).append_left front |>.cons_cons root)
  rw [ring.prev_eq, ring.next_eq]
  have second := ring.split.2.1
  exact ring_connect nodup ring.split.1 second.of_cons

/-- Connecting a new place with one of the ring and with the one after it puts it between
them. -/
theorem Ring.insert (ring : links.Ring root (front ++ back))
    (fresh : place ∉ root :: (front ++ back)) :
    ((links.connect (front.getLastD root) place).connect place (back.headD root)).Ring root
      (front ++ place :: back) := by
  obtain ⟨first, second, -⟩ := ring.split
  rw [mem_cons, mem_append, not_or, not_or] at fresh
  obtain ⟨notRoot, notFront, notBack⟩ := fresh
  have nodup : (root :: (front ++ [place] ++ back)).Nodup := by
    have both := ring.nodup
    rw [← append_cons]
    rw [nodup_cons] at both ⊢
    refine ⟨?_, nodup_middle.mpr (nodup_cons.mpr ⟨?_, both.2⟩)⟩
    · simpa [Ne.symm notRoot] using both.1
    · simp [notFront, notBack]
  have frontArc : (root :: (front ++ [place])).IsChain
      (links.connect (front.getLastD root) place).Linked := by
    have chain : (root :: front).IsChain (links.connect (front.getLastD root) place).Linked := by
      refine chain_congr first (fun other mem => ?_) fun other mem => ?_
      · exact connect_next_of_ne (ne_getLastD_of_mem_dropLast (nodup_parts ring.nodup).1 mem)
      · refine connect_prev_of_ne ?_
        rintro rfl
        exact notFront mem
    rw [← cons_append, isChain_append]
    refine ⟨chain, .singleton place, fun last isLast other isPlace => ?_⟩
    rw [getLast?_cons, ← getLastD_eq_getLast?, Option.mem_some_iff] at isLast
    rw [head?_cons, Option.mem_some_iff] at isPlace
    rw [← isLast, ← isPlace]
    exact ⟨update_self .., update_self ..⟩
  have backArc : (back ++ [root]).IsChain (links.connect (front.getLastD root) place).Linked := by
    refine chain_congr second (fun other mem => ?_) fun other mem => ?_
    · rw [dropLast_concat] at mem
      exact connect_next_of_ne (ne_getLastD_of_mem_back ring.nodup mem)
    · refine connect_prev_of_ne ?_
      rintro rfl
      have inside := mem_of_mem_tail mem
      rw [mem_append, mem_singleton] at inside
      exact inside.elim notBack notRoot
  have joined := ring_connect nodup frontArc backArc
  rwa [getLastD_concat, ← append_cons] at joined

end connect

end Links

end HiveGo
