import HiveGo.LinkedMapUpdates

/-! Iterations over an ordered map. As long as the elements stay as they are, an iteration calls
its consumer on the entries in one order or the other, and the copy of a map has its entries. -/
namespace HiveGo.LinkedMap.State
open List

variable {K V σ γ : Type}
variable {heap : List (Element K V)}

/-- Call the consumer on the entries until it returns false. -/
def visit (consumer : K → V → σ → Option (Bool × σ)) : List (K × V) → σ → Option (Bool × σ)
  | [], s => some (true, s)
  | (key, value) :: entries, s => do
    let (goOn, s) ← consumer key value s
    if !goOn then return (false, s)
    visit consumer entries s

/-- The consumer keeps an invariant under which the elements of the map stay as they are. -/
structure Spares (heapOf : σ → List (Element K V)) (consumer : K → V → σ → Option (Bool × σ))
    (heap : List (Element K V)) (nodes : List (Nat × K × V)) (Inv : σ → Prop) : Prop where
  same : ∀ s, Inv s → ∀ node ∈ nodes, (heapOf s)[node.1]? = heap[node.1]?
  kept : ∀ key value s goOn t, Inv s → consumer key value s = some (goOn, t) → Inv t

/-- Following one of the links through a ring visits its entries in their order. -/
theorem iterate_eq_visit {Inv : σ → Prop}
    (spares : Spares heapOf consumer heap nodes Inv) {links : Links (Option Nat)}
    (next : ∀ ptr, links.next (some ptr) = heap[ptr]?.bind follow)
    (stored : ∀ node ∈ nodes, heap[node.1]?.map (fun element => (element.key, element.value)) = some node.2)
    (split : nodes = front ++ back)
    (ring : links.Ring none (places nodes)) (enough : back.length ≤ budget)
    (start : Inv s) : iterate heapOf follow consumer budget ((places back).headD none) s =
      visit consumer (entries back) s := by
  induction back generalizing front budget s with
  | nil => cases budget <;> rfl
  | cons node back ih =>
    cases budget with
    | zero => exact absurd enough (by simp)
    | succ budget =>
      have mem : node ∈ nodes := by
        rw [split]
        exact mem_append_right _ mem_cons_self
      obtain ⟨element, here, entry⟩ := Option.map_eq_some_iff.mp (stored node mem)
      have read : ∀ s, Inv s → (heapOf s)[node.1]? = some element := fun s inv => by
        rw [spares.same s inv node mem, here]
      have after : follow element = (places back).headD none := by
        have places_eq : places nodes = places front ++ some node.1 :: places back := by
          rw [split]
          simp [places]
        rw [places_eq] at ring
        have linked := ring.next_eq
        rwa [next, here] at linked
      change iterate heapOf follow consumer (budget + 1) (some node.1) s =
        visit consumer (node.2 :: entries back) s
      obtain ⟨ptr, key, value⟩ := node
      obtain ⟨rfl, rfl⟩ := Prod.mk.inj entry
      rw [iterate, visit, read s start]
      simp only [Option.bind_eq_bind, Option.bind_some]
      cases ran : consumer element.key element.value s with
      | none => rfl
      | some result =>
        obtain ⟨goOn, t⟩ := result
        have inv := spares.kept _ _ s goOn t start ran
        cases goOn with
        | false => rfl
        | true =>
          simp only [Bool.not_true, Bool.false_eq_true, if_false, read t inv, Option.bind_some, after]
          exact ih (by rw [split, append_cons]) (by simpa using enough) inv

/-- A consumer that does not change the map: it sees an entry and what it kept before. -/
def reading (consumer : K → V → γ → Bool × γ) (key : K) (value : V) (both : State K V × γ) :
    Option (Bool × State K V × γ) :=
  let (goOn, kept) := consumer key value both.2
  some (goOn, both.1, kept)

theorem visit_reading (entries : List (K × V)) (kept : γ) :
    visit (reading consumer) entries (s, kept) =
      some ((OrderedMap.forEach consumer entries kept).1, s,
        (OrderedMap.forEach consumer entries kept).2) := by
  induction entries generalizing kept with
  | nil => rfl
  | cons entry entries ih =>
    obtain ⟨key, value⟩ := entry
    rw [visit, OrderedMap.forEach]
    simp only [reading, Option.bind_eq_bind, Option.bind_some]
    cases (consumer key value kept).1 with
    | false => rfl
    | true => exact ih _

variable [DecidableEq K]

namespace Represents

variable {nodes : List (Nat × K × V)}

/-- A map has no more elements than the memory. -/
theorem length_le (models : Represents s nodes) : nodes.length ≤ s.heap.length := by
  have nodup : (nodes.map Prod.fst).Nodup := by
    have ring := (nodup_cons.mp models.ring.nodup).2
    refine List.Nodup.of_map some ?_
    rwa [map_map]
  have small : nodes.map Prod.fst ⊆ range s.heap.length := by
    intro ptr mem
    obtain ⟨node, held, rfl⟩ := mem_map.mp mem
    exact mem_range.mpr (lt_of_contents (models.stored node held))
  have shorter := (subperm_of_subset nodup small).length_le
  rwa [length_map, length_range] at shorter

omit [DecidableEq K] in
theorem spares_reading :
    Spares (fun both : State K V × γ => both.1.heap) (reading consumer) s.heap nodes
      (fun both => both.1 = s) where
  same both isState node _ := by rw [isState]
  kept key value both goOn after isState called := by
    cases called
    exact isState

theorem forEach_eq (models : Represents s nodes) (kept : γ) :
    s.forEach (reading consumer) kept =
      some ((OrderedMap.forEach consumer (entries nodes) kept).1, s,
        (OrderedMap.forEach consumer (entries nodes) kept).2) := by
  have first : s.map.head = (places nodes).headD none := models.ring.next_root
  rw [forEach, first, ← visit_reading]
  exact iterate_eq_visit spares_reading (fun _ => rfl) models.stored
    (nil_append nodes).symm models.ring models.length_le rfl

theorem forEachReverse_eq (models : Represents s nodes) (kept : γ) :
    s.forEachReverse (reading consumer) kept =
      some ((OrderedMap.forEach consumer (entries nodes).reverse kept).1, s,
        (OrderedMap.forEach consumer (entries nodes).reverse kept).2) := by
  have ring : s.links.flip.Ring none (places nodes.reverse) := by
    rw [places, map_reverse]
    exact models.ring.flip
  have last : s.map.tail = (places nodes.reverse).headD none := ring.next_root
  have reversed : (entries nodes).reverse = entries nodes.reverse := map_reverse.symm
  rw [forEachReverse, last, reversed, ← visit_reading]
  refine iterate_eq_visit spares_reading (fun _ => rfl)
    (fun node mem => models.stored node (mem_reverse.mp mem))
    (nil_append _).symm ring ?_ rfl
  rw [length_reverse]
  exact models.length_le

end Represents

/-- A copy in the making: its elements are new, and those that were there before are as they
were. -/
def Copying (heap : List (Element K V)) (entriesSoFar : List (K × V)) (cloned : State K V) : Prop :=
  ∃ nodes, cloned.Represents nodes ∧ entries nodes = entriesSoFar ∧
    heap.length ≤ cloned.heap.length ∧ (∀ node ∈ nodes, heap.length ≤ node.1) ∧
    ∀ pointer < heap.length, cloned.heap[pointer]? = heap[pointer]?

/-- One more entry is set in the copy. -/
def copyEntry (key : K) (value : V) (cloned : State K V) : Option (Bool × State K V) := do
  let (_, cloned) ← cloned.set key value
  return (true, cloned)

theorem copyEntry_spec (copying : Copying heap soFar cloned) :
    ∃ t, copyEntry key value cloned = some (true, t) ∧
      Copying heap (OrderedMap.set key value soFar) t := by
  obtain ⟨nodes, models, rfl, grown, own, same⟩ := copying
  obtain ⟨t, new, done, shape, now, footprint⟩ := models.set_spec
  refine ⟨t, by rw [copyEntry, done]; rfl, new, shape, now, Nat.le_trans grown footprint.grows,
    fun node mem => ?_, fun ptr bound => ?_⟩
  · rcases footprint.own node mem with old | created
    · obtain ⟨other, held, equal⟩ := mem_map.mp old
      rw [← Option.some.inj equal]
      exact own other held
    · exact Nat.le_trans grown created
  · rw [footprint.frame ptr (Nat.lt_of_lt_of_le bound grown), same ptr bound]
    intro inside
    obtain ⟨node, held, equal⟩ := mem_map.mp inside
    rw [← Option.some.inj equal] at bound
    exact Nat.not_lt.mpr (own node held) bound

theorem visit_copyEntry (copying : Copying heap soFar cloned) (entries : List (K × V)) :
    ∃ t, visit copyEntry entries cloned = some (true, t) ∧
      Copying heap (OrderedMap.setAll soFar entries) t := by
  induction entries generalizing soFar cloned with
  | nil => exact ⟨cloned, rfl, copying⟩
  | cons entry entries ih =>
    obtain ⟨t, done, next⟩ := copyEntry_spec copying
    obtain ⟨u, rest, final⟩ := ih next
    refine ⟨u, ?_, final⟩
    rw [visit, done]
    exact rest

/-- The copy of a map has its entries, in new elements. -/
theorem Represents.clone_spec {s : State K V}
    (models : Represents s nodes) : ∃ t, s.clone = some t ∧ Copying s.heap (entries nodes) t := by
  have start : Copying s.heap [] (new s.heap) :=
    ⟨[], represents_new s.heap, rfl, Nat.le_refl _, fun _ mem => (by cases mem), fun _ _ => rfl⟩
  obtain ⟨t, done, copied⟩ := visit_copyEntry start (entries nodes)
  rw [OrderedMap.setAll_of_distinct (by simpa using models.distinct), nil_append] at copied
  have first : s.map.head = (places nodes).headD none := models.ring.next_root
  have spares : Spares State.heap copyEntry s.heap nodes
      (fun cloned => ∃ soFar, Copying s.heap soFar cloned) := by
    refine ⟨?_, ?_⟩
    · rintro cloned ⟨soFar, -, -, -, -, -, same⟩ node mem
      exact same node.1 (lt_of_contents (models.stored node mem))
    · rintro key value cloned goOn after ⟨soFar, copying⟩ called
      obtain ⟨u, did, next⟩ := copyEntry_spec copying
      cases did.symm.trans called
      exact ⟨_, next⟩
  have walked := iterate_eq_visit spares (fun _ => rfl) models.stored
    (nil_append nodes).symm models.ring models.length_le ⟨[], start⟩
  refine ⟨t, ?_, copied⟩
  rw [State.clone, first]
  change (iterate State.heap Element.next copyEntry _ _ _).bind _ = _
  rw [walked, done]
  rfl

end HiveGo.LinkedMap.State
