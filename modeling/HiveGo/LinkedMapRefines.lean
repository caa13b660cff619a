import HiveGo.LinkedMapIteration
import HiveGo.Runs

/-! Several ordered maps in one memory, and sequences of calls on them. Every call gives the
answer of a list of entries, whatever was called before on any of the maps. -/
namespace HiveGo.LinkedMap
open List Option State

variable {K V γ : Type}
variable {m : Nat} {new : List (Nat × K × V)}

/-- A call on one map. The consumers of iterations do not change the map. -/
inductive MapCall (K V γ : Type) where
  | set (key : K) (newValue : V)
  | delete (key : K)
  | clear
  | get (key : K)
  | has (key : K)
  | head
  | tail
  | size
  | forEach (consumer : K → V → γ → Bool × γ) (kept : γ)
  | forEachReverse (consumer : K → V → γ → Bool × γ) (kept : γ)

inductive Call (K V γ : Type) where
  | new
  | clone (m : Nat)
  | on (m : Nat) (call : MapCall K V γ)

inductive Answer (K V γ : Type) where
  | map (m : Nat)
  | value (value : Option V)
  | flag (flag : Bool)
  | entry (entry : Option (K × V))
  | size (size : Int)
  | visited (all : Bool) (kept : γ)
  | nothing

/-- All elements, and all maps. -/
structure Memory (K V : Type) where
  heap : List (Element K V) := []
  maps : List (OrderedMap K) := []

section

variable [DecidableEq K]

def State.perform (s : State K V) : MapCall K V γ → Option (Answer K V γ × State K V)
  | .set key newValue => do
    let (previousValue, s) ← s.set key newValue
    return (.value previousValue, s)
  | .delete key => do
    let (existed, s) ← s.delete key
    return (.flag existed, s)
  | .clear => return (.nothing, s.clear)
  | .get key => return (.value (← s.get key), s)
  | .has key => return (.flag (s.has key), s)
  | .head => return (.entry (← s.head), s)
  | .tail => return (.entry (← s.tail), s)
  | .size => return (.size s.size, s)
  | .forEach consumer kept => do
    let (all, s, kept) ← s.forEach (reading consumer) kept
    return (.visited all kept, s)
  | .forEachReverse consumer kept => do
    let (all, s, kept) ← s.forEachReverse (reading consumer) kept
    return (.visited all kept, s)

/-- A call and its answer, which is put behind the answers so far. -/
def Memory.step (both : Memory K V × List (Answer K V γ)) :
    Call K V γ → Option (Memory K V × List (Answer K V γ))
  | .new =>
    let (memory, answers) := both
    return ({ memory with maps := memory.maps ++ [{}] }, answers ++ [.map memory.maps.length])
  | .clone m => do
    let (memory, answers) := both
    let map ← memory.maps[m]?
    let cloned ← clone ⟨memory.heap, map⟩
    return (⟨cloned.heap, memory.maps ++ [cloned.map]⟩, answers ++ [.map memory.maps.length])
  | .on m call => do
    let (memory, answers) := both
    let map ← memory.maps[m]?
    let (answer, s) ← perform ⟨memory.heap, map⟩ call
    return (⟨s.heap, memory.maps.set m s.map⟩, answers ++ [answer])

/-- What a call does to a list of entries with distinct keys. -/
def performList (entries : List (K × V)) : MapCall K V γ → Answer K V γ × List (K × V)
  | .set key newValue =>
    (.value (OrderedMap.get key entries), OrderedMap.set key newValue entries)
  | .delete key => (.flag (OrderedMap.get key entries).isSome, OrderedMap.erase key entries)
  | .clear => (.nothing, [])
  | .get key => (.value (OrderedMap.get key entries), entries)
  | .has key => (.flag (OrderedMap.get key entries).isSome, entries)
  | .head => (.entry entries.head?, entries)
  | .tail => (.entry entries.getLast?, entries)
  | .size => (.size entries.length, entries)
  | .forEach consumer kept =>
    let (all, kept) := OrderedMap.forEach consumer entries kept
    (.visited all kept, entries)
  | .forEachReverse consumer kept =>
    let (all, kept) := OrderedMap.forEach consumer entries.reverse kept
    (.visited all kept, entries)

/-- The same calls on lists. -/
def stepLists (both : List (List (K × V)) × List (Answer K V γ)) :
    Call K V γ → Option (List (List (K × V)) × List (Answer K V γ))
  | .new =>
    let (lists, answers) := both
    return (lists ++ [[]], answers ++ [.map lists.length])
  | .clone m => do
    let (lists, answers) := both
    let entries ← lists[m]?
    return (lists ++ [entries], answers ++ [.map lists.length])
  | .on m call => do
    let (lists, answers) := both
    let entries ← lists[m]?
    let (answer, entries) := performList entries call
    return (lists.set m entries, answers ++ [answer])

open State

/-- Every call keeps the shape of its map, answers what the list of entries answers, and does
to the entries what it does to the list. -/
theorem State.Represents.perform_spec {s : State K V}
    (models : s.Represents nodes) :
    s.Leaves nodes (s.perform call) (performList (entries nodes) call).1
      (performList (entries nodes) call).2 := by
  cases call with
  | set key newValue =>
    obtain ⟨t, new, done, shape, now, footprint⟩ := models.set_spec
    exact ⟨t, new, by rw [perform, done]; rfl, shape, now, footprint⟩
  | delete key =>
    obtain ⟨t, new, done, shape, now, footprint⟩ := models.delete_spec
    exact ⟨t, new, by rw [perform, done]; rfl, shape, now, footprint⟩
  | clear =>
    exact ⟨s.clear, [], rfl, represents_new s.heap, rfl,
      ⟨Nat.le_refl _, fun _ _ _ => rfl, fun node mem => by cases mem⟩⟩
  | get key => exact ⟨s, nodes, by rw [perform, models.get_eq]; rfl, models, rfl, .refl⟩
  | has key => exact ⟨s, nodes, by rw [perform, models.has_eq]; rfl, models, rfl, .refl⟩
  | head => exact ⟨s, nodes, by rw [perform, models.head_eq]; rfl, models, rfl, .refl⟩
  | tail => exact ⟨s, nodes, by rw [perform, models.tail_eq]; rfl, models, rfl, .refl⟩
  | size =>
    refine ⟨s, nodes, ?_, models, rfl, .refl⟩
    rw [perform, State.size, models.size, performList, entries, length_map]
    rfl
  | forEach consumer kept =>
    exact ⟨s, nodes, by rw [perform, models.forEach_eq]; rfl, models, rfl, .refl⟩
  | forEachReverse consumer kept =>
    exact ⟨s, nodes, by rw [perform, models.forEachReverse_eq]; rfl, models, rfl, .refl⟩

/-- The maps consist of the elements of their lists, and no element belongs to two maps. -/
structure Holds (memory : Memory K V) (nodes : List (List (Nat × K × V))) : Prop where
  length : memory.maps.length = nodes.length
  represents : ∀ (m : Nat) map own, memory.maps[m]? = some map → nodes[m]? = some own →
    State.Represents ⟨memory.heap, map⟩ own
  apart : ∀ (m n : Nat) own others, m ≠ n → nodes[m]? = some own → nodes[n]? = some others →
    ∀ node ∈ own, ∀ other ∈ others, node.1 ≠ other.1

namespace Holds

variable {nodes : List (List (Nat × K × V))}

variable {memory : Memory K V} (holds : Holds memory nodes)
include holds

theorem exists_nodes {map : OrderedMap K}
    (found : memory.maps[m]? = some map) :
    ∃ own, nodes[m]? = some own ∧ State.Represents ⟨memory.heap, map⟩ own := by
  have bound := (List.getElem?_eq_some_iff.mp found).1
  rw [holds.length] at bound
  have here := getElem?_eq_getElem bound
  exact ⟨_, here, holds.represents m map _ found here⟩

theorem bounded (here : nodes[m]? = some own) : ∀ node ∈ own, node.1 < memory.heap.length := by
  intro node mem
  have bound : m < memory.maps.length := by
    rw [holds.length]
    exact (List.getElem?_eq_some_iff.mp here).1
  have shape := holds.represents m _ own (getElem?_eq_getElem bound) here
  exact Represents.lt_of_contents (shape.stored node mem)

theorem getElem?_eq_none (missing : memory.maps[m]? = none) : nodes[m]? = none := by
  rw [getElem?_eq_none_iff] at missing ⊢
  rwa [← holds.length]

section Footprint

variable {own new others : List (Nat × K × V)} {heap : List (Element K V)}
  (here : nodes[m]? = some own) (footprint : Footprint memory.heap heap own new)
  (other : m ≠ n) (theirs : nodes[n]? = some others)
include here footprint other theirs

/-- An operation on one map keeps the others. -/
theorem frame {map : OrderedMap K} (found : memory.maps[n]? = some map) :
    State.Represents ⟨heap, map⟩ others := by
  have models := holds.represents n map others found theirs
  refine models.frame rfl fun node mem => ?_
  refine footprint.frame node.1 (Represents.lt_of_contents (models.stored node mem)) ?_
  intro inside
  obtain ⟨mine, held, equal⟩ := mem_map.mp inside
  exact holds.apart m n own others other here theirs mine held node mem (some.inj equal)

/-- New elements of one map are none of another. -/
theorem apart_of_footprint : ∀ node ∈ new, ∀ their ∈ others, node.1 ≠ their.1 := by
  intro node mem their held
  rcases footprint.own node mem with old | created
  · obtain ⟨mine, inside, equal⟩ := mem_map.mp old
    rw [← some.inj equal]
    exact holds.apart m n own others other here theirs mine inside their held
  · have small := holds.bounded theirs their held
    omega

end Footprint

theorem on (here : nodes[m]? = some own) {t : State K V}
    (shape : t.Represents new) (footprint : Footprint memory.heap t.heap own new) :
    Holds ⟨t.heap, memory.maps.set m t.map⟩ (nodes.set m new) := by
  have bound := (List.getElem?_eq_some_iff.mp here).1
  refine ⟨by simp [holds.length], ?_, ?_⟩
  · intro n map others found theirs
    by_cases same : m = n
    · subst same
      rw [getElem?_set_self (by rw [holds.length]; exact bound)] at found
      rw [getElem?_set_self bound] at theirs
      cases found
      cases theirs
      exact shape
    · rw [getElem?_set_ne same] at found theirs
      exact holds.frame here footprint same theirs found
  · intro i j first second apart isFirst isSecond node mem other held
    by_cases firstOwn : m = i
    · subst firstOwn
      rw [getElem?_set_self bound] at isFirst
      rw [getElem?_set_ne apart] at isSecond
      cases isFirst
      exact holds.apart_of_footprint here footprint apart isSecond node mem other held
    · rw [getElem?_set_ne firstOwn] at isFirst
      by_cases secondOwn : m = j
      · subst secondOwn
        rw [getElem?_set_self bound] at isSecond
        cases isSecond
        exact (holds.apart_of_footprint here footprint firstOwn isFirst other held node mem).symm
      · rw [getElem?_set_ne secondOwn] at isSecond
        exact holds.apart i j first second apart isFirst isSecond node mem other held

/-- A map with new elements only is put beside the others. -/
theorem append {t : State K V} (shape : t.Represents new)
    (made : ∀ node ∈ new, memory.heap.length ≤ node.1)
    (same : ∀ pointer < memory.heap.length, t.heap[pointer]? = memory.heap[pointer]?) :
    Holds ⟨t.heap, memory.maps ++ [t.map]⟩ (nodes ++ [new]) := by
  refine ⟨by simp [holds.length], ?_, ?_⟩
  · intro m map own found here
    rcases getElem?_concat_eq_some.mp found with old | ⟨last, rfl⟩
    · have bound := (List.getElem?_eq_some_iff.mp old).1
      rw [getElem?_append_left (by rw [← holds.length]; exact bound)] at here
      refine (holds.represents m map own old here).frame rfl fun node mem => ?_
      exact same node.1 (holds.bounded here node mem)
    · rw [last, holds.length, getElem?_concat_length] at here
      cases here
      exact shape
  · intro i j first second apart isFirst isSecond node mem other held
    rcases getElem?_concat_eq_some.mp isFirst with old | ⟨last, rfl⟩
    · rcases getElem?_concat_eq_some.mp isSecond with alsoOld | ⟨-, rfl⟩
      · exact holds.apart i j first second apart old alsoOld node mem other held
      · have small := holds.bounded old node mem
        have large := made other held
        omega
    · rcases getElem?_concat_eq_some.mp isSecond with old | ⟨alsoLast, -⟩
      · have small := holds.bounded old other held
        have large := made node mem
        omega
      · exact absurd (last.trans alsoLast.symm) apart

end Holds

/-- The memory holds the lists, and the answers were the same. -/
def Agrees (left : Memory K V × List (Answer K V γ))
    (right : List (List (K × V)) × List (Answer K V γ)) : Prop :=
  left.2 = right.2 ∧ ∃ nodes, Holds left.1 nodes ∧ right.1 = nodes.map entries

theorem step_agrees (agrees : Agrees left right)
    (call : Call K V γ) : Option.Rel Agrees (Memory.step left call) (stepLists right call) := by
  obtain ⟨memory, answers⟩ := left
  obtain ⟨lists, others⟩ := right
  obtain ⟨rfl, nodes, holds, rfl⟩ := agrees
  have lengths : memory.maps.length = (nodes.map entries).length := by
    rw [length_map]
    exact holds.length
  cases call with
  | new =>
    refine .some ⟨by rw [lengths], nodes ++ [[]], ?_, by simp [entries]⟩
    exact holds.append (represents_new memory.heap) (fun _ mem => by cases mem) fun _ _ => rfl
  | clone m =>
    simp only [Memory.step, stepLists, getElem?_map]
    cases found : memory.maps[m]? with
    | none =>
      rw [holds.getElem?_eq_none found]
      exact .none
    | some map =>
      obtain ⟨own, here, models⟩ := holds.exists_nodes found
      obtain ⟨t, done, new, shape, now, -, made, same⟩ := models.clone_spec
      rw [here, bind_eq_bind, bind_some, done]
      refine .some ⟨by rw [lengths], nodes ++ [new], holds.append shape made same, ?_⟩
      rw [map_append, map_singleton, now]
  | on m call =>
    simp only [Memory.step, stepLists, getElem?_map]
    cases found : memory.maps[m]? with
    | none =>
      rw [holds.getElem?_eq_none found]
      exact .none
    | some map =>
      obtain ⟨own, here, models⟩ := holds.exists_nodes found
      obtain ⟨t, new, done, shape, now, footprint⟩ := models.perform_spec
      rw [here, bind_eq_bind, bind_some, done]
      refine .some ⟨rfl, nodes.set m new, holds.on here shape footprint, ?_⟩
      rw [map_set, now]

/-- The consumer that keeps every entry it sees. -/
def collect (key : K) (value : V) (kept : List (K × V)) : Bool × List (K × V) :=
  (true, kept ++ [(key, value)])

omit [DecidableEq K] in
theorem forEach_collect (entries kept : List (K × V)) :
    OrderedMap.forEach collect entries kept = (true, kept ++ entries) := by
  induction entries generalizing kept with
  | nil => rw [append_nil]; rfl
  | cons entry entries ih =>
    obtain ⟨key, value⟩ := entry
    rw [append_cons]
    exact ih (kept ++ [(key, value)])

theorem run_agrees (calls : List (Call K V γ)) :
    Option.Rel Agrees (run Memory.step (({} : Memory K V), []) calls)
      (run stepLists ([], []) calls) := by
  have start : Agrees (({} : Memory K V), ([] : List (Answer K V γ))) ([], []) :=
    ⟨rfl, [], ⟨rfl, fun _ _ _ found => by simp at found, fun _ _ _ _ _ found => by simp at found⟩,
      rfl⟩
  exact run_related (fun left right call agrees => step_agrees agrees call) start

/-- For every sequence of calls on any number of maps, the answers are those of lists of entries
with distinct keys; a copy and its original are two lists. -/
theorem orderedMap_refines (calls : List (Call K V γ)) :
    (run Memory.step (({} : Memory K V), []) calls).map Prod.snd =
      (run stepLists ([], []) calls).map Prod.snd ∧
    (∀ lists answers, run stepLists ([], []) calls = some (lists, answers) →
      ∀ entries ∈ lists, OrderedMap.Distinct entries) ∧
    ∀ memory answers, run Memory.step (({} : Memory K V), []) calls = some (memory, answers) →
      ∀ map ∈ memory.maps, ∃ entries,
        (mk memory.heap map).forEach (reading collect) [] =
          some (true, ⟨memory.heap, map⟩, entries) ∧
        (mk memory.heap map).forEachReverse (reading collect) [] =
          some (true, ⟨memory.heap, map⟩, entries.reverse) := by
  have both := run_agrees (V := V) calls
  generalize run Memory.step (({} : Memory K V), []) calls = left at both
  generalize run stepLists ([], []) calls = right at both
  cases both with
  | none => exact ⟨rfl, fun _ _ absurd => (by cases absurd), fun _ _ absurd => (by cases absurd)⟩
  | some agrees =>
    obtain ⟨same, nodes, holds, isLists⟩ := agrees
    refine ⟨congrArg some same, ?_, ?_⟩
    · rintro lists answers ⟨⟩ list mem
      change lists = nodes.map entries at isLists
      rw [isLists] at mem
      obtain ⟨own, inside, rfl⟩ := mem_map.mp mem
      obtain ⟨m, here⟩ := mem_iff_getElem?.mp inside
      have bound := (List.getElem?_eq_some_iff.mp here).1
      rw [← holds.length] at bound
      exact (holds.represents m _ own (getElem?_eq_getElem bound) here).distinct
    · rintro memory answers ⟨⟩ map mem
      obtain ⟨m, found⟩ := mem_iff_getElem?.mp mem
      obtain ⟨own, -, models⟩ := holds.exists_nodes found
      refine ⟨entries own, ?_, ?_⟩
      · rw [models.forEach_eq, forEach_collect, nil_append]
      · rw [models.forEachReverse_eq, forEach_collect, nil_append]

/-- A map and its copy: the copy is changed, the first map is not. -/
example : (run Memory.step (({} : Memory Nat Nat), ([] : List (Answer Nat Nat Unit)))
    [.new, .on 0 (.set 1 10), .on 0 (.set 2 20), .clone 0, .on 1 (.delete 1), .on 1 (.set 2 21),
      .on 0 .head, .on 1 .head]).map (fun both => both.2.drop 6) =
    some [.entry (some (1, 10)), .entry (some (2, 21))] := rfl

end

end HiveGo.LinkedMap
