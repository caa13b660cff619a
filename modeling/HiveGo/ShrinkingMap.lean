import HiveGo.OrderedMap
import Mathlib.Algebra.Order.BigOperators.Group.List
import Mathlib.Algebra.Order.Ring.Int

/-! Maps with one entry for every key. Shrinking such a map copies it and changes none of
what is looked up, so it is left out. An iteration meets the entries in any order. -/
namespace HiveGo
open List Option

/-- A map, as its entries in some order. -/
structure ShrinkingMap (K V : Type) where
  entries : List (K × V)
  distinct : OrderedMap.Distinct entries

/-- The order in which an iteration meets the entries it is given. -/
structure Iteration (α : Type) where
  visit : List α → List α
  perm : ∀ entries, (visit entries).Perm entries

namespace ShrinkingMap

variable {K V : Type} [DecidableEq K]

def new : ShrinkingMap K V := ⟨[], OrderedMap.distinct_nil⟩

def get (m : ShrinkingMap K V) (key : K) : Option V := OrderedMap.get key m.entries

def has (m : ShrinkingMap K V) (key : K) : Bool := (m.get key).isSome

def set (m : ShrinkingMap K V) (key : K) (value : V) : ShrinkingMap K V :=
  ⟨OrderedMap.set key value m.entries, m.distinct.set key value⟩

def delete (m : ShrinkingMap K V) (key : K) : ShrinkingMap K V :=
  ⟨m.entries.filter fun entry => decide (entry.1 ≠ key),
    m.distinct.sublist (filter_sublist.map Prod.fst)⟩

omit [DecidableEq K] in
def size (m : ShrinkingMap K V) : Nat := m.entries.length

@[simp] theorem get_new : (new : ShrinkingMap K V).get key = none := rfl

section

variable (m : ShrinkingMap K V)
include m

theorem get_set (key other : K) (value : V) :
    (m.set key value).get other = if key = other then some value else m.get other :=
  OrderedMap.get_set key other value m.entries

@[simp] theorem get_set_self (key : K) (value : V) : (m.set key value).get key = some value := by
  rw [get_set, if_pos rfl]

theorem get_set_of_ne (ne : key ≠ other) : (m.set key value).get other = m.get other := by
  rw [get_set, if_neg ne]

theorem get_delete : (m.delete key).get other = if key = other then none else m.get other := by
  have filtered := OrderedMap.get_filter (fun other => decide (other ≠ key)) other m.entries
  by_cases same : key = other
  · simpa [get, delete, same] using filtered
  · simpa [get, delete, same, Ne.symm same] using filtered

@[simp] theorem get_delete_self : (m.delete key).get key = none := by
  rw [get_delete, if_pos rfl]

theorem get_delete_of_ne (ne : key ≠ other) : (m.delete key).get other = m.get other := by
  rw [get_delete, if_neg ne]

end

variable {m : ShrinkingMap K V}

theorem mem_entries :
    (key, value) ∈ m.entries ↔ m.get key = some value := (OrderedMap.get_eq_some m.distinct).symm

theorem mem_keys : key ∈ m.entries.map Prod.fst ↔ m.has key = true := by
  rw [has, get, isSome_iff_ne_none, ne_eq, OrderedMap.get_eq_none, not_not]

/-- Maps with the same keys list them in orders of each other. -/
theorem keys_perm_iff {n : ShrinkingMap K V} :
    (m.entries.map Prod.fst).Perm (n.entries.map Prod.fst) ↔ ∀ key, m.has key = n.has key := by
  rw [perm_ext_iff_of_nodup m.distinct n.distinct]
  refine forall_congr' fun key => ?_
  rw [mem_keys, mem_keys]
  exact Bool.eq_iff_iff.symm

theorem size_congr {n : ShrinkingMap K V} (same : ∀ key, m.has key = n.has key) :
    m.size = n.size := by
  have length := (keys_perm_iff.mpr same).length_eq
  rwa [length_map, length_map] at length

/-- The sum of a weight over all values. -/
def total (m : ShrinkingMap K V) (weight : V → Int) : Int :=
  (m.entries.map fun entry => weight entry.2).sum

/-- What the entry of a key adds to the sum. -/
def weightAt (m : ShrinkingMap K V) (weight : V → Int) (key : K) : Int :=
  ((m.get key).map weight).getD 0

omit [DecidableEq K] in
@[simp] theorem total_new : (new : ShrinkingMap K V).total weight = 0 := rfl

private theorem sum_set (weight : V → Int) (key : K) (value : V) (entries : List (K × V)) :
    ((OrderedMap.set key value entries).map fun entry => weight entry.2).sum +
        ((OrderedMap.get key entries).map weight).getD 0 =
      (entries.map fun entry => weight entry.2).sum + weight value := by
  induction entries with
  | nil => simp [OrderedMap.set, OrderedMap.get]
  | cons entry entries ih =>
    unfold OrderedMap.set OrderedMap.get
    split
    · simp only [map_cons, sum_cons, map_some, getD_some]
      omega
    · simp only [map_cons, sum_cons]
      omega

theorem total_set :
    (m.set key value).total weight = m.total weight - m.weightAt weight key + weight value := by
  have sums := sum_set weight key value m.entries
  change (m.set key value).total weight + m.weightAt weight key = m.total weight + weight value at sums
  omega

private theorem sum_filter (weight : V → Int) (key : K) {entries : List (K × V)}
    (nodup : OrderedMap.Distinct entries) :
    ((entries.filter fun entry => decide (entry.1 ≠ key)).map fun entry => weight entry.2).sum +
        ((OrderedMap.get key entries).map weight).getD 0 =
      (entries.map fun entry => weight entry.2).sum := by
  induction entries with
  | nil => rfl
  | cons entry entries ih =>
    obtain ⟨fresh, nodup⟩ := nodup_cons.mp nodup
    have rest := ih nodup
    unfold OrderedMap.get
    split
    · rename_i same
      have absent := OrderedMap.get_eq_none.mpr (same ▸ fresh)
      rw [absent, map_none, getD_none] at rest
      rw [filter_cons_of_neg (by simpa using same)]
      simp only [map_cons, sum_cons, map_some, getD_some]
      omega
    · rename_i same
      rw [filter_cons_of_pos (by simpa using same)]
      simp only [map_cons, sum_cons]
      omega

theorem total_delete (key : K) :
    (m.delete key).total weight = m.total weight - m.weightAt weight key := by
  have sums := sum_filter weight key m.distinct
  change (m.delete key).total weight + m.weightAt weight key = m.total weight at sums
  omega

omit [DecidableEq K] in
theorem size_eq_total : (m.size : Int) = m.total fun _ => 1 := by
  simp [size, total]

theorem size_set (m : ShrinkingMap K V) :
    ((m.set key value).size : Int) = m.size + if m.has key then 0 else 1 := by
  rw [size_eq_total, size_eq_total, total_set, weightAt, has]
  cases m.get key with
  | none => simp
  | some stored => simp

theorem size_delete (m : ShrinkingMap K V) :
    ((m.delete key).size : Int) = m.size - if m.has key then 1 else 0 := by
  rw [size_eq_total, size_eq_total, total_delete, weightAt, has]
  cases m.get key with
  | none => rfl
  | some stored => rfl

/-- No entry weighs more than all of them together. -/
theorem weight_le_total (nonneg : ∀ other value, m.get other = some value → 0 ≤ weight value)
    (found : m.get key = some value) : weight value ≤ m.total weight := by
  refine single_le_sum (fun weight mem => ?_) _ (mem_map.mpr ⟨_, mem_entries.mpr found, rfl⟩)
  obtain ⟨entry, inside, rfl⟩ := mem_map.mp mem
  exact nonneg _ _ (mem_entries.mp inside)

theorem total_eq_zero (zero : ∀ key value, m.get key = some value → weight value = 0) :
    m.total weight = 0 := by
  refine sum_eq_zero fun weight mem => ?_
  obtain ⟨entry, inside, rfl⟩ := mem_map.mp mem
  exact zero _ _ (mem_entries.mp inside)

end ShrinkingMap

end HiveGo
