import Mathlib.Data.List.Nodup
import Mathlib.Algebra.Group.Int.Defs

/-! Finite sets that remember the order of insertion. The value carries the proof that no element
is listed twice, so a traversal visits every member exactly once. -/
namespace HiveGo
open List

/-- A duplicate-free list read as a set; the list order is the insertion order. -/
structure OrderedSet (α : Type) where
  elems : List α
  nodup : elems.Nodup

namespace OrderedSet

variable {α : Type}
variable {y : α}

instance : Membership α (OrderedSet α) := ⟨fun s x => x ∈ s.elems⟩

variable {s : OrderedSet α}

@[simp] theorem mem_elems : x ∈ s.elems ↔ x ∈ s := Iff.rfl

instance [DecidableEq α] (s : OrderedSet α) (x : α) : Decidable (x ∈ s) :=
  inferInstanceAs (Decidable (x ∈ s.elems))

def empty : OrderedSet α := ⟨[], nodup_nil⟩

def singleton (x : α) : OrderedSet α := ⟨[x], nodup_singleton x⟩

def isEmpty (s : OrderedSet α) : Bool := s.elems.isEmpty

@[simp] theorem not_mem_empty (x : α) : x ∉ (empty : OrderedSet α) := not_mem_nil

theorem isEmpty_iff : s.isEmpty = true ↔ ∀ x, x ∉ s := by
  rw [isEmpty, List.isEmpty_iff]
  exact eq_nil_iff_forall_not_mem

variable [DecidableEq α]

/-- A present element keeps its position, a new one goes to the end. -/
def insert (s : OrderedSet α) (x : α) : OrderedSet α :=
  if present : x ∈ s.elems then s
  else ⟨s.elems ++ [x], by simpa [nodup_append] using ⟨s.nodup, fun y member same => present (same ▸ member)⟩⟩

def erase (s : OrderedSet α) (x : α) : OrderedSet α :=
  ⟨s.elems.erase x, s.nodup.erase x⟩

def ofList (xs : List α) : OrderedSet α := xs.foldl insert empty

@[simp] theorem mem_insert : y ∈ s.insert x ↔ y ∈ s ∨ y = x := by
  by_cases present : x ∈ s.elems
  · simp only [insert, present, ↓reduceDIte]
    constructor
    · exact .inl
    · rintro (held | rfl)
      · exact held
      · exact present
  · rw [insert, dif_neg present, ← mem_elems, List.mem_append, List.mem_singleton, mem_elems]

@[simp] theorem mem_erase : y ∈ s.erase x ↔ y ≠ x ∧ y ∈ s := by
  rw [← mem_elems, erase, s.nodup.mem_erase_iff, mem_elems]

theorem mem_foldl_insert (xs : List α) : y ∈ xs.foldl insert s ↔ y ∈ s ∨ y ∈ xs := by
  induction xs generalizing s with
  | nil => simp
  | cons x xs ih => rw [foldl_cons, ih, mem_insert, mem_cons, or_assoc]

theorem mem_foldl_erase (xs : List α) : y ∈ xs.foldl erase s ↔ y ∈ s ∧ y ∉ xs := by
  induction xs generalizing s with
  | nil => simp
  | cons x xs ih =>
    rw [foldl_cons, ih, mem_erase, mem_cons, not_or]
    exact ⟨fun ⟨⟨apart, held⟩, tail⟩ => ⟨held, apart, tail⟩,
      fun ⟨held, apart, tail⟩ => ⟨⟨apart, held⟩, tail⟩⟩

@[simp] theorem mem_ofList : y ∈ ofList xs ↔ y ∈ xs := by
  rw [ofList, mem_foldl_insert]
  simp

/-- The indicator of membership, the unit in which occurrence counts are kept. -/
def ind (s : OrderedSet α) (x : α) : Int := if x ∈ s then 1 else 0

theorem ind_of_mem (present : x ∈ s) : s.ind x = 1 := if_pos present

theorem ind_of_not_mem (absent : x ∉ s) : s.ind x = 0 := if_neg absent

theorem ind_congr {t : OrderedSet α} (same : x ∈ s ↔ x ∈ t) : s.ind x = t.ind x := by
  simp [ind, same]

theorem ind_nonneg : 0 ≤ s.ind x := by
  unfold ind
  split <;> omega

theorem ind_pos_iff : 1 ≤ s.ind x ↔ x ∈ s := by
  by_cases held : x ∈ s
  · simp [ind, held]
  · simp [ind, held]

end OrderedSet
end HiveGo
