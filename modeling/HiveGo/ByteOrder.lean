import HiveGo.LittleEndian
import Mathlib.Data.List.Sort

/-! The lexical order of byte strings, and sorting by it. Byte strings that compare equal are the
same, so the sorted permutation of a list is unique. -/
namespace HiveGo
open List Prod

namespace ByteOrder

/-- Lexical comparison, a shorter string coming before its extensions. -/
def compare : Bytes → Bytes → Ordering
  | [], [] => .eq
  | [], _ :: _ => .lt
  | _ :: _, [] => .gt
  | x :: xs, y :: ys =>
    if x.toNat < y.toNat then .lt
    else if y.toNat < x.toNat then .gt
    else compare xs ys

/-- The first string does not come after the second. -/
def Le (left right : Bytes) : Prop := compare left right ≠ .gt

instance : DecidableRel Le := fun left right => by unfold Le; infer_instance

theorem compare_self : compare xs xs = .eq := by
  induction xs with
  | nil => rfl
  | cons x xs ih => simp [compare, ih]

theorem nil_le : Le [] right := by cases right <;> simp [Le, compare]

theorem eq_of_compare (same : compare left right = .eq) : left = right := by
  induction left generalizing right with
  | nil => cases right <;> simp_all [compare]
  | cons x xs ih =>
    cases right with
    | nil => simp [compare] at same
    | cons y ys =>
      simp only [compare] at same
      split at same
      · cases same
      · split at same
        · cases same
        · have head : x = y := UInt8.toNat_inj.mp (by omega)
          rw [head, ih same]

theorem compare_swap (left right : Bytes) : compare right left = (compare left right).swap := by
  induction left generalizing right with
  | nil => cases right <;> rfl
  | cons x xs ih =>
    cases right with
    | nil => rfl
    | cons y ys =>
      simp only [compare]
      by_cases less : x.toNat < y.toNat
      · simp [less, show ¬ y.toNat < x.toNat by omega]
      · by_cases greater : y.toNat < x.toNat
        · simp [greater, less]
        · simp [less, greater, ih ys]

theorem le_total (left right : Bytes) : Le left right ∨ Le right left := by
  unfold Le
  rw [compare_swap left right]
  cases compare left right <;> simp

theorem le_antisymm (forth : Le left right) (back : Le right left) : left = right := by
  unfold Le at forth back
  rw [compare_swap left right] at back
  apply eq_of_compare
  cases order : compare left right <;> simp_all

theorem le_trans (first : Le left middle) (second : Le middle right) : Le left right := by
  unfold Le at *
  induction left generalizing middle right with
  | nil => cases right <;> simp [compare]
  | cons x xs ih =>
    cases middle with
    | nil => simp [compare] at first
    | cons y ys =>
      cases right with
      | nil => simp [compare] at second
      | cons z zs =>
        simp only [compare] at first second ⊢
        by_cases xy : x.toNat < y.toNat
        · by_cases zy : z.toNat < y.toNat
          · simp [zy, show ¬ y.toNat < z.toNat by omega] at second
          · simp [show x.toNat < z.toNat by omega]
        · by_cases yx : y.toNat < x.toNat
          · simp [xy, yx] at first
          · simp only [xy, yx, if_false] at first
            by_cases yz : y.toNat < z.toNat
            · simp [show x.toNat < z.toNat by omega]
            · by_cases zy : z.toNat < y.toNat
              · simp [yz, zy] at second
              · simp only [yz, zy, if_false] at second
                simp only [show ¬ x.toNat < z.toNat by omega, show ¬ z.toNat < x.toNat by omega,
                  if_false]
                exact ih first second

instance : Std.Total Le := ⟨le_total⟩

instance : IsTrans Bytes Le := ⟨fun _ _ _ => le_trans⟩

/-- The list in lexical order. -/
def sort (data : List Bytes) : List Bytes := data.insertionSort Le

theorem perm_sort : (sort data).Perm data := perm_insertionSort Le data

theorem sorted_sort : (sort data).Pairwise Le :=
  pairwise_insertionSort Le data

/-- Sort a list by a byte string computed for each of its elements. -/
def sortBy {α : Type} (key : α → Bytes) (items : List α) : List α :=
  items.insertionSort fun left right => Le (key left) (key right)

variable {α : Type}

theorem perm_sortBy (key : α → Bytes) (items : List α) :
    (sortBy key items).Perm items := perm_insertionSort _ items

theorem map_sortBy : (sortBy key items).map key = sort (items.map key) :=
  map_insertionSort _ _ _ _ fun _ _ _ _ => Iff.rfl

/-- The items in the order that sorts the byte strings next to them. -/
def sortAlong {α : Type} (data : List Bytes) (items : List α) : List α :=
  (sortBy fst (data.zip items)).map snd

theorem perm_sortAlong (size : items.length ≤ data.length) : (sortAlong data items).Perm items := by
  have perm := (perm_sortBy fst (data.zip items)).map snd
  rwa [map_snd_zip size] at perm

/-- What relates the items to the byte strings still relates them after sorting both. -/
theorem forall₂_sortAlong (rel : List.Forall₂ R items data) :
    List.Forall₂ R (sortAlong data items) (sort data) := by
  have size := rel.length_eq
  have sorted : sort data = (sortBy fst (data.zip items)).map fst := by
    rw [map_sortBy, map_fst_zip size.ge]
  have each : ∀ pair ∈ data.zip items, R pair.2 pair.1 := by
    intro pair mem
    have turned := List.Forall₂.flip rel
    exact (forall₂_iff_zip.mp turned).2 mem
  rw [sorted, sortAlong, forall₂_map_left_iff, forall₂_map_right_iff, forall₂_same]
  exact fun pair mem => each pair ((perm_sortBy fst (data.zip items)).mem_iff.mp mem)

end ByteOrder

end HiveGo
