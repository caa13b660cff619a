import HiveGo.ByteOrder
import HiveGo.LittleEndian
import HiveGo.OrderedMap

/-! The map behind an in-memory store: byte strings to byte strings, looked up by key and listed
in the order of the keys, not of the entries. -/
namespace HiveGo
open ByteOrder

namespace ByteOrder

/-- The first string comes before the second. -/
def Lt (left right : Bytes) : Prop := Le left right ∧ left ≠ right

instance : DecidableRel Lt := fun _ _ => inferInstanceAs (Decidable (_ ∧ _))

theorem lt_irrefl (key : Bytes) : ¬ Lt key key := fun less => less.2 rfl

theorem lt_of_lt_of_le (first : Lt left middle) (second : Le middle right) : Lt left right := by
  refine ⟨le_trans first.1 second, ?_⟩
  rintro rfl
  exact first.2 (le_antisymm first.1 second)

theorem compare_append : compare (start ++ left) (start ++ right) = compare left right := by
  induction start with
  | nil => rfl
  | cons first start ih => simp [compare, ih]

theorem le_append : Le (start ++ left) (start ++ right) ↔ Le left right := by
  rw [Le, Le, compare_append]

theorem lt_append : Lt (start ++ left) (start ++ right) ↔ Lt left right := by
  rw [Lt, Lt, le_append]
  simp

theorem lt_trans (first : Lt left middle) (second : Lt middle right) :
    Lt left right := lt_of_lt_of_le first second.1

/-- The list without repetitions, sorted. -/
theorem pairwise_lt_sort (nodup : data.Nodup) : (sort data).Pairwise Lt := by
  have distinct := perm_sort.nodup_iff.mpr nodup
  exact sorted_sort.and distinct

end ByteOrder

/-- The direction of an iteration. -/
inductive IterDirection where
  | forward
  | backward
  deriving DecidableEq

namespace IterDirection

/-- The order in which the keys come. -/
def Before : IterDirection → Bytes → Bytes → Prop
  | forward, left, right => ByteOrder.Lt left right
  | backward, left, right => ByteOrder.Lt right left

theorem before_irrefl (direction : IterDirection) (key : Bytes) : ¬ direction.Before key key := by
  cases direction <;> exact lt_irrefl key

variable {direction : IterDirection}

theorem before_trans (first : direction.Before left middle) (second : direction.Before middle right) :
    direction.Before left right := by
  cases direction with
  | forward => exact lt_trans first second
  | backward => exact lt_trans second first

theorem before_append :
    direction.Before (start ++ left) (start ++ right) ↔ direction.Before left right := by
  cases direction <;> exact lt_append

/-- Two listings in the same order are the same if they list the same keys. -/
theorem eq_of_ordered {keys others : List Bytes} (ordered : keys.Pairwise direction.Before)
    (alsoOrdered : others.Pairwise direction.Before) (same : ∀ key, key ∈ keys ↔ key ∈ others) :
    keys = others := by
  have nodup : ∀ {keys : List Bytes}, keys.Pairwise direction.Before → keys.Nodup := by
    intro keys ordered
    refine List.Pairwise.imp ?_ ordered
    rintro left _ pre rfl
    exact direction.before_irrefl left pre
  have perm :=
    (List.perm_ext_iff_of_nodup (nodup ordered) (nodup alsoOrdered)).mpr same
  refine perm.eq_of_pairwise (fun left right _ _ forth back => ?_) ordered alsoOrdered
  exact absurd (before_trans forth back) (direction.before_irrefl left)

end IterDirection

/-- `SortSlice`, for keys that are all different. -/
def sortSlice (slice : List Bytes) : IterDirection → List Bytes
  | .forward => sort slice
  | .backward => (sort slice).reverse

theorem mem_sortSlice : key ∈ sortSlice slice direction ↔ key ∈ slice := by
  cases direction <;> simp [sortSlice, perm_sort.mem_iff]

theorem ordered_sortSlice (nodup : slice.Nodup) :
    (sortSlice slice direction).Pairwise direction.Before := by
  cases direction with
  | forward => exact pairwise_lt_sort nodup
  | backward => exact List.pairwise_reverse.mpr (pairwise_lt_sort nodup)

/-- What a consumer is given until it returns false for the first time. It may remember what
it was given before. -/
def deliver {α : Type} (consume : List α → Bool) : List α → List α → List α
  | delivered, [] => delivered
  | delivered, item :: items =>
    if consume (delivered ++ [item]) then deliver consume (delivered ++ [item]) items
    else delivered ++ [item]

/-- A map with one entry for every key, in some order. -/
structure KVMap where
  entries : List (Bytes × Bytes)
  distinct : OrderedMap.Distinct entries

namespace KVMap

def empty : KVMap := ⟨[], OrderedMap.distinct_nil⟩

def get (m : KVMap) (key : Bytes) : Option Bytes := OrderedMap.get key m.entries

def has (m : KVMap) (key : Bytes) : Bool := (m.get key).isSome

def set (m : KVMap) (key value : Bytes) : KVMap :=
  ⟨OrderedMap.set key value m.entries, m.distinct.set key value⟩

/-- Keep the entries whose keys pass the test. -/
def filter (m : KVMap) (keep : Bytes → Bool) : KVMap :=
  ⟨m.entries.filter fun entry => keep entry.1,
    m.distinct.sublist (List.filter_sublist.map Prod.fst)⟩

def delete (m : KVMap) (key : Bytes) : KVMap := m.filter fun other => other ≠ key

def deletePrefix (m : KVMap) (keyPrefix : Bytes) : KVMap :=
  m.filter fun key => !keyPrefix.isPrefixOf key

/-- The keys with the prefix, in the direction of the iteration. -/
def sortedKeys (m : KVMap) (keyPrefix : Bytes) (direction : IterDirection) : List Bytes :=
  sortSlice ((m.filter fun key => keyPrefix.isPrefixOf key).entries.map Prod.fst) direction

def iterate (m : KVMap) (realm keyPrefix : Bytes) (consume : List (Bytes × Bytes) → Bool)
    (direction : IterDirection) : List (Bytes × Bytes) :=
  let copiedElements := m.filter fun key => (realm ++ keyPrefix).isPrefixOf key
  deliver consume [] ((m.sortedKeys (realm ++ keyPrefix) direction).map fun key =>
    (key.drop realm.length, (copiedElements.get key).getD []))

def iterateKeys (m : KVMap) (realm keyPrefix : Bytes) (consume : List Bytes → Bool)
    (direction : IterDirection) : List Bytes :=
  deliver consume [] ((m.sortedKeys (realm ++ keyPrefix) direction).map fun key =>
    key.drop realm.length)

@[simp] theorem get_empty : empty.get key = none := rfl

theorem get_set (m : KVMap) :
    (m.set key value).get other = if key = other then some value else m.get other :=
  OrderedMap.get_set key other value m.entries

@[simp] theorem get_filter (m : KVMap) :
    (m.filter keep).get key = if keep key then m.get key else none :=
  OrderedMap.get_filter keep key m.entries

theorem get_delete (m : KVMap) :
    (m.delete key).get other = if key = other then none else m.get other := by
  rw [delete, get_filter]
  by_cases same : key = other
  · simp [same]
  · simp [same, Ne.symm same]

theorem get_deletePrefix (m : KVMap) :
    (m.deletePrefix keyPrefix).get key = if keyPrefix <+: key then none else m.get key := by
  rw [deletePrefix, get_filter]
  by_cases mem : keyPrefix <+: key
  · simp [mem]
  · simp [mem]

variable {m : KVMap}

theorem mem_keys : key ∈ m.entries.map Prod.fst ↔ m.get key ≠ none := by
  rw [get, ne_eq, OrderedMap.get_eq_none, not_not]

theorem mem_sortedKeys :
    key ∈ m.sortedKeys keyPrefix direction ↔ keyPrefix <+: key ∧ m.get key ≠ none := by
  rw [sortedKeys, mem_sortSlice, mem_keys, get_filter]
  by_cases mem : keyPrefix <+: key
  · simp [mem]
  · simp [mem]

theorem ordered_sortedKeys (m : KVMap) (keyPrefix : Bytes) (direction : IterDirection) :
    (m.sortedKeys keyPrefix direction).Pairwise direction.Before :=
  ordered_sortSlice (m.filter _).distinct

/-- The keys listed depend on what the map holds under the prefix only. -/
theorem sortedKeys_congr {n : KVMap}
    (same : ∀ key, keyPrefix <+: key → m.get key = n.get key) :
    m.sortedKeys keyPrefix direction = n.sortedKeys keyPrefix direction := by
  refine IterDirection.eq_of_ordered (m.ordered_sortedKeys keyPrefix direction)
    (n.ordered_sortedKeys keyPrefix direction) fun key => ?_
  rw [mem_sortedKeys, mem_sortedKeys]
  exact and_congr_right fun mem => by rw [same key mem]

end KVMap

end HiveGo

/-! One key of a KVStore: what the store holds for it, and the calls on it. Every call may
fail, and then has no effect. -/
namespace HiveGo

/-- The errors of a store call: the key is missing, or something else went wrong. -/
inductive StoreError where
  | keyNotFound
  | failed
  deriving Repr, DecidableEq

/-- Which of the calls that an operation makes on the store fail, if it makes them. -/
structure Faults where
  get : Bool := false
  has : Bool := false
  set : Bool := false
  delete : Bool := false
  deriving Repr, DecidableEq

namespace StoreKey

def get (faults : Faults) (content : Option Bytes) : Except StoreError Bytes :=
  if faults.get then .error .failed
  else
    match content with
    | none => .error .keyNotFound
    | some value => .ok value

def has (faults : Faults) (content : Option Bytes) : Except StoreError Bool :=
  if faults.has then .error .failed else .ok content.isSome

/-- The content after the call. -/
def set (faults : Faults) (value : Bytes) : Except StoreError (Option Bytes) :=
  if faults.set then .error .failed else .ok (some value)

/-- The content after the call. -/
def delete (faults : Faults) : Except StoreError (Option Bytes) :=
  if faults.delete then .error .failed else .ok none

end StoreKey

/-- A 64-bit number, most significant byte first. -/
def bigEndian (number : Nat) : Bytes := (LittleEndian.put 8 number).reverse

/-- Reading such a number back; too few bytes are a panic. -/
def ofBigEndian (value : Bytes) : Option Nat :=
  if value.length < 8 then none else some (LittleEndian.get (value.take 8).reverse)

theorem ofBigEndian_bigEndian (small : number < 2 ^ 64) :
    ofBigEndian (bigEndian number) = some number := by
  have length : (bigEndian number).length = 8 := by simp [bigEndian]
  unfold ofBigEndian
  rw [if_neg (by omega), List.take_of_length_le (by omega), bigEndian, List.reverse_reverse,
    LittleEndian.get_put_of_lt small]

end HiveGo
