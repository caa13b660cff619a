import HiveGo.RocksDBIteration

/-! The in-memory store and the RocksDB store agree on iteration, except where the RocksDB store
finds no upper bound for a backward iteration. -/
namespace HiveGo
open MapDB ByteOrder Prod

namespace KVMap

/-- The entries in the order of their keys. -/
def sortedEntries (m : KVMap) : List (Bytes × Bytes) := sortBy fst m.entries

theorem pairwise_sortedEntries (m : KVMap) :
    m.sortedEntries.Pairwise fun x y => ByteOrder.Lt x.1 y.1 := by
  have keys := pairwise_lt_sort m.distinct
  rw [← map_sortBy] at keys
  exact List.pairwise_map.mp keys

theorem mem_sortedEntries {m : KVMap} : entry ∈ m.sortedEntries ↔ m.get entry.1 = some entry.2 := by
  rw [sortedEntries, (perm_sortBy fst m.entries).mem_iff]
  exact (OrderedMap.get_eq_some m.distinct).symm

theorem length_sortedEntries (m : KVMap) : m.sortedEntries.length = m.entries.length :=
  (perm_sortBy fst m.entries).length_eq

end KVMap

namespace RocksDB

theorem mem_listed {m : KVMap} :
    entry ∈ listed m.sortedEntries keyPrefix direction ↔
      keyPrefix <+: entry.1 ∧ m.get entry.1 = some entry.2 := by
  rw [← KVMap.mem_sortedEntries, ← under_iff, and_comm]
  cases direction with
  | forward => exact List.mem_filter
  | backward => rw [listed, List.mem_reverse, List.mem_filter]

theorem map_listed (m : KVMap) (keyPrefix : Bytes) :
    (listed m.sortedEntries keyPrefix direction).map fst = m.sortedKeys keyPrefix direction := by
  have ordered : ((listed m.sortedEntries keyPrefix direction).map fst).Pairwise
      direction.Before := by
    rw [List.pairwise_map]
    cases direction with
    | forward => exact m.pairwise_sortedEntries.filter _
    | backward => exact List.pairwise_reverse.mpr (m.pairwise_sortedEntries.filter _)
  refine IterDirection.eq_of_ordered ordered (m.ordered_sortedKeys keyPrefix direction) fun key => ?_
  rw [KVMap.mem_sortedKeys, List.mem_map, Option.ne_none_iff_exists']
  constructor
  · rintro ⟨entry, mem, rfl⟩
    obtain ⟨inside, held⟩ := mem_listed.mp mem
    exact ⟨inside, entry.2, held⟩
  · rintro ⟨inside, value, held⟩
    exact ⟨(key, value), mem_listed.mpr ⟨inside, held⟩, rfl⟩

section
variable {It : Type} {db : GrocksdbIterator It} {m : KVMap} (cursor : db.Cursor m.sortedEntries)
include cursor

/-- What an iteration delivers and returns, whatever it reads at a place. -/
theorem iterateItems_eq (view : Bytes × Bytes → α) (it : It)
    (consumerFunc : List α → Bool) (enough : m.entries.length < fuel) :
    iterateItems db s it keyPrefix (fun it => view (db.key it, db.value it)) consumerFunc direction
        fuel =
      some (if s.closed then .error .errStoreClosed
        else if Unbounded (s.dbPrefix ++ keyPrefix) direction then .error .noUpperBoundForPrefix
        else .ok (deliver consumerFunc []
          ((listed m.sortedEntries (s.dbPrefix ++ keyPrefix) direction).map view))) := by
  unfold iterateItems
  by_cases closed : s.closed = true
  · rw [if_pos closed, if_pos closed]
  rw [if_neg closed, if_neg closed]
  by_cases unbounded : Unbounded (s.dbPrefix ++ keyPrefix) direction
  · rw [getIterFuncs_unbounded db unbounded, if_pos unbounded]
  obtain ⟨funcs, rest, made, walks, started⟩ :=
    getIterFuncs_walks cursor m.pairwise_sortedEntries unbounded
  obtain ⟨size, visited⟩ := started it
  rw [m.length_sortedEntries] at size
  simp only [made, if_neg unbounded]
  rw [← visited, walks.iterateLoop_eq view consumerFunc rfl (Nat.lt_of_le_of_lt size enough)]
  rfl

end

/-- The two stores agree on iteration, for any cursor over the sorted entries and with enough fuel
for all of them. Only a backward iteration without an upper bound is an error of the RocksDB
store. -/
theorem iterations_agree {It : Type} {db : GrocksdbIterator It} (s : MapDB.State)
    (cursor : db.Cursor s.m.sortedEntries) (it : It) (realm keyPrefix : Bytes)
    (direction : IterDirection) {fuel : Nat} (enough : s.m.entries.length < fuel) :
    ∃ items, SingleMap.Lists s.m.get realm keyPrefix direction items ∧
      (∀ consumerFunc,
        (onStore s realm (.iterate keyPrefix consumerFunc direction)).2 =
            (if s.closed then .error .errStoreClosed
              else .pairs (deliver consumerFunc [] items)) ∧
          iterate db ⟨realm, s.closed⟩ it keyPrefix consumerFunc direction fuel =
            some (if s.closed then .error .errStoreClosed
              else if Unbounded (realm ++ keyPrefix) direction then .error .noUpperBoundForPrefix
              else .ok (deliver consumerFunc [] items))) ∧
      ∀ consumerFunc,
        (onStore s realm (.iterateKeys keyPrefix consumerFunc direction)).2 =
            (if s.closed then .error .errStoreClosed
              else .keys (deliver consumerFunc [] (items.map fst))) ∧
          iterateKeys db ⟨realm, s.closed⟩ it keyPrefix consumerFunc direction fuel =
            some (if s.closed then .error .errStoreClosed
              else if Unbounded (realm ++ keyPrefix) direction then .error .noUpperBoundForPrefix
              else .ok (deliver consumerFunc [] (items.map fst))) := by
  have same : (listed s.m.sortedEntries (realm ++ keyPrefix) direction).map
      (fun entry => (entry.1.drop realm.length, entry.2)) =
      (s.m.sortedKeys (realm ++ keyPrefix) direction).map fun key =>
        (key.drop realm.length,
          ((s.m.filter fun key => (realm ++ keyPrefix).isPrefixOf key).get key).getD []) := by
    rw [← map_listed, List.map_map]
    refine List.map_congr_left fun entry mem => ?_
    obtain ⟨inside, held⟩ := mem_listed.mp mem
    simp [inside, held]
  have lists := SingleMap.lists_sortedKeys s.m realm keyPrefix direction
  rw [← same] at lists
  refine ⟨_, lists, fun consumerFunc => ⟨?_, ?_⟩, fun consumerFunc => ⟨?_, ?_⟩⟩
  · rw [same]
    unfold onStore
    split <;> rfl
  · exact iterateItems_eq cursor (fun entry => (entry.1.drop realm.length, entry.2))
      it consumerFunc enough
  · rw [same, List.map_map]
    unfold onStore
    split <;> rfl
  · rw [List.map_map]
    exact iterateItems_eq cursor (fun entry => entry.1.drop realm.length) it consumerFunc enough

/-- A place in a list: the entries before it from the nearest on, the entry, the entries after. -/
abbrev Place := Option (List (Bytes × Bytes) × (Bytes × Bytes) × List (Bytes × Bytes))

namespace Place

def onto (before : List (Bytes × Bytes)) : List (Bytes × Bytes) → Place
  | [] => none
  | entry :: after => some (before, entry, after)

def backOnto (after : List (Bytes × Bytes)) : List (Bytes × Bytes) → Place
  | [] => none
  | entry :: before => some (before, entry, after)

def ahead : Place → List (Bytes × Bytes)
  | none => []
  | some (_, entry, after) => entry :: after

def behind : Place → List (Bytes × Bytes)
  | none => []
  | some (before, entry, _) => entry :: before

theorem ahead_onto : ahead (onto before items) = items := by
  cases items <;> rfl

theorem behind_backOnto : behind (backOnto after items) = items := by
  cases items <;> rfl

/-- An iterator that keeps the entries in lists. -/
def iterator (entries : List (Bytes × Bytes)) : GrocksdbIterator Place where
  seekToFirst _ := onto [] entries
  seekToLast _ := backOnto [] entries.reverse
  seek start _ :=
    onto (entries.filter fun entry => ByteOrder.Lt entry.1 start).reverse
      (entries.filter fun entry => ByteOrder.Le start entry.1)
  seekForPrev stop _ :=
    backOnto (entries.filter fun entry => ByteOrder.Lt stop entry.1)
      (entries.filter fun entry => ByteOrder.Le entry.1 stop).reverse
  next
    | none => none
    | some (before, entry, after) => onto (entry :: before) after
  prev
    | none => none
    | some (before, entry, after) => backOnto (entry :: after) before
  valid := Option.isSome
  validForPrefix start
    | none => false
    | some (_, entry, _) => start.isPrefixOf entry.1
  key
    | none => []
    | some (_, entry, _) => entry.1
  value
    | none => []
    | some (_, entry, _) => entry.2

def cursor (entries : List (Bytes × Bytes)) : (iterator entries).Cursor entries where
  ahead := ahead
  behind := behind
  ahead_seekToFirst _ := ahead_onto ..
  behind_seekToLast _ := behind_backOnto ..
  ahead_seek _ _ := ahead_onto ..
  behind_seekForPrev _ _ := behind_backOnto ..
  ahead_next
    | none => rfl
    | some _ => ahead_onto ..
  behind_prev
    | none => rfl
    | some _ => behind_backOnto ..
  valid_iff it := by cases it <;> simp [iterator, ahead]
  head?_behind it := by cases it <;> rfl
  validForPrefix_iff start it := by cases it <;> simp [iterator, ahead]
  current
    | some _, _, rfl => rfl

end Place

/-- A store with keys inside and around a prefix, the upper bound of the prefix among them. -/
def aroundPrefix : MapDB.State :=
  { newMapDB with
    m := (((KVMap.empty.set [7, 1, 9] [3]).set [7, 2] [4]).set [7, 1] [2]).set [7, 0, 255] [1] }

theorem aroundPrefix_agree :
    (onStore aroundPrefix [7] (.iterate [1] (fun _ => true) .backward)).2 =
        .pairs [([1, 9], [3]), ([1], [2])] ∧
      iterate (Place.iterator aroundPrefix.m.sortedEntries) ⟨[7], false⟩ none [1] (fun _ => true)
        .backward 5 = some (.ok [([1, 9], [3]), ([1], [2])]) := by
  have enough : aroundPrefix.m.entries.length < 5 := by decide
  obtain ⟨items, -, pairs, -⟩ :=
    iterations_agree aroundPrefix (Place.cursor _) none [7] [1] .backward enough
  obtain ⟨inMemory, onDisk⟩ := pairs fun _ => true
  have listing : (onStore aroundPrefix [7] (.iterate [1] (fun _ => true) .backward)).2 =
      .pairs [([1, 9], [3]), ([1], [2])] := by decide
  have small : ¬ Unbounded ([7] ++ [1]) .backward := by decide
  have sent := MapDB.Result.pairs.inj (listing.symm.trans inMemory)
  rw [if_neg (by decide), if_neg small, ← sent] at onDisk
  exact ⟨listing, onDisk⟩

/-- A store with one key, the largest byte. -/
def largestKey : MapDB.State :=
  { newMapDB with m := KVMap.empty.set [255] [1] }

theorem largestKey_disagree :
    Nonempty ((Place.iterator largestKey.m.sortedEntries).Cursor largestKey.m.sortedEntries) ∧
      (onStore largestKey [] (.iterate [255] (fun _ => true) .backward)).2 =
        .pairs [([255], [1])] ∧
      iterate (Place.iterator largestKey.m.sortedEntries) ⟨[], false⟩ none [255] (fun _ => true)
        .backward 2 = some (.error .noUpperBoundForPrefix) :=
  ⟨⟨Place.cursor _⟩, by decide, rfl⟩

end RocksDB

end HiveGo
