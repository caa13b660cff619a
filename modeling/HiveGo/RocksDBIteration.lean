import HiveGo.KeyRange
import HiveGo.SingleMap

/-! Iteration over the RocksDB store, which delivers what the in-memory store delivers. The
iterator of the database is any cursor over the entries in the order of their keys. -/
namespace HiveGo
open List ByteOrder

/-- The operations of an iterator of the database. -/
structure GrocksdbIterator (It : Type) where
  seekToFirst : It → It
  seekToLast : It → It
  seek : Bytes → It → It
  seekForPrev : Bytes → It → It
  next : It → It
  prev : It → It
  valid : It → Bool
  validForPrefix : Bytes → It → Bool
  key : It → Bytes
  value : It → Bytes

/-- A cursor over entries that are sorted by their keys. There is a list of the entries from its
place on and one from its place back; moving drops the first entry of such a list, and the cursor
is valid as long as there is one. -/
structure GrocksdbIterator.Cursor {It : Type} (db : GrocksdbIterator It)
    (entries : List (Bytes × Bytes)) where
  ahead : It → List (Bytes × Bytes)
  behind : It → List (Bytes × Bytes)
  ahead_seekToFirst : ∀ it, ahead (db.seekToFirst it) = entries
  behind_seekToLast : ∀ it, behind (db.seekToLast it) = entries.reverse
  ahead_seek : ∀ start it,
    ahead (db.seek start it) = entries.filter fun entry => ByteOrder.Le start entry.1
  behind_seekForPrev : ∀ stop it, behind (db.seekForPrev stop it) =
      (entries.filter fun entry => ByteOrder.Le entry.1 stop).reverse
  ahead_next : ∀ it, ahead (db.next it) = (ahead it).tail
  behind_prev : ∀ it, behind (db.prev it) = (behind it).tail
  valid_iff : ∀ it, db.valid it = true ↔ ∃ entry, (ahead it).head? = some entry
  head?_behind : ∀ it, (behind it).head? = (ahead it).head?
  validForPrefix_iff : ∀ start it,
    db.validForPrefix start it = true ↔ ∃ entry, (ahead it).head? = some entry ∧ start <+: entry.1
  current : ∀ it entry, (ahead it).head? = some entry → (db.key it, db.value it) = entry

namespace RocksDB

inductive Error where
  | errStoreClosed
  | noUpperBoundForPrefix
  deriving Repr, DecidableEq

structure IterFuncs (It : Type) where
  start : It → It
  valid : It → Bool
  move : It → It

section
variable {It : Type} (db : GrocksdbIterator It)

def validFunc (keyPrefix : Bytes) : It → Bool :=
  if keyPrefix.length > 0 then db.validForPrefix keyPrefix else db.valid

/-- Search the first item after the prefix. If the upper bound is a key, which is not part of
the prefix set, the next entry is used. -/
def startAtUpperBound (keyPrefix prefixUpperBound : Bytes) (it : It) : It :=
  if validFunc db keyPrefix (db.seekForPrev prefixUpperBound it) then
    db.seekForPrev prefixUpperBound it
  else db.prev (db.seekForPrev prefixUpperBound it)

/-- The functions of an iteration over the keys with a prefix. -/
def getIterFuncs (keyPrefix : Bytes) (iterDirection : IterDirection) :
    Except Error (IterFuncs It) :=
  match iterDirection with
  | .forward =>
    .ok {
      start := if keyPrefix.length > 0 then db.seek keyPrefix else db.seekToFirst
      valid := validFunc db keyPrefix
      move := db.next }
  | .backward =>
    if keyPrefix.length > 0 then
      match keyPrefixUpperBound keyPrefix with
      | none => .error .noUpperBoundForPrefix
      | some prefixUpperBound =>
        .ok {
          start := startAtUpperBound db keyPrefix prefixUpperBound
          valid := validFunc db keyPrefix
          move := db.prev }
    else .ok { start := db.seekToLast, valid := validFunc db keyPrefix, move := db.prev }

/-- The loop of an iteration, which gives up when it runs out of fuel. -/
def iterateLoop {α : Type} (funcs : IterFuncs It) (item : It → α) (consumerFunc : List α → Bool) :
    Nat → List α → It → Option (List α)
  | 0, _, _ => none
  | fuel + 1, delivered, it =>
    if funcs.valid it then
      if consumerFunc (delivered ++ [item it]) then
        iterateLoop funcs item consumerFunc fuel (delivered ++ [item it]) (funcs.move it)
      else some (delivered ++ [item it])
    else some delivered

structure Store where
  dbPrefix : Bytes
  closed : Bool

/-- What the two iterations have in common: everything but what is read at a place. -/
def iterateItems {α : Type} (s : Store) (it : It) (keyPrefix : Bytes) (item : It → α)
    (consumerFunc : List α → Bool) (iterDirection : IterDirection) (fuel : Nat) :
    Option (Except Error (List α)) :=
  if s.closed then some (.error .errStoreClosed)
  else
    match getIterFuncs db (s.dbPrefix ++ keyPrefix) iterDirection with
    | .error err => some (.error err)
    | .ok funcs => (iterateLoop funcs item consumerFunc fuel [] (funcs.start it)).map .ok

/-- Iterate with a new iterator. -/
def iterate (s : Store) (it : It) (keyPrefix : Bytes) (consumerFunc : List (Bytes × Bytes) → Bool)
    (iterDirection : IterDirection) (fuel : Nat) : Option (Except Error (List (Bytes × Bytes))) :=
  iterateItems db s it keyPrefix
    (fun it => ((db.key it).drop s.dbPrefix.length, db.value it)) consumerFunc iterDirection fuel

def iterateKeys (s : Store) (it : It) (keyPrefix : Bytes) (consumerFunc : List Bytes → Bool)
    (iterDirection : IterDirection) (fuel : Nat) : Option (Except Error (List Bytes)) :=
  iterateItems db s it keyPrefix
    (fun it => (db.key it).drop s.dbPrefix.length) consumerFunc iterDirection fuel

end

/-- The functions walk along a list as long as its entries have the prefix. -/
structure Walks {It : Type} (db : GrocksdbIterator It) (funcs : IterFuncs It) (keyPrefix : Bytes)
    (rest : It → List (Bytes × Bytes)) : Prop where
  valid_iff : ∀ it, funcs.valid it = true ↔
    ∃ entry, (rest it).head? = some entry ∧ keyPrefix <+: entry.1
  move : ∀ it, rest (funcs.move it) = (rest it).tail
  current : ∀ it entry, (rest it).head? = some entry → (db.key it, db.value it) = entry

/-- The key of the entry has the prefix. -/
def under (keyPrefix : Bytes) (entry : Bytes × Bytes) : Bool := keyPrefix.isPrefixOf entry.1

theorem under_iff : under keyPrefix entry = true ↔ keyPrefix <+: entry.1 := isPrefixOf_iff_prefix

variable {items : List (Bytes × Bytes)}

/-- With more fuel than there are entries the loop delivers the entries up to the first one
without the prefix. -/
theorem Walks.iterateLoop_eq {db : GrocksdbIterator It} {funcs : IterFuncs It}
    {rest : It → List (Bytes × Bytes)} (walks : Walks db funcs keyPrefix rest)
    (view : Bytes × Bytes → α) (consumerFunc : List α → Bool) {sent : List α}
    {it : It} (remaining : rest it = items) (enough : items.length < fuel) :
    iterateLoop funcs (fun it => view (db.key it, db.value it)) consumerFunc fuel sent it =
      some (deliver consumerFunc sent ((items.takeWhile (under keyPrefix)).map view)) := by
  induction items generalizing fuel sent it with
  | nil =>
    obtain ⟨fuel, rfl⟩ := Nat.exists_eq_add_of_lt enough
    have stopped : ¬ funcs.valid it = true := by
      rw [walks.valid_iff, remaining]
      rintro ⟨entry, head, -⟩
      cases head
    simp [iterateLoop, stopped, deliver]
  | cons entry items ih =>
    obtain ⟨fuel, rfl⟩ : ∃ more, fuel = more + 1 := ⟨fuel - 1, by omega⟩
    have valid : funcs.valid it = true ↔ keyPrefix <+: entry.1 := by
      rw [walks.valid_iff, remaining]
      simp
    have moved : rest (funcs.move it) = items := by rw [walks.move, remaining]; rfl
    have current := walks.current it entry (by rw [remaining]; rfl)
    by_cases mem : keyPrefix <+: entry.1
    · simp only [iterateLoop, valid.mpr mem, if_true, current]
      rw [takeWhile_cons_of_pos (under_iff.mpr mem), map_cons, deliver]
      split
      · exact ih moved (by simp at enough; omega)
      · rfl
    · have stopped : ¬ funcs.valid it = true := fun isValid => mem (valid.mp isValid)
      simp [iterateLoop, stopped, under, mem, deliver]

private theorem takeWhile_eq_filter {p : α → Bool} {items : List α}
    (init : items.Pairwise fun earlier later => p later = true → p earlier = true) :
    items.takeWhile p = items.filter p := by
  induction items with
  | nil => rfl
  | cons item items ih =>
    obtain ⟨first, others⟩ := pairwise_cons.mp init
    by_cases taken : p item = true
    · rw [takeWhile_cons_of_pos taken, filter_cons_of_pos taken, ih others]
    · rw [takeWhile_cons_of_neg taken, filter_cons_of_neg taken]
      refine (filter_eq_nil_iff.mpr fun later mem => ?_).symm
      exact fun alsoTaken => taken (first later mem alsoTaken)

/-- The entries with the prefix, in the direction of the iteration. -/
def listed (entries : List (Bytes × Bytes)) (keyPrefix : Bytes) :
    IterDirection → List (Bytes × Bytes)
  | .forward => entries.filter (under keyPrefix)
  | .backward => (entries.filter (under keyPrefix)).reverse

/-- Going down from below the upper bound, the keys with the prefix come first. -/
theorem takeWhile_below (small : keyPrefixUpperBound keyPrefix = some bound)
    (descending : items.Pairwise fun x y => ByteOrder.Lt y.1 x.1)
    (below : ∀ entry ∈ items, ByteOrder.Lt entry.1 bound) : (items.takeWhile (under keyPrefix)) =
      items.filter (under keyPrefix) := by
  refine takeWhile_eq_filter (descending.imp_of_mem ?_)
  intro earlier later mem _ after inside
  have above :=
    le_of_prefix (under_iff.mp inside)
  refine under_iff.mpr ((prefix_iff_between small).mpr ?_)
  exact ⟨le_trans above after.1, below earlier mem⟩

section
variable {entries : List (Bytes × Bytes)} (sorted : entries.Pairwise fun x y => ByteOrder.Lt x.1 y.1)
include sorted

/-- From the first key that is not before the prefix on. -/
theorem takeWhile_from :
    ((entries.filter fun entry => ByteOrder.Le keyPrefix entry.1).takeWhile (under keyPrefix)) =
        listed entries keyPrefix .forward := by
  have init : (entries.filter fun entry => ByteOrder.Le keyPrefix entry.1).Pairwise
      fun earlier later => under keyPrefix later = true → under keyPrefix earlier = true := by
    refine (sorted.filter _).imp_of_mem fun {earlier later} mem _ before inside => ?_
    have above : ByteOrder.Le keyPrefix earlier.1 := by simpa using (mem_filter.mp mem).2
    obtain ⟨rest, extended⟩ := under_iff.mp inside
    rw [← extended] at before
    exact under_iff.mpr (prefix_of_between above before.1)
  rw [takeWhile_eq_filter init, filter_filter]
  refine filter_congr fun entry _ => ?_
  by_cases inside : keyPrefix <+: entry.1
  · simp [under, le_of_prefix inside]
  · simp [under, inside]

/-- From the last key up to the upper bound down, possibly after one more step. -/
theorem takeWhile_down (small : keyPrefixUpperBound keyPrefix = some bound)
    (down : items = (entries.filter fun entry => ByteOrder.Le entry.1 bound).reverse) :
    ((∃ entry, items.head? = some entry ∧ keyPrefix <+: entry.1) →
        (items.takeWhile (under keyPrefix)) =
          listed entries keyPrefix .backward) ∧
      ((¬ ∃ entry, items.head? = some entry ∧ keyPrefix <+: entry.1) →
        (items.tail.takeWhile (under keyPrefix)) = listed entries keyPrefix .backward) := by
  have descending : items.Pairwise fun x y => ByteOrder.Lt y.1 x.1 := by
    rw [down]
    exact pairwise_reverse.mpr (sorted.filter _)
  have atMost : ∀ entry ∈ items, ByteOrder.Le entry.1 bound := by
    intro entry mem
    rw [down, mem_reverse] at mem
    simpa using (mem_filter.mp mem).2
  have selected : (items.filter (under keyPrefix)) = listed entries keyPrefix .backward := by
    rw [down, filter_reverse, filter_filter, listed]
    congr 1
    refine filter_congr fun entry _ => ?_
    by_cases inside : keyPrefix <+: entry.1
    · simp [((prefix_iff_between small).mp inside).2.1]
    · simp [under, inside]
  cases items with
  | nil => exact ⟨fun _ => selected, fun _ => selected⟩
  | cons entry items =>
    obtain ⟨pre, others⟩ := pairwise_cons.mp descending
    have least := atMost entry (mem_cons_self ..)
    have smaller : ∀ other ∈ items, ByteOrder.Lt other.1 bound := fun other mem =>
      lt_of_lt_of_le (pre other mem) least
    constructor
    · rintro ⟨_, head, inside⟩
      cases head
      rw [takeWhile_below small descending, selected]
      intro other mem
      rcases mem_cons.mp mem with rfl | mem
      · exact ((prefix_iff_between small).mp inside).2
      · exact smaller other mem
    · intro out
      have excluded : ¬ under keyPrefix entry = true := fun inside =>
        out ⟨entry, rfl, under_iff.mp inside⟩
      rw [filter_cons_of_neg excluded] at selected
      rw [tail_cons, takeWhile_below small others smaller, selected]

end

/-- A backward iteration over keys that begin with largest bytes only, at least one. -/
def Unbounded (keyPrefix : Bytes) (iterDirection : IterDirection) : Prop :=
  iterDirection = .backward ∧ keyPrefix ≠ [] ∧ ∀ byte ∈ keyPrefix, byte = 255

instance (keyPrefix : Bytes) (iterDirection : IterDirection) :
    Decidable (Unbounded keyPrefix iterDirection) := inferInstanceAs (Decidable (_ ∧ _))

theorem getIterFuncs_unbounded (db : GrocksdbIterator It)
    (unbounded : Unbounded keyPrefix iterDirection) :
    getIterFuncs db keyPrefix iterDirection = .error .noUpperBoundForPrefix := by
  obtain ⟨rfl, nonempty, largest⟩ := unbounded
  simp [getIterFuncs, length_pos_iff.mpr nonempty, keyPrefixUpperBound_eq_none.mpr largest]

section
variable {It : Type} {db : GrocksdbIterator It} {entries : List (Bytes × Bytes)}
  (cursor : db.Cursor entries) (sorted : entries.Pairwise fun x y => ByteOrder.Lt x.1 y.1)
include cursor

theorem valid_iff_ahead (it : It) :
    validFunc db keyPrefix it = true ↔
      ∃ entry, (cursor.ahead it).head? = some entry ∧ keyPrefix <+: entry.1 := by
  cases keyPrefix with
  | nil => simpa [validFunc] using cursor.valid_iff it
  | cons first keyPrefix => exact cursor.validForPrefix_iff _ it

theorem valid_iff_behind (it : It) :
    validFunc db keyPrefix it = true ↔
      ∃ entry, (cursor.behind it).head? = some entry ∧ keyPrefix <+: entry.1 := by
  rw [cursor.head?_behind]
  exact valid_iff_ahead cursor it

theorem ahead_start (it : It) :
    cursor.ahead ((if keyPrefix.length > 0 then db.seek keyPrefix else db.seekToFirst) it) =
      entries.filter fun entry => ByteOrder.Le keyPrefix entry.1 := by
  cases keyPrefix with
  | nil =>
    refine (cursor.ahead_seekToFirst it).trans (filter_eq_self.mpr fun entry _ => ?_).symm
    simpa using le_of_prefix (List.nil_prefix (l := entry.1))
  | cons first keyPrefix => exact cursor.ahead_seek _ it

theorem behind_seekToLast (it : It) :
    (cursor.behind (db.seekToLast it)).length ≤ entries.length ∧
      (cursor.behind (db.seekToLast it)).takeWhile (under []) = listed entries [] .backward := by
  have all : entries.reverse.takeWhile (under []) = entries.reverse.filter (under []) :=
    takeWhile_eq_filter (pairwise_of_forall fun _ _ _ => rfl)
  rw [cursor.behind_seekToLast it, all, length_reverse, filter_reverse]
  exact ⟨Nat.le_refl _, rfl⟩

include sorted

theorem behind_startAtUpperBound (small : keyPrefixUpperBound keyPrefix = some bound) (it : It) :
    (cursor.behind (startAtUpperBound db keyPrefix bound it)).length ≤ entries.length ∧
      (cursor.behind (startAtUpperBound db keyPrefix bound it)).takeWhile (under keyPrefix) =
        listed entries keyPrefix .backward := by
  have found := cursor.behind_seekForPrev bound it
  obtain ⟨stays, steps⟩ := takeWhile_down sorted small found
  have size : (cursor.behind (db.seekForPrev bound it)).length ≤ entries.length := by
    rw [found, length_reverse]
    exact length_filter_le ..
  unfold startAtUpperBound
  split
  · next isValid => exact ⟨size, stays ((valid_iff_behind cursor _).mp isValid)⟩
  · next invalid =>
    rw [cursor.behind_prev, length_tail]
    exact ⟨by omega, steps fun head => invalid ((valid_iff_behind cursor _).mpr head)⟩

/-- The functions of an iteration start at the right place of the right list. -/
theorem getIterFuncs_walks (isBounded : ¬ Unbounded keyPrefix iterDirection) :
    ∃ funcs rest, getIterFuncs db keyPrefix iterDirection = .ok funcs ∧
      Walks db funcs keyPrefix rest ∧
      ∀ it, (rest (funcs.start it)).length ≤ entries.length ∧
        (rest (funcs.start it)).takeWhile (under keyPrefix) =
          listed entries keyPrefix iterDirection := by
  cases iterDirection with
  | forward =>
    refine ⟨_, cursor.ahead, rfl, ?_, fun it => ?_⟩
    · exact ⟨valid_iff_ahead cursor, cursor.ahead_next, cursor.current⟩
    · rw [ahead_start cursor it]
      exact ⟨length_filter_le .., takeWhile_from sorted⟩
  | backward =>
    have walks : ∀ start, Walks db ⟨start, validFunc db keyPrefix, db.prev⟩ keyPrefix
        cursor.behind := fun _ =>
      ⟨valid_iff_behind cursor, cursor.behind_prev, fun it entry head =>
        cursor.current it entry (cursor.head?_behind it ▸ head)⟩
    by_cases empty : keyPrefix = []
    · subst empty
      exact ⟨_, cursor.behind, rfl, walks _, behind_seekToLast cursor⟩
    · obtain ⟨bound, small⟩ : ∃ bound, keyPrefixUpperBound keyPrefix = some bound := by
        rw [← Option.ne_none_iff_exists']
        exact fun open_ => isBounded ⟨rfl, empty, keyPrefixUpperBound_eq_none.mp open_⟩
      refine ⟨⟨startAtUpperBound db keyPrefix bound, validFunc db keyPrefix, db.prev⟩,
        cursor.behind, ?_, walks _, behind_startAtUpperBound cursor sorted small⟩
      simp [getIterFuncs, length_pos_iff.mpr empty, small]

end

end RocksDB

end HiveGo
