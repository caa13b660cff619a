import HiveGo.DAGMutex
import Mathlib.Algebra.Order.Group.Nat
import Mathlib.Data.List.GetD

/-! Exclusion for every entity. All sessions that are registered for an entity use one mutex,
because the registry forgets it only with the last of them. A forgotten mutex keeps counting its
last holder. -/
namespace HiveGo.DAGMutex
open List Option CallPool ShrinkingMap Nat StarvingMutex Prod Session

variable {T : Type} [DecidableEq T]
variable {d : Registry T} {id : T} {ids : List T}

/-! The registry. -/

/-- The registry of sessions that are registered for an entity so often. -/
structure Tracks (d : Registry T) (registered : T → Nat) : Prop where
  counts : ∀ id, (d.consumerCounter.get id).getD 0 = (registered id : Int)
  counted : ∀ id, d.consumerCounter.get id ≠ none ↔ 0 < registered id
  mutexes : ∀ id, d.mutexes.get id ≠ none ↔ 0 < registered id
  valid : ∀ id mutex, d.mutexes.get id = some mutex → mutex < d.heap.length

/-- What a new mutex leaves as it was. -/
structure Registry.Extends (d next : Registry T) : Prop where
  kept : ∀ id mutex, d.mutexes.get id = some mutex → next.mutexes.get id = some mutex
  same : ∀ pointer, next.mutex pointer = d.mutex pointer

theorem Registry.Extends.trans {middle next : Registry T} (first : d.Extends middle)
    (second : middle.Extends next) : d.Extends next :=
  ⟨fun id mutex found => second.kept id mutex (first.kept id mutex found),
    fun ptr => (second.same ptr).trans (first.same ptr)⟩

namespace Registry

omit [DecidableEq T] in
theorem mutex_append (d : Registry T) :
    (d.heap ++ [({} : StarvingMutex)]).getD pointer {} = d.mutex pointer := by
  unfold mutex
  rcases lt_trichotomy pointer d.heap.length with inside | rfl | outside
  · rw [getD_append _ _ _ _ inside]
  · simp
  · have beyond := le_of_lt outside
    have longer : (d.heap ++ [({} : StarvingMutex)]).length ≤ pointer := by
      rw [length_append, length_singleton]
      omega
    rw [getD_eq_default _ _ longer, getD_eq_default _ _ beyond]

omit [DecidableEq T] in
theorem mutex_store_self (d : Registry T) (valid : pointer < d.heap.length) :
    (d.store pointer f).mutex pointer = f := by
  simp [mutex, store, getD_eq_getElem?_getD, valid]

omit [DecidableEq T] in
theorem mutex_store_of_ne (d : Registry T) (ne : pointer ≠ other) :
    (d.store pointer f).mutex other = d.mutex other := by
  simp [mutex, store, getD_eq_getElem?_getD, getElem?_set_ne ne]

end Registry

/-- The entity has a mutex afterwards, and only its own entry of the registry is new. -/
theorem getOrCreate_cases (id : T) :
    (∃ mutex, d.mutexes.get id = some mutex ∧ d.getOrCreate id = (d, mutex)) ∨
    (d.mutexes.get id = none ∧ d.getOrCreate id =
      ({ d with mutexes := d.mutexes.set id d.heap.length, heap := d.heap ++ [{}] }, d.heap.length)) := by
  unfold Registry.getOrCreate
  cases found : d.mutexes.get id with
  | some mutex => exact .inl ⟨mutex, rfl, rfl⟩
  | none => exact .inr ⟨rfl, rfl⟩

/-- One more session for each of the entities. -/
def more (registered : T → Nat) (ids : List T) : T → Nat :=
  fun other => registered other + ids.count other

theorem more_of_ne (ne : id ≠ other) : more known [id] other = known other := by
  rw [more, count_singleton, if_neg (by simpa using ne), add_zero]

theorem more_self (id : T) : more known [id] id = known id + 1 := by
  rw [more, count_singleton_self]

/-- Only the entries of one entity change. -/
theorem Tracks.change (tracks : Tracks d known) (id : T) {next : Registry T} {after : T → Nat}
    (others : ∀ other, id ≠ other → next.consumerCounter.get other = d.consumerCounter.get other ∧
      next.mutexes.get other = d.mutexes.get other ∧ after other = known other)
    (count : (next.consumerCounter.get id).getD 0 = (after id : Int))
    (counted : next.consumerCounter.get id ≠ none ↔ 0 < after id)
    (mutex : next.mutexes.get id ≠ none ↔ 0 < after id)
    (valid : ∀ id mutex, next.mutexes.get id = some mutex → mutex < next.heap.length) :
    Tracks next after := by
  refine ⟨fun other => ?_, fun other => ?_, fun other => ?_, valid⟩
  all_goals rcases eq_or_ne id other with rfl | apart
  · exact count
  · rw [(others other apart).1, (others other apart).2.2, tracks.counts other]
  · exact counted
  · rw [(others other apart).1, (others other apart).2.2, tracks.counted other]
  · exact mutex
  · rw [(others other apart).2.1, (others other apart).2.2, tracks.mutexes other]

/-- A registered entity has the mutex that it had before, or a new one. -/
theorem registerMutex_spec (tracks : Tracks d known) :
    Tracks (d.registerMutex id).1 (more known [id]) ∧ d.Extends (d.registerMutex id).1 ∧
      (d.registerMutex id).1.mutexes.get id = some (d.registerMutex id).2 := by
  have count := tracks.counts id
  unfold Registry.registerMutex
  obtain ⟨mutex, found, made⟩ | ⟨missing, made⟩ := getOrCreate_cases id
  · rw [made]
    refine ⟨tracks.change id (fun other apart => ?_) ?_ ?_ ?_ tracks.valid,
      ⟨fun _ _ found => found, fun _ => rfl⟩, found⟩
    · exact ⟨get_set_of_ne _ apart, rfl, more_of_ne apart⟩
    · simp [more_self, count]
    · simp [more_self]
    · simp [more_self, found]
  · rw [made]
    refine ⟨tracks.change id (fun other apart => ?_) ?_ ?_ ?_ fun other mutex found => ?_,
      ⟨fun other mutex found => ?_, fun ptr => d.mutex_append⟩,
      get_set_self ..⟩
    · exact ⟨get_set_of_ne _ apart, get_set_of_ne _ apart,
        more_of_ne apart⟩
    · simp [more_self, count]
    · simp [more_self]
    · simp [more_self]
    · rw [length_append, length_singleton]
      rw [get_set] at found
      split at found
      · cases found
        exact lt_succ_self _
      · exact lt_succ_of_lt (tracks.valid other mutex found)
    · have apart : id ≠ other := by
        rintro rfl
        rw [missing] at found
        cases found
      exact (get_set_of_ne d.mutexes apart).trans found

theorem registerMutexes_spec (tracks : Tracks d known) :
    Tracks (d.registerMutexes ids).1 (more known ids) ∧
      d.Extends (d.registerMutexes ids).1 ∧ (d.registerMutexes ids).2.map fst = ids ∧
      ∀ pair ∈ (d.registerMutexes ids).2, (d.registerMutexes ids).1.mutexes.get pair.1 = some pair.2 := by
  induction ids generalizing d known with
  | nil => exact ⟨tracks, ⟨fun _ _ found => found, fun _ => rfl⟩, rfl, by simp [Registry.registerMutexes]⟩
  | cons id ids ih =>
    obtain ⟨tracked, extended, found⟩ := registerMutex_spec tracks
    obtain ⟨all, further, named, rest⟩ := ih tracked
    refine ⟨?_, extended.trans further, congrArg (id :: ·) named, ?_⟩
    · have sum : more (more known [id]) ids = more known (id :: ids) := by
        funext other
        rw [more, more, add_assoc, ← count_append]
        rfl
      rwa [← sum]
    · intro pair mem
      rcases mem_cons.mp mem with rfl | later
      · exact further.kept id _ found
      · exact rest pair later

/-- One session less for each of the entities. -/
def fewer (registered : T → Nat) (ids : List T) : T → Nat :=
  fun other => registered other - ids.count other

theorem fewer_of_ne (ne : id ≠ other) : fewer known [id] other = known other := by
  rw [fewer, count_singleton, if_neg (by simpa using ne), Nat.sub_zero]

theorem fewer_self (known : T → Nat) (id : T) : fewer known [id] id = known id - 1 := by
  rw [fewer, count_singleton_self]

/-- The mutex of an unregistered entity is forgotten with its last session. -/
theorem unregisterMutex_spec (tracks : Tracks d known) (pos : 0 < known id) :
    ∃ next mutex, d.unregisterMutex id = some (next, mutex) ∧ Tracks next (fewer known [id]) ∧
      next.heap = d.heap ∧
      (∀ other, 0 < fewer known [id] other → next.mutexes.get other = d.mutexes.get other) ∧
      ∀ pointer, mutex = some pointer → d.mutexes.get id = some pointer := by
  have count := tracks.counts id
  have self := fewer_self known id
  unfold Registry.unregisterMutex
  by_cases last : known id = 1
  · rw [last] at count self
    rw [if_pos (by omega)]
    refine ⟨_, none, rfl, tracks.change id (fun other apart => ?_) ?_ ?_ ?_ fun other mutex found => ?_,
      rfl, fun other still => ?_, by simp⟩
    · exact ⟨d.consumerCounter.get_delete_of_ne apart, d.mutexes.get_delete_of_ne apart,
        fewer_of_ne apart⟩
    · simp [self]
    · simp [self]
    · simp [self]
    · rw [get_delete] at found
      split at found
      · cases found
      · exact tracks.valid other mutex found
    · refine d.mutexes.get_delete_of_ne ?_
      rintro rfl
      omega
  · obtain ⟨mutex, found⟩ := ne_none_iff_exists'.mp ((tracks.mutexes id).mpr pos)
    rw [if_neg (by omega), found]
    refine ⟨_, some mutex, rfl, tracks.change id (fun other apart => ?_) ?_ ?_ ?_ tracks.valid,
      rfl, fun _ _ => rfl, by rintro _ ⟨⟩; rfl⟩
    · exact ⟨get_set_of_ne _ apart, rfl, fewer_of_ne apart⟩
    · simp only [get_set_self, getD_some, self, count]
      omega
    · exact iff_of_true (by simp) (by omega)
    · exact iff_of_true (by simp [found]) (by omega)

theorem unregisterMutexes_spec (tracks : Tracks d known) (nodup : ids.Nodup)
    (pos : ∀ id ∈ ids, 0 < known id) :
    ∃ next mutexes, d.unregisterMutexes ids = some (next, mutexes) ∧
      Tracks next (fewer known ids) ∧ next.heap = d.heap ∧
      (∀ other, 0 < fewer known ids other → next.mutexes.get other = d.mutexes.get other) ∧
      ∀ ptr, mutexes.count ptr ≤ (ids.filterMap d.mutexes.get).count ptr := by
  induction ids generalizing d known with
  | nil => exact ⟨d, [], rfl, tracks, rfl, fun _ _ => rfl, fun _ => le_refl _⟩
  | cons id ids ih =>
    obtain ⟨fresh, nodup⟩ := nodup_cons.mp nodup
    obtain ⟨middle, mutex, first, tracked, heap, kept, found⟩ :=
      unregisterMutex_spec tracks (pos id mem_cons_self)
    have apart : ∀ other ∈ ids, id ≠ other := by
      rintro other mem rfl
      exact fresh mem
    have later : ∀ other ∈ ids, 0 < fewer known [id] other := by
      intro other mem
      rw [fewer_of_ne (apart other mem)]
      exact pos other (mem_cons_of_mem _ mem)
    obtain ⟨next, mutexes, rest, all, sameHeap, keptRest, counts⟩ := ih tracked nodup later
    have difference : fewer (fewer known [id]) ids = fewer known (id :: ids) := by
      funext other
      rw [fewer, fewer, Nat.sub_sub, ← count_append]
      rfl
    refine ⟨next, mutex.toList ++ mutexes, ?_, ?_, sameHeap.trans heap, fun other still => ?_,
      fun ptr => ?_⟩
    · simp [Registry.unregisterMutexes, first, rest]
    · rwa [← difference]
    · rw [← difference] at still
      exact (keptRest other still).trans (kept other (still.trans_le (Nat.sub_le ..)))
    · have same :=
        filterMap_congr fun other mem => kept other (later other mem)
      have tail := counts ptr
      rw [same] at tail
      rw [count_append]
      cases mutex with
      | none =>
        have longer := ((sublist_cons_self id ids).filterMap d.mutexes.get).count_le ptr
        simp only [toList_none, count_nil]
        omega
      | some mutex =>
        rw [filterMap_cons_some (found mutex rfl)]
        simp only [toList_some, count_cons, count_nil]
        omega

/-! The sessions. -/

/-- How many sessions are registered for an entity. -/
def registeredFor (sessions : List (Session T)) (id : T) : Nat :=
  (sessions.map fun session => (session.registered.map fst).count id).sum

/-- How many readers a mutex should count. -/
def readersOf (sessions : List (Session T)) (pointer : Nat) : Nat :=
  (sessions.map (readersOn pointer)).sum

/-- How many writers a mutex should count. -/
def writersOf (sessions : List (Session T)) (pointer : Nat) : Nat :=
  (sessions.map (writersOn pointer)).sum

/-- The registry knows the sessions, and they use its mutexes. -/
structure Shared (d : Registry T) (sessions : List (Session T)) : Prop where
  tracks : Tracks d (registeredFor sessions)
  shares : ∀ session ∈ sessions, ∀ pair ∈ session.registered, d.mutexes.get pair.1 = some pair.2
  distinct : ∀ session ∈ sessions, (session.registered.map fst).Nodup

/-- Every mutex counts at least the sessions that have it, and no reader next to a writer. -/
structure Locked (d : Registry T) (sessions : List (Session T)) : Prop where
  readers : ∀ pointer, readersOf sessions pointer ≤ (d.mutex pointer).readersActive
  writers : ∀ pointer, writersOf sessions pointer ≤ if (d.mutex pointer).writerActive then 1 else 0
  exclusive : ∀ pointer, (d.mutex pointer).writerActive = true → (d.mutex pointer).readersActive = 0

structure Inv (s : State T) : Prop where
  shared : Shared s.registry s.sessions
  locked : Locked s.registry s.sessions
  calm : s.panicked = false

variable {d next : Registry T} {after : Option (Session T)}

/-- A move within the calls of the starving mutexes. -/
theorem Shared.keep (shared : Shared d sessions) (running : old ∈ sessions)
    (same : (after.map registered).getD [] = old.registered) :
    Shared d (advance sessions old after) := by
  have counts : registeredFor (advance sessions old after) = registeredFor sessions := by
    funext id
    have sum := sum_advance (fun session => (session.registered.map fst).count id) after running
    rw [← same] at sum
    unfold registeredFor
    cases after with
    | none => simpa using sum
    | some session => simpa using sum
  have known : ∀ session ∈ advance sessions old after,
      session.registered = old.registered ∨ session ∈ sessions := by
    intro session mem
    rcases mem_advance mem with rfl | before
    · exact .inl same
    · exact .inr before
  refine ⟨counts ▸ shared.tracks, fun session mem => ?_, fun session mem => ?_⟩
  · rcases known session mem with alike | before
    · rw [alike]
      exact shared.shares old running
    · exact shared.shares session before
  · rcases known session mem with alike | before
    · rw [alike]
      exact shared.distinct old running
    · exact shared.distinct session before

theorem Shared.store (shared : Shared d sessions) (ptr : Nat) (f : StarvingMutex) :
    Shared (d.store ptr f) sessions :=
  ⟨{ shared.tracks with valid := by simpa [Registry.store] using shared.tracks.valid },
    shared.shares, shared.distinct⟩

/-- A session that unregisters, while the mutexes stay as they are. -/
theorem Shared.unregister (shared : Shared d sessions) (running : old ∈ sessions)
    (named : ids.Perm (old.registered.map fst)) (gone : (after.map registered).getD [] = [])
    (tracks : Tracks next (fewer (registeredFor sessions) ids))
    (kept : ∀ other, 0 < fewer (registeredFor sessions) ids other →
      next.mutexes.get other = d.mutexes.get other) :
    Shared next (advance sessions old after) := by
  have counts : registeredFor (advance sessions old after) = fewer (registeredFor sessions) ids := by
    funext id
    have sum := sum_advance (fun session => (session.registered.map fst).count id) after running
    have nothing : ((after.map fun session => (session.registered.map fst).count id).getD 0) = 0 := by
      cases after with
      | none => rfl
      | some session =>
        have empty : session.registered = [] := gone
        simp [empty]
    rw [fewer, named.count_eq]
    unfold registeredFor
    omega
  refine ⟨by rwa [counts], fun session mem pair inside => ?_, fun session mem => ?_⟩
  · have known : 0 < registeredFor (advance sessions old after) pair.1 :=
      (count_pos_iff.mpr (mem_map_of_mem inside)).trans_le
        (le_sum_of_mem (mem_map.mpr ⟨session, mem, rfl⟩))
    rw [counts] at known
    rw [kept pair.1 known]
    rcases mem_advance mem with rfl | before
    · have empty : session.registered = [] := gone
      rw [empty] at inside
      cases inside
    · exact shared.shares session before pair inside
  · rcases mem_advance mem with rfl | before
    · have empty : session.registered = [] := gone
      simp [empty]
    · exact shared.distinct session before

/-- A session that should be counted less often, while the mutexes stay as they are. -/
theorem Locked.unregister (locked : Locked d sessions) (running : old ∈ sessions)
    (heap : next.heap = d.heap)
    (readers : ∀ ptr, (after.map (readersOn ptr)).getD 0 ≤ old.readersOn ptr)
    (writers : ∀ ptr, (after.map (writersOn ptr)).getD 0 ≤ old.writersOn ptr) :
    Locked next (advance sessions old after) := by
  have same : ∀ ptr, next.mutex ptr = d.mutex ptr := by
    intro ptr
    rw [Registry.mutex, heap, Registry.mutex]
  refine ⟨fun ptr => ?_, fun ptr => ?_, fun ptr => ?_⟩
  · rw [same]
    exact sum_advance_le (locked.readers ptr) running (Nat.add_le_add_left (readers ptr) _)
  · rw [same]
    exact sum_advance_le (locked.writers ptr) running (Nat.add_le_add_left (writers ptr) _)
  · rw [same]
    exact locked.exclusive ptr

/-- A move that changes one mutex as it changes what the mutex should count. -/
theorem Locked.store (locked : Locked d sessions) (running : old ∈ sessions)
    (valid : pointer < d.heap.length)
    (elsewhere : ∀ other, pointer ≠ other →
        (after.map (readersOn other)).getD 0 = old.readersOn other ∧
            (after.map (writersOn other)).getD 0 = old.writersOn other)
    (readers : (d.mutex pointer).readersActive +
        (after.map (readersOn pointer)).getD 0 ≤ f.readersActive + old.readersOn pointer)
    (writers : writersOf sessions pointer + (after.map (writersOn pointer)).getD 0 ≤
        (if f.writerActive then 1 else 0) + old.writersOn pointer)
    (exclusive : f.writerActive = true → f.readersActive = 0) :
    Locked (d.store pointer f) (advance sessions old after) := by
  refine ⟨fun other => ?_, fun other => ?_, fun other => ?_⟩
  · have bound := locked.readers other
    by_cases same : pointer = other
    · subst same
      rw [d.mutex_store_self valid]
      exact sum_advance_le bound running readers
    · rw [d.mutex_store_of_ne same]
      exact sum_advance_le bound running (by rw [(elsewhere other same).1])
  · by_cases same : pointer = other
    · subst same
      rw [d.mutex_store_self valid]
      exact sum_advance_le (le_refl _) running writers
    · rw [d.mutex_store_of_ne same]
      exact sum_advance_le (locked.writers other) running (by rw [(elsewhere other same).2])
  · by_cases same : pointer = other
    · subst same
      rw [d.mutex_store_self valid]
      exact exclusive
    · rw [d.mutex_store_of_ne same]
      exact locked.exclusive other

omit [DecidableEq T] in
/-- A mutex that counts somebody was made. -/
theorem valid_of_active (active : d.mutex pointer ≠ {}) : pointer < d.heap.length := by
  by_contra outside
  exact active (getD_eq_default _ _ (not_lt.mp outside))

omit [DecidableEq T] in
theorem Locked.readersActive_pos (locked : Locked d sessions) (running : old ∈ sessions)
    (counted : 0 < old.readersOn pointer) : 0 < (d.mutex pointer).readersActive := by
  have own : old.readersOn pointer ≤ readersOf sessions pointer :=
    le_sum_of_mem (mem_map_of_mem running)
  exact (counted.trans_le own).trans_le (locked.readers pointer)

omit [DecidableEq T] in
theorem Locked.writerActive (locked : Locked d sessions) (running : old ∈ sessions)
    (counted : 0 < old.writersOn pointer) : (d.mutex pointer).writerActive = true := by
  have own : old.writersOn pointer ≤ writersOf sessions pointer :=
    le_sum_of_mem (mem_map_of_mem running)
  have bound := own.trans (locked.writers pointer)
  by_contra inactive
  rw [if_neg inactive] at bound
  omega

variable {s : State T} {session : Session T}

variable (inv : Inv s) (running : session ∈ s.sessions)
include inv running

theorem inv_rAcquire (ran : rAcquire s session = some last) : Inv last := by
  unfold rAcquire at ran
  split at ran
  · rename_i held id mutex rest
    obtain ⟨f, tried, moved⟩ := bind_eq_some_iff.mp ran
    cases moved
    unfold tryRLock at tried
    split at tried
    · cases tried
    · rename_i inactive
      cases tried
      have shares := inv.shared.shares _ running (id, mutex) (by simp [registered])
      have bound := inv.locked.writers mutex
      refine ⟨(inv.shared.keep running (by simp [registered])).store mutex _,
        inv.locked.store running (inv.shared.tracks.valid id mutex shares) (fun other apart => ?_) ?_ ?_ ?_,
        inv.calm⟩
      · simp [readersOn, writersOn, apart]
      · simp only [map_some, getD_some, readersOn, map_append, map_cons,
          map_nil, count_append, count_singleton_self]
        omega
      · simpa [writersOn, inactive] using bound
      · intro active
        exact absurd active inactive
  · cases ran

theorem inv_rRelease (ran : rRelease s session = some last) : Inv last := by
  unfold rRelease at ran
  split at ran
  · cases ran
    refine ⟨inv.shared.keep running rfl, inv.locked.unregister running rfl ?_ ?_, inv.calm⟩
    · exact fun ptr => zero_le _
    · exact fun ptr => zero_le _
  · rename_i mutex rest
    have counted : 0 < readersOn (T := T) mutex (.rUnlocking (mutex :: rest)) := by
      simp [readersOn]
    have active := inv.locked.readersActive_pos running counted
    have valid : mutex < s.registry.heap.length := by
      apply valid_of_active
      intro empty
      rw [empty] at active
      exact lt_irrefl 0 active
    have inactive : ¬ (s.registry.mutex mutex).writerActive = true := by
      intro writing
      have idle := inv.locked.exclusive mutex writing
      omega
    obtain ⟨f, wake, released, fewer, still⟩ := rUnlock_of_reading active inactive
    rw [released] at ran
    cases ran
    have bound := inv.locked.writers mutex
    refine ⟨(inv.shared.keep running rfl).store mutex _,
      inv.locked.store running valid (fun other apart => ?_) ?_ ?_ ?_, inv.calm⟩
    · simp [readersOn, writersOn, apart]
    · simp only [map_some, getD_some, readersOn, count_cons_self]
      omega
    · simpa [writersOn, still] using bound
    · rw [still]
      intro writing
      exact absurd writing inactive
  · cases ran

theorem inv_rUnlock (ran : rUnlock s ids session = some last) : Inv last := by
  unfold rUnlock at ran
  split at ran
  · rename_i held
    split at ran
    · rename_i named
      have known : registered (.reader held []) = held := by simp [registered]
      have shares := inv.shared.shares _ running
      have nodup := inv.shared.distinct _ running
      rw [known] at shares nodup
      have pos : ∀ id ∈ ids, 0 < registeredFor s.sessions id := by
        intro id mem
        apply (inv.shared.tracks.mutexes id).mp
        obtain ⟨pair, inside, rfl⟩ := mem_map.mp (named.mem_iff.mp mem)
        simp [shares pair inside]
      obtain ⟨next, mutexes, unregistered, tracks, heap, kept, counts⟩ :=
        unregisterMutexes_spec inv.shared.tracks (named.nodup_iff.mpr nodup) pos
      rw [unregistered] at ran
      cases ran
      refine ⟨inv.shared.unregister running (by rwa [known]) rfl tracks kept,
        inv.locked.unregister running heap (fun ptr => ?_) fun ptr => zero_le _, inv.calm⟩
      have found : (held.map fst).filterMap s.registry.mutexes.get = held.map snd := by
        rw [filterMap_map, ← filterMap_eq_map]
        exact filterMap_congr shares
      have same := (named.filterMap s.registry.mutexes.get).count_eq ptr
      rw [found] at same
      exact (counts ptr).trans (le_of_eq same)
    · cases ran
  · cases ran

/-- A writer passes its loop. -/
theorem inv_writer (known : session.registered = [(id, mutex)])
    (uncounted : ∀ pointer, session.readersOn pointer = 0 ∧ session.writersOn pointer = 0)
    (idle : (s.registry.mutex mutex).readersActive = 0)
    (inactive : (s.registry.mutex mutex).writerActive = false) (stillIdle : f.readersActive = 0)
    (active : f.writerActive = true) :
    Inv (s.move (s.registry.store mutex f) session (some (.writer id mutex))) := by
  have shares := inv.shared.shares _ running (id, mutex) (by simp [known])
  have bound := inv.locked.writers mutex
  rw [inactive] at bound
  have same : ((some (writer id mutex)).map registered).getD [] =
      session.registered :=
    known.symm
  refine ⟨(inv.shared.keep running same).store mutex f,
    inv.locked.store running (inv.shared.tracks.valid id mutex shares) (fun other apart => ?_) ?_ ?_ ?_,
    inv.calm⟩
  · obtain ⟨noReader, noWriter⟩ := uncounted other
    rw [noReader, noWriter]
    simp [readersOn, writersOn, apart]
  · simp only [map_some, getD_some, readersOn]
    omega
  · simp only [map_some, getD_some, writersOn, active, if_true]
    simp only [Bool.false_eq_true, if_false] at bound
    omega
  · exact fun _ => stillIdle

theorem inv_acquire (ran : acquire s session = some last) : Inv last := by
  unfold acquire at ran
  split at ran
  · rename_i id mutex
    dsimp only at ran
    split at ran
    · rename_i f passed
      obtain ⟨idle, inactive, stillIdle, active⟩ := tryLock_eq_some passed
      cases ran
      exact inv_writer inv running rfl (fun _ => ⟨rfl, rfl⟩) idle inactive stillIdle active
    · cases ran
      have shares := inv.shared.shares _ running (id, mutex) (by simp [registered])
      refine ⟨(inv.shared.keep running rfl).store mutex _,
        inv.locked.store running (inv.shared.tracks.valid id mutex shares) (fun _ _ => ⟨rfl, rfl⟩) ?_ ?_ ?_,
        inv.calm⟩
      · exact le_refl _
      · exact inv.locked.writers mutex
      · exact inv.locked.exclusive mutex
  · obtain ⟨f, passed, moved⟩ := bind_eq_some_iff.mp ran
    obtain ⟨idle, inactive, stillIdle, active⟩ := tryLock_eq_some passed
    cases moved
    exact inv_writer inv running rfl (fun _ => ⟨rfl, rfl⟩) idle inactive stillIdle active
  · cases ran

theorem inv_unlock (ran : unlock s session = some last) : Inv last := by
  unfold unlock at ran
  split at ran
  · rename_i id mutex
    have shares :=
      inv.shared.shares _ running (id, mutex) (by simp [registered])
    have pos :=
      (inv.shared.tracks.mutexes id).mp (by simp [shares])
    obtain ⟨next, out, unregistered, tracks, heap, kept, found⟩ :=
      unregisterMutex_spec inv.shared.tracks pos
    rw [unregistered] at ran
    cases out with
    | none =>
      cases ran
      refine ⟨inv.shared.unregister running (.refl _) rfl tracks kept,
        inv.locked.unregister running heap (fun _ => zero_le _) fun _ => zero_le _, inv.calm⟩
    | some ptr =>
      cases ran
      cases (found ptr rfl).symm.trans shares
      refine ⟨inv.shared.unregister running (.refl _) rfl tracks kept,
        inv.locked.unregister running heap (fun _ => le_refl _) fun _ => le_refl _, inv.calm⟩
  · cases ran

theorem inv_release (ran : release s session = some last) : Inv last := by
  unfold release at ran
  split at ran
  · rename_i mutex
    have counted : 0 < writersOn (T := T) mutex (.unlocking mutex) := by
      simp [writersOn]
    have active := inv.locked.writerActive running counted
    have valid : mutex < s.registry.heap.length := by
      apply valid_of_active
      intro empty
      rw [empty] at active
      cases active
    have idle := inv.locked.exclusive mutex active
    obtain ⟨f, wake, released, stillIdle, inactive⟩ := unlock_of_idle idle
    have bound := inv.locked.writers mutex
    rw [active, if_pos rfl] at bound
    rw [released] at ran
    cases ran
    refine ⟨(inv.shared.keep running rfl).store mutex _,
      inv.locked.store running valid (fun other apart => ?_) ?_ ?_ ?_, inv.calm⟩
    · simp [readersOn, writersOn, apart]
    · simp only [map_none, getD_none, readersOn]
      omega
    · simpa [writersOn, inactive] using bound
    · rw [inactive]
      exact fun never => absurd never Bool.false_ne_true
  · cases ran

omit running

/-- A new session, for entities that it registers. -/
theorem inv_register (extended : s.registry.Extends registry)
    (tracks : Tracks registry (more (registeredFor s.sessions) ids))
    (nodup : ids.Nodup) (named : session.registered.map fst = ids)
    (found : ∀ pair ∈ session.registered, registry.mutexes.get pair.1 = some pair.2)
    (uncounted : ∀ ptr, session.readersOn ptr = 0 ∧ session.writersOn ptr = 0) :
    Inv { s with registry, sessions := session :: s.sessions } := by
  have counts : registeredFor (session :: s.sessions) = more (registeredFor s.sessions) ids := by
    funext id
    rw [registeredFor, map_cons, sum_cons, named, add_comm]
    rfl
  refine ⟨⟨by rwa [counts], fun other mem pair inside => ?_, fun other mem => ?_⟩,
    ⟨fun ptr => ?_, fun ptr => ?_, fun ptr => ?_⟩, inv.calm⟩
  · rcases mem_cons.mp mem with rfl | before
    · exact found pair inside
    · exact extended.kept _ _ (inv.shared.shares other before pair inside)
  · rcases mem_cons.mp mem with rfl | before
    · rwa [named]
    · exact inv.shared.distinct other before
  · rw [readersOf, map_cons, sum_cons, (uncounted ptr).1, zero_add, extended.same]
    exact inv.locked.readers ptr
  · rw [writersOf, map_cons, sum_cons, (uncounted ptr).2, zero_add, extended.same]
    exact inv.locked.writers ptr
  · rw [extended.same]
    exact inv.locked.exclusive ptr

theorem inv_step (ran : step s event = some last) : Inv last := by
  cases event with
  | rLock ids =>
    obtain ⟨nodup, ran⟩ := ite_none_right_eq_some.mp ran
    obtain ⟨tracks, extended, named, found⟩ := registerMutexes_spec inv.shared.tracks
    cases ran
    exact inv_register inv extended tracks nodup named found fun _ => ⟨rfl, rfl⟩
  | lock id =>
    obtain ⟨tracks, extended, found⟩ := registerMutex_spec inv.shared.tracks
    cases ran
    refine inv_register inv extended tracks (nodup_singleton id) rfl ?_ fun _ => ⟨rfl, rfl⟩
    intro pair mem
    cases mem_singleton.mp mem
    exact found
  | rAcquire session =>
    obtain ⟨running, ran⟩ := ite_none_right_eq_some.mp ran
    exact inv_rAcquire inv running ran
  | rUnlock session ids =>
    obtain ⟨running, ran⟩ := ite_none_right_eq_some.mp ran
    exact inv_rUnlock inv running ran
  | rRelease session =>
    obtain ⟨running, ran⟩ := ite_none_right_eq_some.mp ran
    exact inv_rRelease inv running ran
  | acquire session =>
    obtain ⟨running, ran⟩ := ite_none_right_eq_some.mp ran
    exact inv_acquire inv running ran
  | unlock session =>
    obtain ⟨running, ran⟩ := ite_none_right_eq_some.mp ran
    exact inv_unlock inv running ran
  | release session =>
    obtain ⟨running, ran⟩ := ite_none_right_eq_some.mp ran
    exact inv_release inv running ran

omit inv

theorem inv_new : Inv (newDAGMutex : State T) := by
  refine ⟨⟨⟨fun _ => rfl, fun id => ?_, fun id => ?_, ?_⟩, by simp [newDAGMutex], by simp [newDAGMutex]⟩,
    ⟨fun _ => zero_le _, fun _ => zero_le _, fun _ => ?_⟩, rfl⟩
  · simp [newDAGMutex, registeredFor]
  · simp [newDAGMutex, registeredFor]
  · rintro id mutex ⟨⟩
  · rintro ⟨⟩

omit [DecidableEq T] in
/-- A session that holds an entity is counted by the mutex of the entity. -/
theorem Session.Holds.counted (holds : session.Holds id) :
    ∃ ptr, (id, ptr) ∈ session.registered ∧
      (0 < session.readersOn ptr ∨ 0 < session.writersOn ptr) := by
  unfold Session.Holds at holds
  split at holds
  · obtain ⟨⟨_, ptr⟩, mem, rfl⟩ := mem_map.mp holds
    refine ⟨ptr, by simpa [registered] using mem, .inl ?_⟩
    exact count_pos_iff.mpr (mem_map_of_mem mem)
  · rename_i own ptr
    subst holds
    exact ⟨ptr, by simp [registered], .inr (by simp [writersOn])⟩
  · cases holds

/-- Along every interleaving: a writer of an entity is the only one that holds it, no call
panics, and the registry has no entries for entities that nobody is registered for. -/
theorem dagMutex_excludes (events : List (Event T)) (ran : run step newDAGMutex events = some s) :
    (∀ id pointer, writer id pointer ∈ s.sessions →
      ∀ other ∈ s.sessions.erase (.writer id pointer), ¬ other.Holds id) ∧
    s.panicked = false ∧
    ∀ id, (∀ session ∈ s.sessions, id ∉ session.registered.map fst) →
      s.registry.consumerCounter.get id = none ∧ s.registry.mutexes.get id = none := by
  have inv := run_invariant (fun _ _ _ inv => inv_step inv) inv_new ran
  refine ⟨fun id pointer running other mem holds => ?_, inv.calm, fun id nobody => ?_⟩
  · obtain ⟨own, known, counted⟩ := holds.counted
    -- both use the mutex that the registry has for the entity
    have shared := inv.shared.shares _ (mem_of_mem_erase mem) (id, own) known
    have mine := inv.shared.shares _ running (id, pointer) (by simp [registered])
    cases shared.symm.trans mine
    have writes : writersOn (T := T) pointer (.writer id pointer) = 1 := by
      simp [writersOn]
    have active : (s.registry.mutex pointer).writerActive = true :=
      inv.locked.writerActive running (by omega)
    rcases counted with reads | alsoWrites
    · have reading := inv.locked.readersActive_pos (mem_of_mem_erase mem) reads
      have idle := inv.locked.exclusive pointer active
      omega
    · have bound := inv.locked.writers pointer
      have both := sum_advance (writersOn pointer) none running
      have rest := sum_advance (writersOn pointer) none mem
      rw [active, if_pos rfl] at bound
      unfold writersOf at bound
      simp only [advance, toList_none, nil_append, map_none, getD_none] at both rest
      omega
  · have zero : registeredFor s.sessions id = 0 := by
      unfold registeredFor
      rw [List.sum_eq_zero]
      intro count mem
      obtain ⟨session, inside, rfl⟩ := mem_map.mp mem
      exact count_eq_zero.mpr (nobody session inside)
    constructor
    · by_contra there
      have pos := (inv.shared.tracks.counted id).mp there
      omega
    · by_contra there
      have pos := (inv.shared.tracks.mutexes id).mp there
      omega

/-- A writer has one entity while a reader of it and of another one waits, and another writer
waits behind the reader. -/
def contended : List (Event Nat) :=
  [.lock 1, .acquire (.locking 1 0), .rLock [2, 1], .rAcquire (.reader [] [(2, 1), (1, 0)]),
    .lock 1, .acquire (.locking 1 0), .unlock (.writer 1 0), .release (.unlocking 0),
    .rAcquire (.reader [(2, 1)] [(1, 0)]), .rUnlock (.reader [(2, 1), (1, 0)] []) [1, 2],
    .rRelease (.rUnlocking [0]), .acquire (.waiting 1 0)]

theorem contended_excludes :
    ∃ s, run step newDAGMutex contended = some s ∧
      s.sessions = [.writer 1 0, .rUnlocking []] ∧ s.panicked = false ∧
      s.registry.mutexes.get 2 = none := by
  have ends : (run step newDAGMutex contended).map State.sessions =
      some [.writer 1 0, .rUnlocking []] := rfl
  obtain ⟨s, ran, sessions⟩ := map_eq_some_iff.mp ends
  obtain ⟨-, calm, forgotten⟩ := dagMutex_excludes contended ran
  refine ⟨s, ran, sessions, calm, (forgotten 2 ?_).2⟩
  rw [sessions]
  decide

end HiveGo.DAGMutex
