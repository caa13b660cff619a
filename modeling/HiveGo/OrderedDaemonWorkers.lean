import HiveGo.OrderedDaemon

/-! The workers of the daemon as long as it is not cleared: those whose goroutine has not come
to its cleanup can be found under their names, and the names are listed in descending order. -/
namespace HiveGo.OrderedDaemon
open ShrinkingMap List Option

namespace Phase

/-- The wait group counts the goroutine. -/
def counts : Phase → Bool
  | handling | returned => true
  | _ => false

/-- The worker is not cleaned up. -/
def kept : Phase → Bool
  | registered | handling | returned | released => true
  | _ => false

/-- The running flag is set. -/
def runs : Phase → Bool
  | handling | returned | released | cleaned => true
  | _ => false

end Phase

/-- Workers of a shutdown order that its wait group counts. -/
def Worker.countsFor (order : Int) (worker : Worker) : Bool :=
  worker.phase.counts && worker.shutdownOrder == order

/-- The flags and the wait groups agree with the goroutines. -/
structure Objects (d : OrderedDaemon) : Prop where
  flags : ∀ worker ∈ d.heap, worker.running = worker.phase.runs
  groups : ∀ worker ∈ d.heap, d.wgPerSameShutdownOrder.get worker.shutdownOrder ≠ none
  counts : ∀ order count, d.wgPerSameShutdownOrder.get order = some count →
    count = d.heap.countP (Worker.countsFor order)

structure Registered (d : OrderedDaemon) : Prop where
  named : ∀ name pointer, d.workers.get name = some pointer →
    ∃ worker, d.heap[pointer]? = some worker ∧ worker.name = name
  kept : ∀ pointer worker, d.heap[pointer]? = some worker → worker.phase.kept = true →
    d.workers.get worker.name = some pointer
  listed : ∀ name, name ∈ d.shutdownOrderWorker ↔ d.workers.get name ≠ none
  nodup : d.shutdownOrderWorker.Nodup
  sorted : d.shutdownOrderWorker.Pairwise fun first second =>
    d.shutdownOrder second ≤ d.shutdownOrder first

variable {d : OrderedDaemon} {pointer : Nat}

theorem mem_store (mem : other ∈ (d.store pointer moved).heap) : other = moved ∨ other ∈ d.heap :=
  (mem_or_eq_of_mem_set mem).symm

section

variable (found : d.heap[pointer]? = some worker)
include found

theorem lookup_store :
    (d.store pointer moved).lookup name =
      if d.workers.get name = some pointer then some moved else d.lookup name := by
  have valid := (List.getElem?_eq_some_iff.mp found).1
  unfold lookup store
  cases there : d.workers.get name with
  | none => simp
  | some other =>
    by_cases same : pointer = other
    · subst same
      simp [valid]
    · simp [getElem?_set_ne same, Ne.symm same]

/-- A worker keeps its shutdown order. -/
theorem shutdownOrder_store
    (same : moved.shutdownOrder = worker.shutdownOrder) (name : String) :
    (d.store pointer moved).shutdownOrder name = d.shutdownOrder name := by
  unfold shutdownOrder
  rw [lookup_store found]
  split
  · rename_i there
    simp [lookup, there, found, same]
  · rfl

theorem get_store :
    (d.store pointer moved).heap[other]? = if pointer = other then some moved else d.heap[other]? := by
  have valid := (List.getElem?_eq_some_iff.mp found).1
  split
  · rename_i same
    subst same
    simp [store, valid]
  · rename_i apart
    simp [store, getElem?_set_ne apart]

end

/-- The goroutine of a worker goes on, and it is not registered again. -/
theorem Registered.store (known : Registered d) (found : d.heap[pointer]? = some worker)
    (name : moved.name = worker.name) (order : moved.shutdownOrder = worker.shutdownOrder)
    (kept : moved.phase.kept = true → worker.phase.kept = true) : Registered (d.store pointer moved) where
  named key target there := by
    obtain ⟨other, found', named⟩ := known.named key target there
    rw [get_store found]
    split
    · rename_i same
      subst same
      cases found.symm.trans found'
      exact ⟨moved, rfl, name.trans named⟩
    · exact ⟨other, found', named⟩
  kept target other there still := by
    rw [get_store found] at there
    split at there
    · rename_i same
      subst same
      cases there
      rw [name]
      exact known.kept pointer worker found (kept still)
    · exact known.kept target other there still
  listed := known.listed
  nodup := known.nodup
  sorted := by
    have orders := shutdownOrder_store found order
    simp only [orders]
    exact known.sorted

/-- A count changes by the one entry that is replaced. -/
theorem countP_set_add {entries : List α} (p : α → Bool) (new : α)
    (found : entries[index]? = some old) :
    (entries.set index new).countP p + (if p old then 1 else 0) =
      entries.countP p + if p new then 1 else 0 := by
  obtain ⟨inside, rfl⟩ := List.getElem?_eq_some_iff.mp found
  have counted := boole_getElem_le_countP (p := p) inside
  rw [countP_set inside]
  omega

/-- The goroutine of a worker goes on, and the wait groups follow it. -/
theorem Objects.store {groups : ShrinkingMap Int Nat} (objects : Objects d)
    (found : d.heap[pointer]? = some worker) (order : moved.shutdownOrder = worker.shutdownOrder)
    (flag : moved.running = moved.phase.runs)
    (entries : ∀ order, groups.get order = none ↔ d.wgPerSameShutdownOrder.get order = none)
    (raised : ∀ order count, groups.get order = some count →
      ∃ pre, d.wgPerSameShutdownOrder.get order = some pre ∧
        count + (if worker.countsFor order then 1 else 0) =
          pre + if moved.countsFor order then 1 else 0) :
    Objects ({ d with wgPerSameShutdownOrder := groups }.store pointer moved) where
  flags other mem := by
    rcases mem_store mem with rfl | pre
    · exact flag
    · exact objects.flags other pre
  groups other mem := by
    refine (entries _).not.mpr ?_
    rcases mem_store mem with rfl | pre
    · rw [order]
      exact objects.groups worker (mem_of_getElem? found)
    · exact objects.groups other pre
  counts order count there := by
    obtain ⟨pre, stored, balance⟩ := raised order count there
    have counted := objects.counts order pre stored
    have change := countP_set_add (Worker.countsFor order) moved found
    change count = (d.heap.set pointer moved).countP (Worker.countsFor order)
    omega

theorem get_set_none_iff {groups : ShrinkingMap Int Nat} (group : groups.get order = some before) (size key) :
    (groups.set order size).get key = none ↔ groups.get key = none := by
  rw [get_set]
  split
  · rename_i same
    subst same
    simp [group]
  · exact .rfl

/-- The wait group of a worker follows the goroutine. -/
theorem Objects.storeGroup {pre size : Nat} (objects : Objects d)
    (found : d.heap[pointer]? = some worker) (order : moved.shutdownOrder = worker.shutdownOrder)
    (flag : moved.running = moved.phase.runs)
    (group : d.wgPerSameShutdownOrder.get worker.shutdownOrder = some pre)
    (balance : size + (if worker.phase.counts then 1 else 0) =
      pre + if moved.phase.counts then 1 else 0) :
    Objects (OrderedDaemon.store { d with
      wgPerSameShutdownOrder := d.wgPerSameShutdownOrder.set worker.shutdownOrder size } pointer moved) := by
  refine objects.store found order flag (get_set_none_iff group size) fun key count stored => ?_
  rw [get_set] at stored
  split at stored
  · rename_i same
    subst same
    cases stored
    exact ⟨pre, group, by simpa [Worker.countsFor, order] using balance⟩
  · rename_i apart
    exact ⟨count, stored, by simp [Worker.countsFor, order, apart]⟩

/-- What a call leaves as it was. -/
structure SameFlags (d next : OrderedDaemon) : Prop where
  running : next.running = d.running
  stopped : next.stopped = d.stopped
  cleared : next.cleared = d.cleared

/-- The workers wait until the daemon is started. -/
structure Starts (d : OrderedDaemon) : Prop where
  started : d.running = true → ∀ worker ∈ d.heap, worker.phase ≠ .registered
  fresh : d.running = false → ∀ worker ∈ d.heap, worker.phase = .registered

theorem runBackgroundWorker_spec (objects : Objects d) (known : Registered d)
    (there : d.workers.get name = some pointer) (found : d.heap[pointer]? = some worker)
    (waits : worker.phase = .registered) :
    ∃ next, d.runBackgroundWorker name = .ok next ∧ Objects next ∧ Registered next ∧
      SameFlags d next ∧ next.workers = d.workers ∧
      next.heap = d.heap.set pointer { worker with running := true, phase := .handling } := by
  obtain ⟨count, group⟩ := ne_none_iff_exists'.mp (objects.groups worker (mem_of_getElem? found))
  refine ⟨OrderedDaemon.store
    { d with
      wgPerSameShutdownOrder := d.wgPerSameShutdownOrder.set worker.shutdownOrder (count + 1) }
    pointer { worker with running := true, phase := .handling }, ?_, ?_, ?_, ⟨rfl, rfl, rfl⟩, rfl, rfl⟩
  · simp [runBackgroundWorker, there, found, group]
  · exact objects.storeGroup found rfl rfl group (by simp [waits, Phase.counts])
  · have kept : worker.phase.kept = true := by
      rw [waits]
      rfl
    have moved : Registered (d.store pointer { worker with running := true, phase := .handling }) :=
      known.store found rfl rfl fun _ => kept
    exact { moved with }

/-- The name of a worker that has not been started. -/
def Waits (d : OrderedDaemon) (name : String) : Prop :=
  ∃ pointer worker, d.workers.get name = some pointer ∧ d.heap[pointer]? = some worker ∧
    worker.phase = .registered

theorem runBackgroundWorkers_spec (objects : Objects d) (known : Registered d)
    (nodup : names.Nodup) (waits : ∀ name ∈ names, Waits d name) :
    ∃ next, d.runBackgroundWorkers names = .ok next ∧ Objects next ∧ Registered next ∧
      SameFlags d next ∧
      ∀ worker ∈ next.heap, worker.phase = .registered → worker ∈ d.heap ∧ worker.name ∉ names := by
  induction names generalizing d with
  | nil =>
    exact ⟨d, rfl, objects, known, ⟨rfl, rfl, rfl⟩, fun worker mem _ => ⟨mem, by simp⟩⟩
  | cons name names ih =>
    obtain ⟨fresh, nodup⟩ := nodup_cons.mp nodup
    obtain ⟨pointer, worker, there, found, waiting⟩ := waits name mem_cons_self
    obtain ⟨middle, ran, objects', registered', flags, workers, heap⟩ :=
      runBackgroundWorker_spec objects known there found waiting
    have still : ∀ other ∈ names, Waits middle other := by
      intro other mem
      obtain ⟨target, waiter, there', found', waiting'⟩ := waits other (mem_cons_of_mem _ mem)
      have apart : pointer ≠ target := by
        rintro rfl
        obtain ⟨_, here, named⟩ := known.named name pointer there
        obtain ⟨_, here', named'⟩ := known.named other pointer there'
        cases here.symm.trans here'
        exact fresh (named.symm.trans named' ▸ mem)
      refine ⟨target, waiter, by rw [workers]; exact there', ?_, waiting'⟩
      rw [heap, getElem?_set_ne apart]
      exact found'
    obtain ⟨next, rest, objects'', registered'', flags', left⟩ := ih objects' registered' nodup still
    refine ⟨next, ?_, objects'', registered'', ?_, fun other mem waiting' => ?_⟩
    · simp [runBackgroundWorkers, ran, rest]
    · exact ⟨flags'.running.trans flags.running, flags'.stopped.trans flags.stopped,
        flags'.cleared.trans flags.cleared⟩
    · obtain ⟨pre, unnamed⟩ := left other mem waiting'
      have named : other.name ≠ name := by
        -- it would be found under the name of the worker that was just started
        rintro rfl
        obtain ⟨target, found'⟩ := mem_iff_getElem?.mp pre
        have there' := registered'.kept target other found' (by rw [waiting']; rfl)
        rw [workers, there] at there'
        cases there'
        rw [heap, List.getElem?_set_self (List.getElem?_eq_some_iff.mp found).1] at found'
        cases found'
        cases waiting'
      rw [heap] at pre
      rcases mem_or_eq_of_mem_set pre with inside | rfl
      · exact ⟨inside, by simp [named, unnamed]⟩
      · cases waiting'

theorem start_spec (objects : Objects d) (known : Registered d) (starts : Starts d) :
    ∃ next, d.start iteration = .ok next ∧ Objects next ∧ Registered next ∧ next.running = true ∧
      next.stopped = d.stopped ∧ next.cleared = d.cleared ∧
      ∀ worker ∈ next.heap, worker.phase ≠ .registered := by
  unfold start
  cases running : d.running with
  | true => exact ⟨d, rfl, objects, known, running, rfl, rfl, starts.started running⟩
  | false =>
    have visited := iteration.perm (d.workers.entries.map Prod.fst)
    have waits : ∀ name ∈ iteration.visit (d.workers.entries.map Prod.fst), Waits d name := by
      intro name mem
      have has := mem_keys.mp (visited.mem_iff.mp mem)
      obtain ⟨pointer, there⟩ := isSome_iff_exists.mp has
      obtain ⟨worker, found, -⟩ := known.named name pointer there
      exact ⟨pointer, worker, there, found, starts.fresh running worker (mem_of_getElem? found)⟩
    have objects' : Objects { d with running := true } := { objects with }
    have registered' : Registered { d with running := true } := { known with }
    obtain ⟨next, ran, kept, named, flags, left⟩ :=
      runBackgroundWorkers_spec objects' registered' (visited.nodup_iff.mpr d.workers.distinct) waits
    refine ⟨next, ran, kept, named, flags.running, flags.stopped, flags.cleared, fun worker mem waiting => ?_⟩
    obtain ⟨pre, unvisited⟩ := left worker mem waiting
    obtain ⟨pointer, found⟩ := mem_iff_getElem?.mp pre
    have there := known.kept pointer worker found (by rw [waiting]; rfl)
    refine unvisited (visited.mem_iff.mpr (mem_keys.mpr ?_))
    simp [ShrinkingMap.has, there]

/-- A name that a new worker can have. -/
structure Free (d : OrderedDaemon) (name : String) : Prop where
  named : ∀ other pointer, other ≠ name → d.workers.get other = some pointer →
    ∃ worker, d.heap[pointer]? = some worker ∧ worker.name = other
  kept : ∀ pointer worker, d.heap[pointer]? = some worker → worker.phase.kept = true →
    worker.name ≠ name ∧ d.workers.get worker.name = some pointer
  listed : ∀ other, other ∈ d.shutdownOrderWorker ↔ other ≠ name ∧ d.workers.get other ≠ none
  nodup : d.shutdownOrderWorker.Nodup

section Insert

theorem Objects.insertWorker (objects : Objects d) : Objects (d.insertWorker sorting name order) := by
  refine ⟨fun other mem => ?_, fun other mem => ?_, fun key count there => ?_⟩
  · rcases mem_append.mp mem with before | new
    · exact objects.flags other before
    · cases mem_singleton.mp new
      rfl
  · have entry : ∀ key, key = order ∨ d.wgPerSameShutdownOrder.get key ≠ none →
        (d.insertWorker sorting name order).wgPerSameShutdownOrder.get key ≠ none := by
      intro key known
      unfold OrderedDaemon.insertWorker
      split
      · rename_i has
        rcases known with rfl | there
        · exact isSome_iff_ne_none.mp has
        · exact there
      · rw [get_set]
        split
        · simp
        · rename_i apart
          exact known.resolve_left (Ne.symm apart)
    rcases mem_append.mp mem with before | new
    · exact entry _ (.inr (objects.groups other before))
    · cases mem_singleton.mp new
      exact entry _ (.inl rfl)
  · have same : (d.insertWorker sorting name order).heap.countP (Worker.countsFor key) =
        d.heap.countP (Worker.countsFor key) := by
      simp [OrderedDaemon.insertWorker, Worker.countsFor, Phase.counts]
    rw [same]
    unfold OrderedDaemon.insertWorker at there
    split at there
    · exact objects.counts key count there
    · rename_i missing
      rw [get_set] at there
      split at there
      · rename_i equal
        subst equal
        cases there
        -- a worker of this order would have a wait group
        refine (countP_eq_zero.mpr fun worker mem counted => missing ?_).symm
        have group := objects.groups worker mem
        simp only [Worker.countsFor, Bool.and_eq_true, beq_iff_eq] at counted
        rw [counted.2] at group
        exact isSome_iff_ne_none.mpr group
      · exact objects.counts key count there

theorem Registered.insertWorker (free : Free d name) :
    Registered (d.insertWorker sorting name order) := by
  have perm := sorting.perm (d.insertWorker sorting name order).shutdownOrder
    (d.shutdownOrderWorker ++ [name])
  refine ⟨fun other pointer there => ?_, fun pointer worker found kept => ?_, fun other => ?_, ?_,
    sorting.sorted _ _⟩
  · simp only [OrderedDaemon.insertWorker, get_set] at there ⊢
    split at there
    · rename_i same
      cases there
      exact ⟨_, getElem?_concat_length, same⟩
    · rename_i apart
      obtain ⟨worker, found, named⟩ := free.named other pointer (Ne.symm apart) there
      exact ⟨worker, by rw [List.getElem?_append_left (List.getElem?_eq_some_iff.mp found).1, found], named⟩
  · simp only [OrderedDaemon.insertWorker] at found ⊢
    rcases getElem?_concat_eq_some.mp found with older | ⟨rfl, rfl⟩
    · obtain ⟨apart, there⟩ := free.kept pointer worker older kept
      rwa [get_set_of_ne _ (Ne.symm apart)]
    · simp
  · refine perm.mem_iff.trans ?_
    rw [mem_append, free.listed, mem_singleton]
    simp only [OrderedDaemon.insertWorker, get_set]
    by_cases same : other = name
    · simp [same]
    · simp [same, Ne.symm same]
  · refine perm.nodup_iff.mpr (free.nodup.append (nodup_singleton name) ?_)
    intro other mem last
    cases mem_singleton.mp last
    exact ((free.listed name).mp mem).1 rfl

theorem addWorker_spec (objects : Objects d) (free : Free d name) (writable : d.cleared = false)
    (starts : Starts d) :
    ∃ next, d.addWorker sorting name order = .ok next ∧ Objects next ∧ Registered next ∧
      SameFlags d next ∧ Starts next := by
  have objects' : Objects (d.insertWorker sorting name order) := objects.insertWorker
  have registered' : Registered (d.insertWorker sorting name order) := .insertWorker free
  have heap : (d.insertWorker sorting name order).heap = d.heap ++
      [{ name, shutdownOrder := order, running := false, cancelled := false, phase := .registered }] :=
    rfl
  unfold addWorker
  rw [writable]
  cases running : d.running with
  | true =>
    have also : (d.insertWorker sorting name order).running = true := running
    have there : (d.insertWorker sorting name order).workers.get name = some d.heap.length :=
      get_set_self ..
    obtain ⟨next, ran, kept, named, flags, -, after⟩ :=
      runBackgroundWorker_spec objects' registered' there (heap ▸ getElem?_concat_length) rfl
    have up := flags.running.trans also
    refine ⟨next, ?_, kept, named, { flags with }, fun _ worker mem => ?_,
      fun never => absurd (up.symm.trans never) (by simp)⟩
    · simp [also, ran]
    · rw [after, heap, set_append_right _ _ (Nat.le_refl _), Nat.sub_self] at mem
      rcases mem_append.mp mem with before | new
      · exact starts.started running worker before
      · cases mem_singleton.mp new
        simp
  | false =>
    have also : (d.insertWorker sorting name order).running = false := running
    refine ⟨d.insertWorker sorting name order, ?_, objects', registered', ⟨rfl, rfl, rfl⟩,
      fun up => absurd (also.symm.trans up) (by simp), fun _ worker mem => ?_⟩
    · simp [also]
    · rcases mem_append.mp mem with before | new
      · exact starts.fresh running worker before
      · cases mem_singleton.mp new
        rfl

end Insert

/-- `BackgroundWorker` registers a worker, or changes nothing and says why. -/
theorem backgroundWorker_spec (objects : Objects d) (registered : Registered d)
    (writable : d.cleared = false) (starts : Starts d) :
    (∃ error, d.backgroundWorker sorting name order = .err error) ∨
    ∃ next, d.backgroundWorker sorting name order = .ok next ∧ Objects next ∧ Registered next ∧
      SameFlags d next ∧ Starts next := by
  unfold backgroundWorker
  cases there : d.workers.get name with
  | none =>
    refine .inr (addWorker_spec objects ⟨fun other pointer _ => registered.named other pointer,
      fun pointer worker found kept => ?_, fun other => ?_, registered.nodup⟩ writable starts)
    · have here := registered.kept pointer worker found kept
      refine ⟨?_, here⟩
      rintro rfl
      rw [there] at here
      cases here
    · rw [registered.listed]
      refine ⟨fun known => ⟨?_, known⟩, And.right⟩
      rintro rfl
      exact known there
  | some pointer =>
    dsimp only
    split
    · exact .inl ⟨_, rfl⟩
    · rename_i runs
      obtain ⟨worker, found, named⟩ := registered.named name pointer there
      rw [found]
      dsimp only
      split
      · exact .inl ⟨_, rfl⟩
      · rename_i idle
        have mem := mem_of_getElem? found
        -- a worker whose flag is not set has come to its end
        have gone : worker.phase.kept = false := by
          have flag := objects.flags worker mem
          have phase := starts.started (by simpa using runs) worker mem
          rw [Bool.not_eq_true] at idle
          rw [idle] at flag
          cases at_ : worker.phase with
          | registered => exact absurd at_ phase
          | handling | returned | released | cleaned =>
            rw [at_] at flag
            cases flag
          | finished => rfl
        have free : Free (d.removeWorkerFromShutdownOrder name) name := by
          refine ⟨fun other target _ => registered.named other target,
            fun target other found' kept => ?_, fun other => ?_, registered.nodup.erase name⟩
          · have here := registered.kept target other found' kept
            refine ⟨?_, here⟩
            rintro rfl
            cases here.symm.trans there
            cases found.symm.trans found'
            rw [gone] at kept
            cases kept
          · exact registered.nodup.mem_erase_iff.trans
              (and_congr_right fun _ => registered.listed other)
        have removed : Objects (d.removeWorkerFromShutdownOrder name) := { objects with }
        obtain ⟨next, added, objects', registered', flags, rest⟩ :=
          addWorker_spec removed free writable { starts with }
        exact .inr ⟨next, added, objects', registered', { flags with }, rest⟩

/-! The goroutines. -/

/-- The handler has returned. -/
def Worker.HasReturned (worker : Worker) : Prop :=
  worker.phase ≠ .registered ∧ worker.phase ≠ .handling

/-- What a step of the goroutine of a worker does. A stopped daemon keeps its workers. -/
structure Proceeds (d next : OrderedDaemon) (pointer : Nat) : Prop where
  objects : Objects next
  registered : next.cleared = false → Registered next
  flags : SameFlags d next
  groups : ∀ order, next.wgPerSameShutdownOrder.get order = none ↔
    d.wgPerSameShutdownOrder.get order = none
  moves : ∃ worker moved, d.heap[pointer]? = some worker ∧ next.heap = d.heap.set pointer moved ∧
    moved.name = worker.name ∧ moved.shutdownOrder = worker.shutdownOrder ∧
    moved.cancelled = worker.cancelled ∧ worker.phase ≠ .registered ∧ moved.HasReturned
  stays : d.stopped = true →
    next.workers = d.workers ∧ next.shutdownOrderWorker = d.shutdownOrderWorker

/-- A worker is removed when its handler has returned. -/
theorem Registered.remove {cleaned : OrderedDaemon} (known : Registered d)
    (found : d.heap[pointer]? = some worker) (kept : worker.phase.kept = true)
    (order : moved.shutdownOrder = worker.shutdownOrder) (gone : moved.phase.kept = false)
    (heap : cleaned.heap = d.heap) (workers : cleaned.workers = d.workers.delete worker.name)
    (list : cleaned.shutdownOrderWorker = d.shutdownOrderWorker.erase worker.name) :
    Registered (cleaned.store pointer moved) := by
  have there := known.kept pointer worker found kept
  have mem : ∀ other, other ∈ (cleaned.store pointer moved).shutdownOrderWorker ↔
      other ≠ worker.name ∧ other ∈ d.shutdownOrderWorker := by
    intro other
    rw [← known.nodup.mem_erase_iff, ← list]
    rfl
  have orders : ∀ other ≠ worker.name,
      (cleaned.store pointer moved).shutdownOrder other = d.shutdownOrder other := by
    intro other apart
    rw [shutdownOrder_store (by rw [heap]; exact found) order]
    simp [shutdownOrder, lookup, heap, workers, get_delete_of_ne _ (Ne.symm apart)]
  rw [← heap] at found
  refine ⟨fun other target there' => ?_, fun target other found' kept' => ?_, fun other => ?_, ?_, ?_⟩
  · rw [get_store found]
    rw [OrderedDaemon.store, workers, get_delete] at there'
    split at there'
    · cases there'
    · rename_i apart
      obtain ⟨found', here, named⟩ := known.named other target there'
      rw [← heap] at here
      split
      · rename_i same
        subst same
        cases found.symm.trans here
        exact absurd named apart
      · exact ⟨found', here, named⟩
  · rw [get_store found] at found'
    split at found'
    · cases found'
      rw [gone] at kept'
      cases kept'
    · rename_i apart
      have here := known.kept target other (heap ▸ found') kept'
      rw [OrderedDaemon.store, workers]
      refine (get_delete_of_ne _ ?_).trans here
      intro same
      rw [← same, there] at here
      cases here
      exact apart rfl
  · rw [mem, known.listed, OrderedDaemon.store, workers, get_delete]
    by_cases same : other = worker.name
    · simp [same]
    · simp [same, Ne.symm same]
  · rw [OrderedDaemon.store, list]
    exact known.nodup.erase _
  · have sorted := known.sorted.sublist (erase_sublist (a := worker.name))
    rw [← list] at sorted
    refine List.Pairwise.imp_of_mem (fun first second below => ?_) sorted
    rwa [orders _ ((mem _).mp first).1, orders _ ((mem _).mp second).1]

/-- A step without the wait group. -/
theorem Objects.go (objects : Objects d) (found : d.heap[pointer]? = some worker)
    (order : moved.shutdownOrder = worker.shutdownOrder) (flag : moved.running = moved.phase.runs)
    (counts : moved.phase.counts = worker.phase.counts) : Objects (d.store pointer moved) := by
  refine objects.store found order flag (fun _ => Iff.rfl) fun key count stored => ⟨count, stored, ?_⟩
  rw [Worker.countsFor, Worker.countsFor, order, counts]

theorem done_spec (objects : Objects d) (found : d.heap[pointer]? = some worker)
    (at_ : worker.phase = .returned) :
    ∃ count, d.wgPerSameShutdownOrder.get worker.shutdownOrder = some (count + 1) := by
  obtain ⟨count, group⟩ := ne_none_iff_exists'.mp (objects.groups worker (mem_of_getElem? found))
  have counted := objects.counts _ _ group
  have pos : 0 < d.heap.countP (Worker.countsFor worker.shutdownOrder) :=
    countP_pos_iff.mpr ⟨worker, mem_of_getElem? found, by simp [Worker.countsFor, at_, Phase.counts]⟩
  exact ⟨count - 1, by rw [group]; congr 1; omega⟩

/-- The goroutine of a worker makes a step. -/
theorem proceed_spec (objects : Objects d) (known : d.cleared = false → Registered d)
    (proceeded : d.proceed pointer = some outcome) :
    ∃ next, outcome = .ok next ∧ Proceeds d next pointer := by
  obtain ⟨worker, found, ran⟩ := bind_eq_some_iff.mp proceeded
  have flag := objects.flags worker (mem_of_getElem? found)
  cases at_ : worker.phase with
  | registered | finished =>
    rw [at_] at ran
    cases ran
  | handling =>
    rw [at_] at ran flag
    cases ran
    refine ⟨_, rfl, objects.go found rfl flag (by rw [at_]; rfl), fun open_ => ?_, ⟨rfl, rfl, rfl⟩,
      fun _ => Iff.rfl, ⟨worker, _, found, rfl, rfl, rfl, rfl, by simp [at_], by simp [Worker.HasReturned]⟩,
      fun _ => ⟨rfl, rfl⟩⟩
    exact (known open_).store found rfl rfl fun _ => by rw [at_]; rfl
  | returned =>
    rw [at_] at ran flag
    obtain ⟨count, group⟩ := done_spec objects found at_
    simp only [done, group, Outcome.ok_bind, Outcome.pure_eq, some.injEq] at ran
    subst ran
    refine ⟨_, rfl, objects.storeGroup found rfl flag group (by simp [at_, Phase.counts]),
      fun open_ => ?_, ⟨rfl, rfl, rfl⟩, get_set_none_iff group count,
      ⟨worker, _, found, rfl, rfl, rfl, rfl, by simp [at_], by simp [Worker.HasReturned]⟩,
      fun _ => ⟨rfl, rfl⟩⟩
    have moved : Registered (d.store pointer { worker with phase := .released }) :=
      (known open_).store found rfl rfl fun _ => by rw [at_]; rfl
    exact { moved with }
  | released =>
    rw [at_] at ran flag
    cases ran
    have moved : Objects (d.store pointer { worker with phase := .cleaned }) :=
      objects.go found rfl flag (by rw [at_]; rfl)
    refine ⟨_, rfl, ?_⟩
    unfold cleanupWorker
    split
    · refine ⟨moved, fun open_ => ?_, ⟨rfl, rfl, rfl⟩, fun _ => Iff.rfl,
        ⟨worker, _, found, rfl, rfl, rfl, rfl, by simp [at_], by simp [Worker.HasReturned]⟩,
        fun _ => ⟨rfl, rfl⟩⟩
      exact (known open_).store found rfl rfl fun kept => by cases kept
    · rename_i runs
      refine ⟨{ moved with }, fun open_ => ?_, ⟨rfl, rfl, rfl⟩, fun _ => Iff.rfl,
        ⟨worker, _, found, rfl, rfl, rfl, rfl, by simp [at_], by simp [Worker.HasReturned]⟩,
        fun stopped => absurd stopped runs⟩
      exact (known open_).remove found (by rw [at_]; rfl) rfl rfl rfl rfl rfl
  | cleaned =>
    rw [at_] at ran
    cases ran
    refine ⟨_, rfl, objects.go found rfl rfl (by rw [at_]; rfl), fun open_ => ?_, ⟨rfl, rfl, rfl⟩,
      fun _ => Iff.rfl, ⟨worker, _, found, rfl, rfl, rfl, rfl, by simp [at_], by simp [Worker.HasReturned]⟩,
      fun _ => ⟨rfl, rfl⟩⟩
    exact (known open_).store found rfl rfl fun kept => by cases kept

end HiveGo.OrderedDaemon
