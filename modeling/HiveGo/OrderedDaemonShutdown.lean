import HiveGo.OrderedDaemonWorkers
import Mathlib.Data.List.Sort

/-! The shutdown of the daemon. Of the handlers that have not returned, none has a higher order
than the previous priority, and those with a lower one are still to be visited. -/
namespace HiveGo.OrderedDaemon
open List Option OrderedDaemon Shutdown

/-- The handlers that have not returned when the loop has still to visit the given names. -/
structure Left (d : OrderedDaemon) (prevPriority : Int) (names : List String) : Prop where
  above : ∀ worker ∈ d.heap, worker.phase = .handling → worker.shutdownOrder ≤ prevPriority
  below : ∀ worker ∈ d.heap, worker.phase = .handling → worker.shutdownOrder < prevPriority →
    worker.name ∈ names

/-- The loop goes over what the daemon still has. -/
structure Visits (d : OrderedDaemon) (workers : ShrinkingMap String Nat) (prevPriority : Int)
    (names : List String) : Prop where
  same : workers = d.workers
  suffix : names <:+ d.shutdownOrderWorker
  bound : ∀ name ∈ names, d.shutdownOrder name ≤ prevPriority
  group : d.wgPerSameShutdownOrder.get prevPriority ≠ none

/-- What is known at each place of the shutdown. -/
def Loop (d : OrderedDaemon) : Shutdown → Prop
  | .idle | .stopping | .snapshotting => True
  | .visiting workers prevPriority names =>
    Visits d workers prevPriority names ∧ Left d prevPriority names
  | .waiting workers prevPriority pointer shutdownOrder names =>
    ∃ name, Visits d workers prevPriority (name :: names) ∧ Left d prevPriority (name :: names) ∧
      d.workers.get name = some pointer ∧ d.shutdownOrder name = shutdownOrder
  | .cancelling workers prevPriority pointer names =>
    Visits d workers prevPriority names ∧ Left d prevPriority names ∧
      ∃ worker, d.heap[pointer]? = some worker ∧
        (worker.phase = .handling → worker.shutdownOrder = prevPriority)
  | .waitingLast prevPriority =>
    d.wgPerSameShutdownOrder.get prevPriority ≠ none ∧ Left d prevPriority []
  | .storing | .clearing | .returned => ∀ worker ∈ d.heap, worker.HasReturned

namespace Shutdown

def isIdle : Shutdown → Bool
  | idle => true
  | _ => false

/-- The daemon is stopped and still running. -/
def loops : Shutdown → Bool
  | idle | clearing | returned => false
  | _ => true

end Shutdown

structure Inv (s : State) : Prop where
  objects : Objects s.toOrderedDaemon
  registered : s.cleared = false → Registered s.toOrderedDaemon
  started : s.running = true → ∀ worker ∈ s.heap, worker.phase ≠ .registered
  fresh : s.running = false → s.stopped = false → ∀ worker ∈ s.heap, worker.phase = .registered
  stopped : s.stopped = !s.shutdown.isIdle
  up : s.shutdown.loops = true → s.running = true
  cleared : s.cleared = true → s.shutdown = .returned
  loop : Loop s.toOrderedDaemon s.shutdown
  calm : s.panicked = false

variable {pointer : Nat}
variable {workers : ShrinkingMap String Nat}

/-- A worker that is not cleaned up has its order under its name. -/
theorem Registered.shutdownOrder_eq (known : Registered d) (found : d.heap[pointer]? = some worker)
    (kept : worker.phase.kept = true) : d.shutdownOrder worker.name = worker.shutdownOrder := by
  have there := known.kept pointer worker found kept
  simp [shutdownOrder, lookup, there, found]

/-- An empty wait group: all handlers of its order have returned. -/
theorem Objects.returned (objects : Objects d) (empty : d.wgPerSameShutdownOrder.get order = some 0)
    (mem : worker ∈ d.heap) (handling : worker.phase = .handling) :
    worker.shutdownOrder ≠ order := by
  rintro rfl
  have zero := objects.counts _ _ empty
  have counted := countP_eq_zero.mp zero.symm worker mem
  simp [Worker.countsFor, handling, Phase.counts] at counted

section Proceed

variable {after : OrderedDaemon}

variable (proceeds : Proceeds d after pointer)
include proceeds

theorem Proceeds.handling (mem : worker ∈ after.heap)
    (handling : worker.phase = .handling) : worker ∈ d.heap := by
  obtain ⟨_, _, -, heap, -, -, -, -, done⟩ := proceeds.moves
  rw [heap] at mem
  rcases mem_or_eq_of_mem_set mem with before | rfl
  · exact before
  · exact absurd handling done.2

theorem Proceeds.hasReturned
    (all : ∀ worker ∈ d.heap, worker.HasReturned) : ∀ worker ∈ after.heap, worker.HasReturned := by
  obtain ⟨_, _, -, heap, -, -, -, -, done⟩ := proceeds.moves
  intro worker mem
  rw [heap] at mem
  rcases mem_or_eq_of_mem_set mem with before | rfl
  · exact all worker before
  · exact done

theorem Proceeds.left
    (left : Left d prevPriority names) : Left after prevPriority names where
  above worker mem handling := left.above worker (proceeds.handling mem handling) handling
  below worker mem handling := left.below worker (proceeds.handling mem handling) handling

theorem Proceeds.shutdownOrder (stopped : d.stopped = true)
    (name : String) : after.shutdownOrder name = d.shutdownOrder name := by
  obtain ⟨worker, moved, found, heap, -, order, -, -, -⟩ := proceeds.moves
  have same : after.lookup name = (d.store pointer moved).lookup name := by
    unfold lookup OrderedDaemon.store
    rw [heap, (proceeds.stays stopped).1]
  rw [OrderedDaemon.shutdownOrder, same, ← OrderedDaemon.shutdownOrder, shutdownOrder_store found order]

theorem Proceeds.visits (stopped : d.stopped = true)
    (visits : Visits d workers prevPriority names) : Visits after workers prevPriority names := by
  obtain ⟨same, list⟩ := proceeds.stays stopped
  refine ⟨visits.same.trans same.symm, list ▸ visits.suffix, fun name mem => ?_,
    (proceeds.groups prevPriority).not.mpr visits.group⟩
  rw [proceeds.shutdownOrder stopped]
  exact visits.bound name mem

/-- The shutdown does not depend on what the goroutines do meanwhile. -/
theorem Proceeds.loop
    (stopped : shutdown.isIdle = false → d.stopped = true) (loop : Loop d shutdown) :
    Loop after shutdown := by
  cases shutdown with
  | idle | stopping | snapshotting => trivial
  | visiting workers prevPriority names =>
    exact ⟨proceeds.visits (stopped rfl) loop.1, proceeds.left loop.2⟩
  | waiting workers prevPriority target order names =>
    obtain ⟨name, visits, left, there, own⟩ := loop
    refine ⟨name, proceeds.visits (stopped rfl) visits, proceeds.left left, ?_, ?_⟩
    · rw [(proceeds.stays (stopped rfl)).1]
      exact there
    · rw [proceeds.shutdownOrder (stopped rfl)]
      exact own
  | cancelling workers prevPriority target names =>
    obtain ⟨visits, left, worker, found, own⟩ := loop
    refine ⟨proceeds.visits (stopped rfl) visits, proceeds.left left, ?_⟩
    obtain ⟨pre, moved, found', heap, -, -, -, -, returned⟩ := proceeds.moves
    have valid := (List.getElem?_eq_some_iff.mp found').1
    rw [heap]
    by_cases same : pointer = target
    · subst same
      exact ⟨moved, getElem?_set_self valid, fun handling => absurd handling returned.2⟩
    · exact ⟨worker, by rw [getElem?_set_ne same, found], own⟩
  | waitingLast prevPriority =>
    exact ⟨(proceeds.groups prevPriority).not.mpr loop.1, proceeds.left loop.2⟩
  | storing | clearing | returned => exact proceeds.hasReturned loop

end Proceed

variable {next : State}

theorem inv_proceed (inv : Inv s) (proceeded : s.toOrderedDaemon.proceed pointer = some outcome) :
    Inv (s.after outcome) := by
  obtain ⟨after, rfl, proceeds⟩ := proceed_spec inv.objects inv.registered proceeded
  have stopped : s.shutdown.isIdle = false → s.stopped = true := by
    intro busy
    rw [inv.stopped, busy]
    rfl
  obtain ⟨worker, moved, found, heap, -, -, -, waited, done⟩ := proceeds.moves
  refine ⟨proceeds.objects, proceeds.registered, fun runs other mem => ?_,
    fun runs open_ => ?_, proceeds.flags.stopped.trans inv.stopped,
    fun loops => proceeds.flags.running.trans (inv.up loops),
    fun cleared => inv.cleared (proceeds.flags.cleared ▸ cleared), proceeds.loop stopped inv.loop, inv.calm⟩
  · simp only [State.after, heap] at mem
    rcases mem_or_eq_of_mem_set mem with before | rfl
    · exact inv.started (proceeds.flags.running ▸ runs) other before
    · exact done.1
  · have phase := inv.fresh (proceeds.flags.running ▸ runs) (proceeds.flags.stopped ▸ open_) worker
      (mem_of_getElem? found)
    exact absurd phase waited

/-! Calls before the shutdown. -/

theorem Inv.uncleared (inv : Inv s) (pre : s.shutdown ≠ .returned) : s.cleared = false :=
  Bool.eq_false_iff.mpr fun cleared => pre (inv.cleared cleared)

theorem Inv.open (inv : Inv s) (idle : s.shutdown = .idle) :
    s.stopped = false ∧ s.cleared = false := by
  have stopped := inv.stopped
  rw [idle] at stopped
  exact ⟨stopped, inv.uncleared (by rw [idle]; simp)⟩

/-- Calls do not touch the shutdown. -/
theorem Inv.calls (inv : Inv s) (calls : List Call) : Inv { s with calls } := { inv with }

theorem inv_backgroundWorker (inv : Inv s) (idle : s.shutdown = .idle) (name : String) :
    Inv (s.after (s.toOrderedDaemon.backgroundWorker sorting name order)) := by
  obtain ⟨unstopped, open_⟩ := inv.open idle
  have starts : Starts s.toOrderedDaemon := ⟨inv.started, fun runs => inv.fresh runs unstopped⟩
  obtain ⟨error, failed⟩ | ⟨after, added, objects, known, flags, starts⟩ :=
    backgroundWorker_spec inv.objects (inv.registered open_) open_ starts
  · rw [failed]
    exact inv
  · rw [added]
    refine ⟨objects, fun _ => known, starts.started, fun runs _ => starts.fresh runs,
      flags.stopped.trans inv.stopped, fun loops => ?_, fun cleared => ?_, ?_, inv.calm⟩
    · exact flags.running.trans (inv.up loops)
    · exact inv.cleared (flags.cleared ▸ cleared)
    · simp only [State.after, idle]
      trivial

theorem inv_start (inv : Inv s) (idle : s.shutdown = .idle) :
    Inv (s.after (s.toOrderedDaemon.start iteration)) := by
  obtain ⟨unstopped, open_⟩ := inv.open idle
  have starts : Starts s.toOrderedDaemon := ⟨inv.started, fun runs => inv.fresh runs unstopped⟩
  obtain ⟨after, ran, objects, known, runs, stopped, cleared, started⟩ :=
    start_spec inv.objects (inv.registered open_) starts
  rw [ran]
  refine ⟨objects, fun _ => known, fun _ => started, fun never => ?_, stopped.trans inv.stopped,
    fun _ => runs, fun gone => inv.cleared (cleared ▸ gone), ?_, inv.calm⟩
  · exact absurd (runs.symm.trans never) (by simp)
  · simp only [State.after, idle]
    trivial

/-! The steps of the shutdown. -/

theorem Inv.looping (inv : Inv s) (loops : s.shutdown.loops = true) :
    s.stopped = true ∧ s.running = true ∧ s.cleared = false := by
  refine ⟨?_, inv.up loops, inv.uncleared fun done => ?_⟩
  · rw [inv.stopped]
    cases at_ : s.shutdown with
    | idle => simp [at_, Shutdown.loops] at loops
    | _ => rfl
  · simp [done, Shutdown.loops] at loops

/-- The shutdown goes on without touching the daemon. -/
theorem Inv.goOn (inv : Inv s) (loops : s.shutdown.loops = true) (still : shutdown.isIdle = false)
    (loop : Loop s.toOrderedDaemon shutdown) : Inv (s.goOn shutdown) := by
  obtain ⟨stopped, up, open_⟩ := inv.looping loops
  refine { inv with stopped := ?_, up := fun _ => up, cleared := fun cleared => ?_, loop := loop }
  · simp [State.goOn, still, stopped]
  · exact absurd (open_.symm.trans cleared) (by simp)

/-- The first priority is the highest one. -/
theorem Registered.left (known : Registered d) (list : d.shutdownOrderWorker = first :: names) :
    (∀ name ∈ first :: names, d.shutdownOrder name ≤ d.shutdownOrder first) ∧
      Left d (d.shutdownOrder first) (first :: names) := by
  have bound : ∀ name ∈ first :: names, d.shutdownOrder name ≤ d.shutdownOrder first := by
    have sorted := known.sorted
    rw [list] at sorted
    intro name mem
    rcases mem_cons.mp mem with rfl | later
    · exact Int.le_refl _
    · exact rel_of_pairwise_cons sorted later
  have listed : ∀ worker ∈ d.heap, worker.phase = .handling →
      worker.name ∈ first :: names ∧ d.shutdownOrder worker.name = worker.shutdownOrder := by
    intro worker mem handling
    obtain ⟨pointer, found⟩ := mem_iff_getElem?.mp mem
    have kept : worker.phase.kept = true := by
      rw [handling]
      rfl
    refine ⟨?_, known.shutdownOrder_eq found kept⟩
    rw [← list, known.listed, known.kept pointer worker found kept]
    simp
  refine ⟨bound, fun worker mem handling => ?_, fun worker mem handling _ => ?_⟩
  · obtain ⟨inside, own⟩ := listed worker mem handling
    exact own ▸ bound worker.name inside
  · exact (listed worker mem handling).1

/-- The worker behind a name that the loop visits. -/
theorem Visits.found (registered : Registered d)
    (visits : Visits d workers prevPriority (name :: names)) :
    ∃ pointer worker, d.workers.get name = some pointer ∧ d.heap[pointer]? = some worker ∧
      worker.name = name ∧ d.shutdownOrder name = worker.shutdownOrder := by
  have known := (registered.listed name).mp (visits.suffix.subset mem_cons_self)
  obtain ⟨pointer, there⟩ := ne_none_iff_exists'.mp known
  obtain ⟨worker, found, named⟩ := registered.named name pointer there
  exact ⟨pointer, worker, there, found, named, by simp [shutdownOrder, lookup, there, found]⟩

theorem Visits.tail (visits : Visits d workers prevPriority (name :: names)) :
    Visits d workers prevPriority names where
  same := visits.same
  suffix := (suffix_cons name names).trans visits.suffix
  bound other mem := visits.bound other (mem_cons_of_mem _ mem)
  group := visits.group

section

variable (known : Registered d) (left : Left d prevPriority (name :: names))
  (there : d.workers.get name = some pointer) (found : d.heap[pointer]? = some worker)
include known left there found

/-- A worker that is visited is done with if it has the previous priority or has returned. -/
theorem Left.tail (own : worker.phase = .handling → worker.shutdownOrder = prevPriority) :
    Left d prevPriority names where
  above := left.above
  below other mem handling lower := by
    rcases mem_cons.mp (left.below other mem handling lower) with same | later
    · obtain ⟨target, found'⟩ := mem_iff_getElem?.mp mem
      have here := known.kept target other found' (by rw [handling]; rfl)
      rw [same, there] at here
      cases here
      cases found.symm.trans found'
      rw [own handling] at lower
      exact absurd lower (Int.lt_irrefl _)
    · exact later

/-- The handlers of the previous priority have returned, and the next one is lower. -/
theorem Left.lower (objects : Objects d) (visits : Visits d workers prevPriority (name :: names))
    (empty : d.wgPerSameShutdownOrder.get prevPriority = some 0) :
    Visits d workers (d.shutdownOrder name) names ∧ Left d (d.shutdownOrder name) names := by
  have own : d.shutdownOrder name = worker.shutdownOrder := by
    simp [shutdownOrder, lookup, there, found]
  have bound : ∀ other ∈ names, d.shutdownOrder other ≤ d.shutdownOrder name := by
    intro other mem
    exact rel_of_pairwise_cons (known.sorted.sublist visits.suffix.sublist) mem
  have visited : ∀ other ∈ d.heap, other.phase = .handling →
      other.name ∈ name :: names ∧ d.shutdownOrder other.name = other.shutdownOrder := by
    intro other mem handling
    obtain ⟨target, found'⟩ := mem_iff_getElem?.mp mem
    have order := known.shutdownOrder_eq found' (by rw [handling]; rfl)
    have lower := Int.lt_iff_le_and_ne.mpr
      ⟨left.above other mem handling, objects.returned empty mem handling⟩
    exact ⟨left.below other mem handling lower, order⟩
  refine ⟨⟨visits.same, visits.tail.suffix, bound, ?_⟩, fun other mem handling => ?_,
    fun other mem handling lower => ?_⟩
  · rw [own]
    exact objects.groups worker (mem_of_getElem? found)
  · obtain ⟨inside, order⟩ := visited other mem handling
    rcases mem_cons.mp inside with same | later
    · exact Int.le_of_eq (order.symm.trans (congrArg d.shutdownOrder same))
    · exact order ▸ bound other.name later
  · obtain ⟨inside, order⟩ := visited other mem handling
    rcases mem_cons.mp inside with same | later
    · rw [← order, same] at lower
      exact absurd lower (Int.lt_irrefl _)
    · exact later

end

theorem Inv.loop_at (inv : Inv s) (at_ : s.shutdown = shutdown) : Loop s.toOrderedDaemon shutdown :=
  at_ ▸ inv.loop

section

variable (inv : Inv s) (ran : stopWorkers s = some next)
include inv ran

theorem inv_visit (at_ : s.shutdown = .visiting workers prevPriority names) : Inv next := by
  have loops : s.shutdown.loops = true := by rw [at_]; rfl
  have known := inv.registered (inv.looping loops).2.2
  obtain ⟨visits, left⟩ := inv.loop_at at_
  cases names with
  | nil =>
    simp only [stopWorkers, at_, some.injEq] at ran
    subst ran
    exact inv.goOn loops rfl ⟨visits.group, left⟩
  | cons name names =>
    obtain ⟨pointer, worker, there, found, named, own⟩ := visits.found known
    have mem := mem_of_getElem? found
    simp only [stopWorkers, at_, visits.same, there, found] at ran
    split at ran
    · rename_i idle
      cases ran
      have done : worker.phase ≠ .handling := by
        intro handling
        have flag := inv.objects.flags worker mem
        rw [handling] at flag
        simp [flag, Phase.runs] at idle
      refine inv.goOn loops rfl ⟨visits.same ▸ visits.tail, left.tail known there found ?_,
        worker, found, ?_⟩
      all_goals exact fun handling => absurd handling done
    · split at ran
      · cases ran
        exact inv.goOn loops rfl ⟨name, visits.same ▸ visits, left, there, own⟩
      · cases ran
        have same : worker.shutdownOrder = prevPriority := by
          have bound := visits.bound name mem_cons_self
          omega
        exact inv.goOn loops rfl ⟨visits.same ▸ visits.tail,
          left.tail known there found fun _ => same, worker, found, fun _ => same⟩

theorem inv_wait (at_ : s.shutdown = .waiting workers prevPriority target order names) : Inv next := by
  have loops : s.shutdown.loops = true := by rw [at_]; rfl
  have known := inv.registered (inv.looping loops).2.2
  obtain ⟨name, visits, left, there, rfl⟩ := inv.loop_at at_
  obtain ⟨pointer, worker, here, found, -, own⟩ := visits.found known
  cases here.symm.trans there
  obtain ⟨count, group⟩ := ne_none_iff_exists'.mp visits.group
  simp only [stopWorkers, at_, group] at ran
  cases count with
  | zero =>
    cases ran
    obtain ⟨visits', left'⟩ := left.lower known there found inv.objects visits group
    exact inv.goOn loops rfl ⟨visits', left', worker, found, fun _ => own.symm⟩
  | succ count => cases ran

/-- The context of a worker is cancelled. -/
theorem inv_cancel (at_ : s.shutdown = .cancelling workers prevPriority target names) : Inv next := by
  obtain ⟨stopped, up, open_⟩ := inv.looping (by rw [at_]; rfl)
  obtain ⟨visits, left, worker, found, -⟩ := inv.loop_at at_
  have mem := mem_of_getElem? found
  simp only [stopWorkers, at_, found] at ran
  cases ran
  have same : ∀ other ∈ (s.toOrderedDaemon.store target { worker with cancelled := true }).heap,
      ∃ pre ∈ s.heap, pre.phase = other.phase ∧ pre.shutdownOrder = other.shutdownOrder ∧
        pre.name = other.name := by
    intro other inside
    rcases mem_store inside with rfl | pre
    · exact ⟨worker, mem, rfl, rfl, rfl⟩
    · exact ⟨other, pre, rfl, rfl, rfl⟩
  have orders : ∀ name, (s.toOrderedDaemon.store target { worker with cancelled :=
      true }).shutdownOrder name =
      s.shutdownOrder name :=
    shutdownOrder_store found rfl
  refine ⟨inv.objects.go found rfl (inv.objects.flags worker mem) rfl,
    fun _ => (inv.registered open_).store found rfl rfl id, fun runs other inside => ?_,
    fun runs unstopped => ?_, stopped, fun _ => up, fun cleared => ?_,
    ⟨⟨visits.same, visits.suffix, fun name inside => ?_, visits.group⟩, fun other inside handling => ?_,
      fun other inside handling lower => ?_⟩, inv.calm⟩
  · obtain ⟨pre, there, phase, -⟩ := same other inside
    exact phase ▸ inv.started runs pre there
  · exact absurd (stopped.symm.trans unstopped) (by simp)
  · exact absurd (open_.symm.trans cleared) (by simp)
  · rw [State.goOn, orders]
    exact visits.bound name inside
  · obtain ⟨pre, there, phase, order, -⟩ := same other inside
    exact order ▸ left.above pre there (phase.trans handling)
  · obtain ⟨pre, there, phase, order, name⟩ := same other inside
    exact name ▸ left.below pre there (phase.trans handling) (order ▸ lower)

theorem inv_snapshot (at_ : s.shutdown = .snapshotting) : Inv next := by
  have loops : s.shutdown.loops = true := by rw [at_]; rfl
  have registered := inv.registered (inv.looping loops).2.2
  cases list : s.shutdownOrderWorker with
  | nil =>
    simp only [stopWorkers, at_, list] at ran
    cases ran
    refine inv.goOn loops rfl fun worker mem => ⟨inv.started (inv.up loops) worker mem, fun handling => ?_⟩
    obtain ⟨pointer, found⟩ := mem_iff_getElem?.mp mem
    have there := registered.kept pointer worker found (by rw [handling]; rfl)
    have listed := (registered.listed worker.name).mpr (by rw [there]; simp)
    rw [list] at listed
    cases listed
  | cons first names =>
    obtain ⟨bound, left⟩ := registered.left list
    have known := (registered.listed first).mp (by rw [list]; exact mem_cons_self)
    obtain ⟨pointer, there⟩ := ne_none_iff_exists'.mp known
    obtain ⟨worker, found, -⟩ := registered.named first pointer there
    have own : s.shutdownOrder first = worker.shutdownOrder := by
      simp [shutdownOrder, lookup, there, found]
    have looked : s.lookup first = some worker := by simp [lookup, there, found]
    simp only [stopWorkers, at_, list, looked] at ran
    cases ran
    rw [own] at bound left
    refine inv.goOn loops rfl ⟨⟨rfl, list ▸ suffix_refl _, bound, ?_⟩, left⟩
    exact inv.objects.groups worker (mem_of_getElem? found)

theorem inv_waitLast (at_ : s.shutdown = .waitingLast prevPriority) : Inv next := by
  have loops : s.shutdown.loops = true := by rw [at_]; rfl
  obtain ⟨known, left⟩ := inv.loop_at at_
  obtain ⟨count, group⟩ := ne_none_iff_exists'.mp known
  simp only [stopWorkers, at_, group] at ran
  cases count with
  | zero =>
    cases ran
    refine inv.goOn loops rfl fun worker mem => ⟨inv.started (inv.up loops) worker mem, fun handling => ?_⟩
    have apart := inv.objects.returned group mem handling
    have bound := left.above worker mem handling
    have missing := left.below worker mem handling (by omega)
    cases missing
  | succ count => cases ran

theorem inv_shutdown (begun : s.shutdown.isIdle = true → s.running = true) : Inv next := by
  have stopped := inv.stopped
  have loop := inv.loop
  cases at_ : s.shutdown with
  | idle =>
    have up := begun (by rw [at_]; rfl)
    have open_ := inv.uncleared (by rw [at_]; simp)
    simp only [stopWorkers, at_] at ran
    cases ran
    refine ⟨{ inv.objects with }, fun _ => { inv.registered open_ with }, inv.started,
      fun never => ?_, rfl, fun _ => up, fun cleared => ?_, trivial, inv.calm⟩
    · exact absurd (up.symm.trans never) (by simp)
    · exact absurd (open_.symm.trans cleared) (by simp)
  | stopping =>
    have loops : s.shutdown.loops = true := by rw [at_]; rfl
    simp only [stopWorkers, at_, inv.up loops, if_true] at ran
    cases ran
    exact inv.goOn loops rfl trivial
  | snapshotting => exact inv_snapshot inv ran at_
  | visiting workers prevPriority names => exact inv_visit inv ran at_
  | waiting workers prevPriority target order names => exact inv_wait inv ran at_
  | cancelling workers prevPriority target names => exact inv_cancel inv ran at_
  | waitingLast prevPriority => exact inv_waitLast inv ran at_
  | storing =>
    have open_ := inv.uncleared (by rw [at_]; simp)
    simp only [stopWorkers, at_] at ran
    cases ran
    rw [at_] at loop stopped
    refine ⟨{ inv.objects with }, fun _ => { inv.registered open_ with }, by simp [State.goOn],
      fun _ unstopped => ?_, stopped, by simp [State.goOn, loops], fun cleared => ?_, loop, inv.calm⟩
    · exact absurd (stopped.symm.trans unstopped) (by simp [isIdle])
    · exact absurd (open_.symm.trans cleared) (by simp)
  | clearing =>
    simp only [stopWorkers, at_] at ran
    cases ran
    rw [at_] at loop stopped
    exact ⟨{ inv.objects with }, by simp [State.goOn, clear],
      inv.started, inv.fresh, stopped, by simp [State.goOn, loops], fun _ => rfl, loop, inv.calm⟩
  | returned =>
    simp only [stopWorkers, at_] at ran
    cases ran

end

/-- The daemon has been started when the shutdown begins, and no call of `BackgroundWorker` or
`Start` is in progress then or comes later. -/
def Quiet (s : State) : Event → Prop
  | .call _ | .backgroundWorker _ _ _ | .start _ => s.shutdown.isIdle = true
  | .shutdown => s.shutdown.isIdle = true → s.running = true ∧ s.calls = []
  | .proceed _ => True

instance (s : State) : (event : Event) → Decidable (Quiet s event)
  | .call _ | .backgroundWorker _ _ _ | .start _ =>
    inferInstanceAs (Decidable (s.shutdown.isIdle = true))
  | .shutdown =>
    inferInstanceAs (Decidable (s.shutdown.isIdle = true → s.running = true ∧ s.calls = []))
  | .proceed _ => .isTrue trivial

theorem Shutdown.eq_idle {shutdown : Shutdown} (idle : shutdown.isIdle = true) : shutdown = .idle := by
  cases shutdown with
  | idle => rfl
  | _ => cases idle

theorem inv_step (inv : Inv s) (quiet : Quiet s event)
    (ran : step s event = some next) : Inv next := by
  have calm : ¬ s.panicked = true := by simp [inv.calm]
  unfold step at ran
  rw [if_neg calm] at ran
  cases event with
  | call call =>
    cases ran
    split
    · exact inv
    · exact inv.calls _
  | backgroundWorker name order sorting =>
    dsimp only at ran
    split at ran
    · cases ran
      exact inv_backgroundWorker (inv.calls (s.calls.erase _)) (eq_idle quiet) name
    · cases ran
  | start iteration =>
    dsimp only at ran
    split at ran
    · cases ran
      exact inv_start (inv.calls (s.calls.erase _)) (eq_idle quiet)
    · cases ran
  | proceed pointer =>
    obtain ⟨outcome, proceeded, rfl⟩ := map_eq_some_iff.mp ran
    exact inv_proceed inv proceeded
  | shutdown => exact inv_shutdown inv ran fun idle => (quiet idle).1

theorem inv_new : Inv .new where
  objects := ⟨by simp [State.new, new], by simp [State.new, new], by simp [State.new, new]⟩
  registered _ := ⟨by simp [State.new, new], by simp [State.new, new], by simp [State.new, new],
    nodup_nil, List.Pairwise.nil⟩
  started := by simp [State.new, new]
  fresh := by simp [State.new, new]
  stopped := rfl
  up := by simp [State.new, loops]
  cleared := by simp [State.new, new]
  loop := trivial
  calm := rfl

/-- A step cancels the context of a worker. -/
def Cancels (s next : State) (pointer : Nat) : Prop :=
  ∃ before after, s.heap[pointer]? = some before ∧ next.heap[pointer]? = some after ∧
    before.cancelled = false ∧ after.cancelled = true

/-- The shutdown cancels a context in one place of its loop only. -/
theorem cancelling_of_cancels (ran : stopWorkers s = some next) (cancels : Cancels s next pointer) :
    ∃ workers prevPriority names, s.shutdown = .cancelling workers prevPriority pointer names := by
  obtain ⟨pre, after, found, found', uncancelled, cancelled⟩ := cancels
  have changed : next.heap ≠ s.heap := by
    intro same
    rw [same] at found'
    cases found.symm.trans found'
    rw [uncancelled] at cancelled
    cases cancelled
  cases at_ : s.shutdown with
  | cancelling workers prevPriority target names =>
    simp only [stopWorkers, at_] at ran
    split at ran
    · cases ran
      exact absurd rfl changed
    · rename_i worker here
      cases ran
      by_cases same : target = pointer
      · exact ⟨workers, prevPriority, names, by rw [same]⟩
      · simp only [State.goOn, get_store here, if_neg same] at found'
        cases found.symm.trans found'
        rw [uncancelled] at cancelled
        cases cancelled
  | visiting workers prevPriority names =>
    cases names
    all_goals
      simp only [stopWorkers, at_] at ran
      repeat' split at ran
    all_goals
      cases ran
      exact absurd rfl changed
  | _ =>
    simp only [stopWorkers, at_] at ran
    repeat' split at ran
    all_goals cases ran
    all_goals exact absurd rfl changed

/-- In every interleaving with the goroutines of the workers, the shutdown cancels the context of
a worker whose handler has not returned only when all handlers with a higher order have, and when
it returns all handlers have. -/
theorem shutdown_in_order (events : List Event) (quiet : Along step Quiet .new events)
    (ran : run step .new events = some s) :
    (∀ next pointer worker, step s .shutdown = some next → Cancels s next pointer →
      s.heap[pointer]? = some worker → worker.phase = .handling →
      ∀ other ∈ s.heap, worker.shutdownOrder < other.shutdownOrder → other.HasReturned) ∧
    (s.shutdown = .returned → ∀ worker ∈ s.heap, worker.HasReturned) := by
  have inv := run_invariant_along (fun _ _ _ => inv_step) inv_new quiet ran
  refine ⟨fun next pointer worker stepped cancels found handling other mem higher => ?_, fun done => ?_⟩
  · rw [step, inv.calm, if_neg Bool.false_ne_true] at stepped
    obtain ⟨workers, prevPriority, names, at_⟩ := cancelling_of_cancels stepped cancels
    have loop := inv.loop
    rw [at_] at loop
    obtain ⟨-, left, here, found', own⟩ := loop
    cases found.symm.trans found'
    have same := own handling
    refine ⟨inv.started (inv.up (by rw [at_]; rfl)) other mem, fun still => ?_⟩
    have bound := left.above other mem still
    omega
  · have loop := inv.loop
    rw [done] at loop
    exact loop

/-- A way to sort. -/
def insertionSorting : Sorting where
  sort key := List.insertionSort fun first second => key second ≤ key first
  perm _ := perm_insertionSort _
  sorted key :=
    have : Std.Total fun first second : String => key second ≤ key first :=
      ⟨fun first second => Int.le_total (key second) (key first)⟩
    have : IsTrans String fun first second => key second ≤ key first :=
      ⟨fun _ _ _ low lower => Int.le_trans lower low⟩
    pairwise_insertionSort _

def inOrder : Iteration String := ⟨id, fun _ => List.Perm.refl _⟩

/-- Two workers: one returns on its own while the loop visits the other one. -/
def twoWorkers : List Event :=
  [.call (.backgroundWorker "database" [1]), .call (.backgroundWorker "peers" [2]), .call .start,
    .backgroundWorker "database" [1] insertionSorting, .backgroundWorker "peers" [2] insertionSorting,
    .start inOrder, .shutdown, .shutdown, .shutdown, .shutdown, .shutdown, .shutdown, .proceed 1, .proceed 1,
    .shutdown]

theorem twoWorkers_in_order :
    ∃ s next worker, run step .new twoWorkers = some s ∧ step s .shutdown = some next ∧
      Cancels s next 0 ∧ s.heap[0]? = some worker ∧ worker.phase = .handling ∧
      ∀ other ∈ s.heap, worker.shutdownOrder < other.shutdownOrder → other.HasReturned := by
  have reached : (run step .new twoWorkers).map (·.heap) =
      some [⟨"database", 1, true, false, .handling⟩, ⟨"peers", 2, true, true, .released⟩] :=
    rfl
  have cancelled : ((run step .new twoWorkers).bind (step · .shutdown)).map (·.heap) =
      some [⟨"database", 1, true, true, .handling⟩, ⟨"peers", 2, true, true, .released⟩] :=
    rfl
  obtain ⟨s, ran, heap⟩ := map_eq_some_iff.mp reached
  rw [ran, bind_some] at cancelled
  obtain ⟨next, stepped, after⟩ := map_eq_some_iff.mp cancelled
  have here : s.heap[0]? = some ⟨"database", 1, true, false, .handling⟩ := by rw [heap]; rfl
  have cancels : Cancels s next 0 := ⟨_, _, here, by rw [after]; rfl, rfl, rfl⟩
  have inOrder := (shutdown_in_order twoWorkers (by decide) ran).1
  exact ⟨s, next, _, ran, stepped, cancels, here, rfl, inOrder next 0 _ stepped cancels here rfl⟩

end HiveGo.OrderedDaemon
