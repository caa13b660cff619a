import HiveGo.WorkerPoolTasks

/-! Who waits for whom in the worker pool: what is known from where the dispatcher, `Shutdown`
and the workers are. -/
namespace HiveGo.WorkerPool
open Multiset Submit
open State (flatten)

namespace Shutdown

def holdsMutex : Shutdown → Bool
  | signalling _ | broadcasting | unlocking => true
  | _ => false

/-- How many signals are to be sent. -/
def left : Shutdown → Nat
  | signalling left => left
  | _ => 0

def hasBroadcast : Shutdown → Bool
  | unlocking | returned => true
  | _ => false

end Shutdown

namespace Dispatcher

/-- It has seen that the pool is not running. -/
def stopped : Dispatcher → Bool
  | testingSize | waitingZero | asleep | closing | exited => true
  | _ => false

/-- It has left its loop. -/
def left : Dispatcher → Bool
  | waitingZero | asleep | closing | exited => true
  | _ => false

theorem elementAdded_cases (dispatcher : Dispatcher) :
    dispatcher ≠ waiting ∧ dispatcher.elementAdded = dispatcher ∨
      dispatcher = waiting ∧ dispatcher.elementAdded = woken := by
  cases dispatcher <;> simp [elementAdded]

theorem valueDecreased_cases (dispatcher : Dispatcher) :
    dispatcher ≠ asleep ∧ dispatcher.valueDecreased = dispatcher ∨
      dispatcher = asleep ∧ dispatcher.valueDecreased = waitingZero := by
  cases dispatcher <;> simp [valueDecreased]

end Dispatcher

/-- The worker is in `handleShutdown` or behind it. -/
def Worker.drains : Worker → Bool
  | draining | exited | running .handleShutdown _ _ | marking .handleShutdown _
  | notifying .handleShutdown => true
  | _ => false

/-! `Shutdown`. -/

structure Gates (p : Pool) : Prop where
  mutex : p.mutex = p.shutdown.holdsMutex
  running : p.isRunning = true ↔ p.shutdown = .idle
  signals : p.shutdownSignal + p.shutdown.left ≤ p.workerCount
  unsignalled : p.isRunning = true → p.shutdownSignal = 0

theorem Gates.step (gates : Gates s.toPool) (ran : FlatStep s next) : Gates next.toPool := by
  have signals := gates.signals
  cases ran with
  | call => exact gates
  | submit rest runs submits =>
    cases submits with
    | _ => exact { gates with }
  | dispatch dispatches =>
    cases dispatches with
    | _ => exact { gates with }
  | shutdown shutsDown =>
    cases shutsDown with
    | stop at_ runs =>
      have calm := gates.unsignalled runs
      refine ⟨rfl, by simp, ?_, by simp⟩
      simp only [Shutdown.left]
      omega
    | skip at_ stopped =>
      have runs := gates.running.mpr at_
      rw [stopped] at runs
      cases runs
    | signalled at_ | broadcast at_ | unlock at_ =>
      have stopped : s.isRunning ≠ true := by
        intro runs
        have idle := gates.running.mp runs
        rw [at_] at idle
        cases idle
      refine ⟨by simp [Shutdown.holdsMutex, gates.mutex, at_], by simp [stopped], ?_, gates.unsignalled⟩
      simp only [Shutdown.left]
      omega
    | signal left at_ =>
      have stopped : s.isRunning ≠ true := by
        intro runs
        have idle := gates.running.mp runs
        rw [at_] at idle
        cases idle
      refine ⟨by simp [Shutdown.holdsMutex, gates.mutex, at_], by simp [stopped], ?_,
        fun runs => absurd runs stopped⟩
      simp only [at_, Shutdown.left] at signals ⊢
      omega
  | work rest runs works =>
    cases works with
    | signal worker at_ signalled =>
      refine ⟨gates.mutex, gates.running, ?_, fun runs => ?_⟩
      · simp only
        omega
      · have calm := gates.unsignalled runs
        omega
    | _ => exact { gates with }

/-! The dispatcher. -/

structure Dispatching (p : Pool) : Prop where
  removing : p.dispatcher = .removing → p.queue ≠ []
  starving : p.dispatcher = .askingRunning ∨ p.dispatcher = .enteringWait → p.queue = []
  stopped : p.dispatcher.stopped = true → p.isRunning = false
  closed : p.closed = true ↔ p.dispatcher = .exited

/-- The dispatcher is woken. -/
theorem Dispatching.elementAdded (dispatching : Dispatching p) :
    Dispatching { p with dispatcher := p.dispatcher.elementAdded } := by
  rcases p.dispatcher.elementAdded_cases with ⟨-, same⟩ | ⟨at_, woken⟩
  · rw [same]
    exact dispatching
  · rw [woken]
    exact ⟨by simp, by simp, by simp [Dispatcher.stopped], by simpa [at_] using dispatching.closed⟩

theorem Dispatching.valueDecreased (dispatching : Dispatching p) :
    Dispatching { p with dispatcher := p.dispatcher.valueDecreased } := by
  rcases p.dispatcher.valueDecreased_cases with ⟨-, same⟩ | ⟨at_, woken⟩
  · rw [same]
    exact dispatching
  · rw [woken]
    refine ⟨by simp, by simp, fun _ => dispatching.stopped ?_, by simpa [at_] using dispatching.closed⟩
    rw [at_]
    rfl

theorem Dispatching.dispatch (dispatching : Dispatching p) (dispatches : Dispatches p q) :
    Dispatching q := by
  have closed := dispatching.closed
  have stopped := dispatching.stopped
  cases dispatches with
  | lock at_ =>
    refine ⟨by simp, by simp, by simp [Dispatcher.stopped], ?_⟩
    rcases at_ with at_ | at_
    all_goals simpa [at_] using closed
  | stop at_ halted => exact ⟨by simp, by simp, fun _ => halted, by simpa [at_] using closed⟩
  | empty at_ none =>
    exact ⟨by simp, fun _ => none, by simp [Dispatcher.stopped], by simpa [at_] using closed⟩
  | found at_ some =>
    exact ⟨fun _ => some, by simp, by simp [Dispatcher.stopped], by simpa [at_] using closed⟩
  | await at_ =>
    exact ⟨by simp, fun _ => dispatching.starving (.inl at_), by simp [Dispatcher.stopped],
      by simpa [at_] using closed⟩
  | leave at_ | sleep at_ | zero at_ =>
    refine ⟨by simp, by simp, fun _ => stopped ?_, by simpa [at_] using closed⟩
    rw [at_]
    rfl
  | close at_ =>
    refine ⟨by simp, by simp, fun _ => stopped ?_, by simp⟩
    rw [at_]
    rfl
  | loop at_ | remain at_ | give_up at_ | wait at_ | remove at_ | send task at_ =>
    exact ⟨by simp, by simp, by simp [Dispatcher.stopped], by simpa [at_] using closed⟩

theorem Dispatching.step (dispatching : Dispatching s.toPool) (ran : FlatStep s next) :
    Dispatching next.toPool := by
  cases ran with
  | call => exact dispatching
  | submit rest runs submits =>
    cases submits with
    | push task free =>
      refine { dispatching with removing := by simp, starving := fun starving => ?_ }
      rcases starving with at_ | at_
      all_goals
        rw [at_] at free
        cases free
    | broadcast => exact dispatching.elementAdded
    | _ => exact { dispatching with }
  | dispatch dispatches => exact dispatching.dispatch dispatches
  | shutdown shutsDown =>
    cases shutsDown with
    | broadcast => exact { dispatching.elementAdded with }
    | stop => exact { dispatching with stopped := fun _ => rfl }
    | _ => exact { dispatching with }
  | work rest runs works =>
    cases works with
    | notify loop => exact dispatching.valueDecreased
    | _ => exact { dispatching with }

/-! The workers. -/

structure Workforce (s : State) : Prop where
  count : s.workers.card = s.workerCount
  exited : .exited ∈ s.workers → s.closed = true
  draining : ∀ worker ∈ s.workers, worker.drains = true → s.isRunning = false
  cancelled : s.isRunning = true → s.cancelled = []

/-- A step that leaves the workers alone. -/
theorem Workforce.rest (workforce : Workforce s) (count : pool.workerCount = s.workerCount)
    (closed : s.closed = true → pool.closed = true)
    (runs : pool.isRunning = true → s.isRunning = true)
    (cancelled : pool.cancelled = s.cancelled) : Workforce { s with toPool := pool } where
  count := workforce.count.trans count.symm
  exited mem := closed (workforce.exited mem)
  draining worker mem drains := by
    have stopped := workforce.draining worker mem drains
    refine Bool.eq_false_iff.mpr fun again => ?_
    rw [runs again] at stopped
    cases stopped
  cancelled again := cancelled.trans (workforce.cancelled (runs again))

/-- A worker goes on. -/
theorem Workforce.go {rest : Multiset Worker} (workforce : Workforce s)
    (runs : s.workers = worker ::ₘ rest) (exits : after = .exited → s.closed = true)
    (drains : after.drains = true → s.isRunning = false) (count : pool.workerCount = s.workerCount)
    (closed : pool.closed = s.closed) (isRunning : pool.isRunning = s.isRunning)
    (cancelled : s.isRunning = true → pool.cancelled = []) :
    Workforce { s with toPool := pool, workers := after ::ₘ rest } where
  count := by
    have pre := workforce.count
    rw [runs, card_cons] at pre
    simpa [count] using pre
  exited mem := by
    rw [closed]
    rcases mem_cons.mp mem with now | pre
    · exact exits now.symm
    · exact workforce.exited (runs ▸ mem_cons_of_mem pre)
  draining other mem := by
    rw [isRunning]
    rcases mem_cons.mp mem with rfl | pre
    · exact drains
    · exact workforce.draining other (runs ▸ mem_cons_of_mem pre)
  cancelled := by rwa [isRunning]

theorem Workforce.work {rest : Multiset Worker} (workforce : Workforce s) (gates : Gates s.toPool)
    (dispatching : Dispatching s.toPool) (runs : s.workers = worker ::ₘ rest)
    (works : Works s.toPool worker pool after) :
    Workforce { s with toPool := pool, workers := after ::ₘ rest } := by
  have cancelled := workforce.cancelled
  have same := workforce.draining worker (runs ▸ mem_cons_self worker rest)
  cases works with
  | signal worker at_ signalled =>
    have stopped : s.isRunning = false := by
      refine Bool.eq_false_iff.mpr fun runs => ?_
      exact signalled (gates.unsignalled runs)
    exact workforce.go runs (by simp) (fun _ => stopped) rfl rfl rfl cancelled
  | default | run =>
    exact workforce.go runs (by simp) (by simp [Worker.drains]) rfl rfl rfl cancelled
  | closed closed =>
    have stopped : s.dispatcher.stopped = true := by
      rw [dispatching.closed.mp closed]
      rfl
    exact workforce.go runs (by simp) (fun _ => dispatching.stopped stopped) rfl rfl rfl cancelled
  | cancel =>
    have stopped := same rfl
    exact workforce.go runs (by simp) same rfl rfl rfl (by simp [stopped])
  | exit closed => exact workforce.go runs (fun _ => closed) same rfl rfl rfl cancelled
  | drain => exact workforce.go runs (by simp) same rfl rfl rfl cancelled
  | finish loop | mark loop =>
    cases loop with
    | _ => exact workforce.go runs (by simp) same rfl rfl rfl cancelled
  | notify loop =>
    cases loop with
    | _ => exact workforce.go runs (by simp [Loop.next]) same rfl rfl rfl cancelled

theorem Workforce.step (workforce : Workforce s) (gates : Gates s.toPool)
    (dispatching : Dispatching s.toPool) (ran : FlatStep s next) : Workforce next := by
  cases ran with
  | call => exact { workforce with }
  | submit rest runs submits =>
    cases submits with
    | _ => exact { workforce with }
  | dispatch dispatches =>
    cases dispatches with
    | close => exact workforce.rest rfl (fun _ => rfl) id rfl
    | _ => exact workforce.rest rfl id id rfl
  | shutdown shutsDown =>
    cases shutsDown with
    | stop => exact workforce.rest rfl id (by simp) rfl
    | _ => exact workforce.rest rfl id id rfl
  | work rest runs works => exact workforce.work gates dispatching runs works

/-! The wake-ups. -/

/-- A dispatcher that waits for a task is woken by a call of `Submit` if there is one, and by the
broadcast of `Shutdown`. One that waits for the counter is woken when there are no pending
tasks. -/
structure Wakes (s : State) : Prop where
  added : s.dispatcher = .waiting → s.queue ≠ [] → .pushed ∈ s.calls
  awake : s.dispatcher = .enteringWait ∨ s.dispatcher = .waiting → s.shutdown.hasBroadcast = true →
      Unpushed s.calls ∨ s.dispatcher = .waiting ∧ .pushed ∈ s.calls
  left : s.dispatcher.left = true → s.queue = [] ∧ ¬ Unpushed s.calls
  decreased : s.dispatcher = .asleep →
    1 ≤ s.pendingTasksCounter ∨ ∃ loop, .notifying loop ∈ s.workers
  zero : s.dispatcher = .closing ∨ s.dispatcher = .exited → s.pendingTasksCounter ≤ 0

theorem unpushed_cons : Unpushed (call ::ₘ calls) ↔ call.unpushed = true ∨ Unpushed calls := by
  simp [Unpushed]

theorem Dispatcher.stopped_of_left {dispatcher : Dispatcher} (left : dispatcher.left = true) :
    dispatcher.stopped = true := by
  cases dispatcher with
  | waitingZero | asleep | closing | exited => rfl
  | _ => cases left

theorem Wakes.call (wakes : Wakes s) : Wakes { s with calls := .called ::ₘ s.calls } where
  added at_ some := mem_cons_of_mem (wakes.added at_ some)
  awake at_ broadcast := by
    refine (wakes.awake at_ broadcast).imp ?_ ?_
    · exact fun unpushed => unpushed_cons.mpr (.inr unpushed)
    · exact fun pushed => ⟨pushed.1, mem_cons_of_mem pushed.2⟩
  left at_ := by
    simpa [unpushed_cons, unpushed] using wakes.left at_
  decreased := wakes.decreased
  zero := wakes.zero

theorem Wakes.submit {call : Submit}
    (wakes : Wakes s) (dispatching : Dispatching s.toPool) (runs : s.calls = call ::ₘ rest)
    (submits : Submits s.toPool call pool after) :
    Wakes { s with toPool := pool, calls := Multiset.ofList after.toList + rest } := by
  have added := wakes.added
  have awake := wakes.awake
  have left := wakes.left
  rw [runs] at added awake left
  simp only [unpushed_cons, mem_cons] at added awake left
  cases submits with
  | accept free isRunning =>
    have never : s.dispatcher.left ≠ true := by
      intro left
      have stopped := dispatching.stopped (Dispatcher.stopped_of_left left)
      rw [isRunning] at stopped
      cases stopped
    refine { wakes with
      added := fun at_ some => ?_, awake := fun _ _ => .inl ?_, left := fun at_ => absurd at_ never }
    · simpa using added at_ some
    · simp [unpushed_cons, unpushed]
  | reject =>
    refine { wakes with
      added := fun at_ some => ?_, awake := fun at_ broadcast => ?_, left := fun at_ => ?_ }
    · simpa using added at_ some
    · simpa [unpushed] using awake at_ broadcast
    · simpa [unpushed] using left at_
  | increase task =>
    have never : s.dispatcher.left ≠ true := by
      intro at_
      exact (left at_).2 (.inl rfl)
    refine ⟨fun at_ some => ?_, fun _ _ => .inl ?_, fun at_ => absurd at_ never, fun at_ => ?_,
      fun at_ => absurd (by rcases at_ with at_ | at_ <;> rw [at_] <;> rfl) never⟩
    · simpa using added at_ some
    · simp [unpushed_cons, unpushed]
    · refine (wakes.decreased at_).imp (fun pending => ?_) id
      simp only
      omega
  | push task free =>
    have never : s.dispatcher.left ≠ true := by
      intro at_
      exact (left at_).2 (.inl rfl)
    refine { wakes with
      added := fun _ _ => by simp, awake := fun at_ _ => .inr ⟨?_, by simp⟩
      left := fun at_ => absurd at_ never }
    rcases at_ with entering | waiting
    · rw [entering] at free
      cases free
    · exact waiting
  | broadcast =>
    rcases s.dispatcher.elementAdded_cases with ⟨other, same⟩ | ⟨-, woken⟩
    · rw [same]
      refine { wakes with
        added := fun at_ => absurd at_ other, awake := fun at_ broadcast => ?_, left := fun at_ => ?_ }
      · simpa [unpushed, other] using awake at_ broadcast
      · simpa [unpushed] using left at_
    · rw [woken]
      exact ⟨by simp, by simp, by simp [Dispatcher.left], by simp, by simp⟩

theorem Wakes.dispatch (wakes : Wakes s) (gates : Gates s.toPool)
    (dispatching : Dispatching s.toPool) (dispatches : Dispatches s.toPool pool)
    (prompt : s.dispatcher = .testingSize → s.queue = [] → ¬ Unpushed s.calls) :
    Wakes { s with toPool := pool } := by
  cases dispatches with
  | leave at_ empty =>
    exact ⟨by simp, by simp, fun _ => ⟨empty, prompt at_ empty⟩, by simp, by simp⟩
  | await at_ runs =>
    refine ⟨by simp, fun _ broadcast => ?_, by simp [Dispatcher.left], by simp, by simp⟩
    simp only [gates.running.mp runs] at broadcast
    cases broadcast
  | wait at_ =>
    refine ⟨fun _ some => absurd (dispatching.starving (.inr at_)) some, fun _ broadcast => .inl ?_,
      by simp [Dispatcher.left], by simp, by simp⟩
    simpa [at_] using wakes.awake (.inl at_) broadcast
  | sleep at_ pending =>
    refine ⟨by simp, by simp, fun _ => wakes.left ?_, fun _ => .inl pending, by simp⟩
    rw [at_]
    rfl
  | zero at_ none =>
    refine ⟨by simp, by simp, fun _ => wakes.left ?_, by simp, fun _ => ?_⟩
    · rw [at_]
      rfl
    · simp only
      omega
  | close at_ =>
    refine ⟨by simp, by simp, fun _ => wakes.left ?_, by simp, fun _ => wakes.zero (.inl at_)⟩
    rw [at_]
    rfl
  | _ => exact ⟨by simp, by simp, by simp [Dispatcher.left], by simp, by simp⟩

theorem Wakes.shutdown (wakes : Wakes s) (gates : Gates s.toPool)
    (shutsDown : ShutsDown s.toPool pool)
    (prompt : s.shutdown = .broadcasting → s.dispatcher = .enteringWait → Unpushed s.calls) :
    Wakes { s with toPool := pool } := by
  cases shutsDown with
  | broadcast at_ =>
    rcases s.dispatcher.elementAdded_cases with ⟨other, same⟩ | ⟨-, woken⟩
    · rw [same]
      refine { wakes with awake := fun entering _ => .inl (prompt at_ ?_) }
      exact entering.resolve_right other
    · rw [woken]
      exact ⟨by simp, by simp, by simp [Dispatcher.left], by simp, by simp⟩
  | unlock at_ =>
    refine { wakes with awake := fun waits _ => wakes.awake waits ?_ }
    rw [at_]
    rfl
  | skip at_ stopped =>
    have runs := gates.running.mpr at_
    rw [stopped] at runs
    cases runs
  | stop | signalled | signal =>
    exact { wakes with awake := by simp [Shutdown.hasBroadcast] }

/-- A worker that does not wake the dispatcher goes on. -/
theorem Wakes.go (wakes : Wakes s) (runs : s.workers = worker ::ₘ rest)
    (silent : ∀ loop, worker ≠ .notifying loop) (dispatcher : pool.dispatcher = s.dispatcher)
    (queue : pool.queue = s.queue) (shutdown : pool.shutdown = s.shutdown)
    (pending : pool.pendingTasksCounter = s.pendingTasksCounter) :
    Wakes { s with toPool := pool, workers := after ::ₘ rest } := by
  refine ⟨?_, ?_, ?_, ?_, ?_⟩
  all_goals simp only [dispatcher, queue, shutdown, pending]
  · exact wakes.added
  · exact wakes.awake
  · exact wakes.left
  · intro asleep
    refine (wakes.decreased asleep).imp id ?_
    rintro ⟨loop, mem⟩
    rw [runs] at mem
    rcases mem_cons.mp mem with same | other
    · exact absurd same.symm (silent loop)
    · exact ⟨loop, mem_cons_of_mem other⟩
  · exact wakes.zero

theorem Wakes.work (wakes : Wakes s) (runs : s.workers = worker ::ₘ rest)
    (works : Works s.toPool worker pool after) :
    Wakes { s with toPool := pool, workers := after ::ₘ rest } := by
  cases works with
  | mark loop task =>
    refine { wakes with
      decreased := fun _ => .inr ⟨loop, mem_cons_self _ _⟩, zero := fun zero => ?_ }
    have pre := wakes.zero zero
    simp only
    omega
  | notify loop =>
    rcases s.dispatcher.valueDecreased_cases with ⟨awake, same⟩ | ⟨at_, woken⟩
    · rw [same]
      exact { wakes with decreased := fun asleep => absurd asleep awake }
    · rw [woken]
      refine ⟨by simp, by simp, fun _ => wakes.left ?_, by simp, by simp⟩
      rw [at_]
      rfl
  | signal worker at_ =>
    refine wakes.go runs ?_ rfl rfl rfl rfl
    rintro loop rfl
    simp at at_
  | _ => exact wakes.go runs (by simp) rfl rfl rfl rfl

/-! All of it. -/

structure Inv (s : State) : Prop where
  tasks : Tasks s
  gates : Gates s.toPool
  dispatching : Dispatching s.toPool
  workforce : Workforce s
  wakes : Wakes s

theorem Inv.step (inv : Inv s) (ran : FlatStep s next) : Inv next where
  tasks := inv.tasks.step ran
  gates := inv.gates.step ran
  dispatching := inv.dispatching.step ran
  workforce := inv.workforce.step inv.gates inv.dispatching ran
  wakes := by
    cases ran with
    | call => exact inv.wakes.call
    | submit rest runs submits => exact inv.wakes.submit inv.dispatching runs submits
    | dispatch dispatches prompt => exact inv.wakes.dispatch inv.gates inv.dispatching dispatches prompt
    | shutdown shutsDown prompt => exact inv.wakes.shutdown inv.gates shutsDown prompt
    | work rest runs works => exact inv.wakes.work runs works

theorem inv_start : Inv (start workerCount cancel).flatten where
  tasks := tasks_start
  gates := ⟨rfl, by simp [flatten, start], Nat.zero_le _, fun _ => rfl⟩
  dispatching := ⟨by simp [flatten, start], by simp [flatten, start],
    by simp [flatten, start, Dispatcher.stopped], by simp [flatten, start]⟩
  workforce := by
    have polling : ∀ worker ∈ (start workerCount cancel).flatten.workers, worker = .polling := by
      intro worker mem
      simp only [flatten, start, map_replicate] at mem
      exact eq_of_mem_replicate mem
    refine ⟨by simp [flatten, start], fun mem => ?_, fun worker mem drains => ?_, fun _ => rfl⟩
    · cases polling _ mem
    · rw [polling worker mem] at drains
      cases drains
  wakes := by
    constructor <;> simp [flatten, start, Dispatcher.left]

theorem inv_step (inv : Inv s.flatten) (prompt : Prompt s event)
    (ran : WorkerPool.step s event = some next) : Inv next.flatten :=
  inv.step (flatten_step prompt ran)

end HiveGo.WorkerPool
