import HiveGo.Runs
import Mathlib.Data.Multiset.Filter

/-! The worker pool. Callers push tasks to a queue, a dispatcher moves them from there to a
channel, and workers take them from the channel. Equal calls and workers are interchangeable. A
step ends where another goroutine can see a difference: at a lock, a channel, a counter or a
condition variable. -/
namespace HiveGo.WorkerPool

/-- A call of `Submit`: before its running check, its increase of the counter, its push and its
broadcast. Tasks are numbered as their calls see the pool running. -/
inductive Submit where
  | called
  | accepted (task : Nat)
  | increased (task : Nat)
  | pushed
  deriving DecidableEq

inductive Dispatcher where
  | testingLoop
  | testingSize
  | popping
  | testingEmpty
  | askingRunning
  | enteringWait
  | waiting
  | woken
  | removing
  | sending (task : Nat)
  | waitingZero
  | asleep
  | closing
  | exited
  deriving DecidableEq

/-- Where a worker goes on when a task is done. -/
inductive Loop where
  | workerReadLoop
  | handleShutdown
  deriving DecidableEq

/-- The two nested selects, a task whose function may be in a call of `Submit`, the two steps of
its done callback, and the loop of the shutdown. -/
inductive Worker where
  | polling
  | selecting
  | running (loop : Loop) (task : Nat) (submit : Option Submit)
  | marking (loop : Loop) (task : Nat)
  | notifying (loop : Loop)
  | draining
  | exited
  deriving DecidableEq

/-- The one call of `Shutdown`. -/
inductive Shutdown where
  | idle
  | signalling (left : Nat)
  | broadcasting
  | unlocking
  | returned
  deriving DecidableEq

/-- The fields of the pool, where the dispatcher and `Shutdown` are, and which tasks were counted
as pending, called, cancelled and marked as done. -/
structure Pool where
  workerCount : Nat
  optCancelPendingTasksOnShutdown : Bool
  isRunning : Bool
  mutex : Bool
  pendingTasksCounter : Int
  queue : List Nat
  dispatcherChan : List Nat
  closed : Bool
  shutdownSignal : Nat
  dispatcher : Dispatcher
  shutdown : Shutdown
  created : Nat
  submitted : List Nat
  executed : List Nat
  cancelled : List Nat
  done : List Nat
  deriving DecidableEq

structure State extends Pool where
  workers : Multiset Worker
  calls : Multiset Submit
  deriving DecidableEq

/-- The pool when `Start` has returned. -/
def start (workerCount : Nat) (optCancelPendingTasksOnShutdown : Bool) : State where
  workerCount
  optCancelPendingTasksOnShutdown
  isRunning := true
  mutex := false
  pendingTasksCounter := 0
  queue := []
  dispatcherChan := []
  closed := false
  shutdownSignal := 0
  dispatcher := .testingLoop
  shutdown := .idle
  created := 0
  submitted := []
  executed := []
  cancelled := []
  done := []
  workers := .replicate workerCount .polling
  calls := 0

namespace Dispatcher

/-- It has the mutex of the queue, which nobody else keeps over several steps. -/
def holdsQueue : Dispatcher → Bool
  | testingEmpty | askingRunning | enteringWait | removing => true
  | _ => false

def elementAdded : Dispatcher → Dispatcher
  | waiting => woken
  | dispatcher => dispatcher

def valueDecreased : Dispatcher → Dispatcher
  | asleep => waitingZero
  | dispatcher => dispatcher

end Dispatcher

def Loop.next : Loop → Worker
  | workerReadLoop => .polling
  | handleShutdown => .draining

/-- One step of `Submit`, and where the call is then unless it returns. -/
def submit (p : Pool) : Submit → Option (Pool × Option Submit)
  | .called =>
    if p.mutex then none
    else if p.isRunning then
      some ({ p with created := p.created + 1 }, some (.accepted p.created))
    else some (p, none)
  | .accepted task =>
    some ({ p with
      pendingTasksCounter := p.pendingTasksCounter + 1
      submitted := task :: p.submitted }, some (.increased task))
  | .increased task =>
    if p.dispatcher.holdsQueue then none
    else some ({ p with queue := p.queue ++ [task] }, some .pushed)
  | .pushed => some ({ p with dispatcher := p.dispatcher.elementAdded }, none)

/-- One step of the dispatcher. From its lock to its wait or its return, `PopOrWait` has the
mutex of the queue; it asks for the mutex of the pool while it has it. -/
def dispatch (p : Pool) : Option Pool :=
  match p.dispatcher with
  | .testingLoop =>
    if p.mutex then none
    else some { p with dispatcher := if p.isRunning then .popping else .testingSize }
  | .testingSize => some { p with dispatcher := if p.queue = [] then .waitingZero else .popping }
  | .popping | .woken => some { p with dispatcher := .testingEmpty }
  | .testingEmpty =>
    some { p with dispatcher := if p.queue = [] then .askingRunning else .removing }
  | .askingRunning =>
    if p.mutex then none
    else some { p with dispatcher := if p.isRunning then .enteringWait else .testingLoop }
  | .enteringWait => some { p with dispatcher := .waiting }
  | .waiting => none
  | .removing =>
    match p.queue with
    | [] => none
    | task :: queue => some { p with queue, dispatcher := .sending task }
  | .sending task =>
    if p.dispatcherChan.length < p.workerCount then
      some { p with dispatcherChan := p.dispatcherChan ++ [task], dispatcher := .testingLoop }
    else none
  | .waitingZero =>
    some { p with dispatcher := if 1 ≤ p.pendingTasksCounter then .asleep else .closing }
  | .asleep => none
  | .closing => some { p with closed := true, dispatcher := .exited }
  | .exited => none

/-- One step of `Shutdown`, which has the mutex of the pool until it returns. -/
def shutdown (p : Pool) : Option Pool :=
  match p.shutdown with
  | .idle =>
    if p.mutex then none
    else if p.isRunning then
      some { p with mutex := true, isRunning := false, shutdown := .signalling p.workerCount }
    else some { p with shutdown := .returned }
  | .signalling 0 => some { p with shutdown := .broadcasting }
  | .signalling (left + 1) =>
    if p.shutdownSignal < p.workerCount then
      some { p with shutdownSignal := p.shutdownSignal + 1, shutdown := .signalling left }
    else none
  | .broadcasting =>
    some { p with dispatcher := p.dispatcher.elementAdded, shutdown := .unlocking }
  | .unlocking => some { p with mutex := false, shutdown := .returned }
  | .returned => none

/-- Which case of a select a worker takes, that the function it runs calls `Submit`, or that it
just goes on. -/
inductive Choice where
  | shutdownSignal
  | default
  | dispatcherChan
  | submit
  | proceed
  deriving DecidableEq

def takeSignal (p : Pool) : Worker → Option (Pool × Worker)
  | .polling | .selecting =>
    if p.shutdownSignal = 0 then none
    else some ({ p with shutdownSignal := p.shutdownSignal - 1 }, .draining)
  | _ => none

def takeDefault (p : Pool) : Worker → Option (Pool × Worker)
  | .polling => if p.shutdownSignal = 0 then some (p, .selecting) else none
  | _ => none

def receive (p : Pool) : Worker → Option (Pool × Worker)
  | .selecting =>
    match p.dispatcherChan with
    | task :: dispatcherChan =>
      some ({ p with dispatcherChan, executed := task :: p.executed },
        .running .workerReadLoop task none)
    | [] => if p.closed then some (p, .draining) else none
  | .draining =>
    match p.dispatcherChan with
    | task :: dispatcherChan =>
      if p.optCancelPendingTasksOnShutdown then
        some ({ p with dispatcherChan, cancelled := task :: p.cancelled },
          .marking .handleShutdown task)
      else
        some ({ p with dispatcherChan, executed := task :: p.executed },
          .running .handleShutdown task none)
    | [] => if p.closed then some (p, .exited) else none
  | _ => none

def callSubmit (p : Pool) : Worker → Option (Pool × Worker)
  | .running loop task none => some (p, .running loop task (some .called))
  | _ => none

/-- The function returns, or goes on with its call of `Submit`; the task is marked as done,
which decreases the counter and then wakes those who wait for that. -/
def proceed (p : Pool) : Worker → Option (Pool × Worker)
  | .running loop task none => some (p, .marking loop task)
  | .running loop task (some call) => do
    let (p, call) ← submit p call
    return (p, .running loop task call)
  | .marking loop task =>
    some ({ p with
      pendingTasksCounter := p.pendingTasksCounter - 1
      done := task :: p.done }, .notifying loop)
  | .notifying loop => some ({ p with dispatcher := p.dispatcher.valueDecreased }, loop.next)
  | _ => none

def work (p : Pool) (worker : Worker) : Choice → Option (Pool × Worker)
  | .shutdownSignal => takeSignal p worker
  | .default => takeDefault p worker
  | .dispatcherChan => receive p worker
  | .submit => callSubmit p worker
  | .proceed => proceed p worker

/-- Somebody calls `Submit`, or one of the goroutines makes a step. -/
inductive Event where
  | call
  | submit (call : Submit)
  | dispatch
  | shutdown
  | work (worker : Worker) (choice : Choice)
  deriving DecidableEq

def step (s : State) : Event → Option State
  | .call => some { s with calls := .called ::ₘ s.calls }
  | .submit call =>
    if call ∈ s.calls then do
      let (pool, after) ← submit s.toPool call
      return { s with toPool := pool, calls := Multiset.ofList after.toList + s.calls.erase call }
    else none
  | .dispatch => (dispatch s.toPool).map fun pool => { s with toPool := pool }
  | .shutdown => (shutdown s.toPool).map fun pool => { s with toPool := pool }
  | .work worker choice =>
    if worker ∈ s.workers then do
      let (pool, after) ← work s.toPool worker choice
      return { s with toPool := pool, workers := after ::ₘ s.workers.erase worker }
    else none

end HiveGo.WorkerPool
