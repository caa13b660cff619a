import HiveGo.Outcome
import HiveGo.Runs
import HiveGo.ShrinkingMap

/-! The daemon that shuts its background workers down in order. A pointer to a worker is its place
among all that were ever made. What is done under the lock is one step, and so is every operation
on a flag, a wait group or a context without it. -/
namespace HiveGo

/-- The goroutine of a worker: before its start, in the handler, before it is done with the
wait group, before its cleanup, before it unsets the running flag, and behind that. -/
inductive OrderedDaemon.Phase where
  | registered
  | handling
  | returned
  | released
  | cleaned
  | finished
  deriving DecidableEq

structure OrderedDaemon.Worker where
  name : String
  shutdownOrder : Int
  running : Bool
  cancelled : Bool
  phase : OrderedDaemon.Phase
  deriving DecidableEq

/-- The wait groups stay when the map of them is cleared. -/
structure OrderedDaemon where
  running : Bool
  stopped : Bool
  workers : ShrinkingMap String Nat
  shutdownOrderWorker : List String
  wgPerSameShutdownOrder : ShrinkingMap Int Nat
  cleared : Bool
  heap : List OrderedDaemon.Worker

namespace OrderedDaemon

def new : OrderedDaemon where
  running := false
  stopped := false
  workers := .new
  shutdownOrderWorker := []
  wgPerSameShutdownOrder := .new
  cleared := false
  heap := []

/-- An order of `sort.Slice` that is descending in a key. It is not stable. -/
structure Sorting where
  sort : (String → Int) → List String → List String
  perm : ∀ key names, (sort key names).Perm names
  sorted : ∀ key names, (sort key names).Pairwise fun first second => key second ≤ key first

inductive Error where
  | daemonAlreadyStopped
  | duplicateBackgroundWorker (name : String)
  | existingBackgroundWorkerStillRunning (name : String)
  deriving DecidableEq

def lookup (d : OrderedDaemon) (name : String) : Option Worker := do
  let pointer ← d.workers.get name
  d.heap[pointer]?

def shutdownOrder (d : OrderedDaemon) (name : String) : Int :=
  ((d.lookup name).map Worker.shutdownOrder).getD 0

def store (d : OrderedDaemon) (pointer : Nat) (worker : Worker) : OrderedDaemon :=
  { d with heap := d.heap.set pointer worker }

def removeWorkerFromShutdownOrder (d : OrderedDaemon) (name : String) : OrderedDaemon :=
  { d with shutdownOrderWorker := d.shutdownOrderWorker.erase name }

/-- The wait group is raised and the goroutine starts. -/
def runBackgroundWorker (d : OrderedDaemon) (name : String) : Outcome Error OrderedDaemon :=
  match d.workers.get name with
  | none => .panicked
  | some pointer =>
    match d.heap[pointer]? with
    | none => .panicked
    | some worker =>
      match d.wgPerSameShutdownOrder.get worker.shutdownOrder with
      | none => .panicked
      | some count =>
        let raised : OrderedDaemon := { d with
          wgPerSameShutdownOrder :=
            d.wgPerSameShutdownOrder.set worker.shutdownOrder (count + 1) }
        .ok (raised.store pointer { worker with running := true, phase := .handling })

/-- The worker gets its wait group and its place in the shutdown order. -/
def insertWorker (d : OrderedDaemon) (sorting : Sorting) (name : String) (shutdownOrder : Int) :
    OrderedDaemon :=
  let inserted : OrderedDaemon := { d with
    wgPerSameShutdownOrder :=
      if d.wgPerSameShutdownOrder.has shutdownOrder then d.wgPerSameShutdownOrder
      else d.wgPerSameShutdownOrder.set shutdownOrder 0
    workers := d.workers.set name d.heap.length
    heap := d.heap ++
      [{ name, shutdownOrder, running := false, cancelled := false, phase := .registered }] }
  { inserted with
    shutdownOrderWorker := sorting.sort inserted.shutdownOrder (d.shutdownOrderWorker ++ [name]) }

/-- The rest of `BackgroundWorker` for a name that is free. A cleared map cannot be written to. -/
def addWorker (d : OrderedDaemon) (sorting : Sorting) (name : String) (shutdownOrder : Int) :
    Outcome Error OrderedDaemon :=
  if d.cleared then .panicked
  else
    let d := d.insertWorker sorting name shutdownOrder
    if d.running then d.runBackgroundWorker name else .ok d

/-- `BackgroundWorker` when it has the lock. -/
def backgroundWorker (d : OrderedDaemon) (sorting : Sorting) (name : String) (order : List Int) :
    Outcome Error OrderedDaemon :=
  let shutdownOrder := match order with
    | [] => 0
    | first :: _ => if first ≠ 0 then first else 0
  match d.workers.get name with
  | none => d.addWorker sorting name shutdownOrder
  | some pointer =>
    if !d.running then .err (.duplicateBackgroundWorker name)
    else
      match d.heap[pointer]? with
      | none => .panicked
      | some exWorker =>
        if exWorker.running then .err (.existingBackgroundWorkerStillRunning name)
        else (d.removeWorkerFromShutdownOrder name).addWorker sorting name shutdownOrder

/-- The loop of `Start` over the workers. -/
def runBackgroundWorkers (d : OrderedDaemon) : List String → Outcome Error OrderedDaemon
  | [] => .ok d
  | name :: names => do
    let d ← d.runBackgroundWorker name
    d.runBackgroundWorkers names

/-- `Start` when it has the lock. -/
def start (d : OrderedDaemon) (iteration : Iteration String) : Outcome Error OrderedDaemon :=
  if d.running then .ok d
  else
    let started : OrderedDaemon := { d with running := true }
    started.runBackgroundWorkers (iteration.visit (d.workers.entries.map Prod.fst))

/-- A goroutine is done with the wait group of its worker. -/
def done (d : OrderedDaemon) (shutdownOrder : Int) : Outcome Error OrderedDaemon :=
  match d.wgPerSameShutdownOrder.get shutdownOrder with
  | some (count + 1) =>
    .ok { d with wgPerSameShutdownOrder := d.wgPerSameShutdownOrder.set shutdownOrder count }
  | _ => .panicked

def cleanupWorker (d : OrderedDaemon) (name : String) : OrderedDaemon :=
  if d.stopped then d
  else
    let deleted : OrderedDaemon := { d with workers := d.workers.delete name }
    deleted.removeWorkerFromShutdownOrder name

/-- The next step of the goroutine of a worker, if it is running. -/
def proceed (d : OrderedDaemon) (pointer : Nat) : Option (Outcome Error OrderedDaemon) := do
  let worker ← d.heap[pointer]?
  match worker.phase with
  | .registered | .finished => none
  | .handling => some (.ok (d.store pointer { worker with phase := .returned }))
  | .returned =>
    some (do
      let d ← d.done worker.shutdownOrder
      return d.store pointer { worker with phase := .released })
  | .released =>
    some (.ok ((d.cleanupWorker worker.name).store pointer { worker with phase := .cleaned }))
  | .cleaned =>
    some (.ok (d.store pointer { worker with running := false, phase := .finished }))

def clear (d : OrderedDaemon) : OrderedDaemon :=
  { d with workers := .new, shutdownOrderWorker := [], cleared := true }

/-- A call of `BackgroundWorker` or `Start` that has not found the daemon stopped. -/
inductive Call where
  | backgroundWorker (name : String) (order : List Int)
  | start
  deriving DecidableEq

/-- The one run of `shutdown`. The loop of `stopWorkers` has the workers of the snapshot and the
names still to visit; it waits for the previous priority before it cancels a worker with a lower
one. -/
inductive Shutdown where
  | idle
  | stopping
  | snapshotting
  | visiting (workers : ShrinkingMap String Nat) (prevPriority : Int) (names : List String)
  | waiting (workers : ShrinkingMap String Nat) (prevPriority : Int) (pointer : Nat)
    (shutdownOrder : Int) (names : List String)
  | cancelling (workers : ShrinkingMap String Nat) (prevPriority : Int) (pointer : Nat)
    (names : List String)
  | waitingLast (prevPriority : Int)
  | storing
  | clearing
  | returned

structure State extends OrderedDaemon where
  calls : List Call
  shutdown : Shutdown
  panicked : Bool

namespace State

def new : State where
  toOrderedDaemon := .new
  calls := []
  shutdown := .idle
  panicked := false

/-- What a call leaves behind. A call with an error has changed nothing. -/
def after (s : State) : Outcome Error OrderedDaemon → State
  | .ok d => { s with toOrderedDaemon := d }
  | .err _ | .timeout => s
  | .panicked => { s with panicked := true }

def goOn (s : State) (shutdown : Shutdown) : State := { s with shutdown }

def panic (s : State) : State := { s with panicked := true }

end State

/-- The next step of the shutdown, if it does not wait for a wait group. -/
def stopWorkers (s : State) : Option State :=
  match s.shutdown with
  | .idle => some ({ s with stopped := true }.goOn .stopping)
  | .stopping => some (s.goOn (if s.running then .snapshotting else .returned))
  | .snapshotting =>
    match s.shutdownOrderWorker with
    | [] => some (s.goOn .storing)
    | first :: names =>
      match s.lookup first with
      | none => some s.panic
      | some worker => some (s.goOn (.visiting s.workers worker.shutdownOrder (first :: names)))
  | .visiting _ prevPriority [] => some (s.goOn (.waitingLast prevPriority))
  | .visiting workers prevPriority (name :: names) =>
    match workers.get name with
    | none => some s.panic
    | some pointer =>
      match s.heap[pointer]? with
      | none => some s.panic
      | some worker =>
        if !worker.running then some (s.goOn (.cancelling workers prevPriority pointer names))
        else if worker.shutdownOrder < prevPriority then
          some (s.goOn (.waiting workers prevPriority pointer worker.shutdownOrder names))
        else some (s.goOn (.cancelling workers prevPriority pointer names))
  | .waiting workers prevPriority pointer shutdownOrder names =>
    match s.wgPerSameShutdownOrder.get prevPriority with
    | none => some s.panic
    | some 0 => some (s.goOn (.cancelling workers shutdownOrder pointer names))
    | some _ => none
  | .cancelling workers prevPriority pointer names =>
    match s.heap[pointer]? with
    | none => some s.panic
    | some worker =>
      some ({ s with
        toOrderedDaemon := s.toOrderedDaemon.store pointer { worker with cancelled := true } }.goOn
          (.visiting workers prevPriority names))
  | .waitingLast prevPriority =>
    match s.wgPerSameShutdownOrder.get prevPriority with
    | none => some s.panic
    | some 0 => some (s.goOn .storing)
    | some _ => none
  | .storing => some ({ s with running := false }.goOn .clearing)
  | .clearing => some ({ s with toOrderedDaemon := s.toOrderedDaemon.clear }.goOn .returned)
  | .returned => none

/-- The stopped check of a call, the rest of it with the lock, a step of a goroutine, and a step
of the shutdown. -/
inductive Event where
  | call (call : Call)
  | backgroundWorker (name : String) (order : List Int) (sorting : Sorting)
  | start (iteration : Iteration String)
  | proceed (pointer : Nat)
  | shutdown

def step (s : State) (event : Event) : Option State :=
  if s.panicked then none
  else
    match event with
    | .call call => some (if s.stopped then s else { s with calls := call :: s.calls })
    | .backgroundWorker name order sorting =>
      if .backgroundWorker name order ∈ s.calls then
        some ({ s with calls := s.calls.erase (.backgroundWorker name order) }.after
          (s.toOrderedDaemon.backgroundWorker sorting name order))
      else none
    | .start iteration =>
      if .start ∈ s.calls then
        some ({ s with calls := s.calls.erase .start }.after (s.toOrderedDaemon.start iteration))
      else none
    | .proceed pointer => (s.toOrderedDaemon.proceed pointer).map s.after
    | .shutdown => stopWorkers s

end OrderedDaemon

end HiveGo
