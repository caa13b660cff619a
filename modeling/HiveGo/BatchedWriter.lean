import HiveGo.Runs

/-! The batched writer with its clients. Its calls and the writer goroutine take turns in any
order, one atomic operation at a time. What was accepted, taken, committed and reported is
remembered beside the fields of the program. -/
namespace HiveGo.BatchedWriter
open Function Bool Option

/-- The sizes of the queue and of a batch. The timeout only says that its timer may fire. -/
structure Options where
  queueSize : Nat := 10000
  batchSize : Nat := 10000

/-- The objects of a batch with the states that `BatchWrite` recorded for them. -/
structure BatchCollector (Obj V : Type) where
  writtenValues : List (Obj × V) := []
  committed : Bool := false
  deriving DecidableEq

namespace BatchCollector

variable {Obj V : Type}

def objects (collector : BatchCollector Obj V) : List Obj := collector.writtenValues.map Prod.fst

/-- The end of `Add`: the state is recorded, and the caller learns whether the batch is full.
An object that does not fit is an index out of range. -/
def add (batchSize : Nat) (collector : BatchCollector Obj V) (object : Obj) (state : V) :
    Option (BatchCollector Obj V × Bool) :=
  if collector.writtenValues.length < batchSize then
    let writtenValues := collector.writtenValues ++ [(object, state)]
    some ({ collector with writtenValues }, decide (batchSize ≤ writtenValues.length))
  else none

end BatchCollector

/-- The operations of `BatchCollector.Add`, in their order. -/
inductive AddStage where
  | resetScheduled
  | decrementCount
  | batchWrite
  deriving DecidableEq

/-- Where the goroutine is. `flushing` tells the loop that empties the queue from the one
that waits for objects; `again` tells whether that loop goes on after the commit. -/
inductive Writer (Obj V : Type) where
  | idle
  | spawned
  | looping
  | checkingCount
  | collecting (collector : BatchCollector Obj V) (flushing : Bool)
  | adding (stage : AddStage) (collector : BatchCollector Obj V) (flushing : Bool) (object : Obj)
  | committing (collector : BatchCollector Obj V) (again : Bool)
  | reporting (objects : List Obj) (again : Bool)
  | exiting
  | exited
  deriving DecidableEq

/-- Where a call is. A call of `StopBatchWriter` carries the number of objects that had been
accepted when it was made. -/
inductive Call (Obj : Type) where
  | starting (object : Obj)
  | checkingRunning (object : Obj)
  | testingScheduled (object : Obj)
  | counting (object : Obj)
  | sending (object : Obj)
  | flushing
  | stopping (accepted : Nat)
  | waiting (accepted : Nat)
  deriving DecidableEq

structure State (Obj V : Type) where
  autoStarted : Bool := false
  running : Bool := false
  startStopMutex : Bool := false
  writeWg : Nat := 0
  scheduledCount : BitVec 32 := 0
  batchQueue : List Obj := []
  flushChan : Bool := false
  writer : Writer Obj V := .idle
  calls : List (Call Obj) := []
  /-- The states of the objects, their scheduled flags, and the states in the store. -/
  current : Obj → V
  scheduled : Obj → Bool := fun _ => false
  stored : Obj → V
  /-- The objects in the order in which they were sent, taken, and reported as written. -/
  accepted : List Obj := []
  taken : List Obj := []
  batches : List (List Obj) := []
  done : List Obj := []
  /-- What the calls of `StopBatchWriter` that have returned carried. -/
  stopped : List Nat := []

/-- A writer that was not started, with the states of the objects and of the store. -/
def new {Obj V : Type} (current stored : Obj → V) : State Obj V := { current, stored }

inductive Event (Obj V : Type) where
  /-- A client changes an object and is about to call `Enqueue`. -/
  | modify (object : Obj) (state : V)
  | enqueue (object : Obj)
  | flush
  | stop
  /-- `BatchWriteScheduled` answers. -/
  | tested (object : Obj) (answer : Bool)
  | proceed (call : Call Obj)
  /-- The goroutine goes on where it has no choice. -/
  | advance
  /-- The three cases of its select. -/
  | take
  | flushed
  | timeout

theorem BatchCollector.add_eq_some {collector after : BatchCollector Obj V}
    (added : collector.add batchSize object state = some (after, full)) :
    after.writtenValues = collector.writtenValues ++ [(object, state)] ∧
      after.writtenValues.length ≤ batchSize := by
  rw [add] at added
  split at added
  · cases added
    refine ⟨rfl, ?_⟩
    simp only [List.length_append, List.length_singleton]
    omega
  · cases added

variable {Obj V : Type} [DecidableEq Obj]

def State.move (s : State Obj V) (old : Call Obj) (next : Option (Call Obj)) : State Obj V :=
  { s with calls := CallPool.advance s.calls old next }

def startBatchWriter (s : State Obj V) : State Obj V :=
  if s.running then s else { s with running := true, writer := .spawned }

/-- The next operation of a call. An unbuffered queue is read as one with a single place. -/
def proceed (opts : Options) (s : State Obj V) : Call Obj → Option (State Obj V)
  | .starting object =>
    if s.autoStarted then some (s.move (.starting object) (some (.checkingRunning object)))
    else if s.startStopMutex then none
    else
      some (State.move { startBatchWriter s with autoStarted := true } (.starting object)
        (some (.checkingRunning object)))
  | .checkingRunning object =>
    some (s.move (.checkingRunning object)
      (if s.running then some (.testingScheduled object) else none))
  | .testingScheduled _ => none
  | .counting object =>
    some (State.move { s with scheduledCount := s.scheduledCount + 1 } (.counting object)
      (some (.sending object)))
  | .sending object =>
    if s.batchQueue.length < max opts.queueSize 1 then
      some (State.move { s with
        batchQueue := s.batchQueue ++ [object], accepted := s.accepted ++ [object] }
        (.sending object) none)
    else none
  | .flushing => some (State.move { s with flushChan := true } .flushing none)
  | .stopping accepted =>
    if s.startStopMutex then none
    else if s.running then
      some (State.move { s with running := false, startStopMutex := true } (.stopping accepted)
        (some (.waiting accepted)))
    else some (State.move { s with stopped := accepted :: s.stopped } (.stopping accepted) none)
  | .waiting accepted =>
    if s.writeWg = 0 then
      some (State.move { s with startStopMutex := false, stopped := accepted :: s.stopped }
        (.waiting accepted) none)
    else none

/-- An object is taken from the queue. -/
def take (s : State Obj V) (collector : BatchCollector Obj V) (flushing : Bool) :
    Option (State Obj V) :=
  match s.batchQueue with
  | [] => none
  | object :: batchQueue =>
    if collector.committed then none
    else
      some { s with
        batchQueue, taken := s.taken ++ [object]
        writer := .adding .resetScheduled collector flushing object }

/-- What a commit leaves in the store: a later record of an object replaces an earlier one. -/
def written (stored : Obj → V) (writtenValues : List (Obj × V)) : Obj → V :=
  writtenValues.foldl (fun stored value => update stored value.1 value.2) stored

/-- Where the goroutine goes on after a commit. -/
def Writer.resume (again : Bool) : Writer Obj V :=
  if again then .collecting {} true else .looping

/-- The operations of the goroutine outside of its select. -/
def advance (opts : Options) (s : State Obj V) : Option (State Obj V) :=
  match s.writer with
  | .idle | .exited | .collecting _ false => none
  | .spawned => some { s with writeWg := s.writeWg + 1, writer := .looping }
  | .looping =>
    some { s with writer := if s.running then .collecting {} false else .checkingCount }
  | .checkingCount =>
    some { s with writer := if s.scheduledCount = 0 then .exiting else .collecting {} false }
  | .collecting collector true =>
    if s.batchQueue.isEmpty then some { s with writer := .committing collector false }
    else take s collector true
  | .adding .resetScheduled collector flushing object =>
    some { s with
      scheduled := update s.scheduled object false
      writer := .adding .decrementCount collector flushing object }
  | .adding .decrementCount collector flushing object =>
    some { s with
      scheduledCount := s.scheduledCount - 1
      writer := .adding .batchWrite collector flushing object }
  | .adding .batchWrite collector flushing object => do
    let (collector, full) ← collector.add opts.batchSize object (s.current object)
    return { s with
      writer := if full then .committing collector flushing else .collecting collector flushing }
  | .committing collector again =>
    if collector.committed then none
    else if collector.writtenValues.isEmpty then some { s with writer := .resume again }
    else
      some { s with
        stored := written s.stored collector.writtenValues
        batches := s.batches ++ [collector.objects]
        writer := .reporting collector.objects again }
  | .reporting [] again => some { s with writer := .resume again }
  | .reporting (object :: objects) again =>
    some { s with done := s.done ++ [object], writer := .reporting objects again }
  | .exiting => some { s with writeWg := s.writeWg - 1, writer := .exited }

def step (opts : Options) (s : State Obj V) : Event Obj V → Option (State Obj V)
  | .modify object state =>
    some { s with
      current := update s.current object state, calls := .starting object :: s.calls }
  | .enqueue object => some { s with calls := .starting object :: s.calls }
  | .flush => some (if s.running then { s with calls := .flushing :: s.calls } else s)
  | .stop => some { s with calls := .stopping s.accepted.length :: s.calls }
  | .tested object answer =>
    if .testingScheduled object ∈ s.calls then
      some (State.move { s with scheduled := update s.scheduled object true }
        (.testingScheduled object) (if answer then none else some (.counting object)))
    else none
  | .proceed call => if call ∈ s.calls then proceed opts s call else none
  | .advance => advance opts s
  | .take =>
    match s.writer with
    | .collecting collector false => take s collector false
    | _ => none
  | .flushed =>
    match s.writer with
    | .collecting collector false =>
      if s.flushChan then
        some { s with flushChan := false, writer := .collecting collector true }
      else none
    | _ => none
  | .timeout =>
    match s.writer with
    | .collecting collector false => some { s with writer := .committing collector false }
    | _ => none

/-- Everything the goroutine can do in one step, with what it found. -/
inductive Moved (opts : Options) (s : State Obj V) : State Obj V → Prop
  | registers (place : s.writer = .spawned) :
    Moved opts s { s with writeWg := s.writeWg + 1, writer := .looping }
  | opens (place : s.writer = .looping ∨ s.writer = .checkingCount) :
    Moved opts s { s with writer := .collecting {} false }
  | stops (place : s.writer = .looping) (found : s.running = false) :
    Moved opts s { s with writer := .checkingCount }
  | leaves (place : s.writer = .checkingCount) (found : s.scheduledCount = 0) :
    Moved opts s { s with writer := .exiting }
  | takes (collector : BatchCollector Obj V) (flushing : Bool) (object : Obj)
    (batchQueue : List Obj) (place : s.writer = .collecting collector flushing)
    (found : s.batchQueue = object :: batchQueue) :
    Moved opts s { s with
      batchQueue, taken := s.taken ++ [object]
      writer := .adding .resetScheduled collector flushing object }
  | flushes (collector : BatchCollector Obj V) (place : s.writer = .collecting collector false) :
    Moved opts s { s with flushChan := false, writer := .collecting collector true }
  | closes (collector : BatchCollector Obj V) (flushing : Bool)
    (place : s.writer = .collecting collector flushing) :
    Moved opts s { s with writer := .committing collector false }
  | resets (collector : BatchCollector Obj V) (flushing : Bool) (object : Obj)
    (place : s.writer = .adding .resetScheduled collector flushing object) :
    Moved opts s { s with
      scheduled := update s.scheduled object false
      writer := .adding .decrementCount collector flushing object }
  | decrements (collector : BatchCollector Obj V) (flushing : Bool) (object : Obj)
    (place : s.writer = .adding .decrementCount collector flushing object) :
    Moved opts s { s with
      scheduledCount := s.scheduledCount - 1
      writer := .adding .batchWrite collector flushing object }
  | records (collector after : BatchCollector Obj V) (flushing : Bool) (object : Obj)
    (place : s.writer = .adding .batchWrite collector flushing object)
    (recorded : after.writtenValues = collector.writtenValues ++ [(object, s.current object)])
    (fits : after.writtenValues.length ≤ opts.batchSize) (writer : Writer Obj V)
    (goes : writer = .committing after flushing ∨ writer = .collecting after flushing) :
    Moved opts s { s with writer }
  | cancels (collector : BatchCollector Obj V) (again : Bool)
    (place : s.writer = .committing collector again) (empty : collector.writtenValues = []) :
    Moved opts s { s with writer := .resume again }
  | commits (collector : BatchCollector Obj V) (again : Bool)
    (place : s.writer = .committing collector again) :
    Moved opts s { s with
      stored := written s.stored collector.writtenValues
      batches := s.batches ++ [collector.objects]
      writer := .reporting collector.objects again }
  | reports (object : Obj) (objects : List Obj) (again : Bool)
    (place : s.writer = .reporting (object :: objects) again) :
    Moved opts s { s with done := s.done ++ [object], writer := .reporting objects again }
  | resumes (again : Bool) (place : s.writer = .reporting [] again) :
    Moved opts s { s with writer := .resume again }
  | exits (place : s.writer = .exiting) :
    Moved opts s { s with writeWg := s.writeWg - 1, writer := .exited }

/-- Everything a call can do in one step, with what it found. -/
inductive Proceeded (opts : Options) (s : State Obj V) : Call Obj → State Obj V → Prop
  | passes (object : Obj) (found : s.autoStarted = true) :
    Proceeded opts s (.starting object) (s.move (.starting object) (some (.checkingRunning object)))
  | starts (object : Obj) (found : s.autoStarted = false) (free : s.startStopMutex = false) :
    Proceeded opts s (.starting object)
      (State.move { startBatchWriter s with autoStarted := true } (.starting object)
        (some (.checkingRunning object)))
  | goesOn (object : Obj) (found : s.running = true) :
    Proceeded opts s (.checkingRunning object)
      (s.move (.checkingRunning object) (some (.testingScheduled object)))
  | aborts (object : Obj) (found : s.running = false) :
    Proceeded opts s (.checkingRunning object) (s.move (.checkingRunning object) none)
  | counts (object : Obj) :
    Proceeded opts s (.counting object)
      (State.move { s with scheduledCount := s.scheduledCount + 1 } (.counting object)
        (some (.sending object)))
  | sends (object : Obj) :
    Proceeded opts s (.sending object)
      (State.move { s with
        batchQueue := s.batchQueue ++ [object], accepted := s.accepted ++ [object] }
        (.sending object) none)
  | flushes : Proceeded opts s .flushing (State.move { s with flushChan := true } .flushing none)
  | stops (accepted : Nat) (free : s.startStopMutex = false) (found : s.running = true) :
    Proceeded opts s (.stopping accepted)
      (State.move { s with running := false, startStopMutex := true } (.stopping accepted)
        (some (.waiting accepted)))
  | returns (accepted : Nat) (free : s.startStopMutex = false) (found : s.running = false) :
    Proceeded opts s (.stopping accepted)
      (State.move { s with stopped := accepted :: s.stopped } (.stopping accepted) none)
  | waited (accepted : Nat) (found : s.writeWg = 0) :
    Proceeded opts s (.waiting accepted)
      (State.move { s with startStopMutex := false, stopped := accepted :: s.stopped }
        (.waiting accepted) none)

variable {next : State Obj V}

theorem proceed_cases (ran : proceed opts s call = some next) : Proceeded opts s call next := by
  cases call with
  | starting object =>
    simp only [proceed] at ran
    split at ran
    · cases ran
      exact .passes object ‹_›
    · obtain ⟨free, ran⟩ := ite_none_left_eq_some.mp ran
      cases ran
      exact .starts object (eq_false_iff.mpr ‹_›) (eq_false_iff.mpr free)
  | checkingRunning object =>
    cases ran
    split
    · exact .goesOn object ‹_›
    · exact .aborts object (eq_false_iff.mpr ‹_›)
  | testingScheduled object => cases ran
  | counting object =>
    cases ran
    exact .counts object
  | sending object =>
    obtain ⟨-, ran⟩ := ite_none_right_eq_some.mp ran
    cases ran
    exact .sends object
  | flushing =>
    cases ran
    exact .flushes
  | stopping taken =>
    obtain ⟨free, ran⟩ := ite_none_left_eq_some.mp ran
    split at ran
    · cases ran
      exact .stops taken (eq_false_iff.mpr free) ‹_›
    · cases ran
      exact .returns taken (eq_false_iff.mpr free) (eq_false_iff.mpr ‹_›)
  | waiting taken =>
    obtain ⟨finished, ran⟩ := ite_none_right_eq_some.mp ran
    cases ran
    exact .waited taken finished

theorem take_moves (place : s.writer = .collecting collector flushing)
    (took : take s collector flushing = some next) : Moved opts s next := by
  unfold take at took
  split at took
  · cases took
  · split at took
    · cases took
    · cases took
      exact .takes collector flushing _ _ place ‹_›

theorem advance_moves (advanced : advance opts s = some next) : Moved opts s next := by
  unfold advance at advanced
  split at advanced
  · cases advanced
  · cases advanced
  · cases advanced
  · cases advanced
    exact .registers ‹_›
  · cases advanced
    split
    · exact .opens (.inl ‹_›)
    · exact .stops ‹_› (eq_false_iff.mpr ‹_›)
  · cases advanced
    split
    · exact .leaves ‹_› ‹_›
    · exact .opens (.inr ‹_›)
  · split at advanced
    · cases advanced
      exact .closes _ _ ‹_›
    · exact take_moves ‹_› advanced
  · cases advanced
    exact .resets _ _ _ ‹_›
  · cases advanced
    exact .decrements _ _ _ ‹_›
  · obtain ⟨⟨after, full⟩, added, advanced⟩ := bind_eq_some_iff.mp advanced
    cases advanced
    obtain ⟨recorded, fits⟩ := BatchCollector.add_eq_some added
    refine .records _ after _ _ ‹_› recorded fits _ ?_
    cases full
    · exact .inr rfl
    · exact .inl rfl
  · split at advanced
    · cases advanced
    · split at advanced
      · cases advanced
        exact .cancels _ _ ‹_› (List.isEmpty_iff.mp ‹_›)
      · cases advanced
        exact .commits _ _ ‹_›
  · cases advanced
    exact .resumes _ ‹_›
  · cases advanced
    exact .reports _ _ _ ‹_›
  · cases advanced
    exact .exits ‹_›

/-- Whether a step is one of the goroutine. -/
def Event.ofWriter : Event Obj V → Bool
  | .advance | .take | .flushed | .timeout => true
  | _ => false

theorem step_moves (own : e.ofWriter = true) (ran : step opts s e = some next) :
    Moved opts s next := by
  cases e with
  | advance => exact advance_moves ran
  | take =>
    simp only [step] at ran
    split at ran
    · exact take_moves ‹_› ran
    · cases ran
  | flushed =>
    simp only [step] at ran
    split at ran
    · split at ran
      · cases ran
        exact .flushes _ ‹_›
      · cases ran
    · cases ran
  | timeout =>
    simp only [step] at ran
    split at ran
    · cases ran
      exact .closes _ _ ‹_›
    · cases ran
  | _ => cases own

end HiveGo.BatchedWriter
