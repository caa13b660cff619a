import HiveGo.WorkerPool

/-! What the steps of the worker pool can do. A call of `Submit` by a task changes the pool as any
other call does, so the pool with the calls of the tasks moved to the others follows every
step. -/
namespace HiveGo.WorkerPool
open Multiset

/-- The steps of a call of `Submit`. -/
inductive Submits (p : Pool) : Submit → Pool → Option Submit → Prop where
  | accept (free : p.mutex = false) (running : p.isRunning = true) :
    Submits p .called { p with created := p.created + 1 } (some (.accepted p.created))
  | reject (stopped : p.isRunning = false) : Submits p .called p none
  | increase (task : Nat) :
    Submits p (.accepted task)
      { p with
        pendingTasksCounter := p.pendingTasksCounter + 1
        submitted := task :: p.submitted }
      (some (.increased task))
  | push (task : Nat) (free : p.dispatcher.holdsQueue = false) :
    Submits p (.increased task) { p with queue := p.queue ++ [task] } (some .pushed)
  | broadcast : Submits p .pushed { p with dispatcher := p.dispatcher.elementAdded } none

/-- The steps of the dispatcher. -/
inductive Dispatches (p : Pool) : Pool → Prop where
  | loop (at_ : p.dispatcher = .testingLoop) (running : p.isRunning = true) :
    Dispatches p { p with dispatcher := .popping }
  | stop (at_ : p.dispatcher = .testingLoop) (stopped : p.isRunning = false) :
    Dispatches p { p with dispatcher := .testingSize }
  | leave (at_ : p.dispatcher = .testingSize) (empty : p.queue = []) :
    Dispatches p { p with dispatcher := .waitingZero }
  | remain (at_ : p.dispatcher = .testingSize) : Dispatches p { p with dispatcher := .popping }
  | lock (at_ : p.dispatcher = .popping ∨ p.dispatcher = .woken) :
    Dispatches p { p with dispatcher := .testingEmpty }
  | empty (at_ : p.dispatcher = .testingEmpty) (empty : p.queue = []) :
    Dispatches p { p with dispatcher := .askingRunning }
  | found (at_ : p.dispatcher = .testingEmpty) (nonempty : p.queue ≠ []) :
    Dispatches p { p with dispatcher := .removing }
  | await (at_ : p.dispatcher = .askingRunning) (running : p.isRunning = true) :
    Dispatches p { p with dispatcher := .enteringWait }
  | give_up (at_ : p.dispatcher = .askingRunning) :
    Dispatches p { p with dispatcher := .testingLoop }
  | wait (at_ : p.dispatcher = .enteringWait) : Dispatches p { p with dispatcher := .waiting }
  | remove (at_ : p.dispatcher = .removing) (task : Nat) (queue : List Nat)
      (front : p.queue = task :: queue) :
    Dispatches p { p with queue, dispatcher := .sending task }
  | send (task : Nat) (at_ : p.dispatcher = .sending task) :
    Dispatches p { p with dispatcherChan := p.dispatcherChan ++ [task], dispatcher := .testingLoop }
  | sleep (at_ : p.dispatcher = .waitingZero) (pending : 1 ≤ p.pendingTasksCounter) :
    Dispatches p { p with dispatcher := .asleep }
  | zero (at_ : p.dispatcher = .waitingZero) (zero : ¬ 1 ≤ p.pendingTasksCounter) :
    Dispatches p { p with dispatcher := .closing }
  | close (at_ : p.dispatcher = .closing) :
    Dispatches p { p with closed := true, dispatcher := .exited }

/-- The steps of `Shutdown`. -/
inductive ShutsDown (p : Pool) : Pool → Prop where
  | stop (at_ : p.shutdown = .idle) (running : p.isRunning = true) :
    ShutsDown p { p with mutex := true, isRunning := false, shutdown := .signalling p.workerCount }
  | skip (at_ : p.shutdown = .idle) (stopped : p.isRunning = false) :
    ShutsDown p { p with shutdown := .returned }
  | signalled (at_ : p.shutdown = .signalling 0) : ShutsDown p { p with shutdown := .broadcasting }
  | signal (left : Nat) (at_ : p.shutdown = .signalling (left + 1)) :
    ShutsDown p { p with shutdownSignal := p.shutdownSignal + 1, shutdown := .signalling left }
  | broadcast (at_ : p.shutdown = .broadcasting) :
    ShutsDown p { p with dispatcher := p.dispatcher.elementAdded, shutdown := .unlocking }
  | unlock (at_ : p.shutdown = .unlocking) : ShutsDown p { p with mutex := false, shutdown := .returned }

/-- The steps of a worker that are not those of a call of `Submit`. -/
inductive Works (p : Pool) : Worker → Pool → Worker → Prop where
  | signal (worker : Worker) (at_ : worker = .polling ∨ worker = .selecting)
      (signalled : p.shutdownSignal ≠ 0) :
    Works p worker { p with shutdownSignal := p.shutdownSignal - 1 } .draining
  | default : Works p .polling p .selecting
  | run (task : Nat) (rest : List Nat) (front : p.dispatcherChan = task :: rest) :
    Works p .selecting { p with dispatcherChan := rest, executed := task :: p.executed }
      (.running .workerReadLoop task none)
  | closed (closed : p.closed = true) : Works p .selecting p .draining
  | cancel (task : Nat) (rest : List Nat) (front : p.dispatcherChan = task :: rest)
      (cancels : p.optCancelPendingTasksOnShutdown = true) :
    Works p .draining { p with dispatcherChan := rest, cancelled := task :: p.cancelled }
      (.marking .handleShutdown task)
  | drain (task : Nat) (rest : List Nat) (front : p.dispatcherChan = task :: rest) :
    Works p .draining { p with dispatcherChan := rest, executed := task :: p.executed }
      (.running .handleShutdown task none)
  | exit (closed : p.closed = true) : Works p .draining p .exited
  | finish (loop : Loop) (task : Nat) :
    Works p (.running loop task none) p (.marking loop task)
  | mark (loop : Loop) (task : Nat) :
    Works p (.marking loop task)
      { p with pendingTasksCounter := p.pendingTasksCounter - 1, done := task :: p.done }
      (.notifying loop)
  | notify (loop : Loop) :
    Works p (.notifying loop) { p with dispatcher := p.dispatcher.valueDecreased } loop.next

theorem submits_of_submit (ran : submit p call = some (q, after)) : Submits p call q after := by
  cases call with
  | called =>
    simp only [submit] at ran
    split at ran
    · cases ran
    · split at ran
      · cases ran
        exact .accept (Bool.eq_false_iff.mpr ‹_›) ‹_›
      · cases ran
        exact .reject (Bool.eq_false_iff.mpr ‹_›)
  | accepted task =>
    cases ran
    exact .increase task
  | increased task =>
    simp only [submit] at ran
    split at ran
    · cases ran
    · cases ran
      exact .push task (Bool.eq_false_iff.mpr ‹_›)
  | pushed =>
    cases ran
    exact .broadcast

theorem dispatches_of_dispatch (ran : dispatch p = some q) : Dispatches p q := by
  unfold dispatch at ran
  split at ran
  case h_1 at_ =>
    split at ran
    · cases ran
    · cases ran
      split
      · exact .loop at_ ‹_›
      · exact .stop at_ (Bool.eq_false_iff.mpr ‹_›)
  case h_2 at_ =>
    cases ran
    split
    · exact .leave at_ ‹_›
    · exact .remain at_
  case h_3 at_ =>
    cases ran
    exact .lock (.inl at_)
  case h_4 at_ =>
    cases ran
    exact .lock (.inr at_)
  case h_5 at_ =>
    cases ran
    split
    · exact .empty at_ ‹_›
    · exact .found at_ ‹_›
  case h_6 at_ =>
    split at ran
    · cases ran
    · cases ran
      split
      · exact .await at_ ‹_›
      · exact .give_up at_
  case h_7 at_ =>
    cases ran
    exact .wait at_
  case h_8 => cases ran
  case h_9 at_ =>
    split at ran
    · cases ran
    · cases ran
      exact .remove at_ _ _ ‹_›
  case h_10 task at_ =>
    split at ran
    · cases ran
      exact .send task at_
    · cases ran
  case h_11 at_ =>
    cases ran
    split
    · exact .sleep at_ ‹_›
    · exact .zero at_ ‹_›
  case h_12 => cases ran
  case h_13 at_ =>
    cases ran
    exact .close at_
  case h_14 => cases ran

theorem shutsDown_of_shutdown (ran : shutdown p = some q) : ShutsDown p q := by
  unfold shutdown at ran
  split at ran
  case h_1 at_ =>
    split at ran
    · cases ran
    · split at ran
      · cases ran
        exact .stop at_ ‹_›
      · cases ran
        exact .skip at_ (Bool.eq_false_iff.mpr ‹_›)
  case h_2 at_ =>
    cases ran
    exact .signalled at_
  case h_3 left at_ =>
    split at ran
    · cases ran
      exact .signal left at_
    · cases ran
  case h_4 at_ =>
    cases ran
    exact .broadcast at_
  case h_5 at_ =>
    cases ran
    exact .unlock at_
  case h_6 => cases ran

/-- The call of `Submit` that the function of a task is in. -/
def Worker.submit : Worker → Option Submit
  | running _ _ submit => submit
  | _ => none

/-- The worker without the call of `Submit`. -/
def Worker.base : Worker → Worker
  | running loop task _ => running loop task none
  | worker => worker

/-- A step of a worker is one of its own, or the function of a task calls `Submit` or goes on
with its call. -/
theorem works_of_work (ran : work p worker choice = some (q, after)) :
    (Works p worker q after ∧ worker.submit = none ∧ after.submit = none) ∨
    (∃ loop task, worker = .running loop task none ∧ q = p ∧
      after = .running loop task (some .called)) ∨
    ∃ loop task call next, worker = .running loop task (some call) ∧
      submit p call = some (q, next) ∧ after = .running loop task next := by
  cases choice with
  | shutdownSignal =>
    refine .inl ?_
    simp only [work, takeSignal] at ran
    split at ran
    · split at ran
      · cases ran
      · cases ran
        exact ⟨.signal _ (.inl rfl) ‹_›, rfl, rfl⟩
    · split at ran
      · cases ran
      · cases ran
        exact ⟨.signal _ (.inr rfl) ‹_›, rfl, rfl⟩
    · cases ran
  | default =>
    refine .inl ?_
    simp only [work, takeDefault] at ran
    split at ran
    · split at ran
      · cases ran
        exact ⟨.default, rfl, rfl⟩
      · cases ran
    · cases ran
  | dispatcherChan =>
    refine .inl ?_
    simp only [work, receive] at ran
    split at ran
    · split at ran
      · cases ran
        exact ⟨.run _ _ ‹_›, rfl, rfl⟩
      · split at ran
        · cases ran
          exact ⟨.closed ‹_›, rfl, rfl⟩
        · cases ran
    · split at ran
      · split at ran
        · cases ran
          exact ⟨.cancel _ _ ‹_› ‹_›, rfl, rfl⟩
        · cases ran
          exact ⟨.drain _ _ ‹_›, rfl, rfl⟩
      · split at ran
        · cases ran
          exact ⟨.exit ‹_›, rfl, rfl⟩
        · cases ran
    · cases ran
  | submit =>
    simp only [work, callSubmit] at ran
    split at ran
    · cases ran
      exact .inr (.inl ⟨_, _, rfl, rfl, rfl⟩)
    · cases ran
  | proceed =>
    simp only [work, proceed] at ran
    split at ran
    · cases ran
      exact .inl ⟨.finish _ _, rfl, rfl⟩
    · obtain ⟨⟨pool, next⟩, submitted, moved⟩ := Option.bind_eq_some_iff.mp ran
      cases moved
      exact .inr (.inr ⟨_, _, _, _, rfl, submitted, rfl⟩)
    · cases ran
      exact .inl ⟨.mark _ _, rfl, rfl⟩
    · rename_i loop
      cases ran
      exact .inl ⟨.notify loop, rfl, by cases loop <;> rfl⟩
    · cases ran

/-! The calls of the tasks among the others. -/

def State.submits (s : State) : Multiset Submit := s.calls + s.workers.filterMap Worker.submit

def State.flatten (s : State) : State :=
  { s with workers := s.workers.map Worker.base, calls := s.submits }

/-- The call has seen the pool running, and its task is not in the queue yet. -/
def Submit.unpushed : Submit → Bool
  | accepted _ | increased _ => true
  | _ => false

def Unpushed (calls : Multiset Submit) : Prop := ∃ call ∈ calls, call.unpushed = true

instance (calls : Multiset Submit) : Decidable (Unpushed calls) :=
  Multiset.decidableExistsMultiset

/-- When the dispatcher leaves its loop, no task is on its way to the queue. When `Shutdown`
broadcasts, the dispatcher is not between its check and its wait, unless a task on its way will
wake it. -/
def Prompt (s : State) : Event → Prop
  | .dispatch => s.dispatcher = .testingSize → s.queue = [] → ¬ Unpushed s.submits
  | .shutdown => s.shutdown = .broadcasting → s.dispatcher = .enteringWait → Unpushed s.submits
  | _ => True

instance (s : State) : (event : Event) → Decidable (Prompt s event)
  | .dispatch =>
    inferInstanceAs (Decidable (s.dispatcher = .testingSize → s.queue = [] → ¬ Unpushed s.submits))
  | .shutdown =>
    inferInstanceAs (Decidable
      (s.shutdown = .broadcasting → s.dispatcher = .enteringWait → Unpushed s.submits))
  | .call | .submit _ | .work _ _ => .isTrue trivial

/-- One prompt step of the pool whose calls of `Submit` are all alike. -/
inductive FlatStep (s : State) : State → Prop where
  | call : FlatStep s { s with calls := .called ::ₘ s.calls }
  | submit (rest : Multiset Submit) {call : Submit} {pool : Pool} {after : Option Submit}
      (running : s.calls = call ::ₘ rest) (submits : Submits s.toPool call pool after) :
    FlatStep s { s with toPool := pool, calls := ofList after.toList + rest }
  | dispatch {pool : Pool} (dispatches : Dispatches s.toPool pool)
      (prompt : s.dispatcher = .testingSize → s.queue = [] → ¬ Unpushed s.calls) :
    FlatStep s { s with toPool := pool }
  | shutdown {pool : Pool} (shutsDown : ShutsDown s.toPool pool)
      (prompt : s.shutdown = .broadcasting → s.dispatcher = .enteringWait → Unpushed s.calls) :
    FlatStep s { s with toPool := pool }
  | work (rest : Multiset Worker) {worker after : Worker} {pool : Pool}
      (running : s.workers = worker ::ₘ rest) (works : Works s.toPool worker pool after) :
    FlatStep s { s with toPool := pool, workers := after ::ₘ rest }

theorem Works.base (works : Works p worker q after) :
    worker.base = worker ∧ after.base = after := by
  cases works with
  | signal worker at_ _ =>
    rcases at_ with rfl | rfl
    · exact ⟨rfl, rfl⟩
    · exact ⟨rfl, rfl⟩
  | notify loop => exact ⟨rfl, by cases loop <;> rfl⟩
  | _ => exact ⟨rfl, rfl⟩

theorem filterMap_running (task : Nat) (submit : Option Submit) :
    (Worker.running loop task submit ::ₘ workers).filterMap Worker.submit =
      ofList submit.toList + workers.filterMap Worker.submit := by
  cases submit with
  | none =>
    rw [filterMap_cons_none _ _ rfl]
    exact (Multiset.zero_add _).symm
  | some call =>
    rw [filterMap_cons_some Worker.submit _ _ rfl]
    exact (singleton_add _ _).symm

theorem flatten_step (prompt : Prompt s event) (ran : step s event = some next) :
    FlatStep s.flatten next.flatten := by
  cases event with
  | call =>
    cases ran
    have flat := FlatStep.call (s := s.flatten)
    simpa [State.flatten, State.submits] using flat
  | submit call =>
    simp only [step] at ran
    split at ran
    · rename_i mem
      obtain ⟨⟨pool, after⟩, submitted, moved⟩ := Option.bind_eq_some_iff.mp ran
      cases moved
      obtain ⟨rest, runs⟩ := Multiset.exists_cons_of_mem mem
      have flat := FlatStep.submit (s := s.flatten) (rest + s.workers.filterMap Worker.submit)
        (by simp [State.flatten, State.submits, runs])
        (submits_of_submit submitted)
      simpa [State.flatten, State.submits, runs, Multiset.add_assoc] using flat
    · cases ran
  | dispatch =>
    obtain ⟨pool, dispatched, rfl⟩ := Option.map_eq_some_iff.mp ran
    exact FlatStep.dispatch (s := s.flatten) (dispatches_of_dispatch dispatched) prompt
  | shutdown =>
    obtain ⟨pool, shut, rfl⟩ := Option.map_eq_some_iff.mp ran
    exact FlatStep.shutdown (s := s.flatten) (shutsDown_of_shutdown shut) prompt
  | work worker choice =>
    simp only [step] at ran
    split at ran
    · rename_i mem
      obtain ⟨⟨pool, after⟩, worked, moved⟩ := Option.bind_eq_some_iff.mp ran
      cases moved
      obtain ⟨rest, runs⟩ := exists_cons_of_mem mem
      rcases works_of_work worked with ⟨works, noCall, noCallAfter⟩ | ⟨loop, task, rfl, rfl, rfl⟩ |
        ⟨loop, task, call, next, rfl, submitted, rfl⟩
      · have flat := FlatStep.work (s := s.flatten) (rest.map Worker.base)
          (by simp [State.flatten, runs, works.base.1]) works
        simpa [State.flatten, State.submits, runs, works.base.2,
          filterMap_cons_none _ _ noCall, filterMap_cons_none _ _ noCallAfter] using flat
      · have flat := FlatStep.call (s := s.flatten)
        simpa [State.flatten, State.submits, runs, Worker.base, filterMap_running] using flat
      · have flat := FlatStep.submit (s := s.flatten)
          (s.calls + rest.filterMap Worker.submit)
          (by simp [State.flatten, State.submits, runs, filterMap_running])
          (submits_of_submit submitted)
        rw [← Multiset.add_assoc, Multiset.add_comm _ s.calls, Multiset.add_assoc] at flat
        simpa [State.flatten, State.submits, runs, filterMap_running, Worker.base] using flat
    · cases ran

end HiveGo.WorkerPool
