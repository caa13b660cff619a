import HiveGo.WorkerPoolInvariant
import Mathlib.Data.Finset.Card

/-! Where the worker pool can come to rest. Unless the mutex is taken, some goroutine can go on
until every call of `Submit` has returned and no task is anywhere, or the dispatcher and all
workers have exited. -/
namespace HiveGo.WorkerPool
open Multiset State

variable {s : State}

/-- Only a full channel or a wake-up can hold the dispatcher up. -/
theorem dispatch_none (dispatching : Dispatching p) (free : p.mutex = false) (stuck : dispatch p = none) :
    p.dispatcher = .waiting ∨ p.dispatcher = .asleep ∨ p.dispatcher = .exited ∨
      ∃ task, p.dispatcher = .sending task ∧ p.workerCount ≤ p.dispatcherChan.length := by
  cases at_ : p.dispatcher with
  | waiting => exact .inl rfl
  | asleep => exact .inr (.inl rfl)
  | exited => exact .inr (.inr (.inl rfl))
  | sending task =>
    simp only [dispatch, at_, ite_eq_right_iff, reduceCtorEq, imp_false, Nat.not_lt] at stuck
    exact .inr (.inr (.inr ⟨task, rfl, stuck⟩))
  | removing =>
    cases queue : p.queue with
    | nil => exact absurd queue (dispatching.removing at_)
    | cons task queue => simp [dispatch, at_, queue] at stuck
  | _ => simp [dispatch, at_, free] at stuck

/-- Only a mutex can hold a call of `Submit` up. -/
theorem submit_ne_none (free : p.mutex = false) (unlocked : p.dispatcher.holdsQueue = false)
    (call : Submit) : submit p call ≠ none := by
  cases call with
  | called =>
    simp only [submit, free, Bool.false_eq_true, if_false]
    split
    · simp
    · simp
  | increased task => simp [submit, unlocked]
  | accepted task => simp [submit]
  | pushed => simp [submit]

/-- The channel is empty and open for a worker that is not done. -/
def Rests (p : Pool) (worker : Worker) : Prop :=
  worker = .exited ∨
    (worker = .selecting ∨ worker = .draining) ∧ p.dispatcherChan = [] ∧ p.closed = false

theorem receive_none (waits : worker = .selecting ∨ worker = .draining)
    (stuck : receive p worker = none) : p.dispatcherChan = [] ∧ p.closed = false := by
  cases channel : p.dispatcherChan with
  | nil => rcases waits with rfl | rfl <;> simpa [receive, channel] using stuck
  | cons task tail =>
    rcases waits with rfl | rfl
    · simp [receive, channel] at stuck
    · simp only [receive, channel] at stuck
      split at stuck
      · cases stuck
      · cases stuck

theorem work_none (free : p.mutex = false) (unlocked : p.dispatcher.holdsQueue = false)
    (stuck : ∀ choice, work p worker choice = none) : Rests p worker := by
  cases worker with
  | polling =>
    have default := stuck .default
    have signal := stuck .shutdownSignal
    simp only [work, takeDefault] at default
    simp only [work, takeSignal] at signal
    split at default
    · cases default
    · rename_i signalled
      rw [if_neg signalled] at signal
      cases signal
  | running loop task call =>
    have proceeds := stuck .proceed
    cases call with
    | none => simp [work, proceed] at proceeds
    | some call =>
      obtain ⟨moved, submitted⟩ := Option.ne_none_iff_exists'.mp (submit_ne_none free unlocked call)
      simp [work, proceed, submitted] at proceeds
  | marking loop task => cases stuck .proceed
  | notifying loop => cases stuck .proceed
  | selecting => exact .inr ⟨.inl rfl, receive_none (.inl rfl) (stuck .dispatcherChan)⟩
  | draining => exact .inr ⟨.inr rfl, receive_none (.inr rfl) (stuck .dispatcherChan)⟩
  | exited => exact .inl rfl

theorem Rests.base (rests : Rests p worker) :
    worker.base = worker ∧ worker.submit = none ∧ worker.task = none := by
  rcases rests with rfl | ⟨rfl | rfl, -⟩
  all_goals exact ⟨rfl, rfl, rfl⟩

/-- No goroutine of the pool can go on; new calls may come. -/
structure Rest (s : State) : Prop where
  dispatch : dispatch s.toPool = none
  submits : s.submits = 0
  workers : ∀ worker ∈ s.workers, Rests s.toPool worker

theorem rest_of_stuck (inv : Inv s.flatten) (free : s.mutex = false)
    (stuck : ∀ event, event ≠ .call → event ≠ .shutdown → step s event = none) : Rest s := by
  have dispatched : dispatch s.toPool = none := by
    simpa [step] using stuck .dispatch (by simp) (by simp)
  have unlocked : s.dispatcher.holdsQueue = false := by
    rcases dispatch_none inv.dispatching free dispatched with at_ | at_ | at_ | ⟨task, at_, -⟩
    all_goals
      simp only [flatten] at at_
      rw [at_]
      rfl
  have rests : ∀ worker ∈ s.workers, Rests s.toPool worker := by
    intro worker mem
    refine work_none free unlocked fun choice => ?_
    have rest := stuck (.work worker choice) (by simp) (by simp)
    rw [step, if_pos mem] at rest
    cases worked : work s.toPool worker choice with
    | none => rfl
    | some moved => simp [worked] at rest
  refine ⟨dispatched, eq_zero_of_forall_notMem fun call mem => ?_, rests⟩
  rcases mem_add.mp mem with outside | inside
  · have rest := stuck (.submit call) (by simp) (by simp)
    obtain ⟨moved, submitted⟩ := Option.ne_none_iff_exists'.mp (submit_ne_none free unlocked call)
    simp [step, outside, submitted] at rest
  · obtain ⟨worker, there, calls⟩ := mem_filterMap _ _ |>.mp inside
    rw [(rests worker there).base.2.1] at calls
    cases calls

namespace Rest

theorem workers_flatten (rest : Rest s) : s.flatten.workers = s.workers := by
  have same : s.workers.map Worker.base = s.workers.map id :=
    map_congr rfl fun worker mem => (rest.workers worker mem).base.1
  rwa [map_id] at same

theorem held (rest : Rest s) (task : Nat) : held s.workers task = 0 := by
  rw [WorkerPool.held, countP_eq_zero]
  intro worker mem
  simp [(rest.workers worker mem).base.2.2]

section

variable (rest : Rest s) (inv : Inv s.flatten) (pos : 0 < s.workerCount) (opened : s.closed = false)
include rest inv pos opened

/-- An open channel is empty. -/
theorem channel : s.dispatcherChan = [] := by
  have count : s.workers.card = s.workerCount := by
    have flat := inv.workforce.count
    rwa [rest.workers_flatten] at flat
  obtain ⟨worker, mem⟩ := card_pos_iff_exists_mem.mp (count ▸ pos)
  rcases rest.workers worker mem with rfl | ⟨-, empty, -⟩
  · have closed := inv.workforce.exited (rest.workers_flatten ▸ mem)
    exact absurd (opened.symm.trans closed) (by simp)
  · exact empty

/-- The tasks are nowhere if the queue is empty and the channel is open. -/
theorem located (empty : s.queue = []) (carried : s.dispatcher.carried = none)
    (task : Nat) : s.flatten.located task = 0 := by
  have channel := rest.channel inv pos opened
  have held := rest.held task
  have workers := rest.workers_flatten
  simp only [State.located, workers, held]
  simp only [State.flatten, rest.submits, empty, carried, channel]
  rfl

end

theorem opened (inv : Inv s.flatten) (other : s.dispatcher ≠ .exited) : s.closed = false := by
  refine Bool.eq_false_iff.mpr fun closed => ?_
  exact other (inv.dispatching.closed.mp closed)

/-- The dispatcher waits for a task, and there is none, or everything has exited. -/
theorem ends (rest : Rest s) (inv : Inv s.flatten) (pos : 0 < s.workerCount)
    (free : s.mutex = false) :
    (s.dispatcher = .waiting ∧ ∀ task, s.flatten.located task = 0) ∨
    (s.dispatcher = .exited ∧ ∀ worker ∈ s.workers, worker = .exited) := by
  rcases dispatch_none inv.dispatching free rest.dispatch with at_ | at_ | at_ | ⟨task, at_, full⟩
  all_goals simp only [flatten] at at_
  · have opened := Rest.opened inv (by simp [at_])
    have empty : s.queue = [] := by
      by_contra some
      have pushed : Submit.pushed ∈ s.submits := inv.wakes.added at_ some
      rw [rest.submits] at pushed
      cases pushed
    exact .inl ⟨at_, rest.located inv pos opened empty (by rw [at_]; rfl)⟩
  · -- a dispatcher that waits for the counter would have been woken
    have opened := Rest.opened inv (by simp [at_])
    have empty := (inv.wakes.left (by simp [flatten, at_, Dispatcher.left])).1
    have nowhere := rest.located inv pos opened empty (by rw [at_]; rfl)
    have zero := inv.tasks.pending_of_perm (inv.tasks.perm_of_located nowhere)
    rcases inv.wakes.decreased at_ with pending | ⟨loop, mem⟩
    · omega
    · rw [rest.workers_flatten] at mem
      rcases rest.workers _ mem with never | ⟨never | never, -⟩
      all_goals cases never
  · refine .inr ⟨at_, fun worker mem => ?_⟩
    have closed := inv.dispatching.closed.mpr at_
    rcases rest.workers worker mem with exited | ⟨-, -, opened⟩
    · exact exited
    · exact absurd (opened.symm.trans closed) (by simp)
  · have empty := rest.channel inv pos (Rest.opened inv (by simp [at_]))
    simp only [flatten, empty, List.length_nil] at full
    omega

/-- When the tasks that were submitted are done, all that were accepted are. -/
theorem done (rest : Rest s) (inv : Inv s.flatten) (all : s.done.Perm s.submitted)
    (taken : task < s.created) :
    s.done.count task = 1 ∧ s.executed.count task + s.cancelled.count task = 1 := by
  have submitted := inv.tasks.accepted task
  have executed := inv.tasks.executed task
  rw [rest.workers_flatten, rest.held] at executed
  simp only [flatten, rest.submits, count_zero, taken, if_true] at submitted executed
  have count := all.count_eq task
  omega

end Rest

/-- The number of workers stays, and only `Shutdown` goes on with itself. -/
theorem step_frame (ran : step s event = some next) :
    next.workerCount = s.workerCount ∧ (event ≠ .shutdown → next.shutdown = s.shutdown) := by
  cases event with
  | call =>
    cases ran
    exact ⟨rfl, fun _ => rfl⟩
  | submit call =>
    simp only [step] at ran
    split at ran
    · obtain ⟨⟨pool, after⟩, submitted, moved⟩ := Option.bind_eq_some_iff.mp ran
      cases moved
      cases submits_of_submit submitted with
      | _ => exact ⟨rfl, fun _ => rfl⟩
    · cases ran
  | dispatch =>
    obtain ⟨pool, dispatched, rfl⟩ := Option.map_eq_some_iff.mp ran
    cases dispatches_of_dispatch dispatched with
    | _ => exact ⟨rfl, fun _ => rfl⟩
  | shutdown =>
    obtain ⟨pool, shut, rfl⟩ := Option.map_eq_some_iff.mp ran
    cases shutsDown_of_shutdown shut with
    | _ => exact ⟨rfl, fun other => absurd rfl other⟩
  | work worker choice =>
    simp only [step] at ran
    split at ran
    · obtain ⟨⟨pool, after⟩, worked, moved⟩ := Option.bind_eq_some_iff.mp ran
      cases moved
      rcases works_of_work worked with ⟨works, -⟩ | ⟨loop, task, rfl, rfl, rfl⟩ |
        ⟨loop, task, call, next, rfl, submitted, rfl⟩
      · cases works with
        | _ => exact ⟨rfl, fun _ => rfl⟩
      · exact ⟨rfl, fun _ => rfl⟩
      · cases submits_of_submit submitted with
        | _ => exact ⟨rfl, fun _ => rfl⟩
    · cases ran

/-- As long as `Shutdown` is not called, the dispatcher does not leave its loop. -/
theorem prompt_of_running (inv : Inv s.flatten) (idle : s.shutdown = .idle)
    (other : event ≠ .shutdown) : Prompt s event := by
  cases event with
  | dispatch =>
    intro at_
    have stopped : s.isRunning = false := inv.dispatching.stopped (by simp [flatten, at_, Dispatcher.stopped])
    have runs : s.isRunning = true := inv.gates.running.mpr idle
    rw [stopped] at runs
    cases runs
  | shutdown => exact absurd rfl other
  | _ => trivial

theorem Tasks.pending_eq (tasks : Tasks s) :
    s.pendingTasksCounter = (s.submitted.toFinset \ s.done.toFinset).card := by
  have fewer := tasks.done_subperm
  have nodup := List.nodup_iff_count_le_one.mpr tasks.submitted_le
  have unique :=
    List.nodup_iff_count_le_one.mpr fun task => (fewer.count_le task).trans (tasks.submitted_le task)
  have subset : s.done.toFinset ⊆ s.submitted.toFinset := by
    intro task mem
    simpa using fewer.subset (by simpa using mem)
  have pending := tasks.pending
  rw [Finset.card_sdiff_of_subset subset, List.toFinset_card_of_nodup nodup,
    List.toFinset_card_of_nodup unique]
  have shorter := fewer.length_le
  omega

/-- Without `Shutdown`, whatever the interleaving: no task is executed twice, the counter counts
the tasks that have increased it and are not done, and when nobody can go on every call has
returned and every task has been executed. -/
theorem running_pool_executes_all (workerCount : Nat) (positive : 0 < workerCount) (cancel : Bool)
    (events : List Event) (unstopped : .shutdown ∉ events)
    (ran : run step (start workerCount cancel) events = some s) :
    (∀ task, s.executed.count task ≤ 1) ∧
    s.pendingTasksCounter = (s.submitted.toFinset \ s.done.toFinset).card ∧
    ((∀ event, event ≠ .call → event ≠ .shutdown → step s event = none) →
      s.submits = 0 ∧ ∀ task < s.created, s.executed.count task = 1 ∧ task ∈ s.done) := by
  have along : Along step (fun _ event => event ≠ .shutdown) (start workerCount cancel) events := by
    refine .of_forall (fun event mem _ => ?_) _
    rintro rfl
    exact unstopped mem
  have keeps : ∀ s event next,
      Inv s.flatten ∧ s.shutdown = .idle ∧ s.workerCount = workerCount → event ≠ .shutdown →
      step s event = some next →
      Inv next.flatten ∧ next.shutdown = .idle ∧ next.workerCount = workerCount := by
    rintro s event next ⟨inv, idle, count⟩ other stepped
    obtain ⟨same, still⟩ := step_frame stepped
    exact ⟨inv_step inv (prompt_of_running inv idle other) stepped, (still other).trans idle,
      same.trans count⟩
  obtain ⟨inv, idle, count⟩ :=
    run_invariant_along keeps ⟨inv_start, rfl, rfl⟩ along ran
  refine ⟨inv.tasks.executed_le, inv.tasks.pending_eq, fun stuck => ?_⟩
  have runs : s.isRunning = true := inv.gates.running.mpr idle
  have free : s.mutex = false := by
    have mutex := inv.gates.mutex
    simpa [flatten, idle, Shutdown.holdsMutex] using mutex
  have rest := rest_of_stuck inv free stuck
  refine ⟨rest.submits, fun task taken => ?_⟩
  rcases rest.ends inv (count ▸ positive) free with ⟨-, nowhere⟩ | ⟨at_, -⟩
  · obtain ⟨done, executed⟩ := rest.done inv (inv.tasks.perm_of_located nowhere) taken
    have kept : s.cancelled = [] := inv.workforce.cancelled runs
    rw [kept, List.count_nil] at executed
    exact ⟨executed, List.count_pos_iff.mp (by omega)⟩
  · have stopped : s.isRunning = false :=
      inv.dispatching.stopped (by simp [flatten, at_, Dispatcher.stopped])
    rw [runs] at stopped
    cases stopped

/-- What it takes that nobody can go on. -/
theorem step_none (calls : s.calls = 0) (dispatched : dispatch s.toPool = none)
    (workers : ∀ worker ∈ s.workers, ∀ choice, work s.toPool worker choice = none) (event : Event)
    (uncalled : event ≠ .call) (other : event ≠ .shutdown) : step s event = none := by
  cases event with
  | call => exact absurd rfl uncalled
  | submit call => simp [step, calls]
  | dispatch => simp [step, dispatched]
  | shutdown => exact absurd rfl other
  | work worker choice =>
    rw [step]
    split
    · rw [workers worker ‹_› choice]
      rfl
    · rfl

/-- One worker, and a task that submits another one while the dispatcher looks for more. -/
def nestedSubmit : List Event :=
  .replicate 5 .dispatch ++
  [.call, .submit .called, .submit (.accepted 0), .submit (.increased 0), .submit .pushed] ++
  .replicate 4 .dispatch ++
  [.work .polling .default, .work .selecting .dispatcherChan,
    .work (.running .workerReadLoop 0 none) .submit,
    .work (.running .workerReadLoop 0 (some .called)) .proceed, .dispatch,
    .work (.running .workerReadLoop 0 (some (.accepted 1))) .proceed,
    .work (.running .workerReadLoop 0 (some (.increased 1))) .proceed,
    .work (.running .workerReadLoop 0 (some .pushed)) .proceed] ++
  .replicate 4 .dispatch ++
  [.work (.running .workerReadLoop 0 none) .proceed, .work (.marking .workerReadLoop 0) .proceed,
    .work (.notifying .workerReadLoop) .proceed, .work .polling .default,
    .work .selecting .dispatcherChan, .work (.running .workerReadLoop 1 none) .proceed,
    .work (.marking .workerReadLoop 1) .proceed, .work (.notifying .workerReadLoop) .proceed,
    .work .polling .default] ++
  .replicate 5 .dispatch

def nestedSubmitRests : State :=
  { start 1 true with
    dispatcher := .waiting
    workers := {.selecting}
    created := 2
    submitted := [1, 0]
    executed := [1, 0]
    done := [1, 0] }

theorem nestedSubmit_executes_all :
    run step (start 1 true) nestedSubmit = some nestedSubmitRests ∧
      ∀ task < nestedSubmitRests.created, nestedSubmitRests.executed.count task = 1 := by
  have ran : run step (start 1 true) nestedSubmit = some nestedSubmitRests := rfl
  have selects : ∀ worker ∈ nestedSubmitRests.workers, ∀ choice,
      work nestedSubmitRests.toPool worker choice = none := by
    intro worker mem choice
    cases mem_singleton.mp mem
    cases choice <;> rfl
  have rests := step_none rfl rfl selects
  obtain ⟨-, -, finished⟩ :=
    running_pool_executes_all 1 (by decide) true nestedSubmit (by decide) ran
  exact ⟨ran, fun task taken => ((finished rests).2 task taken).1⟩

end HiveGo.WorkerPool
