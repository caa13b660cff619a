import HiveGo.WorkerPoolSteps

/-! Where the tasks of the worker pool are. Every pending task is at one place: with its call of
`Submit`, in the queue, with the dispatcher, in the channel or with a worker. -/
namespace HiveGo.WorkerPool
open Multiset Option

/-- The task that the dispatcher sends. -/
def Dispatcher.carried : Dispatcher → Option Nat
  | sending task => some task
  | _ => none

/-- The task that a worker has taken from the channel and not marked as done. -/
def Worker.task : Worker → Option Nat
  | running _ task _ | marking _ task => some task
  | _ => none

/-- How many workers have the task. -/
def held (workers : Multiset Worker) (task : Nat) : Nat := workers.countP (·.task = some task)

/-- How many places have the task. -/
def State.located (s : State) (task : Nat) : Nat :=
  s.calls.count (.increased task) + s.queue.count task +
    s.dispatcher.carried.toList.count task + s.dispatcherChan.count task + held s.workers task

structure Tasks (s : State) : Prop where
  accepted : ∀ task, s.calls.count (.accepted task) + s.submitted.count task =
    if task < s.created then 1 else 0
  located : ∀ task, s.located task + s.done.count task = s.submitted.count task
  executed : ∀ task, s.executed.count task + s.cancelled.count task =
    held s.workers task + s.done.count task
  pending : s.pendingTasksCounter + s.done.length = s.submitted.length
  kept : s.optCancelPendingTasksOnShutdown = false → s.cancelled = []

theorem elementAdded_carried (dispatcher : Dispatcher) :
    dispatcher.elementAdded.carried = dispatcher.carried := by
  cases dispatcher <;> rfl

theorem valueDecreased_carried (dispatcher : Dispatcher) :
    dispatcher.valueDecreased.carried = dispatcher.carried := by
  cases dispatcher <;> rfl

/-! All counts of the task at the front are brought to the same form. -/

theorem count_task (tasks : List Nat) :
    (task :: tasks).count other = [task].count other + tasks.count other := by
  rw [← List.singleton_append, List.count_append]

theorem count_call {call : Nat → Submit} (injective : call.Injective) :
    (call task ::ₘ calls).count (call other) = [task].count other + calls.count (call other) := by
  rw [count_cons, List.count_singleton, Nat.add_comm]
  simp [injective.eq_iff, eq_comm (a := other)]

theorem held_cons :
    held (worker ::ₘ workers) other = worker.task.toList.count other + held workers other := by
  rw [held, countP_cons, ← held]
  cases has : worker.task with
  | none => simp
  | some task => simp [List.count_singleton, Nat.add_comm]

theorem Tasks.call (tasks : Tasks s) : Tasks { s with calls := .called ::ₘ s.calls } := by
  refine { tasks with accepted := fun task => ?_, located := fun task => ?_ }
  · rw [count_cons_of_ne (by simp)]
    exact tasks.accepted task
  · have pre := tasks.located task
    simp only [State.located] at pre ⊢
    rwa [count_cons_of_ne (by simp)]

theorem Tasks.submit {call : Submit}
    (tasks : Tasks s) (runs : s.calls = call ::ₘ rest) (submits : Submits s.toPool call pool after) :
    Tasks { s with toPool := pool, calls := ofList after.toList + rest } := by
  have taken := tasks.accepted
  have located := tasks.located
  have pending := tasks.pending
  simp only [State.located] at located
  rw [runs] at taken located
  cases submits with
  | accept =>
    refine ⟨fun task => ?_, fun task => ?_, tasks.executed, pending, tasks.kept⟩
    · have pre := taken task
      simp only [toList_some, coe_singleton, singleton_add, count_call fun _ _ => Submit.accepted.inj,
        List.count_singleton, beq_iff_eq]
      rw [count_cons_of_ne (by simp)] at pre
      split at pre <;> split <;> split <;> omega
    · have pre := located task
      simpa [State.located] using pre
  | increase task =>
    refine ⟨fun other => ?_, fun other => ?_, tasks.executed, ?_, tasks.kept⟩
    · have pre := taken other
      rw [count_call fun _ _ => Submit.accepted.inj] at pre
      simp only [toList_some, coe_singleton, singleton_add]
      rw [count_cons_of_ne (by simp), count_task]
      omega
    · have pre := located other
      rw [count_cons_of_ne (by simp)] at pre
      simp only [State.located, toList_some, coe_singleton, singleton_add,
        count_call fun _ _ => Submit.increased.inj]
      rw [count_task s.submitted]
      omega
    · simp only [List.length_cons]
      omega
  | push task free =>
    refine ⟨fun other => ?_, fun other => ?_, tasks.executed, pending, tasks.kept⟩
    · have pre := taken other
      rw [count_cons_of_ne (by simp)] at pre
      simp only [toList_some, coe_singleton, singleton_add]
      rwa [count_cons_of_ne (by simp)]
    · have pre := located other
      rw [count_call fun _ _ => Submit.increased.inj] at pre
      simp only [State.located, toList_some, coe_singleton, singleton_add, List.count_append]
      rw [count_cons_of_ne (by simp)]
      omega
  | reject | broadcast =>
    refine ⟨fun task => ?_, fun task => ?_, tasks.executed, pending, tasks.kept⟩
    · have pre := taken task
      simpa using pre
    · have pre := located task
      simpa [State.located, elementAdded_carried] using pre

/-- The dispatcher goes on without a task. -/
theorem Tasks.go (tasks : Tasks s) (same : dispatcher.carried = s.dispatcher.carried) :
    Tasks { s with toPool := { s.toPool with dispatcher } } := by
  refine { tasks with located := fun task => ?_ }
  have pre := tasks.located task
  simp only [State.located] at pre ⊢
  rwa [same]

theorem Tasks.dispatch (tasks : Tasks s) (dispatches : Dispatches s.toPool pool) :
    Tasks { s with toPool := pool } := by
  have located := tasks.located
  simp only [State.located] at located
  cases dispatches with
  | remove at_ task queue front =>
    refine { tasks with located := fun other => ?_ }
    have pre := located other
    rw [front, at_, count_task] at pre
    simp only [State.located, Dispatcher.carried, toList_none, List.count_nil, toList_some] at pre ⊢
    omega
  | send task at_ =>
    refine { tasks with located := fun other => ?_ }
    have pre := located other
    rw [at_] at pre
    simp only [State.located, Dispatcher.carried, toList_none, List.count_nil,
      toList_some, List.count_append] at pre ⊢
    omega
  | lock at_ =>
    refine tasks.go ?_
    rcases at_ with at_ | at_
    · rw [at_]
      rfl
    · rw [at_]
      rfl
  | close at_ =>
    have same : Dispatcher.exited.carried = s.dispatcher.carried := by
      rw [at_]
      rfl
    exact { tasks.go same with }
  | loop at_ | stop at_ | leave at_ | remain at_ | empty at_ | found at_ | await at_ | give_up at_
  | wait at_ | sleep at_ | zero at_ =>
    refine tasks.go ?_
    rw [at_]
    rfl

theorem Tasks.shutdown (tasks : Tasks s) (shutsDown : ShutsDown s.toPool pool) :
    Tasks { s with toPool := pool } := by
  cases shutsDown with
  | broadcast at_ => exact { tasks.go (elementAdded_carried s.dispatcher) with }
  | _ => exact { tasks with }

section Worker

variable (tasks : Tasks s) (runs : s.workers = worker ::ₘ rest)
include tasks runs

/-- A worker goes on with the task it has, or without one. -/
theorem Tasks.keep
    (same : after.task = worker.task) : Tasks { s with workers := after ::ₘ rest } := by
  have alike : ∀ task, held (after ::ₘ rest) task = held s.workers task := by
    intro task
    rw [runs, held_cons, held_cons, same]
  refine ⟨tasks.accepted, fun task => ?_, fun task => ?_, tasks.pending, tasks.kept⟩
  · have pre := tasks.located task
    simp only [State.located] at pre ⊢
    rwa [alike]
  · rw [alike]
    exact tasks.executed task

/-- A worker takes the next task of the channel. -/
theorem Tasks.take (front : s.dispatcherChan = task :: tail) (idle : worker.task = none)
    (busy : after.task = some task) {executed cancelled : List Nat}
    (noted : ∀ other, executed.count other + cancelled.count other =
      [task].count other + (s.executed.count other + s.cancelled.count other))
    (kept : s.optCancelPendingTasksOnShutdown = false → cancelled = []) :
    Tasks { s with
      toPool := { s.toPool with dispatcherChan := tail, executed, cancelled }
      workers := after ::ₘ rest } := by
  refine ⟨tasks.accepted, fun other => ?_, fun other => ?_, tasks.pending, kept⟩
  · have pre := tasks.located other
    simp only [State.located] at pre ⊢
    rw [front, runs, held_cons, idle, count_task] at pre
    rw [held_cons, busy]
    simp only [toList_none, List.count_nil, toList_some] at pre ⊢
    omega
  · have pre := tasks.executed other
    rw [runs, held_cons, idle] at pre
    rw [held_cons, busy, noted]
    simp only [toList_none, List.count_nil, toList_some] at pre ⊢
    omega

theorem Tasks.work
    (works : Works s.toPool worker pool after) :
    Tasks { s with toPool := pool, workers := after ::ₘ rest } := by
  cases works with
  | signal worker at_ =>
    have same : Worker.draining.task = worker.task := by
      rcases at_ with rfl | rfl
      · rfl
      · rfl
    exact { tasks.keep runs same with }
  | run task tail front | drain task tail front =>
    refine tasks.take runs front rfl rfl (fun other => ?_) tasks.kept
    rw [count_task, Nat.add_assoc]
  | cancel task tail front cancels =>
    refine tasks.take runs front rfl rfl (fun other => ?_) fun never => ?_
    · rw [count_task s.cancelled, Nat.add_left_comm]
    · rw [cancels] at never
      cases never
  | mark loop task =>
    refine ⟨tasks.accepted, fun other => ?_, fun other => ?_, ?_, tasks.kept⟩
    · have pre := tasks.located other
      simp only [State.located] at pre ⊢
      rw [runs, held_cons] at pre
      rw [held_cons, count_task s.done]
      simp only [Worker.task, toList_none, List.count_nil, toList_some] at pre ⊢
      omega
    · have pre := tasks.executed other
      rw [runs, held_cons] at pre
      rw [held_cons, count_task s.done]
      simp only [Worker.task, toList_none, List.count_nil, toList_some] at pre ⊢
      omega
    · have pre := tasks.pending
      simp only [List.length_cons]
      omega
  | notify loop =>
    have same : loop.next.task = (Worker.notifying loop).task := by
      cases loop with
      | workerReadLoop => rfl
      | handleShutdown => rfl
    exact (tasks.go (valueDecreased_carried s.dispatcher)).keep runs same
  | default | closed | exit | finish => exact tasks.keep runs rfl

end Worker

theorem Tasks.step (tasks : Tasks s) (ran : FlatStep s next) : Tasks next := by
  cases ran with
  | call => exact tasks.call
  | submit rest runs submits => exact tasks.submit runs submits
  | dispatch dispatches => exact tasks.dispatch dispatches
  | shutdown shutsDown => exact tasks.shutdown shutsDown
  | work rest runs works => exact tasks.work runs works

theorem tasks_start : Tasks (start workerCount cancel).flatten := by
  have idle : ∀ task, held ((start workerCount cancel).flatten).workers task = 0 := by
    intro task
    rw [held, countP_eq_zero]
    intro worker mem
    simp only [State.flatten, start, map_replicate] at mem
    cases eq_of_mem_replicate mem
    simp [Worker.base, Worker.task]
  have quiet : ((start workerCount cancel).flatten).calls = 0 := by
    refine eq_zero_of_forall_notMem fun call mem => ?_
    simp only [State.flatten, State.submits, start, Multiset.zero_add, Multiset.mem_filterMap] at mem
    obtain ⟨worker, there, calls⟩ := mem
    cases eq_of_mem_replicate there
    cases calls
  refine ⟨fun task => ?_, fun task => ?_, fun task => ?_, rfl, fun _ => rfl⟩
  · rw [quiet]
    rfl
  · rw [State.located, idle, quiet]
    rfl
  · rw [idle]
    rfl

/-! What the counts say. -/

variable (tasks : Tasks s)
include tasks

theorem Tasks.submitted_le (task : Nat) : s.submitted.count task ≤ 1 := by
  have bound := tasks.accepted task
  split at bound <;> omega

theorem Tasks.executed_le (task : Nat) : s.executed.count task ≤ 1 := by
  have once := tasks.submitted_le task
  have located := tasks.located task
  have executed := tasks.executed task
  unfold State.located at located
  omega

theorem Tasks.done_subperm : s.done.Subperm s.submitted := by
  rw [List.subperm_iff_count]
  intro task
  have located := tasks.located task
  omega

/-- When no task is pending, or none is at any place, all are done. -/
theorem Tasks.perm_of_pending (zero : s.pendingTasksCounter ≤ 0) : s.done.Perm s.submitted := by
  have pending := tasks.pending
  exact tasks.done_subperm.perm_of_length_le (by omega)

theorem Tasks.perm_of_located (nowhere : ∀ task, s.located task = 0) : s.done.Perm s.submitted := by
  rw [List.perm_iff_count]
  intro task
  have located := tasks.located task
  rw [nowhere] at located
  omega

theorem Tasks.pending_of_perm (all : s.done.Perm s.submitted) : s.pendingTasksCounter = 0 := by
  have pending := tasks.pending
  have length := all.length_eq
  omega

end HiveGo.WorkerPool
