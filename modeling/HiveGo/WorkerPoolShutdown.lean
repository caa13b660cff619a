import HiveGo.WorkerPoolProgress

/-! The shutdown of the worker pool. `Shutdown` broadcasts without the mutex of the queue, so the
dispatcher may miss it between its check and its wait; and it may leave its loop between the steps
of `Submit`. -/
namespace HiveGo.WorkerPool

/-- All workers are gone, and so are the accepted tasks: each was executed, or cancelled if that
is the option, and was marked as done. -/
def State.Complete (s : State) : Prop :=
  (∀ worker ∈ s.workers, worker = .exited) ∧ s.pendingTasksCounter = 0 ∧ ∀ task < s.created,
      s.done.count task = 1 ∧ s.executed.count task + s.cancelled.count task = 1 ∧
        (s.optCancelPendingTasksOnShutdown = false → s.executed.count task = 1)

instance (s : State) : Decidable s.Complete :=
  inferInstanceAs (Decidable (_ ∧ _ ∧ _))

/-- Nobody holds `Shutdown` up. -/
theorem shutdown_none (gates : Gates p) (stuck : shutdown p = none) : p.shutdown = .returned := by
  have mutex := gates.mutex
  have signals := gates.signals
  unfold shutdown at stuck
  cases at_ : p.shutdown with
  | idle =>
    have free : p.mutex = false := by simpa [at_, Shutdown.holdsMutex] using mutex
    simp [at_, free, gates.running.mpr at_] at stuck
  | signalling left =>
    cases left with
    | zero => simp [at_] at stuck
    | succ left =>
      simp only [at_, Shutdown.left] at signals
      simp only [at_] at stuck
      rw [if_pos (by omega)] at stuck
      cases stuck
  | broadcasting | unlocking => simp [at_] at stuck
  | returned => rfl

/-- One worker that cannot go on after the shutdown. -/
theorem step_none_of_returned (calls : s.calls = 0) (dispatched : dispatch s.toPool = none)
    (done : s.shutdown = .returned) (workers : s.workers = {worker})
    (idle : ∀ choice, work s.toPool worker choice = none) (event : Event) (uncalled : event ≠ .call) :
    step s event = none := by
  by_cases shuts : event = .shutdown
  · subst shuts
    simp [step, shutdown, done]
  · refine step_none calls dispatched (fun other mem choice => ?_) event uncalled shuts
    rw [workers] at mem
    cases Multiset.mem_singleton.mp mem
    exact idle choice

/-- If the dispatcher does not miss the broadcast of `Shutdown` and does not leave its loop
before accepted tasks are in the queue, then whenever nobody can go on, the shutdown is complete. -/
theorem shutdown_completes {s : State} (workerCount : Nat) (positive : 0 < workerCount) (cancel : Bool)
    (events : List Event) (prompt : Along step Prompt (start workerCount cancel) events)
    (ran : run step (start workerCount cancel) events = some s)
    (stuck : ∀ event, event ≠ .call → step s event = none) : s.Complete := by
  have keeps : ∀ s event next, Inv s.flatten ∧ s.workerCount = workerCount → Prompt s event →
      step s event = some next → Inv next.flatten ∧ next.workerCount = workerCount := by
    rintro s event next ⟨inv, count⟩ prompt stepped
    exact ⟨inv_step inv prompt stepped, (step_frame stepped).1.trans count⟩
  obtain ⟨inv, count⟩ := run_invariant_along keeps ⟨inv_start, rfl⟩ prompt ran
  have returned : s.shutdown = .returned := by
    have over_ : shutdown s.toPool = none := by
      simpa [step] using stuck .shutdown (by simp)
    exact shutdown_none inv.gates over_
  have free : s.mutex = false := by
    have mutex := inv.gates.mutex
    simpa [State.flatten, returned, Shutdown.holdsMutex] using mutex
  have rest := rest_of_stuck inv free fun event uncalled _ => stuck event uncalled
  rcases rest.ends inv (count ▸ positive) free with ⟨waiting, -⟩ | ⟨left, exited⟩
  · -- the broadcast of the shutdown or of a call would have woken the dispatcher
    have broadcast : s.shutdown.hasBroadcast = true := by
      rw [returned]
      rfl
    have woken : Unpushed s.submits ∨ _ ∧ Submit.pushed ∈ s.submits :=
      inv.wakes.awake (.inr waiting) broadcast
    rw [rest.submits] at woken
    rcases woken with ⟨call, mem, -⟩ | ⟨-, mem⟩
    · cases mem
    · cases mem
  · have all := inv.tasks.perm_of_pending (inv.wakes.zero (.inr left))
    refine ⟨exited, inv.tasks.pending_of_perm all, fun task taken => ?_⟩
    obtain ⟨done, executed⟩ := rest.done inv all taken
    refine ⟨done, executed, fun keeps => ?_⟩
    have gone : s.cancelled = [] := inv.tasks.kept keeps
    rwa [gone, List.count_nil] at executed

/-- A pending task is cancelled while the dispatcher waits for the counter. -/
def promptShutdown : List Event :=
  [.call, .submit .called, .submit (.accepted 0), .submit (.increased 0), .submit .pushed] ++
  .replicate 5 .dispatch ++ .replicate 5 .shutdown ++ .replicate 3 .dispatch ++
  [.work .polling .shutdownSignal, .work .draining .dispatcherChan,
    .work (.marking .handleShutdown 0) .proceed, .work (.notifying .handleShutdown) .proceed,
    .dispatch, .dispatch, .work .draining .dispatcherChan]

def promptShutdownEnd : State :=
  { start 1 true with
    isRunning := false
    closed := true
    dispatcher := .exited
    shutdown := .returned
    workers := {.exited}
    created := 1
    submitted := [0]
    cancelled := [0]
    done := [0] }

theorem promptShutdown_completes :
    run step (start 1 true) promptShutdown = some promptShutdownEnd ∧ promptShutdownEnd.Complete := by
  have ran : run step (start 1 true) promptShutdown = some promptShutdownEnd := rfl
  have stuck : ∀ event, event ≠ .call → step promptShutdownEnd event = none :=
    step_none_of_returned rfl rfl rfl rfl fun choice => by cases choice <;> rfl
  exact ⟨ran, shutdown_completes 1 (by decide) true promptShutdown (by decide) ran stuck⟩

/-- The dispatcher has seen the pool running, `Shutdown` broadcasts, and the dispatcher waits. -/
def missedBroadcast : List Event :=
  .replicate 4 .dispatch ++ .replicate 5 .shutdown ++ [.dispatch, .work .polling .shutdownSignal]

def missedBroadcastEnd : State :=
  { start 1 false with
    isRunning := false
    dispatcher := .waiting
    shutdown := .returned
    workers := {.draining} }

/-- A call has seen the pool running, and the pool shuts down before it pushes its task. -/
def latePush : List Event :=
  [.call, .submit .called] ++ .replicate 5 .shutdown ++ .replicate 4 .dispatch ++
  [.work .polling .shutdownSignal, .work .draining .dispatcherChan, .submit (.accepted 0),
    .submit (.increased 0), .submit .pushed]

def latePushEnd : State :=
  { start 1 false with
    isRunning := false
    closed := true
    dispatcher := .exited
    shutdown := .returned
    workers := {.exited}
    created := 1
    pendingTasksCounter := 1
    queue := [0]
    submitted := [0] }

/-- Without the condition the pool hangs, or it loses a task. -/
theorem shutdown_incomplete :
    (run step (start 1 false) missedBroadcast = some missedBroadcastEnd ∧
      (∀ event, event ≠ .call → step missedBroadcastEnd event = none) ∧
      ¬ missedBroadcastEnd.Complete) ∧
    run step (start 1 false) latePush = some latePushEnd ∧
      (∀ event, event ≠ .call → step latePushEnd event = none) ∧ ¬ latePushEnd.Complete := by
  refine ⟨⟨rfl, ?_, by decide⟩, rfl, ?_, by decide⟩
  · exact step_none_of_returned rfl rfl rfl rfl fun choice => by cases choice <;> rfl
  · exact step_none_of_returned rfl rfl rfl rfl fun choice => by cases choice <;> rfl

end HiveGo.WorkerPool
