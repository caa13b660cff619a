import HiveGo.Runs

/-! A ticker with its goroutine, and those that wait for its graceful shutdown. -/
namespace HiveGo.Ticker

/-- The goroutine of `run`: not yet in the wait group, in its select, in the handler, and back from
its loop. -/
inductive Phase where
  | starting
  | selecting
  | handling
  | returned
  deriving DecidableEq

structure State where
  cancelled : Bool := false
  phase : Phase := .starting
  gracefulShutdown : Nat := 0
  handlerCalls : Nat := 0

/-- A step of the goroutine, a cancellation of the context, or a return of
`WaitForGracefulShutdown`. -/
inductive Event where
  | add
  | tick
  | handled
  | done
  | shutdown
  | waited

/-- The select may choose a tick after the cancellation. -/
def step (s : State) : Event → Option State
  | .add =>
    if s.phase = .starting then
      some { s with phase := .selecting, gracefulShutdown := s.gracefulShutdown + 1 }
    else none
  | .tick =>
    if s.phase = .selecting then
      some { s with phase := .handling, handlerCalls := s.handlerCalls + 1 }
    else none
  | .handled => if s.phase = .handling then some { s with phase := .selecting } else none
  | .done =>
    if s.phase = .selecting ∧ s.cancelled then
      some { s with phase := .returned, gracefulShutdown := s.gracefulShutdown - 1 }
    else none
  | .shutdown => some { s with cancelled := true }
  | .waited => if s.gracefulShutdown = 0 then some s else none

/-- The wait group counts the goroutine from its first step to its last. -/
structure Counted (s : State) : Prop where
  counts : s.gracefulShutdown = if s.phase = .starting ∨ s.phase = .returned then 0 else 1
  cancelled : s.phase = .returned → s.cancelled

theorem counted_step (s e next) (counted : Counted s) (ran : step s e = some next) :
    Counted next := by
  obtain ⟨counts, cancelled⟩ := counted
  cases e with
  | add | tick | handled =>
    obtain ⟨phase, same⟩ := Option.ite_none_right_eq_some.mp ran
    cases same
    exact ⟨by simpa [phase] using counts, nofun⟩
  | done =>
    obtain ⟨⟨phase, stopped⟩, same⟩ := Option.ite_none_right_eq_some.mp ran
    cases same
    exact ⟨by simp [phase, counts], fun _ => stopped⟩
  | shutdown =>
    cases ran
    exact ⟨counts, fun _ => rfl⟩
  | waited =>
    obtain ⟨-, same⟩ := Option.ite_none_right_eq_some.mp ran
    cases same
    exact ⟨counts, cancelled⟩

theorem returned_step (s e next) (kept : s.phase = .returned ∧ s.handlerCalls = calls)
    (ran : step s e = some next) : next.phase = .returned ∧ next.handlerCalls = calls := by
  cases e <;> grind [step]

/-- Whoever waits for a goroutine that is in the wait group waits until the context is cancelled
and the last handler has returned. -/
theorem waits_for_goroutine (ran : run step {} events = some s) (returns : step s .waited = some next)
    (added : s.phase ≠ .starting) : next.cancelled ∧ next.phase ≠ .handling ∧
      ∀ later last, run step next later = some last → last.handlerCalls = next.handlerCalls := by
  have counted : Counted s := run_invariant counted_step ⟨rfl, by decide⟩ ran
  have left : next = s ∧ s.phase = .returned := by grind [step, Counted]
  obtain ⟨rfl, returned⟩ := left
  refine ⟨counted.cancelled returned, by simp [returned], fun later last ran => ?_⟩
  exact (run_invariant returned_step ⟨returned, rfl⟩ ran).2

theorem waits_for_last_tick : ∃ s, run step {} [.add, .shutdown, .tick, .handled, .done] = some s ∧
    step s .waited = some s ∧ s.cancelled := by
  have ran : run step {} [.add, .shutdown, .tick, .handled, .done] = some ⟨true, .returned, 0, 1⟩ := rfl
  exact ⟨_, ran, rfl, (waits_for_goroutine ran rfl nofun).1⟩

/-- Before the goroutine starts, nothing is waited for, and its handler is called later. -/
theorem waits_for_nothing : ∃ s last, step {} .waited = some s ∧ s.cancelled = false ∧
    run step s [.add, .tick] = some last ∧ last.handlerCalls = 1 :=
  ⟨_, _, rfl, rfl, rfl, rfl⟩

end HiveGo.Ticker
