import HiveGo.Runs

/-! The shutdown handler. A request goes to a goroutine that waits in its select, or is dropped. -/
namespace HiveGo.ShutdownHandler

/-- The goroutines that `Run` has started, by where they are, with the signal that none of them has
taken and the calls of `ShutdownAndWait`. -/
structure State where
  starting : Nat := 0
  selecting : Nat := 0
  stopping : Nat := 0
  gracefulStop : Bool := false
  shutdowns : Nat := 0

def State.requested (s : State) : State :=
  { s with selecting := s.selecting - 1, stopping := s.stopping + 1 }

inductive Event where
  | run (checked : Bool)
  | selfShutdown
  | signal
  | select
  | shutdownAndWait

/-- `Run` starts no goroutine when the check of the logs directory fails. -/
def step (s : State) : Event → Option State
  | .run checked => some (if checked then { s with starting := s.starting + 1 } else s)
  | .selfShutdown => some (if 0 < s.selecting then s.requested else s)
  | .signal => some (if 0 < s.selecting then s.requested else { s with gracefulStop := true })
  | .select =>
    if s.starting = 0 then none
    else if s.gracefulStop then
      some { s with starting := s.starting - 1, stopping := s.stopping + 1, gracefulStop := false }
    else some { s with starting := s.starting - 1, selecting := s.selecting + 1 }
  | .shutdownAndWait =>
    if s.stopping = 0 then none
    else some { s with stopping := s.stopping - 1, shutdowns := s.shutdowns + 1 }

/-- No goroutine has a step. -/
def Quiet (s : State) : Prop := step s .select = none ∧ step s .shutdownAndWait = none

theorem State.requested_pos (s : State) : 0 < s.requested.stopping + s.requested.shutdowns := by
  simp only [requested]
  omega

theorem request_kept (s e next) (requested : 0 < s.stopping + s.shutdowns)
    (ran : step s e = some next) : 0 < next.stopping + next.shutdowns := by
  cases e with
  | run checked =>
    cases ran
    cases checked <;> exact requested
  | selfShutdown | signal =>
    cases ran
    split
    · exact s.requested_pos
    · exact requested
  | select =>
    obtain ⟨-, ran⟩ := Option.ite_none_left_eq_some.mp ran
    split at ran
    · cases ran
      exact Nat.lt_of_lt_of_le requested (Nat.add_le_add_right (Nat.le_succ _) _)
    · cases ran
      exact requested
  | shutdownAndWait =>
    obtain ⟨-, ran⟩ := Option.ite_none_left_eq_some.mp ran
    cases ran
    exact Nat.add_pos_right _ (Nat.succ_pos _)

/-- A request that is made when some goroutine has come to its select is not lost. -/
theorem selfShutdown_not_lost (reached : 0 < s.selecting + s.stopping + s.shutdowns)
    (ran : run step s (.selfShutdown :: events) = some last) (quiet : Quiet last) :
    0 < last.shutdowns := by
  have requested : 0 < (if 0 < s.selecting then s.requested else s).stopping +
      (if 0 < s.selecting then s.requested else s).shutdowns := by
    split
    · exact s.requested_pos
    · omega
  have kept := run_invariant request_kept requested ran
  have stopped : last.stopping = 0 := by simpa [step] using quiet.2
  omega

theorem selfShutdown_of_waiting : ∃ s last, run step {} [.run true, .select] = some s ∧
    run step s [.selfShutdown, .shutdownAndWait] = some last ∧ 0 < last.shutdowns := by
  have ran : run step { selecting := 1 } [.selfShutdown, .shutdownAndWait] = some { shutdowns := 1 } := rfl
  exact ⟨_, _, rfl, ran, selfShutdown_not_lost (by decide) ran ⟨rfl, rfl⟩⟩

/-- The request comes before the goroutine is at its select, where it then waits forever. -/
theorem selfShutdown_lost : ∃ s, run step {} [.run true, .selfShutdown, .select] = some s ∧
    Quiet s ∧ s.shutdowns = 0 :=
  ⟨_, rfl, ⟨rfl, rfl⟩, rfl⟩

end HiveGo.ShutdownHandler
