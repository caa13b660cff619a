import HiveGo.Runs

/-! The starving mutex. What is done under its lock is one step, a wait puts the client into a
queue, and the call that wakes somebody is a step of its own after the lock was given back. -/
namespace HiveGo
open Nat Bool

/-- The fields of the mutex. -/
structure StarvingMutex where
  readersActive : Nat := 0
  writerActive : Bool := false
  pendingWriters : Nat := 0
  deriving DecidableEq

/-- Who is to be woken after the lock was given back. -/
inductive Wake where
  | nobody
  | signalWriter
  | broadcastReaders
  deriving DecidableEq

namespace StarvingMutex

def canWrite (f : StarvingMutex) : Bool := !f.writerActive && f.readersActive == 0

/-- One pass of the loop in `RLock`. It is none if the reader has to wait. -/
def tryRLock (f : StarvingMutex) : Option StarvingMutex :=
  if f.writerActive then none else some { f with readersActive := f.readersActive + 1 }

/-- `RUnlock` up to the wake-up. It is none if it panics. -/
def rUnlock (f : StarvingMutex) : Option (StarvingMutex × Wake) :=
  if f.readersActive = 0 then none
  else if f.writerActive then none
  else
    let f := { f with readersActive := f.readersActive - 1 }
    if f.readersActive = 0 ∧ 0 < f.pendingWriters then some (f, .signalWriter) else some (f, .nobody)

/-- `Lock` in front of its loop. -/
def enterLock (f : StarvingMutex) : StarvingMutex := { f with pendingWriters := f.pendingWriters + 1 }

/-- One pass of the loop in `Lock`, and what follows it. It is none if the writer has to wait. -/
def tryLock (f : StarvingMutex) : Option StarvingMutex :=
  if f.canWrite then some { f with pendingWriters := f.pendingWriters - 1, writerActive := true }
  else none

/-- `Unlock` up to the wake-up. It is none if it panics. -/
def unlock (f : StarvingMutex) : Option (StarvingMutex × Wake) :=
  if 0 < f.readersActive then none
  else
    let f := { f with writerActive := false }
    if f.pendingWriters = 0 then some (f, .broadcastReaders) else some (f, .signalWriter)

variable {f : StarvingMutex}

theorem tryLock_eq_some (passed : f.tryLock = some next) :
    f.readersActive = 0 ∧ f.writerActive = false ∧ next.readersActive = 0 ∧
      next.writerActive = true := by
  unfold tryLock at passed
  split at passed
  · rename_i able
    simp only [canWrite, and_eq_true, not_eq_true', beq_iff_eq] at able
    cases passed
    exact ⟨able.2, able.1, able.2, rfl⟩
  · cases passed

theorem rUnlock_of_reading (reading : 0 < f.readersActive) (inactive : ¬ f.writerActive = true) :
    ∃ next wake, f.rUnlock = some (next, wake) ∧ next.readersActive + 1 = f.readersActive ∧
      next.writerActive = f.writerActive := by
  unfold rUnlock
  rw [if_neg (by omega), if_neg inactive]
  dsimp only
  split
  · exact ⟨_, _, rfl, Nat.sub_add_cancel reading, rfl⟩
  · exact ⟨_, _, rfl, Nat.sub_add_cancel reading, rfl⟩

theorem unlock_of_idle (idle : f.readersActive = 0) :
    ∃ next wake, f.unlock = some (next, wake) ∧ next.readersActive = 0 ∧
      next.writerActive = false := by
  unfold unlock
  rw [if_neg (by omega)]
  dsimp only
  split
  · exact ⟨_, _, rfl, idle, rfl⟩
  · exact ⟨_, _, rfl, idle, rfl⟩

/-- The mutex and its clients, who are interchangeable: how many of them are in which phase of
their calls. -/
structure State where
  mutex : StarvingMutex := {}
  waitingReaders : Nat := 0
  wokenReaders : Nat := 0
  reading : Nat := 0
  waitingWriters : Nat := 0
  wokenWriters : Nat := 0
  writing : Nat := 0
  signalling : Nat := 0
  broadcasting : Nat := 0
  panicked : Bool := false
  deriving DecidableEq

/-- What a client does next. A client unlocks only what it holds. -/
inductive Event where
  | rLock
  | recheckReader
  | rUnlock
  | lock
  | recheckWriter
  | unlock
  | signal
  | broadcast
  deriving DecidableEq

namespace State

/-- A reader passes the loop or waits. -/
def read (s : State) : State :=
  match s.mutex.tryRLock with
  | some mutex => { s with mutex, reading := s.reading + 1 }
  | none => { s with waitingReaders := s.waitingReaders + 1 }

/-- A writer passes the loop or waits. -/
def write (s : State) : State :=
  match s.mutex.tryLock with
  | some mutex => { s with mutex, writing := s.writing + 1 }
  | none => { s with waitingWriters := s.waitingWriters + 1 }

/-- A call that unlocks has given the lock back. -/
def release (s : State) : Option (StarvingMutex × Wake) → State
  | none => { s with panicked := true }
  | some (mutex, .nobody) => { s with mutex }
  | some (mutex, .signalWriter) => { s with mutex, signalling := s.signalling + 1 }
  | some (mutex, .broadcastReaders) => { s with mutex, broadcasting := s.broadcasting + 1 }

end State

/-- One step of one client, if there is a client in that phase. -/
def step (s : State) : Event → Option State
  | .rLock => some s.read
  | .recheckReader =>
    if s.wokenReaders = 0 then none else some { s with wokenReaders := s.wokenReaders - 1 }.read
  | .rUnlock =>
    if s.reading = 0 then none
    else some ({ s with reading := s.reading - 1 }.release s.mutex.rUnlock)
  | .lock => some { s with mutex := s.mutex.enterLock }.write
  | .recheckWriter =>
    if s.wokenWriters = 0 then none else some { s with wokenWriters := s.wokenWriters - 1 }.write
  | .unlock =>
    if s.writing = 0 then none
    else some ({ s with writing := s.writing - 1 }.release s.mutex.unlock)
  | .signal =>
    if s.signalling = 0 then none
    else if s.waitingWriters = 0 then some { s with signalling := s.signalling - 1 }
    else some { s with
      signalling := s.signalling - 1
      waitingWriters := s.waitingWriters - 1
      wokenWriters := s.wokenWriters + 1 }
  | .broadcast =>
    if s.broadcasting = 0 then none
    else some { s with
      broadcasting := s.broadcasting - 1
      waitingReaders := 0
      wokenReaders := s.wokenReaders + s.waitingReaders }

/-- The fields count the clients, and whoever waits will be woken: a writer by the holders, a
signal on its way or a writer that was woken; a reader by the writer, a broadcast on its way or a
pending writer. -/
structure Inv (s : State) : Prop where
  readers : s.mutex.readersActive = s.reading
  writer : s.writing = if s.mutex.writerActive then 1 else 0
  exclusive : s.mutex.writerActive = true → s.reading = 0
  pending : s.mutex.pendingWriters = s.waitingWriters + s.wokenWriters
  writers_awaited : 0 < s.waitingWriters →
    0 < s.writing ∨ 0 < s.reading ∨ 0 < s.signalling ∨ 0 < s.wokenWriters
  readers_awaited : 0 < s.waitingReaders →
    0 < s.writing ∨ 0 < s.broadcasting ∨ 0 < s.mutex.pendingWriters
  calm : s.panicked = false

variable {s : State}

theorem inv_read (inv : Inv s) : Inv s.read := by
  obtain ⟨readers, writer, exclusive, pending, writersAwaited, readersAwaited, calm⟩ := inv
  unfold State.read tryRLock
  cases active : s.mutex.writerActive with
  | true =>
    rw [active, if_pos rfl] at writer
    refine ⟨readers, ?_, exclusive, pending, writersAwaited, fun _ => .inl ?_, calm⟩
    · simpa [active] using writer
    · change 0 < s.writing
      omega
  | false =>
    refine ⟨?_, ?_, ?_, pending, fun waiting => .inr (.inl ?_), readersAwaited, calm⟩
    · simp only [false_eq_true, if_false]
      omega
    · simpa [active] using writer
    · simp
    · exact succ_pos _

/-- A writer that is pending and in none of the queues passes the loop or waits. -/
theorem inv_write (inv : Inv { s with wokenWriters := s.wokenWriters + 1 }) : Inv s.write := by
  obtain ⟨readers, writer, exclusive, pending, -, readersAwaited, calm⟩ := inv
  dsimp only at readers writer exclusive pending readersAwaited calm
  unfold State.write tryLock
  cases able : s.mutex.canWrite with
  | true =>
    simp only [canWrite, and_eq_true, not_eq_true', beq_iff_eq] at able
    rw [able.1] at writer
    refine ⟨readers, ?_, fun _ => ?_, ?_, fun _ => .inl ?_, fun _ => .inl ?_, calm⟩
    · simpa using writer
    · exact readers.symm.trans able.2
    · simp only [if_true]
      omega
    · exact succ_pos _
    · exact succ_pos _
  | false =>
    simp only [canWrite, and_eq_false_iff, not_eq_false', beq_eq_false_iff_ne] at able
    refine ⟨readers, writer, exclusive, ?_, fun _ => ?_, readersAwaited, calm⟩
    · simp only [false_eq_true, if_false]
      omega
    · change 0 < s.writing ∨ 0 < s.reading ∨ _
      rcases able with active | reading
      · rw [active, if_pos rfl] at writer
        exact .inl (by omega)
      · exact .inr (.inl (by omega))

theorem inv_rUnlock (inv : Inv s) (holds : s.reading ≠ 0) :
    Inv ({ s with reading := s.reading - 1 }.release s.mutex.rUnlock) := by
  obtain ⟨readers, writer, exclusive, pending, writersAwaited, readersAwaited, calm⟩ := inv
  have inactive : s.mutex.writerActive = false := by
    cases active : s.mutex.writerActive with
    | false => rfl
    | true => exact absurd (exclusive active) holds
  unfold rUnlock
  rw [if_neg (by omega), if_neg (by simp [inactive])]
  dsimp only
  split
  · refine ⟨?_, writer, ?_, pending, fun _ => .inr (.inr (.inl (succ_pos _))), readersAwaited, calm⟩
    · exact congrArg (· - 1) readers
    · simp [State.release, inactive]
  · refine ⟨?_, writer, ?_, pending, fun waiting => ?_, readersAwaited, calm⟩
    · exact congrArg (· - 1) readers
    · simp [State.release, inactive]
    · change 0 < s.waitingWriters at waiting
      change 0 < s.writing ∨ 0 < s.reading - 1 ∨ 0 < s.signalling ∨ 0 < s.wokenWriters
      omega

theorem inv_unlock (inv : Inv s) (holds : s.writing ≠ 0) :
    Inv ({ s with writing := s.writing - 1 }.release s.mutex.unlock) := by
  obtain ⟨readers, writer, exclusive, pending, writersAwaited, readersAwaited, calm⟩ := inv
  have active : s.mutex.writerActive = true := by
    by_contra inactive
    rw [if_neg inactive] at writer
    exact holds writer
  have idle := exclusive active
  rw [active, if_pos rfl] at writer
  unfold unlock
  rw [if_neg (by omega)]
  dsimp only
  split
  · refine ⟨readers, ?_, ?_, pending, fun waiting => ?_, fun _ => .inr (.inl (succ_pos _)), calm⟩
    · simp [State.release, writer]
    · simp [State.release]
    · change 0 < s.waitingWriters at waiting
      omega
  · rename_i pendingOne
    refine ⟨readers, ?_, ?_, pending, fun _ => .inr (.inr (.inl (succ_pos _))),
      fun _ => .inr (.inr ?_), calm⟩
    · simp [State.release, writer]
    · simp [State.release]
    · exact Nat.pos_of_ne_zero pendingOne

theorem inv_signal (inv : Inv s) :
    Inv (if s.waitingWriters = 0 then { s with signalling := s.signalling - 1 }
      else { s with
        signalling := s.signalling - 1
        waitingWriters := s.waitingWriters - 1
        wokenWriters := s.wokenWriters + 1 }) := by
  obtain ⟨readers, writer, exclusive, pending, writersAwaited, readersAwaited, calm⟩ := inv
  split
  · rename_i nobody
    exact ⟨readers, writer, exclusive, pending, fun waiting => absurd nobody (Nat.ne_of_gt waiting),
      readersAwaited, calm⟩
  · refine ⟨readers, writer, exclusive, ?_, fun _ => .inr (.inr (.inr (succ_pos _))),
      readersAwaited, calm⟩
    dsimp only
    omega

theorem inv_step (inv : Inv s) (ran : step s event = some next) : Inv next := by
  cases event with
  | rLock =>
    cases ran
    exact inv_read inv
  | recheckReader =>
    simp only [step] at ran
    split at ran
    · cases ran
    · cases ran
      exact inv_read { inv with }
  | rUnlock =>
    simp only [step] at ran
    split at ran
    · cases ran
    · rename_i holds
      cases ran
      exact inv_rUnlock inv holds
  | lock =>
    cases ran
    refine inv_write { inv with pending := ?_, writers_awaited := fun _ => ?_, readers_awaited :=
      fun _ => ?_ }
    · change s.mutex.pendingWriters + 1 = s.waitingWriters + (s.wokenWriters + 1)
      rw [inv.pending, Nat.add_assoc]
    · exact .inr (.inr (.inr (succ_pos _)))
    · exact .inr (.inr (succ_pos _))
  | recheckWriter =>
    simp only [step] at ran
    split at ran
    · cases ran
    · rename_i woken
      cases ran
      apply inv_write
      simpa [Nat.sub_add_cancel (Nat.pos_of_ne_zero woken)] using inv
  | unlock =>
    simp only [step] at ran
    split at ran
    · cases ran
    · rename_i holds
      cases ran
      exact inv_unlock inv holds
  | signal =>
    have kept := inv_signal inv
    simp only [step] at ran
    split at ran
    · cases ran
    · split at ran
      · rename_i nobody
        cases ran
        rwa [if_pos nobody] at kept
      · rename_i somebody
        cases ran
        rwa [if_neg somebody] at kept
  | broadcast =>
    simp only [step] at ran
    split at ran
    · cases ran
    · cases ran
      exact { inv with readers_awaited := fun waiting => absurd waiting (Nat.lt_irrefl 0) }

theorem inv_new : Inv {} := by
  refine ⟨rfl, rfl, ?_, rfl, ?_, ?_, rfl⟩
  · simp
  · simp
  · simp

/-- Along every interleaving there is at most one writer and no reader next to it, no call panics,
and when nobody is about to wake a client or to look again and nobody holds the lock, then nobody
waits. -/
theorem starvingMutex_exclusive_and_awake (events : List Event) {s : State}
    (ran : run step {} events = some s) :
    s.writing ≤ 1 ∧ (0 < s.writing → s.reading = 0) ∧ s.panicked = false ∧
    (s.signalling = 0 → s.broadcasting = 0 → s.wokenReaders = 0 → s.wokenWriters = 0 →
      s.reading = 0 → s.writing = 0 → s.waitingReaders = 0 ∧ s.waitingWriters = 0) := by
  have inv := run_invariant (fun _ _ _ => inv_step) inv_new ran
  obtain ⟨readers, writer, exclusive, pending, writersAwaited, readersAwaited, calm⟩ := inv
  refine ⟨?_, fun writing => ?_, calm, fun signalling broadcasting _ woken reading writing => ?_⟩
  · split at writer <;> omega
  · apply exclusive
    by_contra inactive
    rw [if_neg inactive] at writer
    omega
  · omega

/-- A reader waits for a writer, another writer waits, and both are woken in turn. -/
def contended : List Event :=
  [.lock, .rLock, .lock, .unlock, .signal, .recheckWriter, .unlock, .broadcast, .recheckReader]

theorem contended_exclusive_and_awake :
    ∃ s, run step {} contended = some s ∧ s.reading = 1 ∧ s.writing ≤ 1 :=
  ⟨_, rfl, rfl, (starvingMutex_exclusive_and_awake contended rfl).1⟩

end StarvingMutex

end HiveGo
