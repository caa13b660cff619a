import HiveGo.BatchedWriterFlow

/-! Stopping the batched writer. The goroutine registers itself with the wait group, so an early
stop waits for nothing. Otherwise the stop waits until the goroutine has seen an empty queue, and
all that was accepted is written and reported. -/
namespace HiveGo.BatchedWriter
open List Option CallPool Nat

variable {Obj V : Type}

/-- The goroutine counts in the wait group. -/
def Writer.registered : Writer Obj V → Bool
  | .idle | .spawned | .exited => false
  | _ => true

/-- The goroutine has found the writer stopped and collects nothing. -/
def Writer.leaving : Writer Obj V → Bool
  | .checkingCount | .exiting | .exited => true
  | _ => false

/-- The goroutine has taken an object that is still counted. -/
def Writer.uncounted : Writer Obj V → Nat
  | .adding .resetScheduled _ _ _ | .adding .decrementCount _ _ _ => 1
  | _ => 0

/-- The call has passed the automatic start. -/
def Call.inside : Call Obj → Bool
  | .checkingRunning _ | .testingScheduled _ | .counting _ | .sending _ => true
  | _ => false

/-- The call has counted its object and not sent it. -/
def Call.counted : Call Obj → Nat
  | .sending _ => 1
  | _ => 0

/-- The objects that are scheduled: being sent, in the queue, or just taken from it. -/
def State.scheduledObjects (s : State Obj V) : Nat :=
  (s.calls.map Call.counted).sum + s.batchQueue.length + s.writer.uncounted

/-- The steps under which a stop keeps its promise: a call that stops the writer finds its
goroutine registered, one that finds it stopped finds an empty queue, and the counter does not
wrap around when the goroutine looks at it. -/
def Allowed (s : State Obj V) : Event Obj V → Prop
  | .proceed (.stopping _) =>
    (s.running = true → s.writer ≠ .spawned) ∧ (s.running = false → s.batchQueue = [])
  | .advance => s.writer = .checkingCount → s.scheduledObjects < 2 ^ 32
  | _ => True

instance [DecidableEq Obj] [DecidableEq V] (s : State Obj V) : (e : Event Obj V) →
    Decidable (Allowed s e)
  | .proceed (.stopping _) => inferInstanceAs (Decidable
      ((s.running = true → s.writer ≠ .spawned) ∧ (s.running = false → s.batchQueue = [])))
  | .advance => inferInstanceAs (Decidable
      (s.writer = .checkingCount → s.scheduledObjects < 2 ^ 32))
  | .proceed (.starting _) | .proceed (.checkingRunning _) | .proceed (.testingScheduled _)
  | .proceed (.counting _) | .proceed (.sending _) | .proceed .flushing | .proceed (.waiting _)
  | .modify _ _ | .enqueue _ | .flush | .stop | .tested _ _ | .take | .flushed | .timeout =>
    .isTrue trivial

/-- How far the goroutine can be, by what its clients know. -/
structure Lifecycle (s : State Obj V) : Prop where
  running : s.running = true → s.autoStarted = true ∧ s.writer ≠ .idle ∧ s.writer.leaving = false
  inside : ∀ call ∈ s.calls, call.inside = true → s.autoStarted = true
  accepted : s.accepted ≠ [] → s.autoStarted = true
  registered : s.writeWg = if s.writer.registered then 1 else 0
  waiting : ∀ accepted, .waiting accepted ∈ s.calls → s.writer ≠ .idle ∧ s.writer ≠ .spawned
  finished : s.autoStarted = true → s.running = false → s.startStopMutex = false →
    s.writer = .exited

/-- A call that waits and finds the wait group at zero finds the goroutine gone. -/
theorem Lifecycle.exited (life : Lifecycle s) {taken : Nat}
    (waiting : .waiting taken ∈ s.calls) (zero : s.writeWg = 0) : s.writer = .exited := by
  obtain ⟨notIdle, notSpawned⟩ := life.waiting taken waiting
  have known := life.registered
  generalize s.writer = writer at *
  cases writer with
  | idle => exact absurd rfl notIdle
  | spawned => exact absurd rfl notSpawned
  | exited => rfl
  | _ => simp [zero, Writer.registered] at known

/-- With nothing held and nothing queued, everything accepted is done. -/
theorem Flow.all_done (flow : Flow opts s) (held : s.writer.held = [])
    (unreported : s.writer.unreported = []) (empty : s.batchQueue = []) : s.accepted = s.done := by
  rw [flow.accepted, flow.taken, flow.reported, held, unreported, empty]
  simp

variable [DecidableEq Obj] {next : State Obj V}

/-- The goroutine does not touch what belongs to the clients. -/
theorem moved_clients (moved : Moved opts s next) :
    next.autoStarted = s.autoStarted ∧ next.running = s.running ∧
      next.startStopMutex = s.startStopMutex ∧ next.calls = s.calls ∧
      next.accepted = s.accepted ∧ next.stopped = s.stopped ∧ next.current = s.current := by
  cases moved <;> exact ⟨rfl, rfl, rfl, rfl, rfl, rfl, rfl⟩

/-- Where the goroutine goes: never back to its start, and away from the loop only when the
writer is stopped. -/
theorem moved_places (moved : Moved opts s next)
    (known : s.writeWg = if s.writer.registered then 1 else 0) :
    s.writer ≠ .idle ∧ s.writer ≠ .exited ∧
      (next.writer.leaving = true → s.running = false ∨ s.writer.leaving = true) ∧
      next.writeWg = (if next.writer.registered then 1 else 0) ∧
      next.writer ≠ .idle ∧ next.writer ≠ .spawned := by
  cases moved with
  | registers place =>
    rw [place] at known ⊢
    exact ⟨nofun, nofun, nofun, by simp [known, Writer.registered], nofun, nofun⟩
  | stops place found =>
    rw [place] at known ⊢
    exact ⟨nofun, nofun, fun _ => .inl found, known, nofun, nofun⟩
  | leaves place found =>
    rw [place] at known ⊢
    exact ⟨nofun, nofun, fun _ => .inr rfl, known, nofun, nofun⟩
  | exits place =>
    rw [place] at known ⊢
    exact ⟨nofun, nofun, fun _ => .inr rfl, by simp [known, Writer.registered], nofun, nofun⟩
  | opens place =>
    rcases place with place | place <;> rw [place] at known ⊢ <;>
    exact ⟨nofun, nofun, nofun, known, nofun, nofun⟩
  | takes _ _ _ _ place _ | flushes _ place | closes _ _ place | resets _ _ _ place
  | decrements _ _ _ place | commits _ _ place | reports _ _ _ place =>
    rw [place] at known ⊢
    exact ⟨nofun, nofun, nofun, known, nofun, nofun⟩
  | records _ _ _ _ place _ _ _ goes =>
    rw [place] at known ⊢
    rcases goes with rfl | rfl <;>
    exact ⟨nofun, nofun, nofun, known, nofun, nofun⟩
  | cancels _ again place _ | resumes again place =>
    rw [place] at known ⊢
    cases again <;> exact ⟨nofun, nofun, nofun, known, nofun, nofun⟩

theorem lifecycle_moved (life : Lifecycle s) (moved : Moved opts s next) : Lifecycle next := by
  obtain ⟨autoStarted, runs, mutex, calls, taken, -, -⟩ := moved_clients moved
  obtain ⟨-, notExited, leaving, known, notIdle, notSpawned⟩ := moved_places moved life.registered
  refine ⟨fun live => ?_, ?_, ?_, known, fun _ _ => ⟨notIdle, notSpawned⟩, ?_⟩
  · rw [runs] at live
    obtain ⟨started, -, pre⟩ := life.running live
    refine ⟨autoStarted.trans started, notIdle, Bool.eq_false_iff.mpr fun after => ?_⟩
    rcases leaving after with stopped | already
    · cases stopped.symm.trans live
    · cases pre.symm.trans already
  · rw [calls, autoStarted]
    exact life.inside
  · rw [taken, autoStarted]
    exact life.accepted
  · rw [runs, autoStarted, mutex]
    intro started stopped free
    exact absurd (life.finished started stopped free) notExited

/-- A call moves to a place from which nothing follows about the goroutine. -/
theorem Lifecycle.move (life : Lifecycle s) {new : Option (Call Obj)}
    (inside : ∀ call ∈ new, call.inside = true → s.autoStarted = true)
    (waiting : ∀ taken, new ≠ some (.waiting taken)) : Lifecycle (s.move old new) := by
  refine ⟨life.running, fun call mem within => ?_, life.accepted, life.registered,
    fun taken mem => ?_, life.finished⟩
  · rcases mem_advance mem with here | there
    · exact inside call here within
    · exact life.inside call there within
  · rcases mem_advance mem with here | there
    · exact absurd here (waiting taken)
    · exact life.waiting taken there

theorem lifecycle_proceeded (life : Lifecycle s) (flow : Flow opts s)
    (mem : call ∈ s.calls) (legal : Allowed s (.proceed call))
    (proceeded : Proceeded opts s call next) : Lifecycle next := by
  have started := life.inside call mem
  obtain ⟨running, inside, accepted, known, waiting, finished⟩ := id life
  cases proceeded with
  | passes object found => exact life.move (fun _ _ _ => found) nofun
  | starts object found free =>
    have place := flow.idle found
    have stopped : s.running = false := by
      refine Bool.eq_false_iff.mpr fun live => ?_
      cases found.symm.trans (running live).1
    have launched : startBatchWriter s = { s with running := true, writer := .spawned } := by
      simp [startBatchWriter, stopped]
    rw [launched]
    refine ⟨fun _ => ⟨rfl, nofun, rfl⟩, fun _ _ _ => rfl, fun _ => rfl, ?_, ?_, nofun⟩
    · rw [place] at known
      exact known
    · intro objects among
      rcases mem_advance among with here | there
      · cases here
      · exact absurd place (waiting objects there).1
  | goesOn object found => exact life.move (fun _ _ _ => (running found).1) nofun
  | aborts object found => exact life.move nofun nofun
  | counts object =>
    have counted : Lifecycle { s with scheduledCount := s.scheduledCount + 1 } :=
      ⟨running, inside, accepted, known, waiting, finished⟩
    exact counted.move (fun _ _ _ => started rfl) nofun
  | sends object =>
    have sent : Lifecycle { s with
        batchQueue := s.batchQueue ++ [object], accepted := s.accepted ++ [object] } :=
      ⟨running, inside, fun _ => started rfl, known, waiting, finished⟩
    exact sent.move nofun nofun
  | flushes =>
    have flushed : Lifecycle { s with flushChan := true } :=
      ⟨running, inside, accepted, known, waiting, finished⟩
    exact flushed.move nofun nofun
  | stops objects free found =>
    refine ⟨nofun, ?_, accepted, known, ?_, fun _ _ => nofun⟩
    · intro other among within
      exact (running found).1
    · intro others among
      exact ⟨(running found).2.1, legal.1 found⟩
  | returns objects free found =>
    have done : Lifecycle { s with stopped := objects :: s.stopped } :=
      ⟨running, inside, accepted, known, waiting, finished⟩
    exact done.move nofun nofun
  | waited objects zero =>
    have exited := life.exited mem zero
    have done : Lifecycle { s with
        startStopMutex := false, stopped := objects :: s.stopped } :=
      ⟨running, inside, accepted, known, waiting, fun _ _ _ => exited⟩
    exact done.move nofun nofun

theorem lifecycle_step (life : Lifecycle s) (flow : Flow opts s)
    (legal : Allowed s e) (ran : step opts s e = some next) : Lifecycle next := by
  have calls : ∀ {call : Call Obj} {current : Obj → V}, call.inside = false →
      (∀ taken, call ≠ .waiting taken) →
      Lifecycle { s with current, calls := call :: s.calls } := by
    intro call current out waiting
    refine ⟨life.running, fun other among within => ?_, life.accepted, life.registered,
      fun taken among => ?_, life.finished⟩
    · rcases mem_cons.mp among with rfl | before
      · cases out.symm.trans within
      · exact life.inside other before within
    · rcases mem_cons.mp among with here | before
      · exact absurd here.symm (waiting taken)
      · exact life.waiting taken before
  cases e with
  | modify object state | enqueue object | stop =>
    cases ran
    exact calls rfl (by simp)
  | flush =>
    cases ran
    split
    · exact calls rfl (by simp)
    · exact life
  | tested object answer =>
    obtain ⟨mem, ran⟩ := ite_none_right_eq_some.mp ran
    cases ran
    have tested : Lifecycle { s with scheduled := Function.update s.scheduled object true } :=
      ⟨life.running, life.inside, life.accepted, life.registered, life.waiting, life.finished⟩
    refine tested.move (fun _ _ _ => life.inside _ mem rfl) ?_
    cases answer <;> simp
  | proceed call =>
    obtain ⟨mem, ran⟩ := ite_none_right_eq_some.mp ran
    exact lifecycle_proceeded life flow mem legal (proceed_cases ran)
  | advance | take | flushed | timeout => exact lifecycle_moved life (step_moves rfl ran)

/-- The counter of the writer counts the scheduled objects. -/
def Counts (s : State Obj V) : Prop := s.scheduledCount = BitVec.ofNat 32 s.scheduledObjects

theorem counts_moved (counts : Counts s) (moved : Moved opts s next) : Counts next := by
  unfold Counts State.scheduledObjects at *
  cases moved with
  | registers place | stops place _ | leaves place _ | exits place | flushes _ place
  | closes _ _ place | resets _ _ _ place | commits _ _ place | reports _ _ _ place =>
    rw [place] at counts
    exact counts
  | opens place =>
    rcases place with place | place <;> rw [place] at counts <;> exact counts
  | takes collector flushing object batchQueue place found =>
    rw [place, found] at counts
    refine counts.trans (congrArg _ ?_)
    simp only [length_cons, Writer.uncounted]
    omega
  | decrements collector flushing object place =>
    rw [place] at counts
    rw [counts, BitVec.ofNat_add]
    exact BitVec.add_sub_cancel _ _
  | records _ _ _ _ place _ _ _ goes =>
    rw [place] at counts
    rcases goes with rfl | rfl <;> exact counts
  | cancels _ again place _ | resumes again place =>
    rw [place] at counts
    cases again <;> exact counts

/-- A call moves on without counting or sending its object. -/
theorem Counts.move (counts : Counts s) {new : Option (Call Obj)}
    (mem : old ∈ s.calls) (same : (new.map Call.counted).getD 0 = old.counted) :
    Counts (s.move old new) := by
  have moved := sum_advance Call.counted new mem
  refine counts.trans (congrArg _ ?_)
  simp only [State.scheduledObjects, State.move]
  omega

theorem counts_proceeded (counts : Counts s) (flow : Flow opts s)
    (mem : call ∈ s.calls) (proceeded : Proceeded opts s call next) : Counts next := by
  cases proceeded with
  | passes object found => exact counts.move mem rfl
  | starts object found free =>
    have launched : Counts { startBatchWriter s with autoStarted := true } := by
      have place := flow.idle found
      unfold Counts State.scheduledObjects at *
      unfold startBatchWriter
      split
      · exact counts
      · rw [place] at counts
        exact counts
    refine launched.move ?_ rfl
    unfold startBatchWriter
    split <;> exact mem
  | goesOn object found => exact counts.move mem rfl
  | aborts object found => exact counts.move mem rfl
  | counts object =>
    have moved := sum_advance Call.counted (some (.sending object)) mem
    simp only [Call.counted, map_some, getD_some] at moved
    unfold Counts State.scheduledObjects at *
    change s.scheduledCount + BitVec.ofNat 32 1 = _
    rw [counts, ← BitVec.ofNat_add]
    refine congrArg _ ?_
    simp only [State.move]
    omega
  | sends object =>
    have moved := sum_advance Call.counted none mem
    simp only [Call.counted, map_none, getD_none] at moved
    refine Eq.trans counts (congrArg _ ?_)
    simp only [State.scheduledObjects, State.move, length_append, length_singleton]
    omega
  | flushes => exact Counts.move (s := { s with flushChan := true }) counts mem rfl
  | stops objects free found =>
    exact Counts.move (s := { s with running := false, startStopMutex := true }) counts mem rfl
  | returns objects free found =>
    exact Counts.move (s := { s with stopped := objects :: s.stopped }) counts mem rfl
  | waited objects zero =>
    exact Counts.move (s := { s with startStopMutex := false, stopped := objects :: s.stopped })
      counts mem rfl

theorem counts_step (counts : Counts s) (flow : Flow opts s)
    (ran : step opts s e = some next) : Counts next := by
  have calls : ∀ {call : Call Obj} {current : Obj → V}, call.counted = 0 →
      Counts { s with current, calls := call :: s.calls } := by
    intro call current zero
    refine counts.trans (congrArg _ ?_)
    simp [State.scheduledObjects, zero]
  cases e with
  | modify object state | enqueue object | stop =>
    cases ran
    exact calls rfl
  | flush =>
    cases ran
    split
    · exact calls rfl
    · exact counts
  | tested object answer =>
    obtain ⟨mem, ran⟩ := ite_none_right_eq_some.mp ran
    cases ran
    refine Counts.move (s := { s with scheduled := Function.update s.scheduled object true })
      counts mem ?_
    cases answer <;> rfl
  | proceed call =>
    obtain ⟨mem, ran⟩ := ite_none_right_eq_some.mp ran
    exact counts_proceeded counts flow mem (proceed_cases ran)
  | advance | take | flushed | timeout => exact counts_moved counts (step_moves rfl ran)

/-- The number of objects that a call of `StopBatchWriter` promises to be written. -/
def Call.promised : Call Obj → Nat
  | .stopping accepted | .waiting accepted => accepted
  | _ => 0

/-- The goroutine does not come back to the loop. -/
def Writer.gone : Writer Obj V → Bool
  | .exiting | .exited => true
  | _ => false

/-- No call promises more than was accepted, a call that waits for a goroutine that is gone
waits for what is done, and the calls that returned have kept their promise. -/
structure Promises (s : State Obj V) : Prop where
  bounded : ∀ call ∈ s.calls, call.promised ≤ s.accepted.length
  ready : s.writer.gone = true → ∀ accepted, .waiting accepted ∈ s.calls → accepted ≤ s.done.length
  kept : ∀ accepted ∈ s.stopped, accepted ≤ s.done.length

omit [DecidableEq Obj] in
/-- The goroutine leaves when nothing is scheduled any more, so everything accepted is done. -/
theorem all_done_of_leaves (flow : Flow opts s) (counts : Counts s)
    (place : s.writer = .checkingCount) (small : s.scheduledObjects < 2 ^ 32)
    (zero : s.scheduledCount = 0) : s.accepted = s.done := by
  have idle : s.scheduledObjects = 0 := by
    have equal := counts.symm.trans zero
    have value := congrArg BitVec.toNat equal
    rw [BitVec.toNat_ofNat, mod_eq_of_lt small] at value
    exact value
  have empty : s.batchQueue = [] := by
    refine length_eq_zero_iff.mp ?_
    unfold State.scheduledObjects at idle
    omega
  exact flow.all_done (by rw [place]; rfl) (by rw [place]; rfl) empty

theorem promises_moved (promises : Promises s) (flow : Flow opts s) (counts : Counts s)
    (small : s.writer = .checkingCount → s.scheduledObjects < 2 ^ 32)
    (moved : Moved opts s next) : Promises next := by
  obtain ⟨-, -, -, calls, taken, stopped, -⟩ := moved_clients moved
  have grown : s.done.length ≤ next.done.length := by
    cases moved with
    | reports object objects again place => simp
    | _ => exact Nat.le_refl _
  refine ⟨by rw [calls, taken]; exact promises.bounded, fun gone objects mem => ?_,
    fun objects mem => ?_⟩
  · rw [calls] at mem
    have pre : s.writer.gone = true ∨ next.done = s.accepted := by
      cases moved with
      | leaves place found =>
        exact .inr (all_done_of_leaves flow counts place (small place) found).symm
      | exits place => exact .inl (by rw [place]; rfl)
      | records _ _ _ _ _ _ _ _ goes => rcases goes with rfl | rfl <;> cases gone
      | cancels _ again _ _ | resumes again _ => cases again <;> cases gone
      | _ => cases gone
    rcases pre with pre | all
    · exact Nat.le_trans (promises.ready pre objects mem) grown
    · rw [all]
      exact promises.bounded _ mem
  · rw [stopped] at mem
    exact Nat.le_trans (promises.kept objects mem) grown

/-- A call moves on with its promise. -/
theorem Promises.move (promises : Promises s) {new : Option (Call Obj)}
    (small : ∀ call ∈ new, call.promised ≤ s.accepted.length)
    (ready : s.writer.gone = true → ∀ taken, new = some (.waiting taken) →
      taken ≤ s.done.length) : Promises (s.move old new) := by
  refine ⟨fun call mem => ?_, fun gone taken mem => ?_, promises.kept⟩
  · rcases mem_advance mem with here | there
    · exact small call here
    · exact promises.bounded call there
  · rcases mem_advance mem with here | there
    · exact ready gone taken here
    · exact promises.ready gone taken there

theorem promises_proceeded (promises : Promises s) (flow : Flow opts s)
    (life : Lifecycle s) (mem : call ∈ s.calls) (legal : Allowed s (.proceed call))
    (proceeded : Proceeded opts s call next) : Promises next := by
  have promise := promises.bounded call mem
  obtain ⟨small, ready, kept⟩ := id promises
  cases proceeded with
  | passes object found | goesOn object found =>
    refine promises.move ?_ (fun _ => nofun)
    rintro _ ⟨⟩
    exact zero_le _
  | starts object found free =>
    have launched : Promises { startBatchWriter s with autoStarted := true } := by
      unfold startBatchWriter
      split
      · exact ⟨small, ready, kept⟩
      · exact ⟨small, nofun, kept⟩
    refine launched.move ?_ (fun _ => nofun)
    rintro _ ⟨⟩
    exact zero_le _
  | aborts object found => exact promises.move nofun (fun _ => nofun)
  | counts object =>
    have counted : Promises { s with scheduledCount := s.scheduledCount + 1 } :=
      ⟨small, ready, kept⟩
    refine counted.move ?_ (fun _ => nofun)
    rintro _ ⟨⟩
    exact zero_le _
  | sends object =>
    have sent : Promises { s with
        batchQueue := s.batchQueue ++ [object], accepted := s.accepted ++ [object] } := by
      refine ⟨fun other among => Nat.le_trans (small other among) ?_, ready, kept⟩
      simp
    exact sent.move nofun (fun _ => nofun)
  | flushes =>
    have flushed : Promises { s with flushChan := true } := ⟨small, ready, kept⟩
    exact flushed.move nofun (fun _ => nofun)
  | stops objects free found =>
    have stopped : Promises { s with running := false, startStopMutex := true } :=
      ⟨small, ready, kept⟩
    refine stopped.move ?_ (fun gone => ?_)
    · rintro _ ⟨⟩
      exact promise
    · -- the goroutine of a running writer is not on its way out
      have staying := (life.running found).2.2
      generalize s.writer = writer at *
      cases writer with
      | exiting | exited => cases staying
      | _ => cases gone
  | returns objects free found =>
    have covered : s.accepted.length ≤ s.done.length := by
      cases autoStarted : s.autoStarted with
      | false =>
        have gone : s.accepted = [] := by
          by_contra some
          cases autoStarted.symm.trans (life.accepted some)
        simp [gone]
      | true =>
        have exited := life.finished autoStarted found free
        have all := flow.all_done (by rw [exited]; rfl) (by rw [exited]; rfl) (legal.2 found)
        exact Nat.le_of_eq (congrArg length all)
    have done : Promises { s with stopped := objects :: s.stopped } := by
      refine ⟨small, ready, fun other among => ?_⟩
      rcases mem_cons.mp among with rfl | before
      · exact Nat.le_trans promise covered
      · exact kept other before
    exact done.move nofun (fun _ => nofun)
  | waited objects zero =>
    have exited := life.exited mem zero
    have done : Promises { s with
        startStopMutex := false, stopped := objects :: s.stopped } := by
      refine ⟨small, ready, fun other among => ?_⟩
      rcases mem_cons.mp among with rfl | before
      · exact ready (by rw [exited]; rfl) _ mem
      · exact kept other before
    exact done.move nofun (fun _ => nofun)

theorem promises_step (promises : Promises s) (flow : Flow opts s)
    (life : Lifecycle s) (counts : Counts s) (legal : Allowed s e)
    (ran : step opts s e = some next) : Promises next := by
  have calls : ∀ {call : Call Obj} {current : Obj → V}, call.promised ≤ s.accepted.length →
      (∀ taken, call ≠ .waiting taken) →
      Promises { s with current, calls := call :: s.calls } := by
    intro call current promised waiting
    refine ⟨fun other among => ?_, fun gone taken among => ?_, promises.kept⟩
    · rcases mem_cons.mp among with rfl | before
      · exact promised
      · exact promises.bounded other before
    · rcases mem_cons.mp among with here | before
      · exact absurd here.symm (waiting taken)
      · exact promises.ready gone taken before
  cases e with
  | modify object state | enqueue object =>
    cases ran
    exact calls (zero_le _) (by simp)
  | stop =>
    cases ran
    exact calls (Nat.le_refl _) (by simp)
  | flush =>
    cases ran
    split
    · exact calls (zero_le _) (by simp)
    · exact promises
  | tested object answer =>
    obtain ⟨-, ran⟩ := ite_none_right_eq_some.mp ran
    cases ran
    have tested : Promises { s with scheduled := Function.update s.scheduled object true } :=
      ⟨promises.bounded, promises.ready, promises.kept⟩
    refine tested.move ?_ ?_
    · cases answer
      · rintro _ ⟨⟩
        exact zero_le _
      · simp
    · cases answer <;> exact fun _ => by simp
  | proceed call =>
    obtain ⟨mem, ran⟩ := ite_none_right_eq_some.mp ran
    exact promises_proceeded promises flow life mem legal (proceed_cases ran)
  | advance => exact promises_moved promises flow counts legal (step_moves rfl ran)
  | take | flushed | timeout =>
    refine promises_moved promises flow counts (fun place => ?_) (step_moves rfl ran)
    simp [step, place] at ran

/-- Everything that holds along the runs. -/
structure StopInv (opts : Options) (s : State Obj V) : Prop where
  flow : Flow opts s
  life : Lifecycle s
  counts : Counts s
  promises : Promises s

omit [DecidableEq Obj] in
theorem stopInv_new : StopInv opts (new current stored) where
  flow := flow_new
  life := ⟨nofun, nofun, fun left => absurd rfl left, rfl, nofun, nofun⟩
  counts := rfl
  promises := ⟨nofun, nofun, nofun⟩

theorem stopInv_step (s : State Obj V) (e : Event Obj V) (next : State Obj V)
    (inv : StopInv opts s) (legal : Allowed s e) (ran : step opts s e = some next) :
    StopInv opts next where
  flow := flow_step next inv.flow ran
  life := lifecycle_step inv.life inv.flow legal ran
  counts := counts_step inv.counts inv.flow ran
  promises := promises_step inv.promises inv.flow inv.life inv.counts legal ran

/-- When `StopBatchWriter` has returned, the objects that had been accepted when it was called
are in committed batches and are reported as written, along every run whose steps are
allowed. -/
theorem stop_writes_accepted {current stored : Obj → V} {events : List (Event Obj V)}
    {last : State Obj V} (allowed : Along (step opts) Allowed (new current stored) events)
    (ran : run (step opts) (new current stored) events = some last) :
    ∀ accepted ∈ last.stopped,
      last.accepted.take accepted <+: last.done ∧ last.done <+: last.batches.flatten := by
  intro accepted mem
  have inv := run_invariant_along stopInv_step stopInv_new allowed ran
  have covered := inv.promises.kept accepted mem
  obtain ⟨accepted_eq, taken_eq, reported_eq, -, -, -⟩ := inv.flow
  refine ⟨?_, ⟨_, reported_eq.symm⟩⟩
  rw [accepted_eq, taken_eq, reported_eq, append_assoc, append_assoc,
    take_append_of_le_length covered]
  exact take_prefix _ _

/-- One object is enqueued, and the writer is stopped once its goroutine runs. -/
def stoppedRunning : List (Event Nat Nat) :=
  [.enqueue 7, .proceed (.starting 7), .advance, .proceed (.checkingRunning 7), .tested 7 false,
    .proceed (.counting 7), .proceed (.sending 7), .stop, .advance, .proceed (.stopping 1), .take,
    .advance, .advance, .advance, .timeout, .advance, .advance, .advance, .advance, .advance,
    .advance, .proceed (.waiting 1)]

theorem stoppedRunning_writes :
    ∃ last, run (step {}) (new id fun _ => 0) stoppedRunning = some last ∧ last.stopped = [1] ∧
      last.accepted = [7] ∧ last.accepted.take 1 <+: last.done ∧
      last.done <+: last.batches.flatten := by
  have legal : Along (step {}) Allowed (new id fun _ => 0) stoppedRunning := by decide
  exact ⟨_, rfl, rfl, rfl, stop_writes_accepted legal rfl 1 (mem_singleton_self 1)⟩

/-- The writer is stopped before its goroutine has registered: the stop returns at once, and
the object that was accepted is not written. -/
theorem stop_before_register : (run (step {}) (new id fun _ => 0)
      ([.enqueue 7, .proceed (.starting 7), .proceed (.checkingRunning 7), .tested 7 false,
        .proceed (.counting 7), .proceed (.sending 7), .stop, .proceed (.stopping 1),
        .proceed (.waiting 1)] : List (Event Nat Nat))).map
      (fun s => (s.stopped, s.accepted, s.batches, s.done)) = some ([1], [7], [], []) := by
  decide

end HiveGo.BatchedWriter
