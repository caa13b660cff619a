import HiveGo.BatchedWriterFlow

/-! No update of an object is lost on its way to the store. The flag of an object is reset before
its state is recorded, so that a later change is scheduled again. -/
namespace HiveGo.BatchedWriter
open Function List CallPool State

variable {Obj V : Type}

/-- The object that a call of `Enqueue` is about. -/
def Call.object : Call Obj → Option Obj
  | .starting object | .checkingRunning object | .testingScheduled object | .counting object
  | .sending object => some object
  | _ => none

/-- The object that a call has found not scheduled, and is going to send. -/
def Call.pledged : Call Obj → Option Obj
  | .counting object | .sending object => some object
  | _ => none

/-- The object that the goroutine has taken and not yet recorded. -/
def Writer.inHand : Writer Obj V → Option Obj
  | .adding _ _ _ object => some object
  | _ => none

/-- The object whose flag the goroutine is about to reset. -/
def Writer.unreset : Writer Obj V → Option Obj
  | .adding .resetScheduled _ _ object => some object
  | _ => none

/-- What is recorded and not yet in the store. -/
def Writer.recorded : Writer Obj V → List (Obj × V)
  | .collecting collector _ | .adding _ collector _ _ | .committing collector _ =>
    collector.writtenValues
  | _ => []

/-- No object is on its way through the goroutine. -/
def Writer.BetweenBatches (writer : Writer Obj V) : Prop := writer.held = []

/-- The object is on its way to the goroutine, and its flag is set. -/
def State.Pledged (s : State Obj V) (object : Obj) : Prop :=
  (∃ call ∈ s.calls, call.pledged = some object) ∨ object ∈ s.batchQueue ∨
    s.writer.unreset = some object

/-- The state of the object is going to be recorded, or a client is about to ask for it. -/
def State.Coming (s : State Obj V) (object : Obj) : Prop :=
  (∃ call ∈ s.calls, call.object = some object) ∨ object ∈ s.batchQueue ∨
    s.writer.inHand = some object

theorem Call.object_of_pledged {call : Call Obj} {object : Obj}
    (pledged : call.pledged = some object) : call.object = some object := by
  cases call with
  | counting _ | sending _ => exact pledged
  | _ => cases pledged

theorem Writer.inHand_of_unreset {writer : Writer Obj V}
    (unreset : writer.unreset = some object) : writer.inHand = some object := by
  cases writer with
  | adding stage _ _ _ =>
    cases stage with
    | resetScheduled => exact unreset
    | _ => cases unreset
  | _ => cases unreset

theorem State.Pledged.coming {s : State Obj V} (pledged : s.Pledged object) : s.Coming object := by
  rcases pledged with ⟨call, mem, same⟩ | queued | unreset
  · exact .inl ⟨call, mem, Call.object_of_pledged same⟩
  · exact .inr (.inl queued)
  · exact .inr (.inr (Writer.inHand_of_unreset unreset))

/-- Between two batches nothing is in hand and nothing is recorded. -/
theorem Writer.BetweenBatches.empty {writer : Writer Obj V} (between : writer.BetweenBatches) :
    writer.inHand = none ∧ writer.recorded = [] := by
  cases writer with
  | collecting collector _ | committing collector _ =>
    exact ⟨rfl, map_eq_nil_iff.mp between⟩
  | adding _ collector _ object => simp [BetweenBatches, held] at between
  | _ => exact ⟨rfl, rfl⟩

variable [DecidableEq Obj]

/-- What the store holds once the goroutine commits what it has recorded. -/
def State.pending (s : State Obj V) : Obj → V := written s.stored s.writer.recorded

/-- The clients only modify and enqueue, and `BatchWriteScheduled` is a test-and-set. -/
def Faithful (s : State Obj V) : Event Obj V → Prop
  | .tested object answer => answer = s.scheduled object
  | .stop => False
  | _ => True

/-- A set flag means that the object is coming, and an object that is not coming is up to
date. The writer is not stopped. -/
structure Updates (s : State Obj V) : Prop where
  pledged : ∀ object, s.scheduled object = true → s.Pledged object
  latest : ∀ object, s.pending object = s.current object ∨ s.Coming object
  running : s.autoStarted = true → s.running = true
  started : ∀ object, .checkingRunning object ∈ s.calls → s.autoStarted = true
  unstopped : ∀ accepted, .stopping accepted ∉ s.calls ∧ .waiting accepted ∉ s.calls

variable {s next : State Obj V}

theorem updates_moved (updates : Updates s) (moved : Moved opts s next) : Updates next := by
  obtain ⟨pledged, latest, runs, started, unstopped⟩ := updates
  cases moved with
  | registers place | stops place _ | leaves place _ | exits place | flushes _ place
  | closes _ _ place | decrements _ _ _ place | reports _ _ _ place =>
    simp only [State.Pledged, State.Coming, pending, place] at pledged latest
    exact ⟨pledged, latest, runs, started, unstopped⟩
  | opens place =>
    rcases place with place | place <;>
      simp only [State.Pledged, State.Coming, pending, place] at pledged latest <;>
      exact ⟨pledged, latest, runs, started, unstopped⟩
  | takes collector flushing object batchQueue place found =>
    simp only [State.Pledged, State.Coming, pending, place, found] at pledged latest
    refine ⟨fun other set => ?_, fun other => ?_, runs, started, unstopped⟩
    · rcases pledged other set with call | queued | unreset
      · exact .inl call
      · rcases mem_cons.mp queued with rfl | behind
        · exact .inr (.inr rfl)
        · exact .inr (.inl behind)
      · cases unreset
    · refine (latest other).imp_right ?_
      rintro (call | queued | held)
      · exact .inl call
      · rcases mem_cons.mp queued with rfl | behind
        · exact .inr (.inr rfl)
        · exact .inr (.inl behind)
      · cases held
  | resets collector flushing object place =>
    simp only [State.Pledged, State.Coming, pending, place] at pledged latest
    refine ⟨fun other set => ?_, latest, runs, started, unstopped⟩
    by_cases same : other = object
    · rw [same] at set
      simp at set
    · have pre := (update_of_ne same ..).symm.trans set
      rcases pledged other pre with call | queued | unreset
      · exact .inl call
      · exact .inr (.inl queued)
      · exact absurd (Option.some.inj unreset).symm same
  | records collector after flushing object place recorded room writer goes =>
    simp only [State.Pledged, State.Coming, pending, place] at pledged latest
    have pending : ∀ other, written s.stored after.writtenValues other = s.current other ∨
        (∃ call ∈ s.calls, call.object = some other) ∨ other ∈ s.batchQueue := by
      intro other
      rw [recorded, written, foldl_append]
      by_cases same : other = object
      · rw [same]
        exact .inl (update_self ..)
      · rcases latest other with current | call | queued | held
        · exact .inl ((update_of_ne same ..).trans current)
        · exact .inr (.inl call)
        · exact .inr (.inr queued)
        · exact absurd (Option.some.inj held).symm same
    rcases goes with rfl | rfl <;>
      exact ⟨pledged, fun other => (pending other).imp_right (Or.imp_right .inl), runs, started,
        unstopped⟩
  | cancels collector again place empty =>
    simp only [State.Pledged, State.Coming, pending, place, Writer.recorded, empty]
      at pledged latest
    cases again <;> exact ⟨pledged, latest, runs, started, unstopped⟩
  | resumes again place =>
    simp only [State.Pledged, State.Coming, pending, place] at pledged latest
    cases again <;> exact ⟨pledged, latest, runs, started, unstopped⟩
  | commits collector again place =>
    simp only [State.Pledged, State.Coming, pending, place] at pledged latest
    exact ⟨pledged, latest, runs, started, unstopped⟩

/-- A call that has pledged an object moves on with it, or has put it into the queue. -/
theorem State.Pledged.move {new : Option (Call Obj)} (pledged : s.Pledged object)
    (carried : old.pledged = some object →
      object ∈ s.batchQueue ∨ ∃ call, new = some call ∧ call.pledged = some object) :
    (s.move old new).Pledged object := by
  by_cases queued : object ∈ s.batchQueue
  · exact .inr (.inl queued)
  · refine pledged.imp_left fun held => exists_advance held fun own => ?_
    exact (carried own).resolve_left queued

section

variable (updates : Updates s)
include updates

/-- A call moves on with its object, or leaves it to what is pledged. -/
theorem Updates.move {new : Option (Call Obj)}
    (pledged : ∀ object, old.pledged = some object →
      object ∈ s.batchQueue ∨ ∃ call, new = some call ∧ call.pledged = some object)
    (carried : ∀ object, old.object = some object →
      s.Pledged object ∨ ∃ call, new = some call ∧ call.object = some object)
    (started : ∀ object, new = some (.checkingRunning object) → s.autoStarted = true)
    (unstopped : ∀ taken, new ≠ some (.stopping taken) ∧ new ≠ some (.waiting taken)) :
    Updates (s.move old new) := by
  refine ⟨fun object set => (updates.pledged object set).move (pledged object), fun object => ?_,
    updates.running, fun object mem => ?_, fun taken => ⟨fun mem => ?_, fun mem => ?_⟩⟩
  · refine (updates.latest object).imp_right fun coming => ?_
    by_cases left : s.Pledged object
    · exact (left.move (pledged object)).coming
    · refine Or.imp_left (fun held => ?_) coming
      exact exists_advance held fun own => (carried object own).resolve_left left
  · rcases mem_advance mem with here | there
    · exact started object here
    · exact updates.started object there
  · rcases mem_advance mem with here | there
    · exact (unstopped taken).1 here
    · exact (updates.unstopped taken).1 there
  · rcases mem_advance mem with here | there
    · exact (unstopped taken).2 here
    · exact (updates.unstopped taken).2 there

theorem updates_proceeded (flow : Flow opts s)
    (mem : call ∈ s.calls) (proceeded : Proceeded opts s call next) : Updates next := by
  obtain ⟨pledged, latest, runs, started, unstopped⟩ := id updates
  cases proceeded with
  | passes object found =>
    refine updates.move (by simp [Call.pledged]) ?_ (fun _ _ => found) (fun _ => by simp)
    rintro _ ⟨⟩
    exact .inr ⟨_, rfl, rfl⟩
  | starts object found free =>
    have place := flow.idle found
    have launched : Updates { startBatchWriter s with autoStarted := true } := by
      unfold startBatchWriter
      split
      · exact ⟨pledged, latest, fun _ => ‹_›, fun _ _ => rfl, unstopped⟩
      · simp only [State.Pledged, State.Coming, pending, place] at pledged latest
        exact ⟨pledged, latest, fun _ => rfl, fun _ _ => rfl, unstopped⟩
    refine launched.move (by simp [Call.pledged]) ?_ (fun _ _ => rfl) (fun _ => by simp)
    rintro _ ⟨⟩
    exact .inr ⟨_, rfl, rfl⟩
  | goesOn object found =>
    refine updates.move (by simp [Call.pledged]) ?_ (by simp) (fun _ => by simp)
    rintro _ ⟨⟩
    exact .inr ⟨_, rfl, rfl⟩
  | aborts object found =>
    cases found.symm.trans (runs (started object mem))
  | counts object =>
    have counted : Updates { s with scheduledCount := s.scheduledCount + 1 } :=
      ⟨pledged, latest, runs, started, unstopped⟩
    refine counted.move ?_ ?_ (by simp) (fun _ => by simp)
    · rintro _ ⟨⟩
      exact .inr ⟨_, rfl, rfl⟩
    · rintro _ ⟨⟩
      exact .inr ⟨_, rfl, rfl⟩
  | sends object =>
    have queued : object ∈ s.batchQueue ++ [object] := by simp
    have sent : Updates { s with
        batchQueue := s.batchQueue ++ [object], accepted := s.accepted ++ [object] } := by
      refine ⟨fun other set => ?_, fun other => (latest other).imp_right ?_, runs, started,
        unstopped⟩
      · exact (pledged other set).imp_right (Or.imp_left (mem_append_left _))
      · exact Or.imp_right (Or.imp_left (mem_append_left _))
    refine sent.move ?_ ?_ (by simp) (fun _ => by simp)
    · rintro _ ⟨⟩
      exact .inl queued
    · rintro _ ⟨⟩
      exact .inl (.inr (.inl queued))
  | flushes =>
    have flushed : Updates { s with flushChan := true } :=
      ⟨pledged, latest, runs, started, unstopped⟩
    exact flushed.move (by simp [Call.pledged]) (by simp [Call.object]) (by simp) (fun _ => by simp)
  | stops accepted free found => exact absurd mem (unstopped accepted).1
  | returns accepted free found => exact absurd mem (unstopped accepted).1
  | waited accepted zero => exact absurd mem (unstopped accepted).2

/-- The flag is tested and set: the object was pledged before, or is pledged by the caller. -/
theorem updates_tested : Updates (move { s with scheduled := update s.scheduled object true }
      (.testingScheduled object)
      (if s.scheduled object then none else some (.counting object))) := by
  cases set : s.scheduled object with
  | true =>
    have same : update s.scheduled object true = s.scheduled := by
      rw [← set, update_eq_self]
    rw [same]
    refine updates.move (by simp [Call.pledged]) ?_ (by simp) (fun _ => by simp)
    rintro _ ⟨⟩
    exact .inl (updates.pledged object set)
  | false =>
    have moved : Updates (s.move (.testingScheduled object) (some (.counting object))) := by
      refine updates.move (by simp [Call.pledged]) ?_ (by simp) (fun _ => by simp)
      rintro _ ⟨⟩
      exact .inr ⟨_, rfl, rfl⟩
    refine ⟨fun other also => ?_, moved.latest, moved.running, moved.started, moved.unstopped⟩
    by_cases same : other = object
    · rw [same]
      exact .inl ⟨.counting object, mem_advance_next, rfl⟩
    · exact moved.pledged other ((update_of_ne same ..).symm.trans also)

theorem updates_step (flow : Flow opts s) (faithful : Faithful s e)
    (ran : step opts s e = some next) : Updates next := by
  have calls : ∀ {call : Call Obj} {current : Obj → V},
      (∀ object, current object = s.current object ∨ call.object = some object) →
      (∀ object, call ≠ .checkingRunning object) →
      (∀ taken, call ≠ .stopping taken ∧ call ≠ .waiting taken) →
      Updates { s with current, calls := call :: s.calls } := by
    intro call current changed started unstopped
    refine ⟨fun object set => ?_, fun object => ?_, updates.running, fun object among => ?_,
      fun taken => ⟨fun among => ?_, fun among => ?_⟩⟩
    · exact (updates.pledged object set).imp_left fun ⟨other, mem, own⟩ =>
        ⟨other, mem_cons_of_mem _ mem, own⟩
    · rcases changed object with same | new
      · refine (updates.latest object).imp (fun current => current.trans same.symm) ?_
        exact Or.imp_left fun ⟨other, mem, own⟩ => ⟨other, mem_cons_of_mem _ mem, own⟩
      · exact .inr (.inl ⟨call, mem_cons_self, new⟩)
    · exact updates.started object
        ((mem_cons.mp among).resolve_left fun here => started object here.symm)
    · exact (updates.unstopped taken).1
        ((mem_cons.mp among).resolve_left fun here => (unstopped taken).1 here.symm)
    · exact (updates.unstopped taken).2
        ((mem_cons.mp among).resolve_left fun here => (unstopped taken).2 here.symm)
  cases e with
  | modify object state =>
    cases ran
    refine calls (fun other => ?_) nofun (fun _ => ⟨nofun, nofun⟩)
    by_cases same : other = object
    · exact .inr (congrArg some same.symm)
    · exact .inl (update_of_ne same ..)
  | enqueue object =>
    cases ran
    exact calls (fun _ => .inl rfl) nofun (fun _ => ⟨nofun, nofun⟩)
  | stop => cases faithful
  | flush =>
    cases ran
    split
    · exact calls (fun _ => .inl rfl) nofun (fun _ => ⟨nofun, nofun⟩)
    · exact updates
  | tested object answer =>
    obtain ⟨-, ran⟩ := Option.ite_none_right_eq_some.mp ran
    cases ran
    cases faithful
    exact updates_tested updates
  | proceed call =>
    obtain ⟨mem, ran⟩ := Option.ite_none_right_eq_some.mp ran
    exact updates_proceeded updates flow mem (proceed_cases ran)
  | advance | take | flushed | timeout => exact updates_moved updates (step_moves rfl ran)

end

theorem updates_new (init : Obj → V) : Updates (new init init) :=
  ⟨nofun, fun _ => .inl rfl, nofun, nofun, fun _ => ⟨nofun, nofun⟩⟩

/-- When the queue is empty and the goroutine between two batches, the store holds the latest
state of every object that no client is enqueueing, and all objects taken are in committed
batches, none of them too large. Objects and store start with the same states. -/
theorem stores_latest {initial : Obj → V} {events : List (Event Obj V)} {last : State Obj V}
    (faithful : Along (step opts) Faithful (new initial initial) events)
    (ran : run (step opts) (new initial initial) events = some last)
    (empty : last.batchQueue = []) (between : last.writer.BetweenBatches) :
    (∀ object, (∀ call ∈ last.calls, call.object ≠ some object) →
      last.stored object = last.current object) ∧
      last.taken = last.batches.flatten ∧
      ∀ batch ∈ last.batches, batch.length ≤ opts.batchSize := by
  have keeps : ∀ (s : State Obj V) (e : Event Obj V) next,
      Flow opts s ∧ Updates s → Faithful s e → step opts s e = some next →
      Flow opts next ∧ Updates next := by
    rintro s e next ⟨flow, updates⟩ meets stepped
    exact ⟨flow_step next flow stepped, updates_step updates flow meets stepped⟩
  obtain ⟨flow, updates⟩ := run_invariant_along keeps ⟨flow_new, updates_new initial⟩ faithful ran
  obtain ⟨inHand, recorded⟩ := between.empty
  refine ⟨fun object idle => ?_, ?_, flow.bounded⟩
  · have latest := updates.latest object
    rw [pending, recorded] at latest
    rcases latest with current | ⟨call, mem, own⟩ | queued | held
    · exact current
    · exact absurd own (idle call mem)
    · simp [empty] at queued
    · cases inHand.symm.trans held
  · have taken := flow.taken
    rw [between, append_nil] at taken
    exact taken

instance (s : State Obj V) : (e : Event Obj V) → Decidable (Faithful s e)
  | .tested object answer => inferInstanceAs (Decidable (answer = s.scheduled object))
  | .stop => .isFalse id
  | .modify _ _ | .enqueue _ | .flush | .proceed _ | .advance | .take | .flushed | .timeout =>
    .isTrue trivial

/-- An object changes again after its first state was recorded, and is scheduled a second
time. -/
def changedTwice : List (Event Nat Nat) :=
  [.modify 7 1, .proceed (.starting 7), .proceed (.checkingRunning 7), .tested 7 false,
    .proceed (.counting 7), .proceed (.sending 7), .advance, .advance, .take, .advance,
    .modify 7 2, .proceed (.starting 7), .proceed (.checkingRunning 7), .tested 7 false,
    .advance, .advance, .proceed (.counting 7), .modify 7 3, .proceed (.sending 7),
    .proceed (.starting 7), .proceed (.checkingRunning 7), .tested 7 true, .flush,
    .proceed .flushing, .flushed, .advance, .advance, .advance, .advance, .advance, .advance]

theorem changedTwice_stored :
    ∃ last, run (step {}) (new (fun _ => 0) fun _ => 0) changedTwice = some last ∧
      last.batchQueue = [] ∧ last.current 7 = 3 ∧ last.stored 7 = last.current 7 ∧
      last.taken = last.batches.flatten := by
  have faithful : Along (step {}) Faithful (new (fun _ => 0) fun _ => 0) changedTwice := by decide
  obtain ⟨latest, taken, -⟩ := stores_latest faithful rfl rfl rfl
  exact ⟨_, rfl, rfl, rfl, latest 7 nofun, taken⟩

/-- A client has changed an object and not yet called `Enqueue`: the goroutine is between two
batches, the queue is empty, and the store is behind. -/
theorem modified_not_stored : (run (step {}) (new (fun _ => 0) fun _ => 0)
      ([.enqueue 8, .proceed (.starting 8), .advance, .modify 7 1] : List (Event Nat Nat))).map
      (fun s => (s.running, s.batchQueue, s.writer, s.stored 7, s.current 7)) =
        some (true, [], .looping, 0, 1) := by
  decide

end HiveGo.BatchedWriter
