import HiveGo.BatchedWriter

/-! The way of an object through the batched writer: into the queue, into a batch, and out of
it again. Nothing is lost, repeated or overtaken on the way. -/
namespace HiveGo.BatchedWriter
open List BatchCollector Writer

variable {Obj V : Type}

/-- The objects that the goroutine has taken and not yet committed. -/
def Writer.held : Writer Obj V → List Obj
  | .collecting collector _ | .committing collector _ => collector.objects
  | .adding _ collector _ object => collector.objects ++ [object]
  | _ => []

/-- The objects that are committed and not yet reported. -/
def Writer.unreported : Writer Obj V → List Obj
  | .reporting objects _ => objects
  | _ => []

/-- The batch that the goroutine is collecting has its room. -/
def Writer.Fits (batchSize : Nat) : Writer Obj V → Prop
  | .collecting collector _ | .adding _ collector _ _ | .committing collector _ =>
    collector.writtenValues.length ≤ batchSize
  | _ => True

@[simp] theorem Writer.held_resume : (resume again : Writer Obj V).held = [] := by
  cases again <;> rfl

@[simp] theorem Writer.unreported_resume :
    (resume again : Writer Obj V).unreported = [] := by
  cases again <;> rfl

theorem Writer.fits_resume : (resume again : Writer Obj V).Fits batchSize := by
  cases again
  · trivial
  · exact Nat.zero_le _

/-- What was accepted is what was taken and what is queued, in this order; what was taken is
in one of the batches or held; and what is in the batches is reported or about to be. -/
structure Flow (opts : Options) (s : State Obj V) : Prop where
  accepted : s.accepted = s.taken ++ s.batchQueue
  taken : s.taken = s.batches.flatten ++ s.writer.held
  reported : s.batches.flatten = s.done ++ s.writer.unreported
  bounded : ∀ batch ∈ s.batches, batch.length ≤ opts.batchSize
  fits : s.writer.Fits opts.batchSize
  idle : s.autoStarted = false → s.writer = .idle

theorem flow_new : Flow opts (new current stored) :=
  ⟨rfl, rfl, rfl, nofun, trivial, fun _ => rfl⟩

variable [DecidableEq Obj] {next : State Obj V}

theorem flow_moved (flow : Flow opts s) (moved : Moved opts s next) : Flow opts next := by
  obtain ⟨accepted, taken, reported, small, fits, idle⟩ := flow
  cases moved with
  | registers place | stops place _ | leaves place _ | exits place =>
    rw [place] at taken reported idle
    exact ⟨accepted, taken, reported, small, trivial, fun fresh => nomatch idle fresh⟩
  | opens place =>
    rcases place with place | place <;> rw [place] at taken reported idle <;>
    exact ⟨accepted, taken, reported, small, Nat.zero_le _, fun fresh => nomatch idle fresh⟩
  | flushes _ place | closes _ _ place | resets _ _ _ place | decrements _ _ _ place =>
    rw [place] at taken reported fits idle
    exact ⟨accepted, taken, reported, small, fits, fun fresh => nomatch idle fresh⟩
  | takes collector flushing object batchQueue place found =>
    rw [place] at taken reported fits idle
    refine ⟨?_, ?_, reported, small, fits, fun fresh => nomatch idle fresh⟩
    · rw [accepted, found, append_assoc, singleton_append]
    · rw [taken, append_assoc]
      rfl
  | records collector after flushing object place recorded room writer goes =>
    rw [place] at taken reported idle
    have objects : after.objects = collector.objects ++ [object] := by
      simp [objects, recorded]
    rcases goes with rfl | rfl <;>
    exact ⟨accepted, taken.trans (congrArg _ objects.symm), reported, small, room,
      fun fresh => nomatch idle fresh⟩
  | cancels collector again place empty =>
    rw [place] at taken reported idle
    have gone : collector.objects = [] := by simp [objects, empty]
    refine ⟨accepted, ?_, ?_, small, fits_resume, fun fresh => nomatch idle fresh⟩
    · rw [held_resume, taken, held, gone]
    · rw [unreported_resume, reported]
      rfl
  | commits collector again place =>
    rw [place] at taken reported fits idle
    refine ⟨accepted, ?_, ?_, ?_, trivial, fun fresh => nomatch idle fresh⟩
    · simpa [held] using taken
    · simp [reported, unreported]
    · intro batch mem
      rcases mem_append.mp mem with before | here
      · exact small batch before
      · cases mem_singleton.mp here
        rw [objects, length_map]
        exact fits
  | reports object objects again place =>
    rw [place] at taken reported idle
    refine ⟨accepted, taken, ?_, small, trivial, fun fresh => nomatch idle fresh⟩
    rw [reported, append_assoc]
    rfl
  | resumes again place =>
    rw [place] at taken reported idle
    refine ⟨accepted, ?_, ?_, small, fits_resume, fun fresh => nomatch idle fresh⟩
    · rw [held_resume, taken]
      rfl
    · rw [unreported_resume, reported]
      rfl

theorem flow_proceeded (flow : Flow opts s) (proceeded : Proceeded opts s call next) :
    Flow opts next := by
  obtain ⟨accepted, taken, reported, small, fits, idle⟩ := flow
  cases proceeded with
  | starts object fresh free =>
    have place := idle fresh
    unfold startBatchWriter
    split
    · exact ⟨accepted, taken, reported, small, fits, by rintro ⟨⟩⟩
    · rw [place] at taken reported
      exact ⟨accepted, taken, reported, small, trivial, by rintro ⟨⟩⟩
  | sends object =>
    refine ⟨?_, taken, reported, small, fits, idle⟩
    simp [State.move, accepted]
  | _ => exact ⟨accepted, taken, reported, small, fits, idle⟩

theorem flow_step (next : State Obj V) (flow : Flow opts s) (ran : step opts s e = some next) :
    Flow opts next := by
  have same : ∀ calls current scheduled,
      Flow opts { s with calls, current, scheduled } := fun _ _ _ =>
    ⟨flow.accepted, flow.taken, flow.reported, flow.bounded, flow.fits, flow.idle⟩
  cases e with
  | modify object state | enqueue object | stop =>
    cases ran
    exact same _ _ _
  | flush =>
    cases ran
    split
    · exact same _ _ _
    · exact flow
  | tested object answer =>
    obtain ⟨-, ran⟩ := Option.ite_none_right_eq_some.mp ran
    cases ran
    exact same _ _ _
  | proceed call =>
    obtain ⟨-, ran⟩ := Option.ite_none_right_eq_some.mp ran
    exact flow_proceeded flow (proceed_cases ran)
  | advance | take | flushed | timeout => exact flow_moved flow (step_moves rfl ran)

end HiveGo.BatchedWriter
