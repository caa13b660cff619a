import HiveGo.OrderedSet
import HiveGo.Runs

/-! A wait group used by many calls at once, one atomic operation at a time: the counter is raised
before the elements are added and lowered again for those that were there, and only the decrement
of `Done` looks whether it reached zero. -/
namespace HiveGo.WaitGroup
open CallPool List Option
open BitVec (ofNat ofNat_add toNat)

/-- Where a call of `Add` or `Done` is, with the elements still to come. -/
inductive Phase (T : Type) where
  | adding (elements : List T)
  | correcting (elements : List T)
  | finishing (elements : List T)
  | decrementing (elements : List T)
  | triggering (elements : List T)
  deriving DecidableEq

/-- The fields of a `waitGroup` with the calls in progress. `wasTriggered` is the value of
the event; `added` remembers whether an element was ever passed to `Add`. -/
structure State (T : Type) where
  pendingElements : OrderedSet T
  pendingElementsCounter : BitVec 32
  wasTriggered : Bool
  calls : List (Phase T)
  added : Bool

/-- A wait group without elements: `newWaitGroup` goes on with a call of `Add`. -/
def new {T : Type} : State T where
  pendingElements := .empty
  pendingElementsCounter := 0
  wasTriggered := false
  calls := []
  added := false

inductive Event (T : Type) where
  | add (elements : List T)
  | done (elements : List T)
  | proceed (call : Phase T)

variable {T : Type} [DecidableEq T]

/-- The next operation of a call: what it does to the wait group, and where the call is then. -/
def proceed (s : State T) : Phase T → State T × Option (Phase T)
  | .adding [] => (s, none)
  | .adding (element :: elements) =>
    if element ∈ s.pendingElements then (s, some (.correcting elements))
    else ({ s with pendingElements := s.pendingElements.insert element }, some (.adding elements))
  | .correcting elements =>
    ({ s with pendingElementsCounter := s.pendingElementsCounter - 1 }, some (.adding elements))
  | .finishing [] => (s, none)
  | .finishing (element :: elements) =>
    if element ∈ s.pendingElements then
      ({ s with pendingElements := s.pendingElements.erase element }, some (.decrementing elements))
    else (s, some (.finishing elements))
  | .decrementing elements =>
    let pendingElementsCounter := s.pendingElementsCounter - 1
    ({ s with pendingElementsCounter },
      some (if pendingElementsCounter = 0 then .triggering elements else .finishing elements))
  | .triggering elements => ({ s with wasTriggered := true }, some (.finishing elements))

/-- One atomic operation. A call of `Add` starts with raising the counter. -/
def step (s : State T) : Event T → Option (State T)
  | .add elements =>
    some { s with
      pendingElementsCounter := s.pendingElementsCounter + ofNat 32 elements.length
      calls := .adding elements :: s.calls
      added := s.added || !elements.isEmpty }
  | .done elements => some { s with calls := .finishing elements :: s.calls }
  | .proceed call =>
    if call ∈ s.calls then
      let (after, next) := proceed s call
      some { after with calls := advance s.calls call next }
    else none

/-- What a call still owes to the counter. -/
def Phase.owed : Phase T → Nat
  | .adding elements => elements.length
  | .correcting elements => elements.length + 1
  | .decrementing _ => 1
  | .finishing _ | .triggering _ => 0

/-- The elements that are pending and what the calls in progress owe. -/
def State.due (s : State T) : Nat := s.pendingElements.elems.length + (s.calls.map Phase.owed).sum

/-- The counter counts what is due, and a wait group with nothing due is triggered or about
to be. -/
structure Inv (s : State T) : Prop where
  counts : s.pendingElementsCounter = ofNat 32 s.due
  signals : s.added = true →
    s.wasTriggered = true ∨ (∃ elements, .triggering elements ∈ s.calls) ∨ 0 < s.due

/-- The counter is not taken to zero by a call of `Add` that corrects it, unless the event
was triggered before. -/
def Allowed (s : State T) : Event T → Prop
  | .proceed (.correcting _) => s.pendingElementsCounter ≠ 1 ∨ s.wasTriggered = true
  | _ => True

/-- What one operation does: either nothing becomes due or done, or the counter and what is
due go down together, and then the last decrement of `Done` leads to the trigger. -/
structure Effect (s : State T) (call : Phase T) (after : State T) (next : Option (Phase T)) :
    Prop where
  added : after.added = s.added
  triggered : s.wasTriggered = true → after.wasTriggered = true
  triggers : ∀ elements, call = .triggering elements → after.wasTriggered = true
  moves : after.pendingElementsCounter = s.pendingElementsCounter ∧
      after.pendingElements.elems.length + (next.map Phase.owed).getD 0 =
        s.pendingElements.elems.length + call.owed ∨
    after.pendingElementsCounter = s.pendingElementsCounter - 1 ∧
      after.pendingElements.elems.length + (next.map Phase.owed).getD 0 + 1 =
        s.pendingElements.elems.length + call.owed ∧
      ((∃ elements, call = .correcting elements) ∨
        (after.pendingElementsCounter = 0 → ∃ elements, next = some (.triggering elements)))

private theorem length_insert {elements : OrderedSet T} (fresh : element ∉ elements) :
    (elements.insert element).elems.length = elements.elems.length + 1 := by
  simp [OrderedSet.insert, fresh]

private theorem length_erase {elements : OrderedSet T} (held : element ∈ elements) :
    (elements.erase element).elems.length + 1 = elements.elems.length := by
  have nonempty := length_pos_of_mem held
  have erased := length_erase_of_mem held
  change (elements.elems.erase element).length + 1 = _
  omega

theorem proceed_effect (s : State T) : Effect s call (proceed s call).1 (proceed s call).2 := by
  cases call with
  | adding elements =>
    cases elements with
    | nil => exact ⟨rfl, id, by simp, .inl ⟨rfl, rfl⟩⟩
    | cons element elements =>
      by_cases held : element ∈ s.pendingElements
      · rw [proceed, if_pos held]
        exact ⟨rfl, id, by simp, .inl ⟨rfl, rfl⟩⟩
      · rw [proceed, if_neg held]
        refine ⟨rfl, id, by simp, .inl ⟨rfl, ?_⟩⟩
        have grown := length_insert held
        simp only [map_some, getD_some, Phase.owed, length_cons]
        omega
  | correcting elements => exact ⟨rfl, id, by simp, .inr ⟨rfl, rfl, .inl ⟨_, rfl⟩⟩⟩
  | finishing elements =>
    cases elements with
    | nil => exact ⟨rfl, id, by simp, .inl ⟨rfl, rfl⟩⟩
    | cons element elements =>
      by_cases held : element ∈ s.pendingElements
      · rw [proceed, if_pos held]
        exact ⟨rfl, id, by simp, .inl ⟨rfl, length_erase held⟩⟩
      · rw [proceed, if_neg held]
        exact ⟨rfl, id, by simp, .inl ⟨rfl, rfl⟩⟩
  | decrementing elements =>
    refine ⟨rfl, id, by simp, .inr ⟨rfl, ?_, .inr fun zero => ⟨elements, ?_⟩⟩⟩
    · simp only [proceed, map_some, getD_some]
      split <;> rfl
    · exact congrArg some (if_pos zero)
  | triggering elements => exact ⟨rfl, fun _ => rfl, fun _ _ => rfl, .inl ⟨rfl, rfl⟩⟩

/-- What is due after an operation of a call. -/
private theorem due_proceed {s after : State T} {call : Phase T} {next : Option (Phase T)}
    (effect : Effect s call after next) (runs : call ∈ s.calls) :
    let due := State.due { after with calls := advance s.calls call next }
    after.pendingElementsCounter = s.pendingElementsCounter ∧ due = s.due ∨
    after.pendingElementsCounter = s.pendingElementsCounter - 1 ∧ due + 1 = s.due ∧
      ((∃ elements, call = .correcting elements) ∨
        (after.pendingElementsCounter = 0 → ∃ elements, next = some (.triggering elements))) := by
  have owed := sum_advance Phase.owed next runs
  simp only [State.due]
  rcases effect.moves with ⟨counter, balance⟩ | ⟨counter, balance, last⟩
  · exact .inl ⟨counter, by omega⟩
  · exact .inr ⟨counter, by omega, last⟩

omit [DecidableEq T] in
private theorem due_add (s : State T) (elements : List T) :
    State.due { s with calls := .adding elements :: s.calls } = s.due + elements.length := by
  simp only [State.due, map_cons, sum_cons, Phase.owed]
  omega

omit [DecidableEq T] in
private theorem due_done (s : State T) (elements : List T) :
    State.due { s with calls := .finishing elements :: s.calls } = s.due := by
  simp [State.due, Phase.owed]

private theorem counter_pred (counts : counter = ofNat 32 due) (lower : left + 1 = due) :
    counter - 1 = ofNat 32 left := by
  rw [counts, ← lower, ofNat_add]
  exact BitVec.add_sub_cancel _ _

/-- The counter counts what is due, whatever the calls do. -/
theorem counts_step {s next : State T} {e : Event T}
    (counts : s.pendingElementsCounter = ofNat 32 s.due) (ran : step s e = some next) :
    next.pendingElementsCounter = ofNat 32 next.due := by
  cases e with
  | add elements =>
    cases ran
    change s.pendingElementsCounter + _ = ofNat 32 (State.due { s with calls := _ })
    rw [due_add, counts, ofNat_add]
  | done elements =>
    cases ran
    exact due_done s elements ▸ counts
  | proceed call =>
    rw [step] at ran
    split at ran
    · cases ran
      rcases due_proceed (proceed_effect s) ‹_› with ⟨counter, due⟩ | ⟨counter, due, -⟩
      · exact due ▸ counter.trans counts
      · exact counter.trans (counter_pred counts due)
    · cases ran

private theorem signals_proceed {s after : State T} {call : Phase T} {next : Option (Phase T)}
    (inv : Inv s) (legal : Allowed s (.proceed call)) (runs : call ∈ s.calls)
    (effect : Effect s call after next) (ever : after.added = true) :
    after.wasTriggered = true ∨
      (∃ elements, .triggering elements ∈ advance s.calls call next) ∨
      0 < State.due { after with calls := advance s.calls call next } := by
  rcases due_proceed effect runs with ⟨-, due⟩ | ⟨counter, due, last⟩
  · rcases inv.signals (effect.added ▸ ever) with before | ⟨elements, mem⟩ | outstanding
    · exact .inl (effect.triggered before)
    · by_cases same : Phase.triggering elements = call
      · exact .inl (effect.triggers elements same.symm)
      · exact .inr (.inl ⟨elements, mem_advance_of_ne mem same⟩)
    · exact .inr (.inr (due ▸ outstanding))
  · rcases Nat.eq_zero_or_pos (State.due { after with
      calls := advance s.calls call next }) with zero | some
    · -- the last of what was due: a decrement of `Done` unless the event was triggered before
      rw [zero] at due
      rcases last with ⟨elements, rfl⟩ | last
      · rcases legal with other | before
        · exact absurd (inv.counts.trans (due ▸ rfl)) other
        · exact .inl (effect.triggered before)
      · obtain ⟨elements, rfl⟩ := last (counter.trans (counter_pred inv.counts due))
        exact .inr (.inl ⟨elements, mem_advance_next⟩)
    · exact .inr (.inr some)

theorem inv_step (s : State T) (e : Event T) (next : State T) (inv : Inv s) (legal : Allowed s e)
    (ran : step s e = some next) : Inv next := by
  refine ⟨counts_step inv.counts ran, fun ever => ?_⟩
  cases e with
  | add elements =>
    cases ran
    have due := due_add s elements
    rcases Bool.or_eq_true_iff.mp ever with before | some
    · rcases inv.signals before with triggered | ⟨others, mem⟩ | outstanding
      · exact .inl triggered
      · exact .inr (.inl ⟨others, mem_cons_of_mem _ mem⟩)
      · exact .inr (.inr (due ▸ Nat.add_pos_left outstanding _))
    · have pos : 0 < elements.length := by
        cases elements with
        | nil => cases some
        | cons => exact Nat.succ_pos _
      exact .inr (.inr (due ▸ Nat.add_pos_right _ pos))
  | done elements =>
    cases ran
    rcases inv.signals ever with triggered | ⟨others, mem⟩ | outstanding
    · exact .inl triggered
    · exact .inr (.inl ⟨others, mem_cons_of_mem _ mem⟩)
    · exact .inr (.inr (due_done s elements ▸ outstanding))
  | proceed call =>
    rw [step] at ran
    split at ran
    · have signals := signals_proceed inv legal ‹_› (proceed_effect s)
      cases ran
      exact signals ever
    · cases ran

/-- Once all calls have returned and nothing is pending, the event is triggered, along every
run in which no correction is the operation that takes the counter to zero. -/
theorem trigger_not_lost {events : List (Event T)} {last : State T}
    (allowed : Along step Allowed new events) (ran : run step new events = some last)
    (returned : last.calls = []) (added : last.added = true)
    (finished : ∀ element, element ∉ last.pendingElements) : last.wasTriggered = true := by
  have inv := run_invariant_along inv_step ⟨rfl, by rintro ⟨⟩⟩ allowed ran
  have empty := eq_nil_iff_forall_not_mem.mpr finished
  rcases inv.signals added with triggered | ⟨elements, mem⟩ | outstanding
  · exact triggered
  · simp [returned] at mem
  · simp [State.due, returned, empty] at outstanding

/-- Two calls of `Add` for the same element, and `Done` after both. -/
def addedTwice : List (Event Nat) :=
  [.add [7], .proceed (.adding [7]), .add [7], .proceed (.adding [7]),
    .proceed (.correcting []), .done [7], .proceed (.finishing [7]),
    .proceed (.decrementing []), .proceed (.triggering []), .proceed (.adding []),
    .proceed (.adding []), .proceed (.finishing [])]

theorem addedTwice_triggers :
    ∃ last, run step new addedTwice = some last ∧ last.calls = [] ∧
      last.pendingElements.elems = [] ∧ last.wasTriggered = true := by
  have legal : Along step Allowed new addedTwice :=
    .cons trivial rfl <| .cons trivial rfl <| .cons trivial rfl <| .cons trivial rfl <|
      .cons (.inl (by decide)) rfl <| .cons trivial rfl <| .cons trivial rfl <|
      .cons trivial rfl <| .cons trivial rfl <| .cons trivial rfl <| .cons trivial rfl <|
      .cons trivial rfl trivial
  exact ⟨_, rfl, rfl, rfl, trigger_not_lost legal rfl rfl rfl (fun _ => not_mem_nil)⟩

/-- `Done` comes between the second `Add` finding the element and correcting the counter: the
correction takes the counter to zero, and nobody triggers the event. -/
theorem correction_loses_trigger : (run step (new : State Nat)
        [.add [7], .proceed (.adding [7]), .proceed (.adding []), .add [7],
          .proceed (.adding [7]), .done [7], .proceed (.finishing [7]),
          .proceed (.decrementing []), .proceed (.finishing []), .proceed (.correcting []),
          .proceed (.adding [])]).map
      (fun s => (s.calls, s.pendingElements.elems, s.added, s.wasTriggered)) =
        some ([], [], true, false) := by
  decide

/-- A call of `Add` that raised the counter and has operations left. -/
def Phase.IsAdding : Phase T → Prop
  | .adding (_ :: _) | .correcting _ => True
  | _ => False

/-- When a decrement of `Done` is seen to reach zero, nothing is pending and no call of `Add` has
operations left, as long as no more is due than the counter can count. -/
theorem trigger_not_early {events : List (Event T)} {s : State T} {elements : List T}
    (ran : run step new events = some s) (running : .decrementing elements ∈ s.calls)
    (small : s.due ≤ 2 ^ 32)
    (zero : (proceed s (.decrementing elements)).2 = some (.triggering elements)) :
    s.pendingElements.elems = [] ∧ ∀ call ∈ s.calls, ¬ call.IsAdding := by
  have counts :=
    run_invariant (fun _ _ _ counts => counts_step counts) rfl ran
  have one : s.due = 1 := by
    have reached : s.pendingElementsCounter - 1 = 0 := by simpa [proceed] using zero
    have counted := congrArg toNat (counts.symm.trans (BitVec.sub_eq_iff_eq_add.mp reached))
    simp at counted
    omega
  have rest := sum_advance Phase.owed none running
  simp only [State.due, Phase.owed, map_none, getD_none] at one rest
  refine ⟨eq_nil_of_length_eq_zero (by omega), fun call mem adding => ?_⟩
  have other : call ≠ .decrementing elements := by
    rintro rfl
    exact adding
  have still : call ∈ advance s.calls (.decrementing elements) none :=
    mem_advance_of_ne mem other
  have share := sum_advance Phase.owed none still
  have owes : 0 < call.owed := by
    cases call with
    | adding elements =>
      cases elements with
      | nil => exact adding.elim
      | cons => exact Nat.succ_pos _
    | correcting => exact Nat.succ_pos _
    | _ => exact adding.elim
  simp only [map_none, getD_none] at share
  omega

theorem addedTwice_triggers_in_time :
    ∃ s, run step new (addedTwice.take 7) = some s ∧ s.pendingElements.elems = [] ∧
      ∀ call ∈ s.calls, ¬ call.IsAdding := by
  have ran : run step new (addedTwice.take 7) =
      some ⟨.empty, 1, false, [.decrementing [], .adding [], .adding []], true⟩ := rfl
  exact ⟨_, ran, trigger_not_early ran (.head _) (by decide) rfl⟩

/-- The counter starts at one again when more elements are added at once than it can count. -/
private theorem early_of_length (many : rest.length = 2 ^ 32) :
    ∃ s, run step new [.add (() :: rest), .proceed (.adding (() :: rest)), .done [()],
        .proceed (.finishing [()])] = some s ∧
      .decrementing [] ∈ s.calls ∧
      (proceed s (.decrementing [])).2 = some (.triggering []) ∧
      ∃ call ∈ s.calls, call.IsAdding := by
  refine ⟨⟨.empty, 1, false, [.decrementing [], .adding rest], true⟩, ?_, .head _, ?_,
    .adding rest, .tail _ (.head _), ?_⟩
  · simp [run, step, proceed, new, advance, many]
    rfl
  · simp [proceed]
  · cases rest with
    | nil => cases many
    | cons => trivial

/-- `Done` with the first of so many elements triggers while `Add` adds the others. -/
theorem wrapped_counter_triggers_early :
    ∃ s : State Unit, run step new [.add (() :: replicate (2 ^ 32) ()),
        .proceed (.adding (() :: replicate (2 ^ 32) ())), .done [()],
        .proceed (.finishing [()])] = some s ∧
      .decrementing [] ∈ s.calls ∧
      (proceed s (.decrementing [])).2 = some (.triggering []) ∧
      ∃ call ∈ s.calls, call.IsAdding :=
  early_of_length length_replicate

end HiveGo.WaitGroup
