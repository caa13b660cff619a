import Mathlib.Algebra.BigOperators.Group.List.Basic
import Mathlib.Algebra.GroupWithZero.Nat
import Mathlib.Data.List.Basic

/-! Runs of a partial step function. A step is undefined when the event is not possible in the
state, or when the program panics on it. -/
namespace HiveGo

variable {σ ε : Type}
variable {Inv : σ → Prop}

/-- The state after a sequence of events, if every step is defined. -/
def run (step : σ → ε → Option σ) (s : σ) (events : List ε) : Option σ := events.foldlM step s

@[simp] theorem run_nil : run step s [] = some s := rfl

@[simp] theorem run_cons :
    run step s (e :: events) = (step s e).bind fun next => run step next events := rfl

/-- What every defined step keeps, every defined run keeps. -/
theorem run_invariant (keeps : ∀ s e next, Inv s → step s e = some next → Inv next) {last : σ}
    (start : Inv s) (ran : run step s events = some last) : Inv last := by
  induction events generalizing s with
  | nil =>
    cases ran
    exact start
  | cons e events ih =>
    obtain ⟨next, stepped, rest⟩ := Option.bind_eq_some_iff.mp ran
    exact ih (keeps s e next start stepped) rest

/-- If an invariant makes every allowed step possible and is kept by it, then
every run of allowed events is possible and keeps it. -/
theorem run_total {Allowed : ε → Prop}
    (progress : ∀ s e, Inv s → Allowed e → ∃ next, step s e = some next ∧ Inv next) (start : Inv s)
    (legal : ∀ e ∈ events, Allowed e) : ∃ last, run step s events = some last ∧ Inv last := by
  induction events generalizing s with
  | nil => exact ⟨s, rfl, start⟩
  | cons e events ih =>
    obtain ⟨next, ran, kept⟩ := progress s e start (legal e List.mem_cons_self)
    obtain ⟨last, rest, final⟩ := ih kept (fun f mem => legal f (List.mem_cons_of_mem e mem))
    exact ⟨last, by rw [run_cons, ran, Option.bind_some, rest], final⟩

/-- Two systems whose steps keep a relation, and are possible together, run side by side. -/
theorem run_related {τ : Type} {other : τ → ε → Option τ} {R : σ → τ → Prop}
    (rel : ∀ s t e, R s t → Option.Rel R (step s e) (other t e)) {t : τ} (start : R s t) :
    Option.Rel R (run step s events) (run other t events) := by
  induction events generalizing s t with
  | nil => exact .some start
  | cons e events ih =>
    rw [run_cons, run_cons]
    have both := rel s t e start
    generalize step s e = left at both
    generalize other t e = right at both
    cases both with
    | none => exact .none
    | some next => exact ih next

/-- A call on a system that answers, after others and their answers. -/
def answering {β : Type} (perform : σ → ε → β × σ) (both : σ × List β) (call : ε) : σ × List β :=
  ((perform both.1 call).2, both.2 ++ [(perform both.1 call).1])

/-- A system whose calls answer as those of its abstraction does so in every sequence of calls. -/
theorem foldl_answering {τ β : Type} {perform : σ → ε → β × σ} {model : τ → ε → β × τ}
    {abstraction : σ → τ}
    (refines : ∀ s call, (perform s call).map id abstraction = model (abstraction s) call)
    (calls : List ε) (both : σ × List β) :
    (calls.foldl (answering perform) both).map abstraction id =
      calls.foldl (answering model) (both.map abstraction id) := by
  induction calls generalizing both with
  | nil => rfl
  | cons call calls ih =>
    rw [List.foldl_cons, List.foldl_cons, ih]
    congr 1
    have answers := refines both.1 call
    change _ = ((model (abstraction both.1) call).2, both.2 ++ [(model (abstraction both.1) call).1])
    rw [← answers]
    rfl

/-- The run does not get stuck and `Q` holds before, between and after its steps. -/
def Always (step : σ → ε → Option σ) (Q : σ → Prop) : σ → List ε → Prop
  | s, [] => Q s
  | s, e :: events => Q s ∧ ∃ next, step s e = some next ∧ Always step Q next events

/-- Every event of the run meets `P` in the state in which it happens. -/
def Along (step : σ → ε → Option σ) (P : σ → ε → Prop) : σ → List ε → Prop
  | _, [] => True
  | s, e :: events => P s e ∧ ∀ next, step s e = some next → Along step P next events

theorem Along.cons {next : σ} {e : ε} (meets : P s e) (ran : step s e = some next)
    (rest : Along step P next events) : Along step P s (e :: events) := by
  refine ⟨meets, fun other taken => ?_⟩
  cases ran.symm.trans taken
  exact rest

theorem Along.of_forall (meets : ∀ e ∈ events, ∀ s, P s e) (s : σ) : Along step P s events := by
  induction events generalizing s with
  | nil => trivial
  | cons e events ih =>
    refine ⟨meets e List.mem_cons_self s, fun next _ => ?_⟩
    exact ih (fun f mem => meets f (List.mem_cons_of_mem e mem)) next

instance Along.decidable {step : σ → ε → Option σ} {P : σ → ε → Prop}
    [∀ s e, Decidable (P s e)] : ∀ (s : σ) (events : List ε), Decidable (Along step P s events)
  | _, [] => .isTrue trivial
  | s, e :: events =>
    match taken : step s e with
    | none => decidable_of_iff (P s e) ⟨fun meets => ⟨meets, by simp [taken]⟩, And.left⟩
    | some next =>
      have : Decidable (Along step P next events) := Along.decidable next events
      decidable_of_iff (P s e ∧ Along step P next events)
        ⟨fun both => .cons both.1 taken both.2, fun both => ⟨both.1, both.2 next taken⟩⟩

/-- What every step keeps whose event meets `P`, a run of such events keeps. -/
theorem run_invariant_along (keeps : ∀ s e next, Inv s → P s e → step s e = some next → Inv next)
    {last : σ} (start : Inv s) (along : Along step P s events) (ran : run step s events = some last) :
    Inv last := by
  induction events generalizing s with
  | nil =>
    cases ran
    exact start
  | cons e events ih =>
    obtain ⟨next, stepped, rest⟩ := Option.bind_eq_some_iff.mp ran
    exact ih (keeps s e next start along.1 stepped) (along.2 next stepped) rest

/-- Two conditions that agree on the states of an invariant, which the steps keep whose
events meet them, agree on runs. -/
theorem along_congr (Inv : σ → Prop) {Q : σ → ε → Prop} (agree : ∀ s e, Inv s → (P s e ↔ Q s e))
    (keeps : ∀ s e next, Inv s → P s e → step s e = some next → Inv next) (start : Inv s) :
    Along step P s events ↔ Along step Q s events := by
  induction events generalizing s with
  | nil => exact .rfl
  | cons e events ih =>
    have here := agree s e start
    constructor
    · rintro ⟨meets, rest⟩
      exact ⟨here.mp meets, fun next taken => (ih (keeps s e next start meets taken)).mp (rest next taken)⟩
    · rintro ⟨meets, rest⟩
      have also := here.mpr meets
      exact ⟨also, fun next taken => (ih (keeps s e next start also taken)).mpr (rest next taken)⟩

/-- If a step from a good state leads to a good state exactly when its event
meets `P`, then a run stays good exactly when all of its events meet `P`. -/
theorem always_iff_along {Q : σ → Prop}
    (progress : ∀ s e, Inv s → ∃ next, step s e = some next ∧ Inv next)
    (exact_step : ∀ s e next, Inv s → Q s → step s e = some next → (Q next ↔ P s e)) (start : Inv s)
    (good : Q s) : Always step Q s events ↔ Along step P s events := by
  induction events generalizing s with
  | nil => exact ⟨fun _ => trivial, fun _ => good⟩
  | cons e events ih =>
    obtain ⟨next, ran, kept⟩ := progress s e start
    have decided := exact_step s e next start good ran
    constructor
    · rintro ⟨-, other, taken, always⟩
      cases ran.symm.trans taken
      have goodNext : Q next := by
        cases events with
        | nil => exact always
        | cons f events => exact always.1
      refine ⟨decided.mp goodNext, fun other taken => ?_⟩
      cases ran.symm.trans taken
      exact (ih kept goodNext).mp always
    · rintro ⟨meets, rest⟩
      have goodNext := decided.mpr meets
      exact ⟨good, next, ran, (ih kept goodNext).mpr (rest next ran)⟩

end HiveGo

/-! Calls in progress. A call is known by the phase it is in, so the list is read as a multiset.
One step takes one call from its phase to the next, or lets it return. -/
namespace HiveGo.CallPool

variable {α : Type} [DecidableEq α]

/-- The call in phase `old` goes on to `next`, or returns. -/
def advance (calls : List α) (old : α) (next : Option α) : List α :=
  next.toList ++ calls.erase old

variable {old : α}

theorem mem_advance (mem : call ∈ advance calls old next) : next = some call ∨ call ∈ calls := by
  rcases List.mem_append.mp mem with here | there
  · exact .inl (Option.mem_toList.mp here)
  · exact .inr (List.mem_of_mem_erase there)

theorem mem_advance_next : next ∈ advance calls old (some next) := by
  simp [advance]

/-- The other calls stay where they are. -/
theorem mem_advance_of_ne (mem : call ∈ calls) (other : call ≠ old) :
    call ∈ advance calls old next :=
  List.mem_append_right _ ((List.mem_erase_of_ne other).mpr mem)

/-- A call with a property is still there if the call that moves takes it along. -/
theorem exists_advance {P : α → Prop} {next : Option α} (held : ∃ call ∈ calls, P call)
    (carried : P old → ∃ call, next = some call ∧ P call) :
    ∃ call ∈ advance calls old next, P call := by
  obtain ⟨call, mem, holds⟩ := held
  by_cases same : call = old
  · obtain ⟨after, rfl, holds⟩ := carried (same ▸ holds)
    exact ⟨after, mem_advance_next, holds⟩
  · exact ⟨call, mem_advance_of_ne mem same, holds⟩

/-- A weight of the phases changes by the one call that moves. -/
theorem sum_advance (weight : α → Nat) (next : Option α) (runs : old ∈ calls) :
    ((advance calls old next).map weight).sum + weight old =
      (calls.map weight).sum + (next.map weight).getD 0 := by
  have split := ((List.perm_cons_erase runs).map weight).sum_eq
  cases next <;> simp [advance, split] <;> omega

/-- A bound on the weights of all calls changes by no less than the call that moves. -/
theorem sum_advance_le (bound : (calls.map weight).sum ≤ limit)
    (runs : old ∈ calls) (change : limit + (next.map weight).getD 0 ≤ after + weight old) :
    ((advance calls old next).map weight).sum ≤ after := by
  have sum := sum_advance weight next runs
  omega

end HiveGo.CallPool
