import HiveGo.Runs

/-! A variable derived from several inputs that change at the same time. The callback of an input
computes from its own value and what it reads of the others, so it may see a state that never was;
the last one sees the final state. -/
namespace HiveGo.DerivedVariable
open Function

/-- Where a call of the callback is: waiting with the value it was given, or computing. -/
inductive Phase (α : Type) where
  | idle
  | delivering (value : α)
  | computing

/-- An input with the registration of the callback and the `Set` that is in progress. A `Set`
holds the input's `updateOrderMutex`, so there is one at a time. -/
structure Input (α : Type) where
  value : α
  subscribed : Bool := false
  registration : Phase α := .idle
  set : Phase α := .idle

/-- Who calls the callback. -/
inductive Caller where
  | registration
  | set
  deriving DecidableEq

variable {ι : Type} {α : ι → Type} {β : Type}
variable {i : ι}

/-- The computation that holds the mutex of the derived variable: what it has seen of the
inputs, and which of them it has still to read. -/
structure Derivation (α : ι → Type) where
  input : ι
  caller : Caller
  seen : (i : ι) → α i
  remaining : List ι

structure State (α : ι → Type) (β : Type) where
  inputs : (i : ι) → Input (α i)
  value : β
  derivation : Option (Derivation α) := none

inductive Event (α : ι → Type) where
  /-- `Set`, or any other computation of a new value of an input. -/
  | set (i : ι) (computeFunc : α i → α i)
  /-- The constructor subscribes to its next input. -/
  | register
  | compute (i : ι) (caller : Caller)
  /-- The computation reads its next input, or stores its result. -/
  | proceed

def Input.phase {α : Type} (input : Input α) : Caller → Phase α
  | .registration => input.registration
  | .set => input.set

def Input.setPhase {α : Type} (input : Input α) (phase : Phase α) : Caller → Input α
  | .registration => { input with registration := phase }
  | .set => { input with set := phase }

def Phase.isIdle {α : Type} : Phase α → Bool
  | .idle => true
  | _ => false

variable [DecidableEq ι]

def State.update (s : State α β) (i : ι) (input : Input (α i)) : State α β :=
  { s with inputs := Function.update s.inputs i input }

/-- The value of an input is stored; a change is delivered to the callback if there is one. -/
def set [∀ i, DecidableEq (α i)] (s : State α β) (i : ι) (computeFunc : α i → α i) :
    Option (State α β) :=
  let input := s.inputs i
  if input.set.isIdle then
    let value := computeFunc input.value
    if value = input.value then some s
    else
      some (s.update i { input with
        value, set := if input.subscribed then .delivering value else .idle })
  else none

/-- The callback of an input enters the critical section of the derived variable. The call
made by the registration comes before the one made by a `Set`. -/
def compute [∀ i, Inhabited (α i)] (order : List ι) (s : State α β) (i : ι) (caller : Caller) :
    Option (State α β) :=
  match s.derivation, (s.inputs i).phase caller with
  | none, .delivering value =>
    if caller = .set ∧ (s.inputs i).registration.isIdle = false then none
    else
      some { s.update i ((s.inputs i).setPhase .computing caller) with
        derivation := some {
          input := i, caller, seen := update (fun _ => default) i value
          remaining := order.filter (· ≠ i) } }
  | _, _ => none

/-- One step. The inputs are subscribed to and read in the order of the constructor's
arguments; `derive` is the function it is given. -/
def step [∀ i, DecidableEq (α i)] [∀ i, Inhabited (α i)] (order : List ι)
    (derive : β → ((i : ι) → α i) → β) (s : State α β) : Event α → Option (State α β)
  | .set i computeFunc => set s i computeFunc
  | .register =>
    match order.find? fun i => !(s.inputs i).subscribed with
    | none => none
    | some i =>
      if order.all fun j => (s.inputs j).registration.isIdle then
        some (s.update i { s.inputs i with
          subscribed := true, registration := .delivering (s.inputs i).value })
      else none
  | .compute i caller => compute order s i caller
  | .proceed =>
    match s.derivation with
    | none => none
    | some d =>
      match d.remaining with
      | j :: remaining =>
        some { s with
          derivation := some { d with
            seen := update d.seen j (s.inputs j).value, remaining } }
      | [] =>
        some { s.update d.input ((s.inputs d.input).setPhase .idle d.caller) with
          value := derive s.value d.seen, derivation := none }

/-- The constructor before it subscribes to its inputs. -/
def newDerivedVariable (values : (i : ι) → α i) (initialValue : β) : State α β where
  inputs i := { value := values i }
  value := initialValue

section input

variable {α : Type} {input : Input α} {phase : Phase α}

@[simp] theorem Input.value_setPhase : (input.setPhase phase caller).value = input.value := by
  cases caller <;> rfl

@[simp] theorem Input.subscribed_setPhase :
    (input.setPhase phase caller).subscribed = input.subscribed := by
  cases caller <;> rfl

@[simp] theorem Input.phase_setPhase_self : (input.setPhase phase caller).phase caller = phase := by
  cases caller <;> rfl

theorem Input.phase_setPhase_of_ne (apart : other ≠ caller) :
    (input.setPhase phase caller).phase other = input.phase other := by
  cases caller <;> cases other <;> first | rfl | exact absurd rfl apart

theorem Phase.eq_idle (idle : phase.isIdle = true) : phase = .idle := by
  cases phase with
  | idle => rfl
  | _ => cases idle

/-- The derived variable is going to be computed again because of the input. -/
def Input.Pending (input : Input α) : Prop :=
  input.subscribed = false ∨ ∃ caller value, input.phase caller = .delivering value

/-- What is waiting to be delivered is the value of the input, or another value comes after it. -/
structure Input.Valid (input : Input α) : Prop where
  set : ∀ value, input.set = .delivering value → value = input.value
  registration : ∀ value, input.registration = .delivering value →
    value = input.value ∨ ∃ later, input.set = .delivering later
  subscribed : input.registration.isIdle = false → input.subscribed = true

section

variable (valid : input.Valid)
include valid

/-- A new value of the input is delivered, or the input is not subscribed to yet. -/
theorem Input.Valid.changed (value : α) :
    ({ input with
        value, set := if input.subscribed then .delivering value else .idle } : Input α).Valid ∧
      ({ input with
        value, set := if input.subscribed then .delivering value else .idle } : Input α).Pending := by
  cases joined : input.subscribed with
  | false =>
    have idle : input.registration.isIdle = true := by
      by_contra busy
      cases joined.symm.trans (valid.subscribed (Bool.eq_false_iff.mpr busy))
    refine ⟨⟨nofun, fun other delivering => ?_, fun busy => ?_⟩, .inl rfl⟩
    · cases (Phase.eq_idle idle).symm.trans delivering
    · cases idle.symm.trans busy
  | true =>
    refine ⟨⟨?_, fun _ _ => .inr ⟨value, rfl⟩, fun _ => rfl⟩, .inr ⟨.set, value, rfl⟩⟩
    rintro _ ⟨⟩
    rfl

/-- The callback is registered with the current value. -/
theorem Input.Valid.registered :
    ({ input with subscribed := true, registration := .delivering input.value } : Input α).Valid := by
  refine ⟨valid.set, ?_, fun _ => rfl⟩
  rintro _ ⟨⟩
  exact .inl rfl

/-- The callback has started with what it was given. -/
theorem Input.Valid.started {value : α} (delivering : input.phase caller = .delivering value)
    (first : caller = .set → input.registration = .idle) :
    (input.setPhase .computing caller).Valid := by
  cases caller with
  | registration =>
    refine ⟨valid.set, nofun, fun _ => valid.subscribed ?_⟩
    rw [show input.registration = .delivering value from delivering]
    rfl
  | set =>
    refine ⟨nofun, fun other also => ?_, valid.subscribed⟩
    cases (first rfl).symm.trans also

/-- The callback has returned. -/
theorem Input.Valid.finished (computing : input.phase caller = .computing) :
    (input.setPhase .idle caller).Valid := by
  cases caller with
  | registration => exact ⟨valid.set, nofun, nofun⟩
  | set =>
    refine ⟨nofun, fun value delivering => ?_, valid.subscribed⟩
    rcases valid.registration value delivering with same | ⟨later, also⟩
    · exact .inl same
    · cases (show input.set = .computing from computing).symm.trans also

end

/-- A callback that returns or starts leaves the other one pending. -/
theorem Input.Pending.setPhase_of_ne {value : α}
    (pending : input.phase other = .delivering value) (apart : other ≠ caller) :
    (input.setPhase phase caller).Pending :=
  .inr ⟨other, value, (Input.phase_setPhase_of_ne apart).trans pending⟩

end input

/-- The derivation has seen the inputs as they are, as far as it has read them. -/
def Derivation.Current (d : Derivation α) (inputs : (i : ι) → Input (α i)) : Prop :=
  ∀ i, i ∉ d.remaining → d.seen i = (inputs i).value

/-- The derived value is up to date, is being computed from inputs as they are, or is going
to be computed again. -/
structure Inv (derive : β → ((i : ι) → α i) → β) (s : State α β) : Prop where
  inputs : ∀ i, (s.inputs i).Valid
  computing : ∀ d, s.derivation = some d → (s.inputs d.input).phase d.caller = .computing
  derived : (∃ i, (s.inputs i).Pending) ∨ (∃ d, s.derivation = some d ∧ d.Current s.inputs) ∨
    s.derivation = none ∧ s.value = derive s.value fun i => (s.inputs i).value

variable {s : State α β}

/-- The other inputs stay valid when one of them changes. -/
theorem valid_update (valid : ∀ j, (s.inputs j).Valid) (here : input.Valid) (j : ι) :
    (update s.inputs i input j).Valid := by
  by_cases same : j = i
  · subst same
    rw [update_self]
    exact here
  · rw [update_of_ne same]
    exact valid j

variable {d : Derivation α}

/-- An input that changes while it is not computing leaves the derivation where it is. -/
theorem computing_update (computing : (s.inputs d.input).phase d.caller = .computing)
    (here : ∀ caller, (s.inputs i).phase caller = .computing → input.phase caller = .computing) :
    (update s.inputs i input d.input).phase d.caller = .computing := by
  by_cases same : d.input = i
  · subst same
    rw [update_self]
    exact here d.caller computing
  · rw [update_of_ne same]
    exact computing

theorem pending_update (pending : input.Pending) : ∃ j, (update s.inputs i input j).Pending :=
  ⟨i, by rw [update_self]; exact pending⟩

theorem inv_set [∀ i, DecidableEq (α i)] (inv : Inv derive s)
    (ran : set s i computeFunc = some next) : Inv derive next := by
  unfold set at ran
  dsimp only at ran
  split at ran
  · next free =>
    have idle := Phase.eq_idle free
    split at ran
    · cases ran
      exact inv
    · cases ran
      obtain ⟨valid, pending⟩ := (inv.inputs i).changed (computeFunc (s.inputs i).value)
      refine ⟨valid_update inv.inputs valid, fun d held => ?_, .inl (pending_update pending)⟩
      refine computing_update (inv.computing d held) fun caller computing => ?_
      cases caller with
      | registration => exact computing
      | set => cases idle.symm.trans computing
  · cases ran

theorem inv_register (inv : Inv derive s) (idle : (s.inputs i).registration = .idle) :
    Inv derive (s.update i { s.inputs i with
      subscribed := true, registration := .delivering (s.inputs i).value }) := by
  refine ⟨valid_update inv.inputs (inv.inputs i).registered, fun d held => ?_,
    .inl (pending_update (.inr ⟨.registration, _, rfl⟩))⟩
  refine computing_update (inv.computing d held) fun caller computing => ?_
  cases caller with
  | registration => cases idle.symm.trans computing
  | set => exact computing

theorem inv_compute [∀ i, Inhabited (α i)] (complete : ∀ i, i ∈ order) (inv : Inv derive s)
    (ran : compute order s i caller = some next) : Inv derive next := by
  unfold compute at ran
  split at ran
  · next value free delivering =>
    split at ran
    · cases ran
    · next turn =>
      cases ran
      have first : caller = .set → (s.inputs i).registration = .idle := by
        intro isSet
        refine Phase.eq_idle ?_
        by_contra busy
        exact turn ⟨isSet, Bool.eq_false_iff.mpr busy⟩
      refine ⟨valid_update inv.inputs ((inv.inputs i).started delivering first), ?_, ?_⟩
      · simp [State.update]
      · -- either somebody else is waiting, or this one has been given the value as it is
        by_cases pending : ∃ j, (Function.update s.inputs i
            ((s.inputs i).setPhase .computing caller) j).Pending
        · exact .inl pending
        · refine .inr (.inl ⟨_, rfl, fun j read => ?_⟩)
          have own : j = i := by
            by_contra other
            exact read (List.mem_filter.mpr ⟨complete j, by simpa using other⟩)
          have given : value = (s.inputs i).value := by
            cases caller with
            | set => exact (inv.inputs i).set value delivering
            | registration =>
              refine ((inv.inputs i).registration value delivering).resolve_right fun later => ?_
              obtain ⟨later, also⟩ := later
              refine pending (pending_update ?_)
              exact Input.Pending.setPhase_of_ne (show (s.inputs i).phase .set = _ from also) nofun
          subst own
          simp [State.update, given]
  · cases ran

/-- The derivation reads an input, which it sees as it is. -/
theorem inv_read (inv : Inv derive s) (held : s.derivation = some d)
    (rest : d.remaining = j :: remaining) : Inv derive { s with
      derivation := some { d with
        seen := update d.seen j (s.inputs j).value, remaining } } := by
  refine ⟨inv.inputs, ?_, ?_⟩
  · rintro _ ⟨⟩
    exact inv.computing d held
  · rcases inv.derived with pending | ⟨other, same, current⟩ | ⟨free, -⟩
    · exact .inl pending
    · cases held.symm.trans same
      refine .inr (.inl ⟨_, rfl, fun k read => ?_⟩)
      by_cases own : k = j
      · subst own
        exact update_self ..
      · refine (update_of_ne own ..).trans (current k ?_)
        rw [rest, List.mem_cons, not_or]
        exact ⟨own, read⟩
    · cases held.symm.trans free

/-- The derivation stores its result and its callback returns. -/
theorem inv_store (ignores : ∀ b b' values, derive b values = derive b' values) (inv : Inv derive s)
    (held : s.derivation = some d) (finished : d.remaining = []) :
    Inv derive { s.update d.input ((s.inputs d.input).setPhase .idle d.caller) with
      value := derive s.value d.seen, derivation := none } := by
  have computing := inv.computing d held
  refine ⟨valid_update inv.inputs ((inv.inputs d.input).finished computing), nofun, ?_⟩
  have values : ∀ i, (update s.inputs d.input
      ((s.inputs d.input).setPhase .idle d.caller) i).value = (s.inputs i).value := by
    intro i
    by_cases own : i = d.input
    · subst own
      simp
    · rw [update_of_ne own]
  rcases inv.derived with ⟨i, pending⟩ | ⟨other, same, current⟩ | ⟨free, -⟩
  · refine .inl ⟨i, ?_⟩
    change (Function.update s.inputs d.input _ i).Pending
    by_cases own : i = d.input
    · subst own
      rw [update_self]
      rcases pending with unsubscribed | ⟨caller, value, delivering⟩
      · exact .inl (by simpa using unsubscribed)
      · refine Input.Pending.setPhase_of_ne delivering ?_
        rintro rfl
        cases computing.symm.trans delivering
    · rw [update_of_ne own]
      exact pending
  · cases held.symm.trans same
    have seen : d.seen = fun i => (s.inputs i).value :=
      funext fun i => current i (by simp [finished])
    refine .inr (.inr ⟨rfl, ?_⟩)
    simp only [State.update, values, seen]
    exact ignores ..
  · cases held.symm.trans free

theorem inv_step [∀ i, DecidableEq (α i)] [∀ i, Inhabited (α i)] (complete : ∀ i, i ∈ order)
    (ignores : ∀ b b' values, derive b values = derive b' values) (s : State α β) (e : Event α)
    (next : State α β) (inv : Inv derive s) (ran : step order derive s e = some next) :
    Inv derive next := by
  cases e with
  | set i computeFunc => exact inv_set inv ran
  | register =>
    simp only [step] at ran
    split at ran
    · cases ran
    · next i found =>
      split at ran
      · next idle =>
        cases ran
        refine inv_register inv (Phase.eq_idle ?_)
        exact List.all_eq_true.mp idle i (complete i)
      · cases ran
  | compute i caller => exact inv_compute complete inv ran
  | proceed =>
    simp only [step] at ran
    split at ran
    · cases ran
    · next d held =>
      split at ran
      · cases ran
        exact inv_read inv held ‹_›
      · cases ran
        exact inv_store ignores inv held ‹_›

omit [DecidableEq ι] in
theorem inv_new [Nonempty ι] (values : (i : ι) → α i) (initialValue : β) :
    Inv derive (newDerivedVariable values initialValue) :=
  ⟨fun _ => ⟨nofun, nofun, nofun⟩, nofun, .inl ⟨Classical.arbitrary ι, .inl rfl⟩⟩

/-- Whenever no `Set` is in progress and the constructor has returned, the derived value is that
of the inputs. `NewDerivedVariable2`, `3` and `4` have the inputs `Fin 2`, `Fin 3` and `Fin 4`. -/
theorem derived_of_quiescent [Nonempty ι] [∀ i, DecidableEq (α i)] [∀ i, Inhabited (α i)]
    {order : List ι} (complete : ∀ i, i ∈ order)
    (ignores : ∀ b b' values, derive b values = derive b' values) {values : (i : ι) → α i}
    {initialValue : β} {events : List (Event α)} {last : State α β}
    (ran : run (step order derive) (newDerivedVariable values initialValue) events = some last)
    (constructed : ∀ i, (last.inputs i).subscribed = true ∧ (last.inputs i).registration = .idle)
    (quiescent : ∀ i, (last.inputs i).set = .idle) :
    last.value = derive last.value fun i => (last.inputs i).value := by
  have inv :=
    run_invariant (inv_step complete ignores) (inv_new values initialValue) ran
  have idle : ∀ i caller, (last.inputs i).phase caller = .idle := by
    intro i caller
    cases caller with
    | registration => exact (constructed i).2
    | set => exact quiescent i
  rcases inv.derived with ⟨i, unsubscribed | ⟨caller, value, delivering⟩⟩ | ⟨d, held, -⟩ | ⟨-, derived⟩
  · cases (constructed i).1.symm.trans unsubscribed
  · cases (idle i caller).symm.trans delivering
  · cases (idle d.input d.caller).symm.trans (inv.computing d held)
  · exact derived

/-- The second input changes after the callback of the first one has read it. -/
def staleRead : List (Event fun _ : Fin 2 => Nat) :=
  [.register, .compute 0 .registration, .proceed, .proceed, .register,
    .compute 1 .registration, .proceed, .proceed, .set 0 fun _ => 5, .compute 0 .set, .proceed,
    .set 1 fun _ => 7, .proceed, .compute 1 .set, .proceed, .proceed]

theorem staleRead_derived : ∃ last, run (step (List.finRange 2) fun _ values => values 0 + values 1)
        (newDerivedVariable (fun _ => 0) 0) staleRead = some last ∧
      (last.inputs 0).value = 5 ∧ (last.inputs 1).value = 7 ∧
      last.value = (last.inputs 0).value + (last.inputs 1).value := by
  obtain ⟨last, ran, first, second, constructed, quiescent⟩ :
      ∃ last, run (step (List.finRange 2) fun _ values => values 0 + values 1)
          (newDerivedVariable (fun _ => 0) 0) staleRead = some last ∧
        (last.inputs 0).value = 5 ∧ (last.inputs 1).value = 7 ∧
        (∀ i, (last.inputs i).subscribed = true ∧ (last.inputs i).registration = .idle) ∧
        ∀ i, (last.inputs i).set = .idle := by
    refine ⟨_, rfl, rfl, rfl, fun i => ?_, fun i => ?_⟩
    · match i with
      | 0 | 1 => exact ⟨rfl, rfl⟩
    · match i with
      | 0 | 1 => rfl
  exact ⟨last, ran, first, second,
    derived_of_quiescent List.mem_finRange (fun _ _ _ => rfl) ran constructed quiescent⟩

end HiveGo.DerivedVariable
