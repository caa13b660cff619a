import HiveGo.Runs
import Mathlib.Logic.Function.Basic
import Mathlib.Data.List.Nodup

/-! `DebounceFunc` of the worker pool: invocations get their numbers one after the other, the
workers execute the closures in any order. -/
namespace HiveGo.Debounce
open Function List

/-- Where an invocation is: not made, its number taken, its closure submitted, waiting for the
mutex, with the mutex at the second check, in `workerFunc`, before the unlock, and returned. -/
inductive Phase where
  | idle | calling | submitted | locking | locked | running | unlocking | done
deriving DecidableEq

/-- The counter and the mutex of the function, and its invocations. -/
structure State where
  lastInvocation : Nat := 0
  phase : Nat → Phase := fun _ => .idle
  execMutex : Option Nat := none
  /-- The invocations whose `workerFunc` was called. -/
  ran : List Nat := []

/-- A call, or the next step of an invocation. -/
inductive Event where
  | invoke
  | proceed (currentInvocation : Nat)

/-- A closure looks for a later invocation before and after it takes the mutex. -/
def step (s : State) : Event → Option State
  | .invoke => some { s with
      lastInvocation := s.lastInvocation + 1
      phase := update s.phase (s.lastInvocation + 1) .calling }
  | .proceed i =>
    match s.phase i with
    | .idle | .done => none
    | .calling => some { s with phase := update s.phase i .submitted }
    | .submitted =>
      some { s with phase := update s.phase i (if i ≠ s.lastInvocation then .done else .locking) }
    | .locking =>
      if s.execMutex = none then
        some { s with execMutex := some i, phase := update s.phase i .locked }
      else none
    | .locked =>
      if i ≠ s.lastInvocation then some { s with phase := update s.phase i .unlocking }
      else some { s with phase := update s.phase i .running, ran := s.ran ++ [i] }
    | .running => some { s with phase := update s.phase i .unlocking }
    | .unlocking => some { s with phase := update s.phase i .done, execMutex := none }

namespace Phase

/-- Between taking the mutex and the unlock. -/
@[grind] def holds : Phase → Bool
  | locked | running | unlocking => true
  | _ => false

/-- The second check is over. -/
@[grind] def behind : Phase → Bool
  | running | unlocking | done => true
  | _ => false

end Phase

/-- The mutex names its holder, and what was started is behind its checks. -/
structure Inv (s : State) : Prop where
  idle : ∀ i, s.lastInvocation < i → s.phase i = .idle
  mutex : ∀ i, (s.phase i).holds = true ↔ s.execMutex = some i
  sorted : s.ran.Pairwise (· < ·)
  started : ∀ i ∈ s.ran, (s.phase i).behind = true
  last : (s.phase s.lastInvocation).behind = true → s.lastInvocation ∈ s.ran

theorem inv_step (s : State) (e : Event) (next : State) (inv : Inv s)
    (ran : step s e = some next) : Inv next := by
  obtain ⟨idle, mutex, sorted, started, last⟩ := inv
  cases e with
  | invoke =>
    cases ran
    constructor <;> simp only [update_apply] <;> grind
  | proceed i =>
    cases here : s.phase i with
    | idle | done =>
      simp only [step, here] at ran
      cases ran
    | calling | submitted | running =>
      simp only [step, here] at ran
      cases ran
      constructor <;> simp only [update_apply] <;> grind
    | locking =>
      simp only [step, here] at ran
      obtain ⟨free, same⟩ := Option.ite_none_right_eq_some.mp ran
      cases same
      have nobody : ∀ j, (s.phase j).holds = false := fun j => by simp [← Bool.not_eq_true, mutex, free]
      constructor <;> simp only [update_apply] <;> grind
    | locked =>
      have alone : s.execMutex = some i := (mutex i).mp (by rw [here]; rfl)
      -- What has been started is behind its second check, hence another invocation.
      have apart : ∀ j ∈ s.ran, j ≠ i := by
        rintro j mem rfl
        have behind := started j mem
        rw [here] at behind
        cases behind
      have known : ∀ j ∈ s.ran, j ≤ s.lastInvocation := by
        intro j mem
        by_contra later
        have behind := started j mem
        rw [idle j (Nat.lt_of_not_le later)] at behind
        cases behind
      simp only [step, here] at ran
      split at ran
      · cases ran
        constructor <;> simp only [update_apply] <;> grind
      · cases ran
        constructor <;> simp only [update_apply] <;> grind
    | unlocking =>
      have alone : s.execMutex = some i := (mutex i).mp (by rw [here]; rfl)
      simp only [step, here] at ran
      cases ran
      constructor <;> simp only [update_apply] <;> grind

theorem inv_run (ran : run step {} events = some s) : Inv s := by
  refine run_invariant inv_step ?_ ran
  constructor <;> simp [Phase.holds, Phase.behind]

/-- The functions run one at a time and in the order of their numbers, and when all closures have
returned the last one has run once. -/
theorem debounced (ran : run step {} events = some s) :
    (∀ i j, s.phase i = .running → s.phase j = .running → i = j) ∧ s.ran.Pairwise (· < ·) ∧
      (0 < s.lastInvocation → (∀ i, 0 < i → i ≤ s.lastInvocation → s.phase i = .done) →
        s.ran.count s.lastInvocation = 1) := by
  have inv := inv_run ran
  refine ⟨fun i j one two => ?_, inv.sorted, fun invoked all => ?_⟩
  · have held := (inv.mutex i).mp (by rw [one]; rfl)
    have also := (inv.mutex j).mp (by rw [two]; rfl)
    exact Option.some.inj (held.symm.trans also)
  · have mem := inv.last (by rw [all _ invoked (Nat.le_refl _)]; rfl)
    exact count_eq_one_of_mem (inv.sorted.imp Nat.ne_of_lt) mem

/-- The second closure overtakes the first between the two checks of the first. -/
def overtaking : List Event :=
  [.invoke, .proceed 1, .proceed 1, .invoke, .proceed 2, .proceed 2, .proceed 2, .proceed 2,
    .proceed 2, .proceed 2, .proceed 1, .proceed 1, .proceed 1]

theorem first_overtaken :
    ∃ s, run step {} overtaking = some s ∧ s.ran = [2] ∧ s.ran.Pairwise (· < ·) :=
  ⟨_, rfl, rfl, (debounced (show run step {} overtaking = some _ from rfl)).2.1⟩

end HiveGo.Debounce
