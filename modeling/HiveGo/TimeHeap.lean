import HiveGo.Runs
import Mathlib.Algebra.BigOperators.Group.List.Basic
import Mathlib.Algebra.Ring.Nat

/-! The time heap, of which `heap.Pop` takes any of the oldest entries. -/
namespace HiveGo.TimeHeap
open List

structure Entry where
  timestamp : Int
  count : Nat
deriving DecidableEq

/-- The total is counted without overflow; the clock is that of the last reading. -/
structure State where
  heap : List Entry := []
  total : Nat := 0
  clock : Int := 0

/-- The loop of `AveragePerSecond`, with the entry and the time of every round. -/
def expire (timeBefore : Int) : (rounds : List (Entry × Int)) → State → Option State
  | [], s => if s.heap = [] then some s else none
  | (oldest, now) :: rounds, s =>
    if oldest ∈ s.heap ∧ (∀ entry ∈ s.heap, oldest.timestamp ≤ entry.timestamp) ∧ s.clock ≤ now then
      if now - oldest.timestamp < timeBefore then
        if rounds = [] then some { s with clock := now } else none
      else expire timeBefore rounds ⟨s.heap.erase oldest, s.total - oldest.count, now⟩
    else none

inductive Event where
  | add (now : Int) (count : Nat)
  | clear
  | averagePerSecond (timeBefore : Int) (rounds : List (Entry × Int))

def step (s : State) : Event → Option State
  | .add now count =>
    if s.clock ≤ now then some ⟨⟨now, count⟩ :: s.heap, s.total + count, now⟩ else none
  | .clear => some { s with heap := [] }
  | .averagePerSecond timeBefore rounds => expire timeBefore rounds s

def Exact (s : State) : Prop := s.total = (s.heap.map (·.count)).sum

/-- `AveragePerSecond` leaves the entries that were younger at its last reading. -/
theorem expire_spec {next : State} (ran : expire timeBefore rounds s = some next) : (Exact s → Exact next) ∧
    ∀ entry ∈ next.heap, next.clock - entry.timestamp < timeBefore := by
  induction rounds generalizing s with
  | nil =>
    rw [expire, Option.ite_none_right_eq_some] at ran
    cases ran.2
    exact ⟨id, by simp [ran.1]⟩
  | cons round rounds ih =>
    rw [expire, Option.ite_none_right_eq_some] at ran
    obtain ⟨⟨mem, first, -⟩, ran⟩ := ran
    split at ran
    · rw [Option.ite_none_right_eq_some] at ran
      cases ran.2
      refine ⟨id, fun entry mem => ?_⟩
      have older := first entry mem
      dsimp only
      omega
    · obtain ⟨kept, young⟩ := ih ran
      refine ⟨fun sums => kept ?_, young⟩
      have erased := sum_map_erase (·.count) mem
      unfold Exact at sums ⊢
      dsimp only
      omega

/-- The heap is only cleared when it is empty. -/
def orderly (s : State) : Event → Bool
  | .clear => s.heap = []
  | _ => true

theorem exact_step (s : State) (e : Event) (next : State) (sums : Exact s)
    (meets : orderly s e = true) (ran : step s e = some next) : Exact next := by
  cases e with
  | add now count =>
    rw [step, Option.ite_none_right_eq_some] at ran
    cases ran.2
    simp [Exact, sums.symm, Nat.add_comm]
  | clear =>
    cases ran
    rw [orderly, decide_eq_true_eq] at meets
    simpa [Exact, meets] using sums
  | averagePerSecond timeBefore rounds => exact (expire_spec ran).1 sums

theorem total_exact (along : Along step (orderly · ·) {} events)
    (ran : run step {} events = some s) :
    s.total = (s.heap.map (·.count)).sum ∧ ∀ timeBefore rounds next,
      step s (.averagePerSecond timeBefore rounds) = some next →
        ∀ entry ∈ next.heap, next.clock - entry.timestamp < timeBefore :=
  ⟨run_invariant_along exact_step (show Exact {} from rfl) along ran, fun _ _ _ ran => (expire_spec ran).2⟩

def addTwo : List Event :=
  [.add 1 5, .add 2 7, .averagePerSecond 2 [(⟨1, 5⟩, 3), (⟨2, 7⟩, 3)]]

theorem one_left : ∃ s, run step {} addTwo = some s ∧ s.total = 7 ∧
    s.total = (s.heap.map (·.count)).sum :=
  ⟨_, rfl, rfl, (total_exact (by decide) (show run step {} addTwo = some _ from rfl)).1⟩

/-- `Clear` keeps the total. -/
theorem cleared_still_counted :
    ∃ s, run step {} [.add 1 5, .clear] = some s ∧ s.heap = [] ∧ s.total = 5 := ⟨_, rfl, rfl, rfl⟩

end HiveGo.TimeHeap
