import HiveGo.Runs

/-! The timed queue: goroutines that poll it, calls of `Add`, `Cancel` and `Shutdown`, and a clock.
The heap is the list of its elements, of which `heap.Pop` takes any with the least time. -/
namespace HiveGo.TimedQueue
open List Option

/-- A queued element; every `Add` makes one with a new number. -/
structure Element where
  id : Nat
  scheduledTime : Nat
deriving DecidableEq

/-- Pollers are about to lock the heap, wait for an element to be queued, hold one until it is due,
or have returned an empty value. -/
structure State where
  heap : List Element := []
  looking : Nat := 0
  waiting : Nat := 0
  holding : List Element := []
  done : Nat := 0
  /-- What calls of `Add` have to push, and how many have to signal. -/
  entering : List Element := []
  signals : Nat := 0
  isShutdown : Bool := false
  cancelPendingElements : Bool := false
  ignorePendingTimeouts : Bool := false
  /-- `Shutdown` has not locked the heap so far. -/
  closing : Bool := false
  clock : Nat := 0
  added : List Element := []
  cancelled : List Element := []
  returned : List Element := []

inductive Event where
  | add (e : Element) | push (e : Element) | signal
  | sleep | pop (e : Element) | expire (e : Element) | skip (e : Element) | abort (e : Element)
  | cancel (e : Element)
  | shutdown (cancelPendingElements ignorePendingTimeouts : Bool) | finish
  | tick

def step (s : State) : Event → Option State
  | .add e =>
    if s.isShutdown ∨ e ∈ s.entering ++ s.added then none
    else some { s with entering := e :: s.entering }
  | .push e =>
    if e ∈ s.entering then some { s with
      entering := s.entering.erase e, heap := e :: s.heap, added := e :: s.added
      signals := s.signals + 1 }
    else none
  | .signal =>
    if s.signals = 0 then none
    else if s.waiting = 0 then some { s with signals := s.signals - 1 }
    else some { s with
      signals := s.signals - 1, waiting := s.waiting - 1, looking := s.looking + 1 }
  | .sleep =>
    if s.looking = 0 ∨ s.heap ≠ [] then none
    else if s.isShutdown then some { s with looking := s.looking - 1, done := s.done + 1 }
    else some { s with looking := s.looking - 1, waiting := s.waiting + 1 }
  | .pop e =>
    if 0 < s.looking ∧ e ∈ s.heap ∧ ∀ x ∈ s.heap, e.scheduledTime ≤ x.scheduledTime then
      some { s with
        looking := s.looking - 1, heap := s.heap.erase e, holding := e :: s.holding }
    else none
  | .expire e =>
    if e ∈ s.holding ∧ (e.scheduledTime ≤ s.clock ∨
        s.isShutdown ∧ !s.cancelPendingElements ∧ s.ignorePendingTimeouts) then
      some { s with
        holding := s.holding.erase e, returned := e :: s.returned, looking := s.looking + 1 }
    else none
  | .skip e =>
    if e ∈ s.holding ∧ e ∈ s.cancelled then
      some { s with holding := s.holding.erase e, looking := s.looking + 1 }
    else none
  | .abort e =>
    if e ∈ s.holding ∧ s.isShutdown ∧ s.cancelPendingElements then
      some { s with holding := s.holding.erase e, done := s.done + 1 }
    else none
  | .cancel e =>
    if e ∈ s.added then
      some { s with heap := s.heap.filter (· ≠ e), cancelled := e :: s.cancelled }
    else none
  | .shutdown cancelPendingElements ignorePendingTimeouts =>
    if s.isShutdown then none
    else some { s with
      isShutdown := true, closing := true, cancelPendingElements, ignorePendingTimeouts }
  | .finish =>
    if !s.closing then none
    else if s.heap = [] then
      some { s with closing := false, looking := s.looking + s.waiting, waiting := 0 }
    else some { s with
      closing := false, heap := if s.cancelPendingElements then [] else s.heap }
  | .tick => some { s with clock := s.clock + 1 }

/-- No call is under way and no poller has an element or is on its way to one. -/
abbrev Quiet (s : State) : Prop :=
  s.closing = false ∧ s.entering = [] ∧ s.signals = 0 ∧ s.looking = 0 ∧ s.holding = []

/-- Every poller is at one of its places, and the heap is only closed by a shutdown. -/
structure Counted (n : Nat) (s : State) : Prop where
  pollers : s.looking + s.waiting + s.holding.length + s.done = n
  closing : s.closing = true → s.isShutdown = true

/-- An element that is held no longer leaves its place to the poller. -/
theorem length_holding {s : State} (mem : e ∈ s.holding) :
    (s.holding.erase e).length + 1 = s.holding.length := by
  have pos := length_pos_of_mem mem
  rw [length_erase_of_mem mem]
  omega

theorem counted_step (s : State) (e : Event) (next : State) (counted : Counted n s)
    (ran : step s e = some next) : Counted n next := by
  obtain ⟨pollers, closing⟩ := counted
  cases e with
  | add e | push e | cancel e | tick =>
    simp only [step] at ran
    repeat' split at ran
    all_goals cases ran
    all_goals exact ⟨pollers, closing⟩
  | signal =>
    simp only [step] at ran
    repeat' split at ran
    all_goals cases ran
    · exact ⟨pollers, closing⟩
    · exact ⟨by dsimp only; omega, closing⟩
  | sleep =>
    simp only [step] at ran
    repeat' split at ran
    all_goals cases ran
    all_goals exact ⟨by dsimp only; omega, closing⟩
  | pop e =>
    obtain ⟨⟨looking, -, -⟩, same⟩ := ite_none_right_eq_some.mp ran
    cases same
    exact ⟨by rw [length_cons]; dsimp only; omega, closing⟩
  | expire e | skip e | abort e =>
    obtain ⟨⟨held, -⟩, same⟩ := ite_none_right_eq_some.mp ran
    have fewer := length_holding held
    cases same
    exact ⟨by dsimp only; omega, closing⟩
  | shutdown cancelPendingElements ignorePendingTimeouts =>
    obtain ⟨-, same⟩ := ite_none_left_eq_some.mp ran
    cases same
    exact ⟨pollers, fun _ => rfl⟩
  | finish =>
    obtain ⟨-, ran⟩ := ite_none_left_eq_some.mp ran
    split at ran
    · cases ran
      exact ⟨by dsimp only; omega, by simp⟩
    · cases ran
      exact ⟨pollers, by simp⟩

/-- The heap is closed, and whether every waiting poller is going to be signalled is settled. -/
structure Settled (enough : Prop) (s : State) : Prop where
  isShutdown : s.isShutdown = true
  closing : s.closing = false
  owed : s.waiting ≤ s.signals + s.entering.length ↔ enough

/-- After the shutdown nobody waits again, and every signal wakes one poller. -/
theorem settled_step (s : State) (e : Event) (next : State) (settled : Settled enough s)
    (ran : step s e = some next) : Settled enough next := by
  obtain ⟨isShutdown, closing, owed⟩ := settled
  cases e with
  | add e => simp [step, isShutdown] at ran
  | shutdown => simp [step, isShutdown] at ran
  | finish => simp [step, closing] at ran
  | push e =>
    obtain ⟨mem, same⟩ := ite_none_right_eq_some.mp ran
    have pos := length_pos_of_mem mem
    cases same
    refine ⟨isShutdown, closing, ?_⟩
    rw [← owed, length_erase_of_mem mem]
    dsimp only
    omega
  | signal =>
    simp only [step] at ran
    repeat' split at ran
    all_goals cases ran
    all_goals exact ⟨isShutdown, closing, by rw [← owed]; dsimp only; omega⟩
  | sleep =>
    simp only [step, isShutdown, if_true] at ran
    obtain ⟨-, same⟩ := ite_none_left_eq_some.mp ran
    cases same
    exact ⟨rfl, closing, owed⟩
  | pop e | expire e | skip e | abort e | cancel e =>
    obtain ⟨-, same⟩ := ite_none_right_eq_some.mp ran
    cases same
    exact ⟨isShutdown, closing, owed⟩
  | tick =>
    cases ran
    exact ⟨isShutdown, closing, owed⟩

/-- What is owed to the waiting pollers when `Shutdown` has locked the heap: it wakes all of them
if it finds the heap empty, and none otherwise. -/
theorem settled_finish (counted : Counted n s) (closed : step s .finish = some t) :
    Settled (s.heap = [] ∨ s.waiting ≤ s.signals + s.entering.length) t := by
  simp only [step] at closed
  split at closed
  · cases closed
  · next closing =>
    have isShutdown := counted.closing (by simpa using closing)
    split at closed
    · next empty =>
      cases closed
      exact ⟨isShutdown, rfl, by simp [empty]⟩
    · next filled =>
      cases closed
      exact ⟨isShutdown, rfl, by simp [filled]⟩

/-- Whatever is called before and after `Shutdown` locks the heap: when nothing is left to be done,
all pollers have returned exactly if the heap was empty then, or as many signals were coming as
pollers were waiting. -/
theorem pollers_return_iff (ran : run step { looking := n } before = some s)
    (closed : step s .finish = some t) (later : run step t events = some last) (quiet : Quiet last) :
    (last.waiting = 0 ∧ last.done = n) ↔
      s.heap = [] ∨ s.waiting ≤ s.signals + s.entering.length := by
  have counted : Counted n s := run_invariant counted_step ⟨by simp, by simp⟩ ran
  have pollers := (run_invariant counted_step (counted_step _ _ _ counted closed) later).pollers
  have settled := run_invariant settled_step (settled_finish counted closed) later
  obtain ⟨-, entering, signals, looking, holding⟩ := quiet
  rw [← settled.owed, entering, signals, length_nil]
  rw [looking, holding, length_nil] at pollers
  omega

/-- Two pollers wait at an empty queue when it is shut down. -/
theorem two_pollers_return : ∃ last, run step { looking := 2 } [.sleep, .sleep,
    .shutdown false false, .finish, .sleep, .sleep] = some last ∧ last.waiting = 0 ∧ last.done = 2 :=
  ⟨_, rfl, (pollers_return_iff
    (show run step _ [.sleep, .sleep, .shutdown false false] = some _ from rfl)
    (show step _ .finish = some _ from rfl) (show run step _ [.sleep, .sleep] = some _ from rfl)
    (by decide)).mpr (.inl rfl)⟩

/-- `Add` wakes the first poller and `Shutdown` finds the element, so nobody wakes the second. -/
theorem second_poller_blocked : ∃ s, run step { looking := 2 } [.sleep, .sleep, .add ⟨0, 0⟩,
    .push ⟨0, 0⟩, .signal, .shutdown false false, .finish, .pop ⟨0, 0⟩, .expire ⟨0, 0⟩, .sleep] =
      some s ∧ s.isShutdown = true ∧ Quiet s ∧ s.waiting = 1 :=
  ⟨_, rfl, rfl, by decide, rfl⟩

/-- The queue is not shut down, and nothing is pushed that is earlier than what a poller holds. -/
def orderly (s : State) : Event → Bool
  | .push x => s.holding.all (·.scheduledTime ≤ x.scheduledTime)
  | .shutdown .. => false
  | _ => true

structure InOrder (s : State) : Prop where
  pollers : s.looking + s.waiting + s.holding.length ≤ 1
  open_ : s.isShutdown = false ∧ s.closing = false
  kept : ∀ x ∈ s.added, x ∈ s.heap ∨ x ∈ s.holding ∨ x ∈ s.returned ∨ x ∈ s.cancelled
  first : ∀ e ∈ s.holding, ∀ x ∈ s.heap, e.scheduledTime ≤ x.scheduledTime

theorem inOrder_step (s : State) (e : Event) (next : State) (inOrder : InOrder s)
    (meets : orderly s e = true) (ran : step s e = some next) : InOrder next := by
  obtain ⟨pollers, open_, kept, first⟩ := inOrder
  cases e with
  | add e =>
    obtain ⟨-, same⟩ := ite_none_left_eq_some.mp ran
    cases same
    exact ⟨pollers, open_, kept, first⟩
  | push e =>
    obtain ⟨-, same⟩ := ite_none_right_eq_some.mp ran
    cases same
    refine ⟨pollers, open_, forall_mem_cons.mpr ⟨.inl mem_cons_self, fun x mem => ?_⟩, ?_⟩
    · exact (kept x mem).imp_left (mem_cons_of_mem _)
    · intro held mem
      have pushed := all_eq_true.mp meets held mem
      exact forall_mem_cons.mpr ⟨of_decide_eq_true pushed, first held mem⟩
  | signal =>
    obtain ⟨-, ran⟩ := ite_none_left_eq_some.mp ran
    split at ran
    · cases ran
      exact ⟨pollers, open_, kept, first⟩
    · cases ran
      exact ⟨by dsimp only; omega, open_, kept, first⟩
  | sleep =>
    simp only [step, open_.1, Bool.false_eq_true, if_false] at ran
    obtain ⟨guard, same⟩ := ite_none_left_eq_some.mp ran
    rw [not_or] at guard
    cases same
    exact ⟨by dsimp only; omega, ⟨rfl, open_.2⟩, kept, first⟩
  | pop e =>
    obtain ⟨⟨looking, mem, least⟩, same⟩ := ite_none_right_eq_some.mp ran
    cases same
    refine ⟨by rw [length_cons]; dsimp only; omega, open_, fun x added => ?_,
      forall_mem_cons.mpr ⟨fun x later => least x (mem_of_mem_erase later), fun held inside x later =>
        first held inside x (mem_of_mem_erase later)⟩⟩
    rcases kept x added with queued | holds | rest
    · by_cases taken : x = e
      · exact .inr (.inl (taken ▸ mem_cons_self))
      · exact .inl ((mem_erase_of_ne taken).mpr queued)
    · exact .inr (.inl (mem_cons_of_mem _ holds))
    · exact .inr (.inr rest)
  | expire e =>
    obtain ⟨⟨held, -⟩, same⟩ := ite_none_right_eq_some.mp ran
    have fewer := length_holding held
    cases same
    refine ⟨by dsimp only; omega, open_, fun x added => ?_, fun other inside =>
      first other (mem_of_mem_erase inside)⟩
    rcases kept x added with queued | holds | done | gone
    · exact .inl queued
    · by_cases due : x = e
      · exact .inr (.inr (.inl (due ▸ mem_cons_self)))
      · exact .inr (.inl ((mem_erase_of_ne due).mpr holds))
    · exact .inr (.inr (.inl (mem_cons_of_mem _ done)))
    · exact .inr (.inr (.inr gone))
  | skip e =>
    obtain ⟨⟨held, gone⟩, same⟩ := ite_none_right_eq_some.mp ran
    have fewer := length_holding held
    cases same
    refine ⟨by dsimp only; omega, open_, fun x added => ?_, fun other inside =>
      first other (mem_of_mem_erase inside)⟩
    rcases kept x added with queued | holds | rest
    · exact .inl queued
    · by_cases skipped : x = e
      · exact .inr (.inr (.inr (skipped ▸ gone)))
      · exact .inr (.inl ((mem_erase_of_ne skipped).mpr holds))
    · exact .inr (.inr rest)
  | cancel e =>
    obtain ⟨-, same⟩ := ite_none_right_eq_some.mp ran
    cases same
    refine ⟨pollers, open_, fun x added => ?_, fun held inside x later =>
      first held inside x (mem_of_mem_filter later)⟩
    by_cases gone : x = e
    · exact .inr (.inr (.inr (gone ▸ mem_cons_self)))
    · have stays : x ∈ s.heap → x ∈ s.heap.filter (· ≠ e) := fun queued =>
        mem_filter.mpr ⟨queued, decide_eq_true gone⟩
      exact (kept x added).imp stays (Or.imp_right (Or.imp_right (mem_cons_of_mem _)))
  | abort e => simp [step, open_.1] at ran
  | shutdown => cases meets
  | finish => simp [step, open_.2] at ran
  | tick =>
    cases ran
    exact ⟨pollers, open_, kept, first⟩

/-- When the only poller returns an element, what was to be returned before it has been. -/
theorem released_in_order (along : Along step (orderly · ·) { looking := 1 } events)
    (ran : run step { looking := 1 } events = some s) (released : step s (.expire e) = some later)
    (mem : x ∈ s.added) (kept : x ∉ s.cancelled) (earlier : x.scheduledTime < e.scheduledTime) :
    x ∈ s.returned := by
  obtain ⟨pollers, -, all, first⟩ :=
    run_invariant_along inOrder_step (by constructor <;> simp) along ran
  rw [step, ite_none_right_eq_some] at released
  have held := released.1.1
  obtain queued | holds | done | gone := all x mem
  · exact absurd (first e held x queued) (Nat.not_le.mpr earlier)
  · obtain ⟨only, shape⟩ := length_eq_one_iff.mp
      (Nat.le_antisymm (by omega) (length_pos_of_mem held))
    rw [shape, mem_singleton] at held holds
    exact absurd earlier (by rw [held, holds]; exact Nat.lt_irrefl _)
  · exact done
  · exact absurd gone kept

def twoInOrder : List Event :=
  [.add ⟨0, 2⟩, .push ⟨0, 2⟩, .add ⟨1, 1⟩, .push ⟨1, 1⟩, .pop ⟨1, 1⟩, .tick, .expire ⟨1, 1⟩,
    .pop ⟨0, 2⟩, .tick]

theorem two_released : ∃ s, run step { looking := 1 } twoInOrder = some s ∧
    (step s (.expire ⟨0, 2⟩)).isSome = true ∧ ⟨1, 1⟩ ∈ s.returned :=
  ⟨_, rfl, rfl, released_in_order (by decide) (show run step _ twoInOrder = some _ from rfl)
    (show step _ (.expire ⟨0, 2⟩) = some _ from rfl) (by decide) (by decide) (by decide)⟩

/-- The poller keeps the element it has popped. -/
theorem later_released_first : ∃ s, run step { looking := 1 } [.add ⟨0, 1⟩, .push ⟨0, 1⟩,
    .pop ⟨0, 1⟩, .add ⟨1, 0⟩, .push ⟨1, 0⟩, .tick] = some s ∧
      (step s (.expire ⟨0, 1⟩)).isSome = true ∧ ⟨1, 0⟩ ∈ s.added ∧ ⟨1, 0⟩ ∉ s.cancelled ∧
      ⟨1, 0⟩ ∉ s.returned :=
  ⟨_, rfl, by decide⟩

end HiveGo.TimedQueue
