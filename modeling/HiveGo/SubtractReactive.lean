import HiveGo.ReactiveSet
import HiveGo.Runs
import HiveGo.SetArithmetic
import Mathlib.Algebra.Order.BigOperators.Group.List
import Mathlib.Algebra.Order.Group.Int
import Mathlib.Algebra.Ring.Int.Defs

/-! `SubtractReactive`: a reactive set that counts the elements of one set up and the elements of
the others down. The subscriptions are never ended, so a callback is identified by what it
does. -/
namespace HiveGo
open Function List OrderedSet SetArithmetic Int

variable {ι α κ : Type} [DecidableEq ι] [DecidableEq α]

/-- The two callbacks: the one on the set itself adds, those on the others subtract. -/
inductive SubtractRole where
  | minuend
  | subtrahend

/-- The weight with which a callback counts a change. -/
def SubtractRole.sign : SubtractRole → Int
  | .minuend => 1
  | .subtrahend => -1

/-- The reactive sets of a program, the result of one `SubtractReactive` call
and its occurrence counts. -/
structure SubtractSystem (ι α κ : Type) where
  sets : ι → ReactiveSet α SubtractRole
  result : ReactiveSet α κ
  setArithmetic : SetArithmetic α

/-- A call of a write operation on one of the sets. -/
structure SetWrite (ι α : Type) where
  set : ι
  call : Write α

namespace SubtractSystem

/-- The invocation of a callback: `Compute` on the result with the mutations the
arithmetic returns. -/
def invoke (mutations : SetMutations α) (w : SubtractSystem ι α κ)
    (role : SubtractRole) : SubtractSystem ι α κ :=
  let (counted, net) :=
    match role with
    | .minuend => add 1 w.setArithmetic mutations
    | .subtrahend => subtract 1 w.setArithmetic mutations
  { w with setArithmetic := counted, result := (w.result.compute fun _ => net.ref).set }

/-- Registration of a callback together with its initial invocation. -/
def subscribe (role : SubtractRole) (w : SubtractSystem ι α κ) (s : ι) : SubtractSystem ι α κ :=
  let (registered, initial) := (w.sets s).onUpdate role false
  let subscribed := { w with sets := update w.sets s registered }
  match initial with
  | none => subscribed
  | some mutations => subscribed.invoke mutations role

/-- `readableSet.SubtractReactive` called on set `r` of a program. -/
def subtractReactive (sets : ι → ReactiveSet α SubtractRole) (r : ι)
    (others : List ι) : SubtractSystem ι α κ :=
  others.foldl (subscribe .subtrahend) (subscribe .minuend ⟨sets, ReactiveSet.new [], new⟩ r)

def step (w : SubtractSystem ι α κ) (e : SetWrite ι α) : SubtractSystem ι α κ :=
  let delivery := (w.sets e.set).write e.call
  delivery.invoked.foldl (invoke delivery.mutations)
    { w with sets := update w.sets e.set delivery.set }

/-- The system after `SubtractReactive` was called on set `r` of sets with the
given contents and the events happened. -/
def history (contents : ι → List α) (r : ι) (others : List ι) (events : List (SetWrite ι α)) :
    SubtractSystem ι α κ :=
  events.foldl step (subtractReactive (fun s => ReactiveSet.new (contents s)) r others)

/-- The sum of the weights of the callbacks registered at a set. -/
def weight (w : SubtractSystem ι α κ) (s : ι) : Int := ((w.sets s).labels.map SubtractRole.sign).sum

/-- How often an element occurs in `r`, less its occurrences in the others. -/
def occurrences (w : SubtractSystem ι α κ) (r : ι) (others : List ι) (x : α) : Int :=
  (w.sets r).value.ind x - (others.map fun o => (w.sets o).value.ind x).sum

/-- The counts are the occurrences, the result holds what occurs, and every set
is watched once for each of its roles. -/
structure Balanced (w : SubtractSystem ι α κ) (r : ι) (others : List ι) : Prop where
  holds : SetArithmetic.Holds 1 w.setArithmetic w.result.value
  counts : ∀ x, w.setArithmetic x = w.occurrences r others x
  weights : ∀ s, w.weight s = (if s = r then 1 else 0) - others.count s

variable {w : SubtractSystem ι α κ}

omit [DecidableEq ι] in
theorem invoke_spec (holds : SetArithmetic.Holds 1 w.setArithmetic w.result.value)
    (m : SetMutations α) :
    SetArithmetic.Holds 1 (w.invoke m role).setArithmetic (w.invoke m role).result.value ∧
      (w.invoke m role).sets = w.sets ∧
      ∀ x, (w.invoke m role).setArithmetic x =
        w.setArithmetic x + role.sign * (m.addedElements.ind x - m.deletedElements.ind x) := by
  cases role with
  | minuend =>
    refine ⟨holds_apply holds (add_crossings 1 m), rfl, fun x => ?_⟩
    have count := add_count 1 w.setArithmetic m x
    simp only [invoke, SubtractRole.sign]
    omega
  | subtrahend =>
    refine ⟨holds_apply holds (subtract_crossings 1 m), rfl, fun x => ?_⟩
    have count := subtract_count 1 w.setArithmetic m x
    simp only [invoke, SubtractRole.sign]
    omega

omit [DecidableEq ι] in
/-- A delivery loop moves each count by the change times the total weight of
the invoked callbacks. -/
theorem invoke_loop (roles : List SubtractRole)
    (holds : SetArithmetic.Holds 1 w.setArithmetic w.result.value) :
    SetArithmetic.Holds 1 (roles.foldl (invoke m) w).setArithmetic (roles.foldl (invoke m) w).result.value ∧
      (roles.foldl (invoke m) w).sets = w.sets ∧
      ∀ x, (roles.foldl (invoke m) w).setArithmetic x = w.setArithmetic x +
        (roles.map SubtractRole.sign).sum * (m.addedElements.ind x - m.deletedElements.ind x) := by
  induction roles generalizing w with
  | nil => exact ⟨holds, rfl, fun x => by simp⟩
  | cons role roles ih =>
    obtain ⟨first, sets, count⟩ := invoke_spec holds m
    obtain ⟨kept, same, counts⟩ := ih first
    rw [foldl_cons]
    refine ⟨kept, same.trans sets, fun x => ?_⟩
    rw [counts x, count x, map_cons, sum_cons, add_mul]
    omega

/-- Changing one set's content by `change` moves the occurrences by `change`
times its weight in the difference. -/
theorem occurrences_update (w : SubtractSystem ι α κ) (r s : ι) (others : List ι)
    (set : ReactiveSet α SubtractRole)
    (x : α) (change : Int) (changes : set.value.ind x = (w.sets s).value.ind x + change) :
    ({ w with sets := update w.sets s set } : SubtractSystem ι α κ).occurrences r others x =
      w.occurrences r others x + ((if s = r then 1 else 0) - others.count s) * change := by
  have one : ∀ t, (update w.sets s set t).value.ind x =
      (w.sets t).value.ind x + (if s = t then change else 0) := by
    intro t
    by_cases same : s = t
    · subst same
      rw [update_self, if_pos rfl, changes]
    · rw [update_of_ne (Ne.symm same), if_neg same, add_zero]
  have all : (others.map fun o => (update w.sets s set o).value.ind x).sum =
      (others.map fun o => (w.sets o).value.ind x).sum + others.count s * change := by
    induction others with
    | nil => simp
    | cons o others ih =>
      rw [map_cons, sum_cons, ih, one o, map_cons, sum_cons, count_cons]
      by_cases same : s = o
      · subst same
        simp only [↓reduceIte, beq_self_eq_true]
        push_cast
        rw [add_mul]
        omega
      · have differs := beq_false_of_ne (Ne.symm same)
        simp only [same, differs, ↓reduceIte, Bool.false_eq_true, Nat.add_zero]
        omega
  simp only [occurrences, all, one r, sub_mul]
  split <;> omega

/-- A write that accounts for its changes keeps the balance: every callback of
the written set moves the counts by the change, with its weight. -/
theorem step_balanced (balanced : Balanced w r others) (legal : e.call.NotSelfReplacing) :
    Balanced (w.step e) r others := by
  let d := (w.sets e.set).write e.call
  have delivers : ReactiveSet.Delivers (w.sets e.set) d := (w.sets e.set).write_delivers e.call
  have accounts : SetMutations.Accounts (w.sets e.set).value d.mutations d.set.value :=
    (w.sets e.set).write_accounts legal
  let written : SubtractSystem ι α κ := { w with sets := update w.sets e.set d.set }
  obtain ⟨holds, sets, counts⟩ := invoke_loop d.invoked (w := written) balanced.holds
  have same : w.step e = d.invoked.foldl (invoke d.mutations) written := rfl
  have labels : ∀ t, (written.sets t).labels = (w.sets t).labels := by
    intro t
    by_cases here : t = e.set
    · subst here
      simp only [written, update_self]
      exact delivers.labels
    · simp [written, update_of_ne here]
  rw [same]
  refine ⟨holds, fun x => ?_, fun s => ?_⟩
  · have change := accounts x
    have moved := occurrences_update w r e.set others d.set x
      (d.mutations.addedElements.ind x - d.mutations.deletedElements.ind x) (by omega)
    have total : (d.invoked.map SubtractRole.sign).sum *
        (d.mutations.addedElements.ind x - d.mutations.deletedElements.ind x) =
        w.weight e.set * (d.mutations.addedElements.ind x - d.mutations.deletedElements.ind x) := by
      rcases delivers.reaches with all | ⟨nobody, unchanged⟩
      · rw [all]
        rfl
      · have nothing := ind_congr (unchanged x)
        rw [show d.mutations.addedElements.ind x - d.mutations.deletedElements.ind x = 0 by omega,
          mul_zero, mul_zero]
    have unfolded : (d.invoked.foldl (invoke d.mutations) written).occurrences r others x =
        written.occurrences r others x := by
      simp [occurrences, sets]
    rw [unfolded, moved, counts x, total, balanced.weights e.set]
    exact congrArg (· + _) (balanced.counts x)
  · rw [weight, sets, labels s]
    exact balanced.weights s

/-- What registering one callback changes. -/
theorem subscribe_spec (holds : SetArithmetic.Holds 1 w.setArithmetic w.result.value) (s : ι) :
    SetArithmetic.Holds 1 (w.subscribe role s).setArithmetic (w.subscribe role s).result.value ∧
      (∀ x, (w.subscribe role s).setArithmetic x = w.setArithmetic x + role.sign * (w.sets s).value.ind x) ∧
      (∀ t, ((w.subscribe role s).sets t).value = (w.sets t).value) ∧
      ∀ t, (w.subscribe role s).weight t = w.weight t + if t = s then role.sign else 0 := by
  let subscribed : SubtractSystem ι α κ :=
    { w with sets := update w.sets s ((w.sets s).onUpdate role false).1 }
  have value : ∀ t, (subscribed.sets t).value = (w.sets t).value := by
    intro t
    by_cases here : t = s
    · subst here
      simp only [subscribed, update_self]
      rfl
    · simp [subscribed, update_of_ne here]
  have weights : ∀ t, subscribed.weight t = w.weight t + if t = s then role.sign else 0 := by
    intro t
    by_cases here : t = s
    · subst here
      simp only [weight, subscribed, update_self, ReactiveSet.onUpdate_labels, ↓reduceIte]
      simp
    · simp [weight, subscribed, here]
  rcases (w.sets s).onUpdate_initial role false with ⟨m, invoked, added, deleted⟩ | ⟨quiet, nothing⟩
  · have same : w.subscribe role s = subscribed.invoke m role := by
      simp only [subscribe, invoked]
      rfl
    obtain ⟨kept, sets, count⟩ := invoke_spec (w := subscribed) holds m
    rw [same]
    refine ⟨kept, fun x => ?_, fun t => ?_, fun t => ?_⟩
    · rw [count x, ind_congr (added x), ind_of_not_mem (deleted x), sub_zero]
    · rw [sets, value t]
    · exact weights t
  · have same : w.subscribe role s = subscribed := by
      simp only [subscribe, quiet]
      rfl
    rw [same]
    refine ⟨holds, fun x => ?_, value, weights⟩
    rw [ind_of_not_mem (nothing x), mul_zero, add_zero]

/-- Subscribing the others one after the other keeps the balance of what is
subscribed so far. -/
theorem subscribe_others_balanced (balanced : Balanced w r done) :
    Balanced (others.foldl (subscribe .subtrahend) w) r (done ++ others) := by
  induction others generalizing w done with
  | nil =>
    rw [append_nil]
    exact balanced
  | cons o others ih =>
    obtain ⟨holds, counts, value, weights⟩ := subscribe_spec balanced.holds o
    have next : Balanced (w.subscribe .subtrahend o) r (done ++ [o]) := by
      refine ⟨holds, fun x => ?_, fun s => ?_⟩
      · have pre := balanced.counts x
        simp only [counts x, pre, occurrences, value, map_append, sum_append, map_cons,
          map_nil, sum_singleton, SubtractRole.sign]
        omega
      · rw [weights s, balanced.weights s, count_append, count_singleton]
        by_cases same : s = o
        · subst same
          simp only [SubtractRole.sign, ↓reduceIte, beq_self_eq_true]
          push_cast
          omega
        · have differs := beq_false_of_ne (Ne.symm same)
          simp [same, differs]
    rw [foldl_cons, show done ++ o :: others = done ++ [o] ++ others by simp]
    exact ih next

theorem subtractReactive_balanced (contents : ι → List α) (r : ι) :
    Balanced (subtractReactive (fun s =>
        ReactiveSet.new (contents s)) r others : SubtractSystem ι α κ) r others := by
  have start : SetArithmetic.Holds 1 (new : SetArithmetic α)
      (ReactiveSet.new [] : ReactiveSet α κ).value := by
    intro x
    simp [ReactiveSet.new, new]
  obtain ⟨holds, counts, value, weights⟩ := subscribe_spec
    (w := ⟨fun s => ReactiveSet.new (contents s), ReactiveSet.new [], new⟩) start r
  have first : Balanced (subscribe .minuend (⟨fun s => ReactiveSet.new (contents s), ReactiveSet.new [],
      new⟩ : SubtractSystem ι α κ) r) r [] := by
    refine ⟨holds, fun x => ?_, fun s => ?_⟩
    · rw [counts x, occurrences, value]
      simp [new, SubtractRole.sign]
    · rw [weights s]
      simp [weight, ReactiveSet.new, ReactiveSet.labels, SubtractRole.sign]
  exact subscribe_others_balanced first

/-- A balanced system's result is the difference. -/
theorem mem_result_iff (balanced : Balanced w r others) :
    x ∈ w.result.value ↔ x ∈ (w.sets r).value ∧ ∀ o ∈ others, x ∉ (w.sets o).value := by
  rw [balanced.holds x, balanced.counts x, occurrences]
  have nonneg : ∀ n ∈ others.map fun o => (w.sets o).value.ind x, 0 ≤ n := by
    intro n listed
    obtain ⟨o, -, rfl⟩ := mem_map.mp listed
    exact ind_nonneg
  have total := sum_nonneg nonneg
  constructor
  · intro pos
    have held : x ∈ (w.sets r).value := by
      by_contra absent
      rw [ind_of_not_mem absent] at pos
      omega
    refine ⟨held, fun o listed inOther => ?_⟩
    have share := single_le_sum nonneg 1 (mem_map.mpr ⟨o, listed, ind_of_mem inOther⟩)
    rw [ind_of_mem held] at pos
    omega
  · rintro ⟨held, nowhere⟩
    have zero : (others.map fun o => (w.sets o).value.ind x).sum = 0 := by
      refine sum_eq_zero fun n listed => ?_
      obtain ⟨o, mem, rfl⟩ := mem_map.mp listed
      exact ind_of_not_mem (nowhere o mem)
    rw [ind_of_mem held, zero]
    omega

/-- The result is the content of `r` without the contents of the others after
every history in which no set is replaced by itself. -/
theorem subtractReactive_tracks_difference (contents : ι → List α) (r : ι) (others : List ι)
    (events : List (SetWrite ι α)) (allowed : ∀ e ∈ events, e.call.NotSelfReplacing)
    {w : SubtractSystem ι α κ} (ran : w = history contents r others events) (x : α) :
    x ∈ w.result.value ↔ x ∈ (w.sets r).value ∧ ∀ o ∈ others, x ∉ (w.sets o).value := by
  subst ran
  refine mem_result_iff ?_
  have start : Balanced (subtractReactive
      (fun s => ReactiveSet.new (contents s)) r others : SubtractSystem ι α κ)
      r others := subtractReactive_balanced contents r
  rw [history]
  generalize (subtractReactive (fun s =>
      ReactiveSet.new (contents s)) r others : SubtractSystem ι α κ) = w at start
  induction events generalizing w with
  | nil => exact start
  | cons e events ih =>
    exact ih (fun f mem => allowed f (mem_cons_of_mem e mem)) (w.step e)
      (step_balanced start (allowed e mem_cons_self))

/-- Overlapping replacements of the set and of the subtracted set. -/
theorem subtractReactive_tracks_replacements :
    ∃ w : SubtractSystem Bool Nat Unit,
      w = history (fun _ => [1, 2]) true [false] [⟨true, .replace (.other (OrderedSet.ofList [2, 3]))⟩] ∧
      ∀ x, x ∈ w.result.value ↔ x ∈ (w.sets true).value ∧ ∀ o ∈ [false], x ∉ (w.sets o).value :=
  ⟨_, rfl, subtractReactive_tracks_difference (fun _ => [1, 2]) true [false]
    [⟨true, .replace (.other (OrderedSet.ofList [2, 3]))⟩] (by simp [Write.NotSelfReplacing]) rfl⟩

/-- A set replaced by itself loses its content while the result keeps it. -/
theorem subtractReactive_stale_after_self_replace :
    let w : SubtractSystem Unit Nat Unit := history (fun _ => [1]) () [] [⟨(), .replace .self⟩]
    1 ∈ w.result.value ∧ 1 ∉ (w.sets ()).value := by
  decide

end SubtractSystem
end HiveGo
