import Mathlib.Data.Nat.Find
import Mathlib.Logic.Function.Iterate
import Mathlib.Order.Basic

/-! Retrying an operation under a backoff policy. Policies are stacked: an option wraps the policy it
modifies and has a state of its own. -/
namespace HiveGo.Backoff

variable {σ E : Type}

/-- `Stop`, a duration like any other. -/
def stop : Int := -1

/-- A policy at the bottom of a stack: the state of a new instance, and the next interval. -/
structure Base (σ : Type) where
  new : σ → σ
  nextBackOff : σ → Int × σ

inductive Policy (σ : Type) where
  | base (base : Base σ) (state : σ)
  | statelessOption (delegate : Policy σ) (f : Int → Int)
  | maxRetriesOption (delegate : Policy σ) (maxTries numTries : Int)

/-- The options that a stack is made of. -/
inductive Opt where
  | maxRetries (max : Int)
  | maxInterval (longest : Int)

def Opt.apply (p : Policy σ) : Opt → Policy σ
  | maxRetries max => .maxRetriesOption p max 0
  | maxInterval longest =>
    .statelessOption p fun duration => if longest < duration then longest else duration

/-- `With`. -/
def withOptions (p : Policy σ) (opts : List Opt) : Policy σ := opts.foldl Opt.apply p

/-- What the function returns: nil, an error, or one that is marked as permanent. -/
inductive Result (E : Type) where
  | nil
  | error (err : E)
  | permanent (err : E)

namespace Policy

def nextBackOff : Policy σ → Int × Policy σ
  | base b state => ((b.nextBackOff state).1, base b (b.nextBackOff state).2)
  | statelessOption delegate f =>
    (f delegate.nextBackOff.1, statelessOption delegate.nextBackOff.2 f)
  | maxRetriesOption delegate maxTries numTries =>
    if maxTries = 0 ∨ 0 < maxTries ∧ maxTries ≤ numTries then
      (stop, maxRetriesOption delegate maxTries numTries)
    else (delegate.nextBackOff.1, maxRetriesOption delegate.nextBackOff.2 maxTries
      (if 0 < maxTries then numTries + 1 else numTries))

def new : Policy σ → Policy σ
  | base b state => base b (b.new state)
  | statelessOption delegate f => statelessOption delegate.new f
  | maxRetriesOption delegate maxTries _ => maxRetriesOption delegate.new maxTries 0

/-- The policy after some calls of `NextBackOff`. -/
def used : Nat → Policy σ → Policy σ
  | 0, p => p
  | times + 1, p => used times p.nextBackOff.2

end Policy

/-- The loop of `Retry`, with the number of calls so far; the fuel bounds its rounds. -/
def retryLoop (f : Nat → Result E) : Nat → Policy σ → Nat → Option (Option E × Nat)
  | 0, _, _ => none
  | fuel + 1, p, calls =>
    match f calls with
    | .nil => some (none, calls + 1)
    | .permanent err => some (some err, calls + 1)
    | .error err =>
      if p.nextBackOff.1 = stop then some (some err, calls + 1)
      else retryLoop f fuel p.nextBackOff.2 (calls + 1)

/-- `Retry`: what it returns, and how often it called the function. -/
def retry (fuel : Nat) (p : Policy σ) (f : Nat → Result E) : Option (Option E × Nat) :=
  retryLoop f fuel p.new 0

namespace Policy

/-- The results of all calls of `NextBackOff`. -/
def intervals (p : Policy σ) (call : Nat) : Int := (p.used call).nextBackOff.1

/-- The policy at the bottom of the stack, and its state. -/
def bottom : Policy σ → Base σ × σ
  | base b state => (b, state)
  | statelessOption delegate _ | maxRetriesOption delegate _ _ => delegate.bottom

/-- A call gets to the bottom if all calls before it did. A negative limit is none. -/
def Open (call : Nat) : Policy σ → Prop
  | base _ _ => True
  | statelessOption delegate _ => delegate.Open call
  | maxRetriesOption delegate maxTries _ => (maxTries < 0 ∨ call < maxTries) ∧ delegate.Open call

/-- What comes out at the top for an interval at the bottom. -/
def shown : Policy σ → Int → Int
  | base _ _, duration => duration
  | statelessOption delegate f, duration => f (delegate.shown duration)
  | maxRetriesOption delegate _ _, duration => delegate.shown duration

/-- The stack over some state, after a number of calls that all got to the bottom. -/
def restart (calls : Nat) (state : σ) : Policy σ → Policy σ
  | base b _ => base b state
  | statelessOption delegate f => statelessOption (delegate.restart calls state) f
  | maxRetriesOption delegate maxTries _ =>
    maxRetriesOption (delegate.restart calls state) maxTries (if 0 < maxTries then calls else 0)

/-- Two stacks that stop at the same layer, whatever is below it. -/
inductive Halted : Policy σ → Policy σ → Prop
  | here (spent : maxTries = 0 ∨ 0 < maxTries ∧ maxTries ≤ numTries) :
    Halted (maxRetriesOption p maxTries numTries) (maxRetriesOption q maxTries numTries)
  | statelessOption (below : Halted p q) : Halted (statelessOption p f) (statelessOption q f)
  | maxRetriesOption (below : Halted p q) :
    Halted (maxRetriesOption p maxTries numTries) (maxRetriesOption q maxTries numTries)

theorem new_eq_restart (p : Policy σ) : p.new = p.restart 0 (p.bottom.1.new p.bottom.2) := by
  induction p with
  | base b state => rfl
  | statelessOption delegate f ih => exact congrArg (statelessOption · f) ih
  | maxRetriesOption delegate maxTries _ ih =>
    simp [new, ih, restart, bottom]

theorem nextBackOff_restart (p : Policy σ) (calls : Nat) (state : σ) :
    p.nextBackOff.2.bottom.1 = p.bottom.1 ∧
      p.nextBackOff.2.restart calls state = p.restart calls state := by
  induction p with
  | base b _ => exact ⟨rfl, rfl⟩
  | statelessOption delegate f ih => exact ⟨ih.1, congrArg (statelessOption · f) ih.2⟩
  | maxRetriesOption delegate maxTries _ ih =>
    rw [nextBackOff]
    split
    · exact ⟨rfl, rfl⟩
    · exact ⟨ih.1, congrArg (maxRetriesOption · maxTries _) ih.2⟩

theorem used_restart (p : Policy σ) (calls : Nat) (state : σ) :
    (p.used times).bottom.1 = p.bottom.1 ∧
      (p.used times).restart calls state = p.restart calls state := by
  induction times generalizing p with
  | zero => exact ⟨rfl, rfl⟩
  | succ times ih =>
    obtain ⟨same, restarted⟩ := ih p.nextBackOff.2
    obtain ⟨first, once⟩ := p.nextBackOff_restart calls state
    exact ⟨same.trans first, restarted.trans once⟩

theorem Open.mono {p : Policy σ} (opens : p.Open later) (before : call ≤ later) : p.Open call := by
  induction p with
  | base b state => trivial
  | statelessOption delegate f ih => exact ih opens
  | maxRetriesOption delegate maxTries _ ih => exact ⟨by have := opens.1; omega, ih opens.2⟩

theorem nextBackOff_of_open {p : Policy σ} (opens : p.Open calls) :
    (p.restart calls state).nextBackOff = (p.shown (p.bottom.1.nextBackOff state).1,
      p.restart (calls + 1) (p.bottom.1.nextBackOff state).2) := by
  induction p with
  | base b _ => rfl
  | statelessOption delegate f ih =>
    rw [restart, nextBackOff, ih opens]
    rfl
  | maxRetriesOption delegate maxTries _ ih =>
    obtain ⟨legal, below⟩ := opens
    rw [restart, nextBackOff, if_neg (by split <;> omega), ih below]
    split <;> simp [restart, shown, bottom, *]

theorem halted_of_not_open {p : Policy σ} (closed : ¬ p.Open calls) :
    Halted (p.restart calls state) (p.restart calls other) := by
  induction p with
  | base b _ => exact absurd trivial closed
  | statelessOption delegate f ih => exact .statelessOption (ih closed)
  | maxRetriesOption delegate maxTries _ ih =>
    by_cases below : delegate.Open calls
    · refine .here ?_
      have spent : ¬ (maxTries < 0 ∨ calls < maxTries) := fun legal => closed ⟨legal, below⟩
      split <;> omega
    · exact .maxRetriesOption (ih below)

theorem Halted.step {p q : Policy σ} (halted : Halted p q) :
    p.nextBackOff.1 = q.nextBackOff.1 ∧ Halted p.nextBackOff.2 q.nextBackOff.2 := by
  induction halted with
  | here spent =>
    rw [nextBackOff, nextBackOff, if_pos spent, if_pos spent]
    exact ⟨rfl, .here spent⟩
  | @statelessOption p q f below ih => exact ⟨congrArg f ih.1, .statelessOption ih.2⟩
  | @maxRetriesOption p q maxTries numTries below ih =>
    rw [nextBackOff, nextBackOff]
    split
    · exact ⟨rfl, .maxRetriesOption below⟩
    · exact ⟨ih.1, .maxRetriesOption ih.2⟩

theorem Halted.intervals {p q : Policy σ} (halted : Halted p q) (call : Nat) :
    p.intervals call = q.intervals call := by
  induction call generalizing p q with
  | zero => exact halted.step.1
  | succ call ih => exact ih halted.step.2

end Policy

/-- The interval of a later call at the bottom. -/
def Base.interval (b : Base σ) (call : Nat) (state : σ) : Int :=
  (b.nextBackOff ((fun state => (b.nextBackOff state).2)^[call] state)).1

namespace Policy

theorem intervals_of_open {p : Policy σ} (opens : p.Open (calls + call)) :
    (p.restart calls state).intervals call = p.shown (p.bottom.1.interval call state) := by
  induction call generalizing calls state with
  | zero => exact congrArg Prod.fst (nextBackOff_of_open opens)
  | succ call ih =>
    rw [intervals, used, nextBackOff_of_open (opens.mono (Nat.le_add_right _ _))]
    rw [Nat.add_comm call, ← Nat.add_assoc] at opens
    exact ih opens

/-- Two instances of a stack agree when they do in all calls that get to the bottom. -/
theorem intervals_eq {p : Policy σ} (agree : ∀ call, p.Open (calls + call) →
      p.shown (p.bottom.1.interval call state) = p.shown (p.bottom.1.interval call other)) (call : Nat) :
    (p.restart calls state).intervals call = (p.restart calls other).intervals call := by
  by_cases opens : p.Open calls
  · induction call generalizing calls state other with
    | zero =>
      rw [intervals, intervals, used, used, nextBackOff_of_open opens, nextBackOff_of_open opens]
      exact agree 0 opens
    | succ call ih =>
      rw [intervals, intervals, used, used, nextBackOff_of_open opens, nextBackOff_of_open opens]
      by_cases later : p.Open (calls + 1)
      · refine ih (fun call opens => ?_) later
        rw [Nat.add_assoc, Nat.add_comm 1] at opens
        exact agree (call + 1) opens
      · exact (halted_of_not_open later).intervals call
  · exact (halted_of_not_open opens).intervals call

end Policy

/-- The option lets the call pass. -/
def Opt.Allows (call : Nat) : Opt → Prop
  | maxRetries max => max < 0 ∨ call < max
  | maxInterval _ => True

/-- An interval behind all options. -/
def capped (opts : List Opt) (duration : Int) : Int :=
  opts.foldl (fun duration opt => match opt with
    | .maxRetries _ => duration
    | .maxInterval longest => if longest < duration then longest else duration) duration

theorem withOptions_layers (opts : List Opt) (p : Policy σ) :
    (withOptions p opts).bottom = p.bottom ∧
      (∀ state, (withOptions p opts).restart 0 state = withOptions (p.restart 0 state) opts) ∧
      (∀ call, (withOptions p opts).Open call ↔ p.Open call ∧ ∀ opt ∈ opts, opt.Allows call) ∧
      ∀ duration, (withOptions p opts).shown duration = capped opts (p.shown duration) := by
  induction opts generalizing p with
  | nil => simp [withOptions, capped]
  | cons opt opts ih =>
    obtain ⟨bottom, restarted, opens, shown⟩ := ih (opt.apply p)
    cases opt with
    | maxRetries max =>
      refine ⟨bottom, fun state => (restarted state).trans ?_, fun call => (opens call).trans ?_, shown⟩
      · simp [Opt.apply, Policy.restart, withOptions]
      · rw [List.forall_mem_cons, ← and_assoc]
        exact and_congr_left' and_comm
    | maxInterval longest =>
      refine ⟨bottom, restarted, fun call => (opens call).trans ?_, shown⟩
      simp [Opt.apply, Policy.Open, Opt.Allows]

/-- The number that an option is given. -/
def Opt.bound : Opt → Int
  | maxRetries max => max
  | maxInterval longest => longest

/-- The number of retries that an option allows. -/
def Opt.limit : Opt → Option Nat
  | maxRetries max => some max.toNat
  | maxInterval _ => none

/-- A result after which the function is not called again. -/
def Result.final : Result E → Bool
  | nil | permanent _ => true
  | error _ => false

/-- The error that is returned when this result is the last one. -/
def Result.returned : Result E → Option E
  | nil => none
  | error err | permanent err => some err

/-- No interval is negative, and no layer makes a stop of an interval or an interval of a stop. -/
def Policy.Sound : Policy σ → Prop
  | base b _ => ∀ state, 0 ≤ (b.nextBackOff state).1
  | statelessOption delegate f => f stop = stop ∧ (∀ duration, 0 ≤ duration → 0 ≤ f duration) ∧
    delegate.Sound
  | maxRetriesOption delegate _ _ => delegate.Sound

namespace Policy

variable {p : Policy σ} (sound : p.Sound)
include sound

theorem shown_nonneg (state : σ) : 0 ≤ p.shown (p.bottom.1.nextBackOff state).1 := by
  induction p with
  | base b _ => exact sound state
  | statelessOption delegate f ih => exact sound.2.1 _ (ih sound.2.2)
  | maxRetriesOption delegate _ _ ih => exact ih sound

/-- The stop of one layer reaches the top. -/
theorem nextBackOff_stops (closed : ¬ p.Open calls) :
    (p.restart calls state).nextBackOff.1 = stop := by
  induction p with
  | base b _ => exact absurd trivial closed
  | statelessOption delegate f ih =>
    rw [restart, nextBackOff, ih sound.2.2 closed]
    exact sound.1
  | maxRetriesOption delegate maxTries _ ih =>
    rw [restart, nextBackOff]
    by_cases below : delegate.Open calls
    · have spent : ¬ (maxTries < 0 ∨ calls < maxTries) := fun legal => closed ⟨legal, below⟩
      rw [if_pos (by split <;> omega)]
    · rw [apply_ite Prod.fst, ih sound below, ite_self]

end Policy

theorem withOptions_sound (sound : p.Sound) (bounds : ∀ opt ∈ opts, 0 ≤ opt.bound) :
    (withOptions p opts).Sound := by
  induction opts generalizing p with
  | nil => exact sound
  | cons opt opts ih =>
    rw [List.forall_mem_cons] at bounds
    refine ih ?_ bounds.2
    cases opt with
    | maxRetries max => exact sound
    | maxInterval longest =>
      have limit : 0 ≤ longest := bounds.1
      refine ⟨if_neg (by unfold stop; omega), fun duration pos => ?_, sound⟩
      dsimp only
      split <;> assumption

theorem allows_iff {opts : List Opt} (bounds : ∀ opt ∈ opts, 0 ≤ opt.bound) :
    (∀ opt ∈ opts, opt.Allows call) ↔ ∀ limit ∈ opts.filterMap Opt.limit, call < limit := by
  induction opts with
  | nil => simp
  | cons opt opts ih =>
    rw [List.forall_mem_cons] at bounds
    rw [List.forall_mem_cons, ih bounds.2]
    cases opt with
    | maxRetries max =>
      have legal : 0 ≤ max := bounds.1
      have same : max < 0 ∨ call < max ↔ call < max.toNat := by omega
      exact (and_congr_left' same).trans List.forall_mem_cons.symm
    | maxInterval longest => simp [Opt.limit, Opt.Allows]

/-- The loop ends with the first call that is final or the last one that is allowed. -/
theorem retryLoop_spec {p : Policy σ} {f : Nat → Result E} (sound : p.Sound)
    (started : k ≤ n) (failed : ∀ j < n, (f j).final = false) (opens : ∀ j < n, p.Open j)
    (ends : (f n).final = true ∨ ¬ p.Open n) (enough : n - k < fuel) :
    retryLoop f fuel (p.restart k state) k = some ((f n).returned, n + 1) := by
  induction fuel generalizing k state with
  | zero => omega
  | succ fuel ih =>
    rw [retryLoop]
    rcases Nat.lt_or_eq_of_le started with before | rfl
    · have fails := failed k before
      cases outcome : f k with
      | error err =>
        have passes := p.shown_nonneg sound state
        dsimp only
        rw [Policy.nextBackOff_of_open (opens k before), if_neg (by unfold stop; omega)]
        exact ih before (by omega)
      | _ => simp [outcome, Result.final] at fails
    · cases outcome : f k with
      | error err =>
        have reached := ends.resolve_left (by simp [outcome, Result.final])
        dsimp only
        rw [if_pos (p.nextBackOff_stops sound reached)]
        rfl
      | _ => rfl

theorem retryLoop_endless {p : Policy σ} {f : Nat → Result E} (sound : p.Sound)
    (opens : ∀ j, p.Open j) (failed : ∀ j, (f j).final = false) :
    retryLoop f fuel (p.restart k state) k = none := by
  induction fuel generalizing k state with
  | zero => rfl
  | succ fuel ih =>
    have fails := failed k
    rw [retryLoop]
    cases outcome : f k with
    | error err =>
      have passes := p.shown_nonneg sound state
      dsimp only
      rw [Policy.nextBackOff_of_open (opens k), if_neg (by unfold stop; omega)]
      exact ih
    | _ => simp [outcome, Result.final] at fails

/-- A retried function is called until its first final result, or once more than the lowest limit
says. Calls of `NextBackOff` on the policy, before or between, make no difference. -/
theorem retry_attempts (b : Base σ) (state : σ) {opts : List Opt} (f : Nat → Result E)
    (intervals : ∀ state, 0 ≤ (b.nextBackOff state).1) (bounds : ∀ opt ∈ opts, 0 ≤ opt.bound)
    (times : Nat) :
    (opts.filterMap Opt.limit ≠ [] ∨ (∃ k, (f k).final = true) →
      ∃ n, (∀ j < n, (f j).final = false) ∧ (∀ limit ∈ opts.filterMap Opt.limit, n ≤ limit) ∧
        ((f n).final = true ∨ n ∈ opts.filterMap Opt.limit) ∧
        ∀ fuel, n < fuel → retry fuel ((withOptions (.base b state) opts).used times) f =
          some ((f n).returned, n + 1)) ∧
    (opts.filterMap Opt.limit = [] → (∀ j, (f j).final = false) →
      ∀ fuel, retry fuel ((withOptions (.base b state) opts).used times) f = none) := by
  have sound : (withOptions (.base b state) opts).Sound := withOptions_sound intervals bounds
  have opens : ∀ call, (withOptions (.base b state) opts).Open call ↔
      ∀ limit ∈ opts.filterMap Opt.limit, call < limit := fun call =>
    ((withOptions_layers opts _).2.2.1 call).trans ((and_iff_right trivial).trans (allows_iff bounds))
  simp only [retry, Policy.new_eq_restart, (Policy.used_restart _ _ _).2]
  constructor
  · intro stops
    have ends : ∃ n, (f n).final = true ∨ n ∈ opts.filterMap Opt.limit := by
      rcases stops with limited | ⟨k, final⟩
      · obtain ⟨limit, mem⟩ := List.exists_mem_of_ne_nil _ limited
        exact ⟨limit, .inr mem⟩
      · exact ⟨k, .inl final⟩
    have least : ∀ limit ∈ opts.filterMap Opt.limit, Nat.find ends ≤ limit :=
      fun limit mem => Nat.find_min' ends (.inr mem)
    have failed : ∀ j < Nat.find ends, (f j).final = false := fun j pre =>
      Bool.eq_false_iff.mpr fun final => Nat.find_min ends pre (.inl final)
    refine ⟨Nat.find ends, failed, least, Nat.find_spec ends, fun fuel enough => ?_⟩
    refine retryLoop_spec sound (Nat.zero_le _) failed (fun j pre => ?_) ?_ enough
    · exact (opens j).mpr fun limit mem => pre.trans_le (least limit mem)
    · exact (Nat.find_spec ends).imp_right fun reached allowed =>
        absurd ((opens _).mp allowed _ reached) (Nat.lt_irrefl _)
  · intro free failed fuel
    refine retryLoop_endless sound (fun call => (opens call).mpr ?_) failed
    rw [free]
    exact fun limit mem => absurd mem List.not_mem_nil

/-- Two limits around a bound of the interval, over a constant policy: three calls. -/
theorem retry_attempts_of_two_limits :
    ∃ n, n ∈ [5, 2] ∧ (∀ limit ∈ [5, 2], n ≤ limit) ∧
      retry 9 (withOptions (.base ⟨id, fun state : Unit => (7, state)⟩ ())
        [.maxRetries 5, .maxInterval 3, .maxRetries 2]) (fun _ => .error "failed") =
        some (some "failed", n + 1) := by
  have bounds : ∀ opt ∈ [Opt.maxRetries 5, .maxInterval 3, .maxRetries 2], 0 ≤ opt.bound := by
    decide
  obtain ⟨n, -, least, ends, retried⟩ := (retry_attempts ⟨id, fun state => (7, state)⟩ ()
    (fun _ => .error "failed") (fun _ => Int.natCast_nonneg 7) bounds 0).1 (.inl (by decide))
  have reached := ends.resolve_left (by decide)
  refine ⟨n, reached, least, retried 9 ?_⟩
  have small := least 2 (by decide)
  omega

def zeroPolicy : Base Unit := ⟨id, fun _ => (0, ())⟩

def constantPolicy (interval : Int) : Base Unit := ⟨id, fun _ => (interval, ())⟩

/-- The state is the initial and the current interval. A new instance gets both of them. -/
def exponentialPolicy (multiply : Int → Int) : Base (Int × Int) where
  new := fun (initialInterval, currentInterval) => (initialInterval, currentInterval)
  nextBackOff := fun (initialInterval, currentInterval) =>
    (currentInterval, initialInterval, multiply currentInterval)

/-- A new instance of a used policy gives the intervals of one that was just made. A call on a
policy that wraps this one is a call on it, or does not get to it. -/
def StartsOver (b : Base σ) (state : σ) (opts : List Opt) (times : Nat) : Prop :=
  ((withOptions (.base b state) opts).used times).new.intervals =
    (withOptions (.base b state) opts).intervals

theorem startsOver_iff {b : Base σ} (copies : ∀ state, b.new state = state) :
    StartsOver b state opts times ↔ ∀ call, (∀ opt ∈ opts, opt.Allows call) →
      capped opts (b.interval call ((withOptions (.base b state) opts).used times).bottom.2) =
        capped opts (b.interval call state) := by
  obtain ⟨bottom, restarted, opens, shown⟩ := withOptions_layers opts (.base b state)
  have same : ((withOptions (.base b state) opts).used times).bottom.1 = b :=
    (Policy.used_restart _ 0 state).1.trans (congrArg Prod.fst bottom)
  have fresh : (withOptions (.base b state) opts).restart 0 state = withOptions (.base b state) opts :=
    restarted state
  rw [StartsOver, Policy.new_eq_restart, (Policy.used_restart _ _ _).2, same, copies]
  generalize ((withOptions (.base b state) opts).used times).bottom.2 = current
  rw [← congrArg Policy.intervals fresh]
  constructor
  · intro agree call allowed
    have passes := (opens (0 + call)).mpr ⟨trivial, by rwa [Nat.zero_add]⟩
    have value := congrFun agree call
    rwa [Policy.intervals_of_open passes, Policy.intervals_of_open passes, bottom, shown, shown] at value
  · intro agree
    refine funext (Policy.intervals_eq fun call passes => ?_)
    rw [Nat.zero_add] at passes
    rw [bottom, shown, shown]
    exact agree call ((opens call).mp passes).2

theorem interval_exponential :
    (exponentialPolicy multiply).interval call state = multiply^[call] state.2 := by
  induction call generalizing state with
  | zero => rfl
  | succ call ih => exact ih

/-- An exponential policy starts over when its interval is followed by the same intervals as the
initial one, through the options and in all calls that they allow. The others always do. -/
theorem new_starts_over (multiply : Int → Int) (interval initial : Int) (opts : List Opt) (times : Nat) :
    let p := (withOptions (.base (exponentialPolicy multiply) (initial, initial)) opts).used times
    StartsOver zeroPolicy () opts times ∧ StartsOver (constantPolicy interval) () opts times ∧
      (StartsOver (exponentialPolicy multiply) (initial, initial) opts times ↔
        ∀ call, (∀ opt ∈ opts, opt.Allows call) →
          capped opts (multiply^[call] p.bottom.2.2) = capped opts (multiply^[call] initial)) := by
  refine ⟨(startsOver_iff fun _ => rfl).mpr fun _ _ => rfl,
    (startsOver_iff fun _ => rfl).mpr fun _ _ => rfl, (startsOver_iff fun _ => rfl).trans ?_⟩
  simp only [interval_exponential]

/-- A second, used once and doubled, is two seconds in the new instance. -/
theorem new_keeps_interval : ¬ StartsOver (exponentialPolicy (2 * ·)) (1, 1) [] 1 := by
  intro same
  exact absurd (congrFun same 0) (by decide)

end HiveGo.Backoff
