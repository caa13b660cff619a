import HiveGo.DerivedSet
import HiveGo.SortedSetOrder

/-! A reactive set with its consumers: mirrors that replay the delivered mutations, derived sets
that inherit from the set, and sorted slices. -/
namespace HiveGo
open Function OrderedSet

variable {α ω ν : Type}

/-- A consumer registered with `OnUpdate`, in its current state. -/
inductive Subscriber (α ω ν : Type) where
  /-- A set that adds the added elements and then removes the deleted ones. -/
  | mirror (elements : OrderedSet α)
  /-- A derived set that inherits from the set, with its copy of the elements. -/
  | derived (sourceElements : OrderedSet α) (set : DerivedSet α Unit)
  /-- The slice of a sorted set. -/
  | sorted (cfg : SortedSetConfig α ν) (slice : SortedElements α ω ν)

/-- What a new subscriber is created as. -/
inductive SubscriberKind (α ω ν : Type) where
  | mirror
  | derived
  | sorted (cfg : SortedSetConfig α ν) (weights : ν → ω × (ω → ω → ω))

namespace Subscriber

variable [DecidableEq α] [DecidableEq ν] [LinearOrder ω] [Inhabited α] [Inhabited ω]

/-- The subscriber before it has seen anything. -/
def new : SubscriberKind α ω ν → Subscriber α ω ν
  | .mirror => .mirror .empty
  | .derived => .derived .empty .new
  | .sorted cfg weights => .sorted cfg (SortedSet.new weights).sorted

/-- The reaction to delivered mutations. -/
def invoke (mutations : SetMutations α) : Subscriber α ω ν → Option (Subscriber α ω ν)
  | .mirror elements =>
    some (.mirror (mutations.deletedElements.elems.foldl erase
      (mutations.addedElements.elems.foldl insert elements)))
  | .derived sourceElements set =>
    let (inherited, tracked) := set.onSourceUpdate sourceElements mutations
    some (.derived tracked inherited)
  | .sorted cfg slice => (slice.onSetUpdate cfg mutations).map (.sorted cfg)

/-- An update of one of the weight variables a sorted slice observes. -/
def computeWeight (v : ν) (computeFunc : ω → ω) : Subscriber α ω ν → Option (Subscriber α ω ν)
  | .sorted cfg slice => (slice.computeWeight cfg v computeFunc).map (.sorted cfg)
  | other => some other

/-- The elements the subscriber currently has. -/
def Has : Subscriber α ω ν → α → Prop
  | .mirror elements, x => x ∈ elements
  | .derived _ set, x => x ∈ set.set.value
  | .sorted _ slice, x => x ∈ slice.sortedElements

/-- The subscriber's own invariant, whatever was delivered to it. -/
def Valid : Subscriber α ω ν → Prop
  | .mirror _ => True
  | .derived sourceElements set => set.Counted ∧ ∀ x, set.setArithmetic x = sourceElements.ind x
  | .sorted cfg slice => slice.Settled cfg

omit [DecidableEq ν] [Inhabited ω] in
theorem derived_has_iff {set : DerivedSet α Unit}
    (valid : Valid (.derived tracked set : Subscriber α ω ν)) :
    Has (.derived tracked set : Subscriber α ω ν) x ↔ x ∈ tracked := by
  rw [Has, DerivedSet.counted_iff.mp valid.1 x, valid.2 x, ind_pos_iff]

omit [DecidableEq ν] [Inhabited ω] in
theorem new_valid (kind : SubscriberKind α ω ν) : (new kind).Valid ∧ ∀ x, ¬ (new kind).Has x := by
  cases kind with
  | mirror => exact ⟨trivial, not_mem_empty⟩
  | derived =>
    have valid : Valid (.derived .empty .new : Subscriber α ω ν) :=
      ⟨DerivedSet.new_counted, fun x => (ind_of_not_mem (not_mem_empty x)).symm⟩
    exact ⟨valid, fun x => by rw [new, derived_has_iff valid]; exact not_mem_empty x⟩
  | sorted cfg weights => exact ⟨SortedSet.new_inStep.settled, fun x => List.not_mem_nil⟩

/-- Every kind of subscriber reacts to a delivery in the same way: it gains what
was added, then loses what was deleted. -/
theorem invoke_spec {sub : Subscriber α ω ν} (valid : sub.Valid) (m : SetMutations α) :
    ∃ next, sub.invoke m = some next ∧ next.Valid ∧
      ∀ x, next.Has x ↔ (sub.Has x ∨ x ∈ m.addedElements) ∧ x ∉ m.deletedElements := by
  cases sub with
  | mirror elements =>
    refine ⟨_, rfl, trivial, fun x => ?_⟩
    rw [Has, mem_foldl_erase, mem_foldl_insert]
    exact .rfl
  | derived tracked set =>
    obtain ⟨counted, counts, replays⟩ := DerivedSet.onSourceUpdate_spec valid.1 tracked m
    have next : Valid (.derived (set.onSourceUpdate tracked m).2
        (set.onSourceUpdate tracked m).1 : Subscriber α ω ν) := by
      refine ⟨counted, fun x => ?_⟩
      rw [counts x, valid.2 x]
      omega
    refine ⟨.derived (set.onSourceUpdate tracked m).2 (set.onSourceUpdate tracked m).1, rfl, next,
      fun x => ?_⟩
    rw [derived_has_iff next, derived_has_iff valid]
    exact replays x
  | sorted cfg slice =>
    obtain ⟨moved, ran, settled, listing⟩ := SortedElements.onSetUpdate_settled valid m
    exact ⟨.sorted cfg moved, by rw [invoke, ran]; rfl, settled, listing⟩

omit [Inhabited ω] in
theorem computeWeight_spec {sub : Subscriber α ω ν} (valid : sub.Valid) (v : ν) (f : ω → ω) :
    ∃ next, sub.computeWeight v f = some next ∧ next.Valid ∧ ∀ x, next.Has x ↔ sub.Has x := by
  cases sub with
  | mirror elements => exact ⟨_, rfl, valid, fun x => Iff.rfl⟩
  | derived tracked set => exact ⟨_, rfl, valid, fun x => Iff.rfl⟩
  | sorted cfg slice =>
    obtain ⟨moved, ran, settled, listing⟩ := SortedElements.computeWeight_settled valid v f
    exact ⟨.sorted cfg moved, by rw [computeWeight, ran]; rfl, settled, listing⟩

end Subscriber
/-- A reactive set and the consumers registered at it, by label. -/
structure SetHistory (α ω ν : Type) where
  set : ReactiveSet α Nat
  subscribers : Nat → Option (Subscriber α ω ν)

/-- A write to the set, a new registration, or an update of a weight variable
of a registered sorted slice. -/
inductive SetHistoryEvent (α ω ν : Type) where
  | write (call : Write α)
  | onUpdate (kind : SubscriberKind α ω ν) (triggerWithInitialZeroValue : Bool)
  | computeWeight (subscriber : Nat) (v : ν) (computeFunc : ω → ω)

namespace SetHistory

variable [DecidableEq α] [DecidableEq ν] [LinearOrder ω] [Inhabited α] [Inhabited ω]

def new (elements : List α) : SetHistory α ω ν := ⟨ReactiveSet.new elements, fun _ => none⟩

/-- The invocation of one registered callback. -/
def deliver (mutations : SetMutations α) (h : SetHistory α ω ν) (k : Nat) : Option (SetHistory α ω ν) := do
  let subscriber ← h.subscribers k
  let updated ← subscriber.invoke mutations
  some { h with subscribers := update h.subscribers k (some updated) }

/-- One event; a new subscriber takes the next free label. -/
def step (h : SetHistory α ω ν) : SetHistoryEvent α ω ν → Option (SetHistory α ω ν)
  | .write call =>
    let delivery := h.set.write call
    delivery.invoked.foldlM (deliver delivery.mutations) { h with set := delivery.set }
  | .onUpdate kind triggerWithInitialZeroValue =>
    let k := h.set.labels.length
    let (registered, initial) := h.set.onUpdate k triggerWithInitialZeroValue
    let created : SetHistory α ω ν :=
      ⟨registered, update h.subscribers k (some (Subscriber.new kind))⟩
    match initial with
    | none => some created
    | some mutations => created.deliver mutations k
  | .computeWeight k v computeFunc => do
    match h.subscribers k with
    | none => some h
    | some subscriber =>
      let updated ← subscriber.computeWeight v computeFunc
      some { h with subscribers := update h.subscribers k (some updated) }

/-- Every subscriber has exactly the elements of the set. -/
def InStep (h : SetHistory α ω ν) : Prop :=
  ∀ k subscriber, h.subscribers k = some subscriber → ∀ x, subscriber.Has x ↔ x ∈ h.set.value

/-- The event is not a `Replace` that hands observed elements back: if somebody
is subscribed, a replacement by another set contains nothing the set has. -/
def Replayable (h : SetHistory α ω ν) : SetHistoryEvent α ω ν → Prop
  | .write (.replace (.other elements)) => h.set.labels = [] ∨ ∀ x ∈ elements, x ∉ h.set.value
  | _ => True

/-- The labels in use are `0, 1, …`, and every subscriber is in a valid state. -/
structure Registered (h : SetHistory α ω ν) : Prop where
  labels : h.set.labels = List.range h.set.labels.length
  registered : ∀ k, k ∈ h.set.labels ↔ ∃ subscriber, h.subscribers k = some subscriber
  valid : ∀ k subscriber, h.subscribers k = some subscriber → subscriber.Valid

variable {h : SetHistory α ω ν}

omit [DecidableEq ν] [Inhabited ω] in
theorem Registered.nodup (known : Registered h) : h.set.labels.Nodup := by
  rw [known.labels]
  exact List.nodup_range

/-- What a delivery to some labels does to the subscribers. -/
structure Delivered (h next : SetHistory α ω ν) (labels : List Nat) (m : SetMutations α) : Prop where
  set : next.set = h.set
  reached : ∀ k ∈ labels, ∀ subscriber, h.subscribers k = some subscriber →
    ∃ updated, next.subscribers k = some updated ∧ updated.Valid ∧
      ∀ x, updated.Has x ↔ (subscriber.Has x ∨ x ∈ m.addedElements) ∧ x ∉ m.deletedElements
  skipped : ∀ k, k ∉ labels → next.subscribers k = h.subscribers k

theorem deliver_loop (m : SetMutations α) (nodup : labels.Nodup)
    (known : ∀ k ∈ labels, ∃ subscriber, h.subscribers k = some subscriber ∧ subscriber.Valid) :
    ∃ next, labels.foldlM (deliver m) h = some next ∧ Delivered h next labels m := by
  induction labels generalizing h with
  | nil => exact ⟨h, rfl, rfl, fun _ mem => absurd mem List.not_mem_nil, fun _ _ => rfl⟩
  | cons k labels ih =>
    obtain ⟨absent, distinct⟩ := List.nodup_cons.mp nodup
    obtain ⟨subscriber, found, valid⟩ := known k List.mem_cons_self
    obtain ⟨updated, ran, nextValid, has⟩ := Subscriber.invoke_spec valid m
    let reached : SetHistory α ω ν := { h with subscribers := update h.subscribers k (some updated) }
    have first : h.deliver m k = some reached := by
      simp [deliver, found, ran, reached]
    have others : ∀ j, j ≠ k → reached.subscribers j = h.subscribers j :=
      fun j apart => update_of_ne apart _ _
    obtain ⟨next, rest, sent⟩ := ih (h := reached) distinct (by
      intro j mem
      rw [others j (fun same => absent (same ▸ mem))]
      exact known j (List.mem_cons_of_mem k mem))
    refine ⟨next, ?_, sent.set, ?_, ?_⟩
    · rw [List.foldlM_cons, first]
      exact rest
    · intro j mem held heldIs
      rcases List.mem_cons.mp mem with rfl | tail
      · rw [found] at heldIs
        cases heldIs
        refine ⟨updated, ?_, nextValid, has⟩
        rw [sent.skipped j absent]
        exact update_self _ _ _
      · exact sent.reached j tail held
          ((others j (fun same => absent (same ▸ tail))).trans heldIs)
    · intro j out
      rw [List.mem_cons, not_or] at out
      rw [sent.skipped j out.2, others j out.1]

/-- A write invokes all subscribers or changes nothing, and never panics. -/
theorem write_step (known : Registered h) :
    ∃ next, h.step (.write call) = some next ∧ Registered next ∧ next.set = (h.set.write call).set ∧
      Delivered h { next with set := h.set } (h.set.write call).invoked (h.set.write call).mutations := by
  have delivers := h.set.write_delivers call
  have invoked : ∀ k ∈ (h.set.write call).invoked, k ∈ h.set.labels := by
    intro k mem
    rcases delivers.reaches with all | ⟨nobody, -⟩
    · exact all ▸ mem
    · rw [nobody] at mem
      exact absurd mem List.not_mem_nil
  have nodup : (h.set.write call).invoked.Nodup := by
    rcases delivers.reaches with all | ⟨nobody, -⟩
    · exact all ▸ known.nodup
    · exact nobody ▸ List.nodup_nil
  obtain ⟨next, ran, sent⟩ := deliver_loop (h.set.write call).mutations
    (h := ({ h with set := (h.set.write call).set } : SetHistory α ω ν)) nodup (by
      intro k mem
      obtain ⟨subscriber, found⟩ := (known.registered k).mp (invoked k mem)
      exact ⟨subscriber, found, known.valid k subscriber found⟩)
  have after : ∀ k, (∃ subscriber, next.subscribers k = some subscriber) ↔
      ∃ subscriber, h.subscribers k = some subscriber := by
    intro k
    by_cases reached : k ∈ (h.set.write call).invoked
    · obtain ⟨subscriber, found⟩ := (known.registered k).mp (invoked k reached)
      obtain ⟨updated, now, -, -⟩ := sent.reached k reached subscriber found
      exact ⟨fun _ => ⟨subscriber, found⟩, fun _ => ⟨updated, now⟩⟩
    · rw [sent.skipped k reached]
  refine ⟨next, ran, ⟨?_, fun k => ?_, fun k subscriber found => ?_⟩, sent.set,
    ⟨rfl, sent.reached, sent.skipped⟩⟩
  · rw [sent.set, delivers.labels]
    exact known.labels
  · rw [sent.set, delivers.labels, known.registered k, after k]
  · by_cases reached : k ∈ (h.set.write call).invoked
    · obtain ⟨old, pre⟩ := (known.registered k).mp (invoked k reached)
      obtain ⟨updated, now, valid, -⟩ := sent.reached k reached old pre
      cases now.symm.trans found
      exact valid
    · rw [sent.skipped k reached] at found
      exact known.valid k subscriber found

/-- A write keeps the subscribers in step exactly when they can replay it. -/
theorem write_inStep (known : Registered h) (inStep : InStep h)
    (stepped : h.step (.write call) = some next) : InStep next ↔ Replayable h (.write call) := by
  obtain ⟨other, ran, -, set, sent⟩ := write_step known
  cases stepped.symm.trans ran
  have delivers := h.set.write_delivers call
  have kept : SetMutations.Replays h.set.value (h.set.write call).mutations (h.set.write call).set.value →
      InStep next := by
    intro replays k subscriber found x
    rw [set]
    by_cases reached : k ∈ (h.set.write call).invoked
    · obtain ⟨old, pre⟩ : ∃ old, h.subscribers k = some old := by
        rcases delivers.reaches with all | ⟨nobody, -⟩
        · exact (known.registered k).mp (all ▸ reached)
        · rw [nobody] at reached
          exact absurd reached List.not_mem_nil
      obtain ⟨updated, now, -, has⟩ := sent.reached k reached old pre
      cases now.symm.trans found
      rw [has x, inStep k old pre x]
      exact (replays x).symm
    · have pre := (sent.skipped k reached).symm.trans found
      have label := (known.registered k).mpr ⟨subscriber, pre⟩
      rcases delivers.reaches with all | ⟨-, unchanged⟩
      · exact absurd (all.symm ▸ label) reached
      · rw [inStep k subscriber pre x]
        exact (unchanged x).symm
  by_cases overlap : ∃ elements, call = .replace (.other elements)
  · obtain ⟨elements, rfl⟩ := overlap
    constructor
    · intro stays
      by_cases alone : h.set.labels = []
      · exact .inl alone
      · refine .inr (h.set.replace_other_replays_iff.mp fun x => ?_)
        -- Any subscriber shows what replaying the delivery leads to.
        obtain ⟨k, label⟩ := List.exists_mem_of_ne_nil _ alone
        obtain ⟨old, pre⟩ := (known.registered k).mp label
        have all : (h.set.write (.replace (.other elements))).invoked = h.set.labels :=
            h.set.subscriptions.invoked_fire
        obtain ⟨updated, now, -, has⟩ := sent.reached k (all.symm ▸ label) old pre
        have same := stays k updated now x
        rw [set, has x, inStep k old pre x] at same
        exact same.symm
    · rintro (alone | disjoint)
      · intro k subscriber found
        have all : (h.set.write (.replace (.other elements))).invoked = h.set.labels :=
            h.set.subscriptions.invoked_fire
        have pre := (sent.skipped k (by rw [all, alone]; exact List.not_mem_nil)).symm.trans found
        have label := (known.registered k).mpr ⟨subscriber, pre⟩
        rw [alone] at label
        exact absurd label List.not_mem_nil
      · exact kept (h.set.replace_other_replays_iff.mpr disjoint)
  · have replays := h.set.write_replays (fun elements same => absurd ⟨elements, same⟩ overlap)
    have free : Replayable h (.write call) := by
      cases call with
      | replace elements =>
        cases elements with
        | self => trivial
        | other elements => exact absurd ⟨elements, rfl⟩ overlap
      | _ => trivial
    exact ⟨fun _ => free, fun _ => kept replays⟩

omit [DecidableEq ν] [Inhabited ω] in
private theorem registered_update (known : Registered h) (valid : current.Valid) :
    Registered ⟨(h.set.onUpdate h.set.labels.length init).1,
      update h.subscribers h.set.labels.length (some current)⟩ := by
  have labels := h.set.onUpdate_labels h.set.labels.length init
  refine ⟨?_, fun k => ?_, fun k subscriber found => ?_⟩
  · simp only [labels]
    rw [List.length_append, List.length_singleton, List.range_succ, ← known.labels]
  · simp only [labels, List.mem_append, List.mem_singleton]
    by_cases same : k = h.set.labels.length
    · subst same
      exact ⟨fun _ => ⟨current, update_self _ _ _⟩, fun _ => .inr rfl⟩
    · simp only [update_of_ne same, same, or_false]
      exact known.registered k
  · by_cases same : k = h.set.labels.length
    · subst same
      simp only [update_self] at found
      cases found
      exact valid
    · simp only [update_of_ne same] at found
      exact known.valid k subscriber found

/-- A registration brings its subscriber in step with the current content. -/
theorem onUpdate_step (known : Registered h) :
    ∃ next, h.step (.onUpdate kind init) = some next ∧ Registered next ∧ (InStep h → InStep next) := by
  obtain ⟨valid, blank⟩ := Subscriber.new_valid kind
  -- Whatever the initial invocation is, some valid state of the new subscriber results.
  have started : ∃ current, current.Valid ∧ (∀ x, current.Has x ↔ x ∈ h.set.value) ∧
      h.step (.onUpdate kind init) = some ⟨(h.set.onUpdate h.set.labels.length init).1,
        update h.subscribers h.set.labels.length (some current)⟩ := by
    rcases h.set.onUpdate_initial h.set.labels.length init with ⟨m, invoked, added,
        deleted⟩ | ⟨quiet, nothing⟩
    · obtain ⟨current, ran, currentValid, has⟩ := Subscriber.invoke_spec valid m
      refine ⟨current, currentValid, fun x => ?_, ?_⟩
      · rw [has x]
        simp [blank x, added x, deleted x]
      · simp [step, invoked, deliver, ran]
    · refine ⟨Subscriber.new kind, valid, fun x => ?_, ?_⟩
      · simp [blank x, nothing x]
      · simp [step, quiet]
  obtain ⟨current, currentValid, has, ran⟩ := started
  refine ⟨_, ran, registered_update known currentValid, fun inStep k subscriber found x => ?_⟩
  by_cases same : k = h.set.labels.length
  · subst same
    simp only [update_self] at found
    cases found
    exact has x
  · simp only [update_of_ne same] at found
    exact inStep k subscriber found x

/-- A weight update moves entries inside a slice and nothing else. -/
theorem computeWeight_step (known : Registered h) :
    ∃ next, h.step (.computeWeight k v f) = some next ∧ Registered next ∧ (InStep h → InStep next) := by
  cases found : h.subscribers k with
  | none => exact ⟨h, by simp [step, found], known, id⟩
  | some subscriber =>
    obtain ⟨updated, ran, valid, has⟩ := Subscriber.computeWeight_spec (known.valid k subscriber found) v f
    refine ⟨{ h with subscribers := update h.subscribers k (some updated) }, ?_, ⟨known.labels, ?_, ?_⟩, ?_⟩
    · simp [step, found, ran]
    · intro j
      rw [known.registered j]
      by_cases same : j = k
      · subst same
        simp [found]
      · simp [update_of_ne same]
    · intro j other is
      by_cases same : j = k
      · subst same
        simp only [update_self] at is
        cases is
        exact valid
      · simp only [update_of_ne same] at is
        exact known.valid j other is
    · intro inStep j other is x
      by_cases same : j = k
      · subst same
        simp only [update_self] at is
        cases is
        rw [has x]
        exact inStep j subscriber found x
      · simp only [update_of_ne same] at is
        exact inStep j other is x

theorem step_registered (h : SetHistory α ω ν) (e : SetHistoryEvent α ω ν) (known : Registered h) :
    ∃ next, h.step e = some next ∧ Registered next := by
  cases e with
  | write call =>
    obtain ⟨next, ran, kept, -⟩ := write_step known
    exact ⟨next, ran, kept⟩
  | onUpdate kind init =>
    obtain ⟨next, ran, kept, -⟩ := onUpdate_step known
    exact ⟨next, ran, kept⟩
  | computeWeight k v f =>
    obtain ⟨next, ran, kept, -⟩ := computeWeight_step known
    exact ⟨next, ran, kept⟩

theorem step_inStep_iff (h : SetHistory α ω ν) (e : SetHistoryEvent α ω ν) (next : SetHistory α ω ν)
    (known : Registered h) (inStep : InStep h) (stepped : h.step e = some next) :
    InStep next ↔ Replayable h e := by
  cases e with
  | write call => exact write_inStep known inStep stepped
  | onUpdate kind init =>
    obtain ⟨other, ran, -, kept⟩ := onUpdate_step known
    cases stepped.symm.trans ran
    exact ⟨fun _ => trivial, fun _ => kept inStep⟩
  | computeWeight k v f =>
    obtain ⟨other, ran, -, kept⟩ := computeWeight_step known
    cases stepped.symm.trans ran
    exact ⟨fun _ => trivial, fun _ => kept inStep⟩

/-- In every history the subscribers have the elements of the set before and
after each event exactly when no `Replace` hands observed elements back. -/
theorem subscribers_stay_in_step_iff (elements : List α) (events : List (SetHistoryEvent α ω ν)) :
    Always step InStep (new elements) events ↔
        Along step Replayable (new elements : SetHistory α ω ν) events := by
  refine always_iff_along step_registered step_inStep_iff ⟨rfl, fun k => ?_, ?_⟩ ?_
  · exact ⟨fun label => absurd label List.not_mem_nil, fun ⟨_, found⟩ => nomatch found⟩
  · exact fun k subscriber found => nomatch found
  · exact fun k subscriber found => nomatch found

/-- A mirror of `1` replays the replacement by `1` and `2` to `2` alone. -/
theorem mirror_loses_replaced_element : ∃ h : SetHistory Nat Nat Unit, run step (new [1])
        [.onUpdate .mirror false, .write (.replace (.other (ofList [1, 2])))] = some h ∧
      1 ∈ h.set.value ∧ ∃ m, h.subscribers 0 = some (.mirror m) ∧ 1 ∉ m :=
  ⟨_, rfl, by decide, _, rfl, by decide⟩

end SetHistory
end HiveGo
