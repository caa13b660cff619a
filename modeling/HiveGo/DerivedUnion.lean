import HiveGo.DerivedSet
import HiveGo.Runs
import Mathlib.Algebra.Order.BigOperators.Group.Finset
import Mathlib.Algebra.Order.Group.Int

/-! A derived set together with its reactive sources. Writes to the sources, `InheritFrom` calls
and unsubscriptions interleave freely; the derived set is the union of the sources it is still
subscribed to. -/
namespace HiveGo
open Function Finset List Nat DerivedSet

variable {ι α κ : Type} [DecidableEq ι] [DecidableEq α]

/-- One subscription made by `InheritFrom`: the callback's label and the source. -/
structure Inheritance (ι : Type) where
  callback : Nat
  source : ι
  deriving DecidableEq

/-- The sources, the derived set, and for each inheritance the tracked copy of
its source. `handles` are the returned unsubscribe functions not called so far. -/
structure DerivedSystem (ι α κ : Type) where
  sources : ι → ReactiveSet α Nat
  derived : DerivedSet α κ
  sourceElements : Nat → OrderedSet α
  created : Nat
  handles : Nat → Option (List (Inheritance ι))
  returned : Nat

inductive DerivedEvent (ι α : Type) where
  | write (source : ι) (call : Write α)
  | inheritFrom (sources : List ι)
  | unsubscribe (handle : Nat)

/-- The event writes to no source by `Replace`. -/
def DerivedEvent.IsMutation : DerivedEvent ι α → Prop
  | .write _ call => call.IsMutation
  | _ => True

namespace DerivedSystem

def new (contents : ι → List α) : DerivedSystem ι α κ where
  sources s := ReactiveSet.new (contents s)
  derived := .new
  sourceElements _ := .empty
  created := 0
  handles _ := none
  returned := 0

/-- The invocation of one inheritance's callback. -/
def deliver (mutations : SetMutations α) (w : DerivedSystem ι α κ) (callback : Nat) : DerivedSystem ι α κ :=
  let (derived, tracked) := w.derived.onSourceUpdate (w.sourceElements callback) mutations
  { w with derived, sourceElements := update w.sourceElements callback tracked }

def writeSource (w : DerivedSystem ι α κ) (source : ι) (call : Write α) : DerivedSystem ι α κ :=
  let delivery := (w.sources source).write call
  delivery.invoked.foldl (deliver delivery.mutations)
    { w with sources := update w.sources source delivery.set }

/-- One round of the loop of `InheritFrom`. -/
def inheritFromSource (w : DerivedSystem ι α κ) (source : ι) : DerivedSystem ι α κ × Inheritance ι :=
  let (registered, initial) := (w.sources source).onUpdate w.created false
  let subscribed : DerivedSystem ι α κ :=
    { w with
      sources := update w.sources source registered
      sourceElements := update w.sourceElements w.created .empty
      created := w.created + 1 }
  ((match initial with
    | none => subscribed
    | some mutations => subscribed.deliver mutations w.created), ⟨w.created, source⟩)

def inheritFromSources (w : DerivedSystem ι α κ) : List ι → DerivedSystem ι α κ × List (Inheritance ι)
  | [] => (w, [])
  | source :: sources =>
    let (inherited, p) := w.inheritFromSource source
    let (last, ps) := inherited.inheritFromSources sources
    (last, p :: ps)

/-- The two callbacks a returned unsubscribe function runs for one inheritance. -/
def release (w : DerivedSystem ι α κ) (p : Inheritance ι) : DerivedSystem ι α κ :=
  { w with
    sources := update w.sources p.source ((w.sources p.source).unsubscribe p.callback)
    derived := w.derived.removeSourceElements (w.sourceElements p.callback) }

/-- One event. Calling an unsubscribe function that was not returned or was
called before is not a step. -/
def step (w : DerivedSystem ι α κ) : DerivedEvent ι α → Option (DerivedSystem ι α κ)
  | .write source call => some (w.writeSource source call)
  | .inheritFrom sources =>
    let (inherited, ps) := w.inheritFromSources sources
    some { inherited with handles := update w.handles w.returned (some ps), returned := w.returned + 1 }
  | .unsubscribe handle =>
    (w.handles handle).map fun ps =>
      { ps.foldl release w with handles := update w.handles handle none }

end DerivedSystem

/-- The caller's view of the same history: how many handles were returned, and
the pairs of a handle that was not called and a source listed for it. -/
structure ActiveSources (ι : Type) where
  returned : Nat
  active : List (Nat × ι)

def ActiveSources.step (a : ActiveSources ι) : DerivedEvent ι α → ActiveSources ι
  | .write _ _ => a
  | .inheritFrom sources => ⟨a.returned + 1, a.active ++ sources.map (a.returned, ·)⟩
  | .unsubscribe handle => ⟨a.returned, a.active.filter fun p => p.1 ≠ handle⟩

/-- The sources that are still subscribed after the events. -/
def activeSources (events : List (DerivedEvent ι α)) : List ι :=
  ((events.foldl ActiveSources.step ⟨0, []⟩).active).map Prod.snd

namespace DerivedSystem

/-- The derived set counts, for every element, the inheritances in `A` whose
tracked copy holds it. -/
structure Ledger (w : DerivedSystem ι α κ) (A : Finset (Inheritance ι)) : Prop where
  counted : w.derived.Counted
  counts : ∀ x, w.derived.setArithmetic x = ∑ p ∈ A, (w.sourceElements p.callback).ind x

/-- The inheritances in `A` are the registered ones, and each of them tracks
its source. -/
structure Subscribed (w : DerivedSystem ι α κ) (A : Finset (Inheritance ι)) : Prop extends Ledger w A where
  fresh : ∀ p ∈ A, p.callback < w.created
  unique : ∀ p ∈ A, ∀ q ∈ A, p.callback = q.callback → p = q
  registered : ∀ s i, i ∈ (w.sources s).labels ↔ ⟨i, s⟩ ∈ A
  once : ∀ s, (w.sources s).labels.Nodup
  tracks : ∀ p ∈ A, ∀ x, x ∈ w.sourceElements p.callback ↔ x ∈ (w.sources p.source).value

variable {w : DerivedSystem ι α κ}

omit [DecidableEq ι] in
/-- A delivery to an inheritance keeps the ledger: its old tracked copy is
counted out and its new one counted in. -/
theorem deliver_ledger (ledger : Ledger w A)
    (unique : ∀ p ∈ A, ∀ q ∈ A, p.callback = q.callback → p = q) (mem : p ∈ A)
    (m : SetMutations α) : Ledger (w.deliver m p.callback) A := by
  classical
  obtain ⟨counted, counts, -⟩ := onSourceUpdate_spec ledger.counted (w.sourceElements p.callback) m
  refine ⟨counted, fun x => ?_⟩
  have others : ∑ q ∈ A.erase p, ((w.deliver m p.callback).sourceElements q.callback).ind x =
      ∑ q ∈ A.erase p, (w.sourceElements q.callback).ind x := by
    refine sum_congr rfl fun q other => ?_
    obtain ⟨different, included⟩ := mem_erase.mp other
    have apart : q.callback ≠ p.callback := fun same => different (unique q included p mem same)
    simp [deliver, update_of_ne apart]
  have pre := add_sum_erase A (fun q => (w.sourceElements q.callback).ind x) mem
  have after := add_sum_erase A (fun q => ((w.deliver m p.callback).sourceElements q.callback).ind x) mem
  have count := counts x
  have start := ledger.counts x
  have here : (w.deliver m p.callback).sourceElements p.callback =
      (w.derived.onSourceUpdate (w.sourceElements p.callback) m).2 := by
    simp [deliver]
  rw [← after, others, here]
  simp only [deliver]
  omega

omit [DecidableEq ι] in
theorem deliver_replays (counted : w.derived.Counted) (m : SetMutations α) (i : Nat) :
    SetMutations.Replays (w.sourceElements i) m ((w.deliver m i).sourceElements i) := by
  have replays := (onSourceUpdate_spec counted (w.sourceElements i) m).2.2
  simpa [deliver] using replays

omit [DecidableEq ι] in
theorem deliver_other (apart : j ≠ i) : (w.deliver m i).sourceElements j = w.sourceElements j := by
  simp [deliver, update_of_ne apart]

/-- The effect of one delivery loop over the callbacks of a source. -/
structure Delivered (w w' : DerivedSystem ι α κ) (A : Finset (Inheritance ι)) (labels : List Nat)
    (m : SetMutations α) : Prop extends Ledger w' A where
  sources : w'.sources = w.sources
  created : w'.created = w.created
  reached : ∀ i ∈ labels, SetMutations.Replays (w.sourceElements i) m (w'.sourceElements i)
  skipped : ∀ i, i ∉ labels → w'.sourceElements i = w.sourceElements i

omit [DecidableEq ι] in
theorem deliver_loop (unique : ∀ p ∈ A, ∀ q ∈ A, p.callback = q.callback → p = q)
    (m : SetMutations α) (w : DerivedSystem ι α κ) (ledger : Ledger w A)
    (known : ∀ i ∈ labels, ∃ p ∈ A, p.callback = i) (nodup : labels.Nodup) :
    Delivered w (labels.foldl (deliver m) w) A labels m := by
  induction labels generalizing w with
  | nil => exact ⟨ledger, rfl, rfl, by simp, fun _ _ => rfl⟩
  | cons i labels ih =>
    obtain ⟨absent, distinct⟩ := nodup_cons.mp nodup
    obtain ⟨p, mem, rfl⟩ := known i mem_cons_self
    have kept := deliver_ledger ledger unique mem m
    have rest := ih (w.deliver m p.callback) kept (fun j tail => known j (mem_cons_of_mem _ tail)) distinct
    rw [foldl_cons]
    refine ⟨rest.toLedger, rest.sources, rest.created, ?_, ?_⟩
    · intro j listed
      rcases mem_cons.mp listed with rfl | tail
      · rw [rest.skipped _ absent]
        exact deliver_replays ledger.counted m p.callback
      · have apart : j ≠ p.callback := fun same => absent (same ▸ tail)
        rw [← deliver_other apart]
        exact rest.reached j tail
    · intro j unlisted
      rw [List.mem_cons, not_or] at unlisted
      obtain ⟨apart, tail⟩ := unlisted
      rw [rest.skipped j tail, deliver_other apart]

/-- A write to a source that can be replayed keeps every inheritance in step. -/
theorem writeSource_subscribed (joined : Subscribed w A) (s : ι) (mutation : call.IsMutation) :
    Subscribed (w.writeSource s call) A := by
  have net := (w.sources s).write_net mutation
  let d := (w.sources s).write call
  let written : DerivedSystem ι α κ := { w with sources := update w.sources s d.set }
  have labels : ∀ t, (written.sources t).labels = (w.sources t).labels := by
    intro t
    by_cases same : t = s <;> simp [written, d, same, net.labels]
  have listed : ∀ i ∈ d.invoked, i ∈ (w.sources s).labels := by
    intro i invoked
    rcases net.reaches with all | ⟨nobody, -⟩
    · exact all ▸ invoked
    · rw [nobody] at invoked
      exact absurd invoked not_mem_nil
  have nodup : d.invoked.Nodup := by
    rcases net.reaches with all | ⟨nobody, -⟩
    · exact all ▸ joined.once s
    · exact nobody ▸ nodup_nil
  have sent := deliver_loop joined.unique d.mutations written { joined with }
    (fun i invoked => ⟨⟨i, s⟩, (joined.registered s i).mp (listed i invoked), rfl⟩) nodup
  have same : w.writeSource s call = d.invoked.foldl (deliver d.mutations) written := rfl
  rw [same]
  refine ⟨sent.toLedger, ?_, joined.unique, ?_, ?_, ?_⟩
  · intro p mem
    rw [sent.created]
    exact joined.fresh p mem
  · intro t i
    rw [sent.sources, labels]
    exact joined.registered t i
  · intro t
    rw [sent.sources, labels]
    exact joined.once t
  · intro p mem x
    rw [sent.sources]
    have tracks := joined.tracks p mem
    by_cases here : p.source = s
    · subst here
      simp only [written, update_self]
      have label := (joined.registered p.source p.callback).mpr mem
      rcases net.reaches with all | ⟨nobody, unchanged⟩
      · have replayed := sent.reached p.callback (all.symm ▸ label) x
        rw [replayed, show written.sourceElements = w.sourceElements from rfl, tracks x]
        exact (net.replays x).symm
      · have skipped : p.callback ∉ d.invoked := nobody.symm ▸ not_mem_nil
        rw [sent.skipped p.callback skipped,
          show written.sourceElements = w.sourceElements from rfl, tracks x]
        exact (unchanged x).symm
    · have skipped : p.callback ∉ d.invoked := by
        intro invoked
        have other := (joined.registered s p.callback).mp (listed _ invoked)
        exact here (congrArg Inheritance.source (joined.unique p mem ⟨p.callback, s⟩ other rfl))
      rw [sent.skipped p.callback skipped]
      simp only [written, update_of_ne here]
      exact tracks x

/-- The state in which a new inheritance is registered but has seen nothing. -/
private def registerInheritance (w : DerivedSystem ι α κ) (s : ι) : DerivedSystem ι α κ :=
  { w with
    sources := update w.sources s ((w.sources s).onUpdate w.created false).1
    sourceElements := update w.sourceElements w.created .empty
    created := w.created + 1 }

private theorem registerInheritance_ledger (joined : Subscribed w A) (s : ι) :
    Ledger (w.registerInheritance s) (insert ⟨w.created, s⟩ A) := by
  refine ⟨joined.counted, fun x => ?_⟩
  have absent : (⟨w.created, s⟩ : Inheritance ι) ∉ A :=
    fun mem => lt_irrefl _ (joined.fresh _ mem)
  have others : ∑ q ∈ A, ((w.registerInheritance s).sourceElements q.callback).ind x =
      ∑ q ∈ A, (w.sourceElements q.callback).ind x := by
    refine sum_congr rfl fun q mem => ?_
    have older := Nat.ne_of_lt (joined.fresh q mem)
    simp [registerInheritance, update_of_ne older]
  have nothing : ((w.registerInheritance s).sourceElements w.created).ind x = 0 := by
    simp only [registerInheritance, update_self]
    exact OrderedSet.ind_of_not_mem (OrderedSet.not_mem_empty x)
  rw [sum_insert absent, others, nothing, Int.zero_add]
  exact joined.counts x

theorem unique_insert (joined : Subscribed w A) (s : ι) :
    ∀ p ∈ insert ⟨w.created, s⟩ A, ∀ q ∈ insert ⟨w.created, s⟩ A, p.callback = q.callback → p = q := by
  intro p inP q inQ same
  rcases mem_insert.mp inP with rfl | oldP
  · rcases mem_insert.mp inQ with rfl | oldQ
    · rfl
    · exact absurd same (ne_of_gt (joined.fresh q oldQ))
  · rcases mem_insert.mp inQ with rfl | oldQ
    · exact absurd same (Nat.ne_of_lt (joined.fresh p oldP))
    · exact joined.unique p oldP q oldQ same

private theorem registerInheritance_labels (s t : ι) :
    ((w.registerInheritance s).sources t).labels =
      if t = s then (w.sources t).labels ++ [w.created] else (w.sources t).labels := by
  by_cases same : t = s <;> simp [registerInheritance, same]

private theorem registerInheritance_value (s t : ι) :
    ((w.registerInheritance s).sources t).value = (w.sources t).value := by
  by_cases same : t = s <;> simp [registerInheritance, same]

/-- One round of `InheritFrom` adds a subscription that tracks its source. -/
theorem inheritFromSource_subscribed (joined : Subscribed w A) (s : ι) :
    Subscribed (w.inheritFromSource s).1 (insert (w.inheritFromSource s).2 A) ∧
      (w.inheritFromSource s).2 = ⟨w.created, s⟩ ∧ (w.inheritFromSource s).1.created = w.created + 1 := by
  have ledger := registerInheritance_ledger joined s
  have unique := unique_insert joined s
  -- Both outcomes of the initial invocation leave the new copy equal to the source.
  have seen : ∃ next, (w.inheritFromSource s).1 = next ∧ Ledger next (insert ⟨w.created, s⟩ A) ∧
      next.sources = (w.registerInheritance s).sources ∧ next.created = w.created + 1 ∧
      (∀ i, i ≠ w.created → next.sourceElements i = w.sourceElements i) ∧
      ∀ x, x ∈ next.sourceElements w.created ↔ x ∈ (w.sources s).value := by
    have other : ∀ i, i ≠ w.created → (w.registerInheritance s).sourceElements i = w.sourceElements i := by
      intro i apart
      simp [registerInheritance, update_of_ne apart]
    have blank : (w.registerInheritance s).sourceElements w.created = .empty := by
      simp [registerInheritance]
    rcases (w.sources s).onUpdate_initial w.created false with ⟨m, invoked, added, deleted⟩ | ⟨quiet, nothing⟩
    · have same : (w.inheritFromSource s).1 = (w.registerInheritance s).deliver m w.created := by
        simp only [inheritFromSource, invoked]
        rfl
      refine ⟨_, same, deliver_ledger ledger unique (mem_insert_self _ _) m, rfl, rfl, ?_, ?_⟩
      · intro i apart
        rw [deliver_other apart, other i apart]
      · intro x
        have replayed := deliver_replays ledger.counted m w.created x
        rw [replayed, blank]
        simp [added, deleted]
    · have same : (w.inheritFromSource s).1 = w.registerInheritance s := by
        simp only [inheritFromSource, quiet]
        rfl
      refine ⟨_, same, ledger, rfl, rfl, other, fun x => ?_⟩
      rw [blank]
      simp [nothing x]
  obtain ⟨next, same, ledger, sources, made, other, tracked⟩ := seen
  refine ⟨?_, rfl, same ▸ made⟩
  rw [same, show (w.inheritFromSource s).2 = ⟨w.created, s⟩ from rfl]
  refine ⟨ledger, ?_, unique, ?_, ?_, ?_⟩
  · intro p mem
    rw [made]
    rcases mem_insert.mp mem with rfl | old
    · exact lt_succ_self _
    · exact lt_succ_of_lt (joined.fresh p old)
  · intro t i
    rw [sources, registerInheritance_labels, mem_insert, Inheritance.mk.injEq]
    split
    · rw [List.mem_append, List.mem_singleton, joined.registered t i]
      tauto
    · rw [joined.registered t i]
      tauto
  · intro t
    rw [sources, registerInheritance_labels]
    split
    · refine nodup_append.mpr ⟨joined.once t, nodup_singleton _, ?_⟩
      rintro i old j new rfl
      rw [List.mem_singleton] at new
      exact Nat.ne_of_lt (joined.fresh _ ((joined.registered t i).mp old)) new
    · exact joined.once t
  · intro p mem x
    rw [sources, registerInheritance_value]
    rcases mem_insert.mp mem with rfl | old
    · exact tracked x
    · rw [other _ (Nat.ne_of_lt (joined.fresh p old))]
      exact joined.tracks p old x

/-- The loop of `InheritFrom`: one new subscription for each listed source. -/
theorem inheritFromSources_subscribed (sources : List ι) (joined : Subscribed w A) :
    Subscribed (w.inheritFromSources sources).1 (A ∪ (w.inheritFromSources sources).2.toFinset) ∧
      (w.inheritFromSources sources).2.map Inheritance.source = sources ∧
      (∀ p ∈ (w.inheritFromSources sources).2, w.created ≤ p.callback) ∧
      (w.inheritFromSources sources).2.Nodup := by
  induction sources generalizing w A with
  | nil => exact ⟨by simpa [inheritFromSources] using joined, rfl, by simp [inheritFromSources], nodup_nil⟩
  | cons s sources ih =>
    obtain ⟨first, label, made⟩ := inheritFromSource_subscribed joined s
    obtain ⟨rest, listed, later, nodup⟩ := ih first
    simp only [inheritFromSources]
    refine ⟨?_, ?_, ?_, ?_⟩
    · rw [toFinset_cons, union_insert, ← insert_union]
      exact rest
    · rw [List.map_cons, listed, label]
    · intro p mem
      rcases mem_cons.mp mem with rfl | tail
      · rw [label]
      · have above := later p tail
        omega
    · refine nodup_cons.mpr ⟨fun again => ?_, nodup⟩
      have above := later _ again
      rw [label, made] at above
      exact not_succ_le_self _ above

/-- Releasing an inheritance counts its tracked copy out and ends its callback. -/
theorem release_subscribed (joined : Subscribed w A) (mem : p ∈ A) :
    Subscribed (w.release p) (A.erase p) := by
  obtain ⟨counted, counts⟩ := removeSourceElements_spec joined.counted
  have labels : ∀ t, ((w.release p).sources t).labels =
      if t = p.source then (w.sources t).labels.filter (· ≠ p.callback) else (w.sources t).labels := by
    intro t
    by_cases here : t = p.source <;> simp [release, here]
  have value : ∀ t, ((w.release p).sources t).value = (w.sources t).value := by
    intro t
    by_cases here : t = p.source <;> simp [release, here]
  refine ⟨⟨counted, fun x => ?_⟩, ?_, ?_, ?_, ?_, ?_⟩
  · have total := add_sum_erase A (fun q => (w.sourceElements q.callback).ind x) mem
    have start := joined.counts x
    have count := counts x
    simp only [release]
    omega
  · exact fun q kept => joined.fresh q (mem_of_mem_erase kept)
  · exact fun q inQ r inR =>
      joined.unique q (mem_of_mem_erase inQ) r (mem_of_mem_erase inR)
  · intro t i
    rw [labels, mem_erase]
    split
    · rename_i here
      rw [mem_filter, joined.registered t i, and_comm]
      subst here
      obtain ⟨callback, source⟩ := p
      simp
    · rename_i here
      rw [joined.registered t i]
      constructor
      · exact fun old => ⟨fun same => here (congrArg Inheritance.source same), old⟩
      · exact And.right
  · intro t
    rw [labels]
    split
    · exact (joined.once t).filter _
    · exact joined.once t
  · intro q kept x
    rw [value]
    exact joined.tracks q (mem_of_mem_erase kept) x

/-- An unsubscribe function releases all inheritances of its call. -/
theorem releases_subscribed (ps : List (Inheritance ι)) (joined : Subscribed w A)
    (included : ∀ p ∈ ps, p ∈ A) (nodup : ps.Nodup) :
    Subscribed (ps.foldl release w) (A \ ps.toFinset) := by
  induction ps generalizing w A with
  | nil => simpa using joined
  | cons p ps ih =>
    obtain ⟨absent, nodup⟩ := nodup_cons.mp nodup
    have first := release_subscribed joined (included p mem_cons_self)
    have rest := ih first (fun q tail => mem_erase.mpr
      ⟨fun same => absent (same ▸ tail), included q (mem_cons_of_mem p tail)⟩) nodup
    have same : A \ (p :: ps).toFinset = A.erase p \ ps.toFinset := by
      ext q
      simp only [toFinset_cons, mem_sdiff, mem_insert, mem_erase]
      tauto
    rw [foldl_cons, same]
    exact rest

/-- The subscriptions are those of the handles not called so far, and the
caller's view lists the same sources. -/
structure InStep (w : DerivedSystem ι α κ) (a : ActiveSources ι) : Prop where
  open_subscribed : ∃ A, Subscribed w A ∧ ∀ p, p ∈ A ↔ ∃ k ps, w.handles k = some ps ∧ p ∈ ps
  distinct : ∀ k ps, w.handles k = some ps → ps.Nodup
  separate : ∀ j k ps qs p, w.handles j = some ps → w.handles k = some qs → p ∈ ps → p ∈ qs → j = k
  returned : w.returned = a.returned
  later : ∀ k, w.returned ≤ k → w.handles k = none
  view : ∀ k s, (k, s) ∈ a.active ↔ ∃ ps, w.handles k = some ps ∧ ∃ p ∈ ps, p.source = s

omit [DecidableEq ι] in
private theorem deliver_loop_handles (labels : List Nat) (w : DerivedSystem ι α κ) :
    (labels.foldl (deliver m) w).handles = w.handles ∧
        (labels.foldl (deliver m) w).returned = w.returned := by
  induction labels generalizing w with
  | nil => exact ⟨rfl, rfl⟩
  | cons i labels ih => exact ih (w.deliver m i)

private theorem releases_handles (ps : List (Inheritance ι)) (w : DerivedSystem ι α κ) :
    (ps.foldl release w).returned = w.returned := by
  induction ps generalizing w with
  | nil => rfl
  | cons p ps ih => exact ih (w.release p)

omit [DecidableEq ι] in
theorem new_inStep : InStep (new contents : DerivedSystem ι α κ) ⟨0, []⟩ where
  open_subscribed := by
    refine ⟨∅, ⟨⟨new_counted, fun x => rfl⟩, ?_, ?_, ?_, ?_, ?_⟩, ?_⟩
    · exact fun p mem => absurd mem (notMem_empty p)
    · exact fun p mem => absurd mem (notMem_empty p)
    · exact fun s i => ⟨fun label => absurd label not_mem_nil, fun mem => absurd mem (notMem_empty _)⟩
    · exact fun s => nodup_nil
    · exact fun p mem => absurd mem (notMem_empty p)
    · simp [new]
  distinct := by simp [new]
  separate := by simp [new]
  returned := rfl
  later := fun _ _ => rfl
  view := by simp [new]

theorem write_inStep (inStep : InStep w a) (s : ι) (call : Write α) (mutation : call.IsMutation) :
    InStep (w.writeSource s call) a := by
  obtain ⟨handles, done⟩ : (w.writeSource s call).handles = w.handles ∧
      (w.writeSource s call).returned = w.returned := deliver_loop_handles _ _
  obtain ⟨A, joined, opened⟩ := inStep.open_subscribed
  have kept := writeSource_subscribed joined s mutation
  refine ⟨⟨A, kept, handles ▸ opened⟩, handles ▸ inStep.distinct, handles ▸ inStep.separate,
    done ▸ inStep.returned, ?_, handles ▸ inStep.view⟩
  rw [handles, done]
  exact inStep.later

theorem inheritFrom_inStep (inStep : InStep w a) (sources : List ι) :
    InStep ({ (w.inheritFromSources sources).1 with
        handles := update w.handles w.returned (some (w.inheritFromSources sources).2)
        returned := w.returned + 1 } : DerivedSystem ι α κ)
      ⟨a.returned + 1, a.active ++ sources.map (a.returned, ·)⟩ := by
  obtain ⟨A, joined, opened⟩ := inStep.open_subscribed
  obtain ⟨extended, listed, later, nodup⟩ := inheritFromSources_subscribed sources joined
  generalize w.inheritFromSources sources = result at extended listed later nodup
  obtain ⟨next, new⟩ := result
  have unused := inStep.later _ (le_refl _)
  -- A handle after the step is an earlier one or the one just returned.
  have cases : ∀ k ps, update w.handles w.returned (some new) k = some ps ↔
      k = w.returned ∧ new = ps ∨ k ≠ w.returned ∧ w.handles k = some ps := by
    intro k ps
    by_cases same : k = w.returned <;> simp [same]
  have older : ∀ p k ps, w.handles k = some ps → p ∈ ps → p ∉ new := by
    intro p k ps handle mem fresh
    have below := joined.fresh p ((opened p).mpr ⟨k, ps, handle, mem⟩)
    have above := later p fresh
    omega
  refine ⟨⟨A ∪ new.toFinset, { extended with }, ?_⟩, ?_, ?_, ?_, ?_, ?_⟩
  · intro p
    simp only [mem_union, mem_toFinset, opened, cases]
    constructor
    · rintro (⟨k, ps, handle, mem⟩ | fresh)
      · have apart : k ≠ w.returned := fun same => by simp [same, unused] at handle
        exact ⟨k, ps, .inr ⟨apart, handle⟩, mem⟩
      · exact ⟨w.returned, new, .inl ⟨rfl, rfl⟩, fresh⟩
    · rintro ⟨k, ps, ⟨-, rfl⟩ | ⟨-, handle⟩, mem⟩
      · exact .inr mem
      · exact .inl ⟨k, ps, handle, mem⟩
  · intro k ps handle
    rcases (cases k ps).mp handle with ⟨-, rfl⟩ | ⟨-, handle⟩
    · exact nodup
    · exact inStep.distinct k ps handle
  · intro j k ps qs p first second inFirst inSecond
    rcases (cases j ps).mp first with ⟨atJ, rfl⟩ | ⟨-, first⟩
    · rcases (cases k qs).mp second with ⟨atK, rfl⟩ | ⟨-, second⟩
      · rw [atJ, atK]
      · exact absurd inFirst (older p k qs second inSecond)
    · rcases (cases k qs).mp second with ⟨-, rfl⟩ | ⟨-, second⟩
      · exact absurd inSecond (older p j ps first inFirst)
      · exact inStep.separate j k ps qs p first second inFirst inSecond
  · exact congrArg (· + 1) inStep.returned
  · intro k above
    have apart : k ≠ w.returned := ne_of_gt above
    simp only [update_of_ne apart]
    exact inStep.later k (le_of_succ_le above)
  · intro k s
    simp only [cases, List.mem_append, List.mem_map, Prod.mk.injEq, inStep.view k s,
      ← inStep.returned, ← listed]
    constructor
    · rintro (⟨ps, handle, p, mem, source⟩ | ⟨t, ⟨p, mem, rfl⟩, rfl, rfl⟩)
      · have apart : k ≠ w.returned := fun same => by simp [same, unused] at handle
        exact ⟨ps, .inr ⟨apart, handle⟩, p, mem, source⟩
      · exact ⟨new, .inl ⟨rfl, rfl⟩, p, mem, rfl⟩
    · rintro ⟨ps, ⟨rfl, rfl⟩ | ⟨-, handle⟩, p, mem, rfl⟩
      · exact .inr ⟨p.source, ⟨p, mem, rfl⟩, rfl, rfl⟩
      · exact .inl ⟨ps, handle, p, mem, rfl⟩

theorem unsubscribe_inStep (inStep : InStep w a) (open_handle : w.handles handle = some ps) :
    InStep ({ ps.foldl release w with handles := update w.handles handle none } : DerivedSystem ι α κ)
      ⟨a.returned, a.active.filter fun p => p.1 ≠ handle⟩ := by
  obtain ⟨A, joined, opened⟩ := inStep.open_subscribed
  have released := releases_subscribed ps joined
    (fun p mem => (opened p).mpr ⟨handle, ps, open_handle, mem⟩) (inStep.distinct handle ps open_handle)
  have cases : ∀ k qs, update w.handles handle none k = some qs ↔ k ≠ handle ∧ w.handles k = some qs := by
    intro k qs
    by_cases same : k = handle <;> simp [same]
  have done := releases_handles ps w
  refine ⟨⟨A \ ps.toFinset, { released with }, ?_⟩, ?_, ?_, ?_, ?_, ?_⟩
  · intro p
    simp only [mem_sdiff, mem_toFinset, opened, cases]
    constructor
    · rintro ⟨⟨k, qs, other, mem⟩, kept⟩
      refine ⟨k, qs, ⟨fun same => kept ?_, other⟩, mem⟩
      subst same
      rw [open_handle] at other
      cases other
      exact mem
    · rintro ⟨k, qs, ⟨apart, other⟩, mem⟩
      refine ⟨⟨k, qs, other, mem⟩, fun gone => apart ?_⟩
      exact inStep.separate k handle qs ps p other open_handle mem gone
  · exact fun k qs other => inStep.distinct k qs ((cases k qs).mp other).2
  · exact fun j k qs rs p first second =>
      inStep.separate j k qs rs p ((cases j qs).mp first).2 ((cases k rs).mp second).2
  · exact done.trans inStep.returned
  · intro k above
    by_cases same : k = handle
    · subst same
      exact update_self _ _ _
    · simp only [update_of_ne same]
      exact inStep.later k (done ▸ above)
  · intro k s
    simp only [mem_filter, inStep.view k s, cases, decide_eq_true_eq]
    constructor
    · rintro ⟨⟨qs, other, p, mem, source⟩, apart⟩
      exact ⟨qs, ⟨apart, other⟩, p, mem, source⟩
    · rintro ⟨qs, ⟨apart, other⟩, p, mem, source⟩
      exact ⟨⟨qs, other, p, mem, source⟩, apart⟩

/-- Every event keeps the system in step with the caller's view. -/
theorem step_inStep {next : DerivedSystem ι α κ} {e : DerivedEvent ι α} (inStep : InStep w a)
    (mutation : e.IsMutation) (ran : w.step e = some next) : InStep next (a.step e) := by
  cases e with
  | write s call =>
    cases ran
    exact write_inStep inStep s call mutation
  | inheritFrom sources =>
    cases ran
    exact inheritFrom_inStep inStep sources
  | unsubscribe handle =>
    obtain ⟨ps, open_handle, rfl⟩ := Option.map_eq_some_iff.mp ran
    exact unsubscribe_inStep inStep open_handle

theorem run_inStep (inStep : InStep w a)
    (mutations : ∀ e ∈ events, e.IsMutation) (ran : run step w events = some last) :
    InStep last (events.foldl ActiveSources.step a) := by
  induction events generalizing w a with
  | nil =>
    cases ran
    exact inStep
  | cons e events ih =>
    obtain ⟨next, stepped, rest⟩ := Option.bind_eq_some_iff.mp ran
    have kept := step_inStep inStep (mutations e mem_cons_self) stepped
    exact ih kept (fun f mem => mutations f (mem_cons_of_mem e mem)) rest

omit [DecidableEq ι] in
/-- A derived set that counts its inheritances holds what some tracked copy holds. -/
theorem mem_derived_iff (ledger : Ledger w A) :
    x ∈ w.derived.set.value ↔ ∃ p ∈ A, x ∈ w.sourceElements p.callback := by
  rw [counted_iff.mp ledger.counted, ledger.counts]
  constructor
  · intro pos
    by_contra nowhere
    have zero := sum_eq_zero fun p mem =>
      OrderedSet.ind_of_not_mem fun held : x ∈ w.sourceElements p.callback => nowhere ⟨p, mem, held⟩
    omega
  · rintro ⟨p, mem, held⟩
    have share := single_le_sum (f := fun q : Inheritance ι => (w.sourceElements q.callback).ind x)
      (fun q _ => OrderedSet.ind_nonneg) mem
    rw [OrderedSet.ind_of_mem held] at share
    exact share

/-- The derived set is the union of the sources that are still subscribed,
after any interleaving of source writes, inheritances and unsubscribe calls. -/
theorem derived_eq_union_of_active (contents : ι → List α) (events : List (DerivedEvent ι α))
    (mutations : ∀ e ∈ events, e.IsMutation) {w : DerivedSystem ι α κ}
    (ran : run step (new contents) events = some w) (x : α) :
    x ∈ w.derived.set.value ↔ ∃ s ∈ activeSources events, x ∈ (w.sources s).value := by
  have inStep := run_inStep new_inStep mutations ran
  obtain ⟨A, joined, opened⟩ := inStep.open_subscribed
  rw [mem_derived_iff joined.toLedger]
  constructor
  · rintro ⟨p, mem, held⟩
    obtain ⟨k, ps, handle, listed⟩ := (opened p).mp mem
    have active := (inStep.view k p.source).mpr ⟨ps, handle, p, listed, rfl⟩
    exact ⟨p.source, mem_map.mpr ⟨(k, p.source), active, rfl⟩, (joined.tracks p mem x).mp held⟩
  · rintro ⟨s, active, held⟩
    obtain ⟨⟨k, t⟩, pair, rfl⟩ := mem_map.mp active
    obtain ⟨ps, handle, p, listed, rfl⟩ := (inStep.view k t).mp pair
    have mem := (opened p).mpr ⟨k, ps, handle, listed⟩
    exact ⟨p, mem, (joined.tracks p mem x).mpr held⟩

/-- Two inheritances of one source under one handle and one of another source;
after the first handle is called only the second source is left. -/
def handleCalled : List (DerivedEvent Bool Nat) :=
  [.inheritFrom [true, true], .inheritFrom [false], .write true (.add 2), .write false (.add 3),
      .unsubscribe 0]

theorem derived_eq_union_after_unsubscribe :
    ∃ w : DerivedSystem Bool Nat Unit, run step (new fun _ => [1]) handleCalled = some w ∧
      activeSources handleCalled = [false] ∧
      ∀ x, x ∈ w.derived.set.value ↔ ∃ s ∈ activeSources handleCalled, x ∈ (w.sources s).value := by
  have ran : ∃ w : DerivedSystem Bool Nat Unit, run step (new fun _ => [1]) handleCalled = some w := ⟨_, rfl⟩
  obtain ⟨w, ran⟩ := ran
  refine ⟨w, ran, rfl, derived_eq_union_of_active _ handleCalled ?_ ran⟩
  simp [handleCalled, DerivedEvent.IsMutation, Write.IsMutation]

end DerivedSystem
end HiveGo
