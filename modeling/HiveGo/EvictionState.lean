import HiveGo.NumKind
import HiveGo.Runs
import HiveGo.ShrinkingMap

/-! The eviction state: events for slots, which are triggered when the slot or a later one is
evicted. -/
namespace HiveGo.EvictionState
open List NumKind

/-- The fields of an `evictionState`, and for every event whether it was triggered. The first event
is the `evictedSlotEvent` that all states share. -/
structure State where
  lastEvictedSlot : Option Int := none
  evictionEvents : ShrinkingMap Int Nat := .new
  wasTriggered : List Bool := [true]

def evictedSlotEvent : Nat := 0

namespace State

/-- `LastEvictedSlot`. -/
def lastEvicted (s : State) : Int := s.lastEvictedSlot.getD 0

/-- The slot is after the last evicted one. -/
def ahead (s : State) (slot : Int) : Bool := s.lastEvictedSlot.all (· < slot)

def evictionEvent (s : State) (slot : Int) : Nat × State :=
  if s.ahead slot then
    match s.evictionEvents.get slot with
    | some event => (event, s)
    | none =>
      let event := s.wasTriggered.length
      (event, { s with
        evictionEvents := s.evictionEvents.set slot event
        wasTriggered := s.wasTriggered ++ [false] })
  else (evictedSlotEvent, s)

/-- The body of the loop of `evict`, with the events that shall be triggered. -/
def evictSlot (i : Int) : ShrinkingMap Int Nat × List Nat → ShrinkingMap Int Nat × List Nat
  | (evictionEvents, eventsToTrigger) =>
    match evictionEvents.get i with
    | some slotEvictedEvent => (evictionEvents.delete i, eventsToTrigger ++ [slotEvictedEvent])
    | none => (evictionEvents, eventsToTrigger)

def startingSlot (kind : NumKind) (s : State) : Int :=
  match s.lastEvictedSlot with
  | none => 0
  | some last => kind.wrap (last + 1)

/-- The loop makes as many rounds as there is fuel for. -/
def evict (kind : NumKind) (fuel : Nat) (s : State) (slot : Int) : Option (List Nat × State) :=
  if s.ahead slot then do
    let (evictionEvents, eventsToTrigger) ←
      CountingLoop.upTo kind slot evictSlot fuel (s.startingSlot kind) (s.evictionEvents, [])
    return (eventsToTrigger, { s with lastEvictedSlot := some slot, evictionEvents })
  else some ([], s)

def trigger (events : List Nat) (wasTriggered : List Bool) : List Bool :=
  events.foldl (fun wasTriggered event => wasTriggered.set event true) wasTriggered

end State

inductive Operation where
  | evictionEvent (slot : Int)
  | evict (slot : Int)

def Operation.slot : Operation → Int
  | evictionEvent slot | evict slot => slot

/-- A state with the events that were returned for slots and the slots that were evicted. -/
structure Session extends State where
  returned : List (Int × Nat) := []
  evicted : List Int := []

def step (kind : NumKind) (fuel : Nat) (s : Session) : Operation → Option Session
  | .evictionEvent slot =>
    let (event, state) := s.toState.evictionEvent slot
    some { s with toState := state, returned := (slot, event) :: s.returned }
  | .evict slot => do
    let (events, state) ← s.toState.evict kind fuel slot
    return { s with
      toState := { state with wasTriggered := State.trigger events state.wasTriggered }
      evicted := slot :: s.evicted }

variable {kind : NumKind}

theorem State.ahead_iff {s : State} :
    s.ahead slot = true ↔ ∀ last, s.lastEvictedSlot = some last → last < slot := by
  unfold ahead
  cases s.lastEvictedSlot <;> simp

theorem State.holds_startingSlot (s : State) : kind.Holds (s.startingSlot kind) := by
  unfold startingSlot
  split
  · have bounds := kind.lowest_bounds
    rw [holds_iff]
    omega
  · exact kind.holds_wrap _

/-- The loop of `evict` only ends if the slot is not the last one, or is evicted already. -/
theorem State.evict_ends_iff (s : State) (within : kind.Holds slot) :
    (∃ fuel evicted, s.evict kind fuel slot = some evicted) ↔
      slot ≠ kind.highest ∨ s.ahead slot = false := by
  unfold evict
  by_cases ahead : s.ahead slot = true
  · simp only [ahead, if_true, Bool.true_eq_false, or_false]
    rw [← CountingLoop.upTo_ends_iff s.holds_startingSlot within]
    constructor
    · rintro ⟨fuel, _, ended⟩
      obtain ⟨t, ended, -⟩ := Option.bind_eq_some_iff.mp ended
      exact ⟨fuel, t, ended⟩
    · rintro ⟨fuel, t, ended⟩
      exact ⟨fuel, _, Option.bind_eq_some_iff.mpr ⟨t, ended, rfl⟩⟩
  · simp only [Bool.eq_false_iff.mpr ahead, or_true, iff_true]
    exact ⟨0, _, rfl⟩

theorem State.getElem?_trigger (wasTriggered : List Bool) :
    (trigger events wasTriggered)[event]? =
      if event ∈ events then wasTriggered[event]?.map fun _ => true else wasTriggered[event]? := by
  induction events generalizing wasTriggered with
  | nil => simp [trigger]
  | cons first events ih =>
    change (trigger events (wasTriggered.set first true))[event]? = _
    rw [ih, getElem?_set]
    by_cases same : first = event
    · subst same
      by_cases mem : first < wasTriggered.length <;> simp [mem]
    · simp [same, Ne.symm same]

/-- Events are stored for slots that are ahead, each untriggered and for one slot only; an event
that was returned is stored, or triggered because its slot was evicted. -/
structure Inv (kind : NumKind) (s : Session) : Prop where
  covered : ∀ slot ∈ s.evicted, ∃ last, s.lastEvictedSlot = some last ∧ slot ≤ last
  attained : ∀ last, s.lastEvictedSlot = some last → last ∈ s.evicted ∧ kind.Holds last
  shared : s.wasTriggered[evictedSlotEvent]? = some true
  stored : ∀ {slot event}, s.evictionEvents.get slot = some event →
    0 ≤ slot ∧ s.ahead slot = true ∧ s.wasTriggered[event]? = some false
  apart : ∀ {slot other event}, s.evictionEvents.get slot = some event →
    s.evictionEvents.get other = some event → slot = other
  returned : ∀ {slot event}, (slot, event) ∈ s.returned →
    (∃ evicted ∈ s.evicted, slot ≤ evicted) ∧ s.wasTriggered[event]? = some true ∨
      s.evictionEvents.get slot = some event

theorem inv_new : Inv kind {} where
  covered := by simp
  attained := by simp
  shared := rfl
  stored := by simp
  apart := by simp
  returned := by simp

theorem Inv.evictionEvent (inv : Inv kind s) (first : 0 ≤ slot) :
    Inv kind { s with
      toState := (s.toState.evictionEvent slot).2
      returned := (slot, (s.toState.evictionEvent slot).1) :: s.returned } := by
  unfold State.evictionEvent
  split
  · rename_i ahead
    split
    · rename_i event found
      refine { inv with returned := fun mem => ?_ }
      rcases mem_cons.mp mem with same | pre
      · cases same
        exact .inr found
      · exact inv.returned pre
    · rename_i missing
      have old : ∀ {event : Nat} {triggered : Bool}, s.wasTriggered[event]? = some triggered →
          (s.wasTriggered ++ [false])[event]? = some triggered ∧ event ≠ s.wasTriggered.length := by
        intro event triggered found
        have inside := (List.getElem?_eq_some_iff.mp found).1
        exact ⟨by rw [getElem?_append_left inside, found], by omega⟩
      have get := s.evictionEvents.get_set slot
      refine ⟨inv.covered, inv.attained, (old inv.shared).1, ?_, ?_, ?_⟩
      · intro other event found
        rw [get] at found
        split at found
        · rename_i same
          cases found
          exact ⟨same ▸ first, same ▸ ahead, by simp⟩
        · have pre := inv.stored found
          exact ⟨pre.1, pre.2.1, (old pre.2.2).1⟩
      · intro a b event atA atB
        rw [get] at atA atB
        split at atA <;> split at atB
        · rename_i same also
          exact same.symm.trans also
        · cases atA
          exact absurd rfl (old (inv.stored atB).2.2).2
        · cases atB
          exact absurd rfl (old (inv.stored atA).2.2).2
        · exact inv.apart atA atB
      · intro other event mem
        rw [get]
        rcases mem_cons.mp mem with same | pre
        · cases same
          exact .inr (if_pos rfl)
        · rcases inv.returned pre with ⟨evicted, triggered⟩ | found
          · exact .inl ⟨evicted, (old triggered).1⟩
          · refine .inr ?_
            rw [if_neg, found]
            rintro rfl
            rw [missing] at found
            cases found
  · rename_i behind
    refine { inv with returned := fun mem => ?_ }
    rcases mem_cons.mp mem with same | pre
    · cases same
      rw [State.ahead_iff] at behind
      push Not at behind
      obtain ⟨last, evicted, passed⟩ := behind
      exact .inl ⟨⟨last, (inv.attained last evicted).1, passed⟩, inv.shared⟩
    · exact inv.returned pre

/-- The events of the slots before `j` are taken out. -/
structure Taken (events : ShrinkingMap Int Nat) (j : Int) (t : ShrinkingMap Int Nat × List Nat) :
    Prop where
  left : ∀ k, t.1.get k = if k < j then none else events.get k
  taken : ∀ event, event ∈ t.2 ↔ ∃ k < j, events.get k = some event

theorem Taken.round (pre : Taken events j t) : Taken events (j + 1) (State.evictSlot j t) := by
  obtain ⟨evictionEvents, eventsToTrigger⟩ := t
  have here : evictionEvents.get j = events.get j := by
    rw [pre.left, if_neg (lt_irrefl j)]
  have gone : ∀ k, (State.evictSlot j (evictionEvents, eventsToTrigger)).1.get k =
      if j = k then none else evictionEvents.get k := by
    intro k
    dsimp [State.evictSlot]
    split
    · exact evictionEvents.get_delete
    · rename_i missing
      split
      · rename_i same
        exact same ▸ missing
      · rfl
  have more : ∀ event, event ∈ (State.evictSlot j (evictionEvents, eventsToTrigger)).2 ↔
      event ∈ eventsToTrigger ∨ evictionEvents.get j = some event := by
    dsimp [State.evictSlot]
    split
    · rename_i found
      simp [found, eq_comm]
    · rename_i missing
      simp [missing]
  constructor
  · intro k
    rw [gone, pre.left]
    split_ifs <;> first | rfl | omega
  · intro event
    rw [more, pre.taken, here]
    constructor
    · rintro (⟨k, earlier, found⟩ | found)
      · exact ⟨k, by omega, found⟩
      · exact ⟨j, by omega, found⟩
    · rintro ⟨k, earlier, found⟩
      rcases eq_or_ne k j with rfl | other
      · exact .inr found
      · exact .inl ⟨k, by omega, found⟩

/-- The loop takes out the events of all slots up to the evicted one. -/
theorem Inv.evicted (inv : Inv kind s) (ahead : s.ahead slot = true) (first : 0 ≤ slot)
    (below : slot < kind.highest) (enough : kind.period.toNat ≤ fuel) :
    ∃ t, s.toState.evict kind fuel slot =
        some (t.2, { s.toState with lastEvictedSlot := some slot, evictionEvents := t.1 }) ∧
      Taken s.evictionEvents (slot + 1) t := by
  have held : kind.Holds (s.startingSlot kind) := s.holds_startingSlot
  -- the loop starts behind the last evicted slot, and no event is stored for the slots before
  obtain ⟨begins, all⟩ : s.startingSlot kind ≤ slot ∧
      ∀ k event, s.evictionEvents.get k = some event → s.startingSlot kind ≤ k := by
    unfold State.startingSlot
    cases evicted : s.lastEvictedSlot with
    | none => exact ⟨first, fun k event found => (inv.stored found).1⟩
    | some last =>
      have passed := State.ahead_iff.mp ahead last evicted
      have held := (inv.attained last evicted).2
      have next : kind.Holds (last + 1) := by
        rw [holds_iff_highest] at held ⊢
        omega
      simp only [wrap_of_holds next]
      refine ⟨passed, fun k event found => ?_⟩
      exact State.ahead_iff.mp (inv.stored found).2.1 last evicted
  have start : Taken s.evictionEvents (s.startingSlot kind) (s.evictionEvents, []) := by
    have free : ∀ k < s.startingSlot kind, s.evictionEvents.get k = none := by
      intro k earlier
      by_contra found
      obtain ⟨event, found⟩ := Option.ne_none_iff_exists'.mp found
      exact not_le.mpr earlier (all k event found)
    constructor
    · intro k
      split
      · rename_i earlier
        exact free k earlier
      · rfl
    · intro event
      refine iff_of_false not_mem_nil ?_
      rintro ⟨k, earlier, found⟩
      rw [free k earlier] at found
      cases found
  have counted : (slot + 1 - s.startingSlot kind).toNat < fuel := by
    rw [holds_iff_highest] at held
    rw [highest] at below
    omega
  obtain ⟨t, ran, taken⟩ :=
    CountingLoop.upTo_invariant start (fun j t _ _ pre => pre.round) held below counted
  rw [max_eq_right (by omega)] at taken
  refine ⟨t, ?_, taken⟩
  rw [State.evict, if_pos ahead, ran]
  rfl

theorem Inv.evict (inv : Inv kind s) (first : 0 ≤ slot) (below : slot < kind.highest)
    (enough : kind.period.toNat ≤ fuel) :
    ∃ next, step kind fuel s (.evict slot) = some next ∧ Inv kind next := by
  by_cases ahead : s.ahead slot = true
  · obtain ⟨t, ran, taken⟩ := inv.evicted ahead first below enough
    have kept : ∀ {event : Nat}, s.wasTriggered[event]? = some true →
        (State.trigger t.2 s.wasTriggered)[event]? = some true := by
      intro event triggered
      rw [State.getElem?_trigger, triggered]
      split <;> rfl
    refine ⟨_, by rw [step, ran]; rfl, ?_, ?_, kept inv.shared, ?_, ?_, ?_⟩
    · intro other mem
      refine ⟨slot, rfl, ?_⟩
      rcases mem_cons.mp mem with same | pre
      · exact same.le
      · obtain ⟨last, evicted, passed⟩ := inv.covered other pre
        exact passed.trans (State.ahead_iff.mp ahead last evicted).le
    · rintro _ ⟨⟩
      refine ⟨mem_cons_self, ?_⟩
      rw [holds_iff_highest]
      have bounds := kind.lowest_bounds
      omega
    · intro k event found
      rw [taken.left] at found
      split at found
      · cases found
      · have pre := inv.stored found
        refine ⟨pre.1, ?_, ?_⟩
        · rw [State.ahead_iff]
          rintro _ ⟨⟩
          omega
        · rw [State.getElem?_trigger, if_neg, pre.2.2]
          intro mem
          obtain ⟨other, earlier, also⟩ := (taken.taken event).mp mem
          have same := inv.apart found also
          omega
    · intro a b event atA atB
      rw [taken.left] at atA atB
      split at atA
      · cases atA
      · split at atB
        · cases atB
        · exact inv.apart atA atB
    · intro k event mem
      rcases inv.returned mem with ⟨⟨other, evicted, passed⟩, triggered⟩ | found
      · exact .inl ⟨⟨other, mem_cons_of_mem _ evicted, passed⟩, kept triggered⟩
      · by_cases earlier : k < slot + 1
        · refine .inl ⟨⟨slot, mem_cons_self, by omega⟩, ?_⟩
          rw [State.getElem?_trigger, if_pos ((taken.taken event).mpr ⟨k, earlier, found⟩),
            (inv.stored found).2.2]
          rfl
        · refine .inr ?_
          rw [taken.left, if_neg earlier, found]
  · refine ⟨{ s with evicted := slot :: s.evicted }, ?_,
      { inv with covered := ?_, attained := ?_, returned := ?_ }⟩
    · rw [step, State.evict, if_neg ahead]
      rfl
    · intro other mem
      rcases mem_cons.mp mem with rfl | pre
      · rw [State.ahead_iff] at ahead
        push Not at ahead
        exact ahead
      · exact inv.covered other pre
    · intro last evicted
      have attained := inv.attained last evicted
      exact ⟨mem_cons_of_mem _ attained.1, attained.2⟩
    · intro k event mem
      rcases inv.returned mem with ⟨⟨other, evicted, passed⟩, triggered⟩ | found
      · exact .inl ⟨⟨other, mem_cons_of_mem _ evicted, passed⟩, triggered⟩
      · exact .inr found

theorem inv_step (enough : kind.period.toNat ≤ fuel) (s : Session) (operation : Operation)
    (inv : Inv kind s) (fits : 0 ≤ operation.slot ∧ operation.slot < kind.highest) :
    ∃ next, step kind fuel s operation = some next ∧ Inv kind next := by
  cases operation with
  | evictionEvent => exact ⟨_, rfl, inv.evictionEvent fits.1⟩
  | evict => exact inv.evict fits.1 fits.2 enough

/-- Events are triggered with the eviction of their slot or a later one, and forgotten then. -/
theorem events_triggered_iff_evicted (enough : kind.period.toNat ≤ fuel) {operations : List Operation}
    (admitted : ∀ operation ∈ operations, 0 ≤ operation.slot ∧ operation.slot < kind.highest) :
    ∃ s, run (step kind fuel) {} operations = some s ∧
      (∀ slot event, (slot, event) ∈ s.returned →
        (s.wasTriggered[event]? = some true ↔ ∃ evicted ∈ s.evicted, slot ≤ evicted)) ∧
      (∀ slot event other, (∀ evicted ∈ s.evicted, evicted < slot) → (slot, event) ∈ s.returned →
        (slot, other) ∈ s.returned → event = other) ∧
      (s.evicted = [] ∧ s.lastEvicted = 0 ∨
        s.lastEvicted ∈ s.evicted ∧ ∀ evicted ∈ s.evicted, evicted ≤ s.lastEvicted) ∧
      ∀ slot event, s.evictionEvents.get slot = some event → ∀ evicted ∈ s.evicted, evicted < slot := by
  obtain ⟨s, ran, inv⟩ := run_total (inv_step enough) inv_new admitted
  have later : ∀ slot event, s.evictionEvents.get slot = some event →
      ∀ evicted ∈ s.evicted, evicted < slot := by
    intro slot event found evicted mem
    obtain ⟨last, attained, passed⟩ := inv.covered evicted mem
    exact passed.trans_lt (State.ahead_iff.mp (inv.stored found).2.1 last attained)
  refine ⟨s, ran, ?_, ?_, ?_, later⟩
  · intro slot event mem
    rcases inv.returned mem with ⟨evicted, triggered⟩ | found
    · exact iff_of_true triggered evicted
    · refine iff_of_false ?_ ?_
      · rw [(inv.stored found).2.2]
        decide
      · rintro ⟨evicted, was, passed⟩
        exact not_lt.mpr passed (later slot event found evicted was)
  · intro slot event other ahead atEvent atOther
    have stored : ∀ event, (slot, event) ∈ s.returned → s.evictionEvents.get slot = some event := by
      intro event mem
      rcases inv.returned mem with ⟨⟨evicted, was, passed⟩, -⟩ | found
      · exact absurd (ahead evicted was) (not_lt.mpr passed)
      · exact found
    exact Option.some.inj ((stored event atEvent).symm.trans (stored other atOther))
  · unfold State.lastEvicted
    cases evicted : s.lastEvictedSlot with
    | none =>
      refine .inl ⟨eq_nil_iff_forall_not_mem.mpr fun slot mem => ?_, rfl⟩
      obtain ⟨last, attained, -⟩ := inv.covered slot mem
      cases evicted.symm.trans attained
    | some last =>
      refine .inr ⟨(inv.attained last evicted).1, fun slot mem => ?_⟩
      obtain ⟨last, attained, passed⟩ := inv.covered slot mem
      cases evicted.symm.trans attained
      exact passed

theorem events_triggered_iff_evicted_of_two :
    ∃ s, run (step .int8 256) {} [.evictionEvent 3, .evict 2, .evict 5, .evictionEvent 4] = some s ∧
      (s.wasTriggered[1]? = some true ↔ ∃ evicted ∈ s.evicted, (3 : Int) ≤ evicted) := by
  have fits : ∀ operation ∈ [.evictionEvent 3, .evict 2, .evict 5, .evictionEvent 4],
      0 ≤ Operation.slot operation ∧ Operation.slot operation < highest .int8 := by decide
  have enough : (period .int8).toNat ≤ 256 := by decide
  obtain ⟨s, ran, triggered, -⟩ := events_triggered_iff_evicted enough fits
  refine ⟨s, ran, triggered 3 1 ?_⟩
  cases ran
  decide

end HiveGo.EvictionState
