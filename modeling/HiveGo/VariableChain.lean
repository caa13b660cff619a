import HiveGo.VariableNotification

/-! What a subscriber of a variable receives is a chain of the changes of its value. -/
namespace HiveGo.VariableNotification
open ChangeChain Function

/-- What the write in progress has to do with a subscriber. -/
inductive Role where
  | none
  | waiting
  | locked
  | invoked
  deriving DecidableEq

variable {ω κ : Type}
variable {w : Writer ω κ}

/-- The value that a subscriber knows, once its initial call is made. -/
def Subscriber.known [Inhabited ω] (c : Subscriber ω) : ω :=
  match c.registration with
  | .calling currentValue => currentValue
  | _ => finish default c.received

/-- What holds of one subscriber. If it is waiting for the write in progress, it knows the value
before it, otherwise, if it is listed, the current value. -/
structure Good [Inhabited ω] (value previousValue : ω) (updateID : BitVec 64) (role : Role)
    (listed : Prop) (c : Subscriber ω) : Prop where
  linked : Linked default c.received
  strict : Strict (c.triggerWithInitialZeroValue = true) c.received
  silent : ∀ currentValue, c.registration = .calling currentValue → c.received = []
  registering : c.registration ≠ .unregistered → c.registration ≠ .returned →
    c.executionMutex = true
  unsubscribed : c.unsubscribed = true → c.removed = true
  leaving : c.removed = true → c.registration = .returned
  subscribed : listed → c.registration ≠ .unregistered ∧ c.removed = false
  present : c.registration ≠ .unregistered → c.removed = false → listed
  involved : role ≠ .none → c.registration ≠ .unregistered
  executing : role = .locked ∨ role = .invoked →
    c.executionMutex = true ∧ c.registration = .returned
  active : role = .locked → c.unsubscribed = false
  behind : role = .waiting ∨ role = .locked → c.known = previousValue
  current : role ≠ .waiting → role ≠ .locked → listed → c.known = value
  next : role = .waiting → c.lastUpdate + 1 = updateID
  last : role ≠ .waiting → listed → c.lastUpdate = updateID

section transitions

variable [Inhabited ω] {value previousValue : ω} {listed : Prop} {c : Subscriber ω}

omit [Inhabited ω] in
/-- A subscriber that has seen the update before this one is only refused when it is
unsubscribed, also when the counter wraps around. -/
theorem lockExecution_of_next (next : c.lastUpdate + 1 = updateID) :
    c.lockExecution updateID =
      if c.unsubscribed then none else some { c with lastUpdate := updateID, executionMutex := true } := by
  have other : (updateID == c.lastUpdate) = false := beq_false_of_ne (by bv_omega)
  simp [Subscriber.lockExecution, other]

/-- The value changes: the listed subscribers wait for the write. -/
theorem Good.written (good : Good value previousValue updateID .none listed c) (newValue : ω) :
    (listed → Good newValue value (updateID + 1) .waiting listed c) ∧
      (¬ listed → Good newValue value (updateID + 1) .none listed c) := by
  constructor
  · intro mem
    exact { good with
      involved := fun _ => (good.subscribed mem).1, executing := nofun, active := nofun
      behind := fun _ => good.current nofun nofun mem
      current := fun waits => absurd rfl waits
      next := fun _ => congrArg (· + 1) (good.last nofun mem)
      last := fun waits => absurd rfl waits }
  · intro absent
    exact { good with
      behind := nofun, current := fun _ _ mem => absurd mem absent
      next := nofun, last := fun _ mem => absurd mem absent }

/-- The callback is locked for the update. -/
theorem Good.locked (good : Good value previousValue updateID .waiting listed c)
    (free : c.executionMutex = false) (subscriber : c.unsubscribed = false) :
    Good value previousValue updateID .locked listed
      { c with lastUpdate := updateID, executionMutex := true } := by
  have done : c.registration = .returned := by
    by_contra other
    cases free.symm.trans (good.registering (good.involved nofun) other)
  exact { good with
    registering := fun _ _ => rfl, involved := fun _ => good.involved nofun
    executing := fun _ => ⟨rfl, done⟩, active := fun _ => subscriber
    behind := fun _ => good.behind (.inl rfl), current := fun _ other => absurd rfl other
    next := nofun, last := fun _ _ => rfl }

/-- The callback is refused: it is unsubscribed. -/
theorem Good.refused (good : Good value previousValue updateID .waiting listed c)
    (left : c.unsubscribed = true) : Good value previousValue updateID .none listed c := by
  have unlisted : ¬ listed := by
    intro mem
    cases (good.unsubscribed left).symm.trans (good.subscribed mem).2
  exact { good with
    involved := fun _ => good.involved nofun, executing := nofun, active := nofun, behind := nofun
    current := fun _ _ mem => absurd mem unlisted
    next := nofun, last := fun _ mem => absurd mem unlisted }

/-- The callback is called with the change. -/
theorem Good.invoked (good : Good value previousValue updateID .locked listed c)
    (differs : previousValue ≠ value) :
    Good value previousValue updateID .invoked listed
      { c with received := c.received ++ [(previousValue, value)] } := by
  obtain ⟨held, done⟩ := good.executing (.inl rfl)
  have known : finish default c.received = previousValue := by
    have pre := good.behind (.inr rfl)
    rw [Subscriber.known, done] at pre
    exact pre
  refine { good with
    linked := known ▸ linked_concat good.linked
    strict := strict_concat good.strict differs, silent := fun currentValue calls => ?_
    involved := fun _ => good.involved nofun, executing := fun _ => ⟨held, done⟩
    active := nofun, behind := nofun, current := fun _ _ _ => ?_
    next := nofun, last := fun _ => good.last nofun }
  · cases done.symm.trans calls
  · simp only [Subscriber.known, done]
    exact finish_concat ..

/-- The callback is unlocked. -/
theorem Good.unlocked (good : Good value previousValue updateID .invoked listed c) :
    Good value previousValue updateID .none listed { c with executionMutex := false } := by
  have done := (good.executing (.inr rfl)).2
  exact { good with
    registering := fun _ other => absurd done other, involved := fun _ => good.involved nofun
    executing := nofun, active := nofun, behind := nofun
    current := fun _ _ => good.current nofun nofun, next := nofun, last := fun _ => good.last nofun }

/-- A new callback, locked for the last update. -/
theorem Good.created (init : Bool) :
    Good value previousValue updateID .none True
      (((({ registration := .calling value, triggerWithInitialZeroValue := init } :
        Subscriber ω)).lockExecution updateID).getD
          { registration := .calling value, triggerWithInitialZeroValue := init }) := by
  have locked : (({ registration := .calling value, triggerWithInitialZeroValue := init } :
      Subscriber ω)).lockExecution updateID =
      some { registration := .calling value, triggerWithInitialZeroValue := init,
             lastUpdate := updateID, executionMutex := true } := by
    by_cases zero : updateID = 0 <;> simp [Subscriber.lockExecution, zero]
  rw [locked]
  exact ⟨trivial, ⟨nofun, nofun⟩, fun _ _ => rfl, fun _ _ => rfl, nofun, nofun,
    fun _ => ⟨nofun, rfl⟩, fun _ _ => trivial, fun other => absurd rfl other, nofun, nofun, nofun,
        fun _ _ _ => rfl, nofun, fun _ _ => rfl⟩

variable (good : Good value previousValue updateID role listed c)
include good

/-- The role of a callback in the middle of its registration. -/
theorem Good.registering_role (busy : c.registration ≠ .returned) :
    role ≠ .locked ∧ role ≠ .invoked :=
  ⟨fun same => busy (good.executing (.inl same)).2, fun same => busy (good.executing (.inr same)).2⟩

/-- The initial call, if there is one. -/
theorem Good.called (calling : c.registration = .calling currentValue)
    (calls : received = [(default, currentValue)] ∧
      (currentValue ≠ default ∨ c.triggerWithInitialZeroValue = true) ∨
        received = [] ∧ currentValue = default) :
    Good value previousValue updateID role listed { c with registration := .returning, received } := by
  have idle := good.registering_role (by rw [calling]; nofun)
  have registered : c.registration ≠ .unregistered := by rw [calling]; nofun
  have mutex := good.registering registered (by rw [calling]; nofun)
  have known : ({ c with registration := .returning, received } : Subscriber ω).known = c.known := by
    simp only [Subscriber.known, calling]
    rcases calls with ⟨rfl, -⟩ | ⟨rfl, rfl⟩ <;> rfl
  refine { good with
    linked := ?_, strict := ?_, silent := nofun, registering := fun _ _ => mutex
    leaving := fun left => ?_, subscribed := fun mem => ⟨nofun, (good.subscribed mem).2⟩
    present := fun _ => good.present registered, involved := fun _ => nofun
    executing := fun executes => ?_, behind := fun behinds => known.trans (good.behind behinds)
    current := fun notWaiting notLocked mem =>
      known.trans (good.current notWaiting notLocked mem) }
  · rcases calls with ⟨rfl, -⟩ | ⟨rfl, -⟩
    · exact ⟨rfl, trivial⟩
    · trivial
  · rcases calls with ⟨rfl, why⟩ | ⟨rfl, -⟩
    · refine ⟨?_, nofun⟩
      rintro _ ⟨⟩ same
      exact why.resolve_left fun other => other same.symm
    · exact ⟨nofun, nofun⟩
  · cases calling.symm.trans (good.leaving left)
  · exact executes.elim (fun same => absurd same idle.1) (fun same => absurd same idle.2)

/-- `OnUpdate` returns. -/
theorem Good.registered (returning : c.registration = .returning) :
    Good value previousValue updateID role listed
      { c with registration := .returned, executionMutex := false } := by
  have idle := good.registering_role (by rw [returning]; nofun)
  have known : ({ c with registration := .returned, executionMutex := false } : Subscriber ω).known =
      c.known := by
    simp [Subscriber.known, returning]
  refine { good with
    silent := nofun, registering := fun _ other => absurd rfl other, leaving := fun _ => rfl
    subscribed := fun mem => ⟨nofun, (good.subscribed mem).2⟩
    present := fun _ => good.present (by rw [returning]; nofun), involved := fun _ => nofun
    executing := fun executes => ?_, behind := fun behinds => known.trans (good.behind behinds)
    current := fun notWaiting notLocked mem =>
      known.trans (good.current notWaiting notLocked mem) }
  exact executes.elim (fun same => absurd same idle.1) (fun same => absurd same idle.2)

/-- The callback is taken out of the list. -/
theorem Good.removed (done : c.registration = .returned) :
    Good value previousValue updateID role False { c with removed := true } :=
  { good with
    unsubscribed := fun _ => rfl, leaving := fun _ => done, subscribed := nofun
    present := nofun, current := fun _ _ => nofun, last := fun _ => nofun }

/-- The callback is marked. -/
theorem Good.marked (removed : c.removed = true) (free : c.executionMutex = false) :
    Good value previousValue updateID role listed { c with unsubscribed := true } := by
  refine { good with unsubscribed := fun _ => removed, active := fun locked => ?_ }
  cases free.symm.trans (good.executing (.inl locked)).1

end transitions

variable [DecidableEq κ]

def Writer.role (w : Writer ω κ) (k : κ) : Role :=
  if k ∈ w.remaining then .waiting
  else
    match w.stage with
    | .looping => .none
    | .locked j => if k = j then .locked else .none
    | .invoked j => if k = j then .invoked else .none

def State.role (s : State ω κ) (k : κ) : Role :=
  match s.writer with
  | none => .none
  | some w => w.role k

/-- The value before the write in progress. -/
def State.previousValue (s : State ω κ) : ω :=
  match s.writer with
  | none => s.value
  | some w => w.previousValue

/-- The write in progress announces the last change to callbacks it has not been at yet. -/
structure Writer.Valid (w : Writer ω κ) (value : ω) (updateID : BitVec 64) : Prop where
  newValue : w.newValue = value
  differs : w.previousValue ≠ value
  updateID : w.updateID = updateID
  nodup : w.remaining.Nodup
  fresh : ∀ k, w.stage = .locked k ∨ w.stage = .invoked k → k ∉ w.remaining

structure Inv [Inhabited ω] (s : State ω κ) : Prop where
  good : ∀ k, Good s.value s.previousValue s.uniqueUpdateID (s.role k)
    (k ∈ s.registeredCallbacks) (s.subscribers k)
  nodup : s.registeredCallbacks.Nodup
  writer : ∀ w, s.writer = some w → w.Valid s.value s.uniqueUpdateID

/-- Taking a callback off the list changes no other role. -/
theorem role_rest (listed : w.remaining = k :: remaining) (looping : w.stage = .looping)
    (goes : stage = .looping ∨ stage = .locked k) (j : κ) (other : j ≠ k) :
    ({ w with remaining, stage } : Writer ω κ).role j = w.role j := by
  have mem : j ∈ k :: remaining ↔ j ∈ remaining := by simp [other]
  simp only [Writer.role, listed, mem, looping]
  rcases goes with rfl | rfl <;> simp [other]

variable [Inhabited ω] {s : State ω κ}

/-- One callback and its role change, and nothing else does. -/
theorem good_update {s t : State ω κ} (inv : Inv s)
    (subscribers : t.subscribers = update s.subscribers k c) (value : t.value = s.value)
    (previousValue : t.previousValue = s.previousValue)
    (updateID : t.uniqueUpdateID = s.uniqueUpdateID)
    (others : ∀ j, j ≠ k → t.role j = s.role j ∧ (j ∈ t.registeredCallbacks ↔ j ∈ s.registeredCallbacks))
    (here : Good s.value s.previousValue s.uniqueUpdateID (t.role k) (k ∈ t.registeredCallbacks) c) :
    ∀ j, Good t.value t.previousValue t.uniqueUpdateID (t.role j) (j ∈ t.registeredCallbacks)
      (t.subscribers j) := by
  intro j
  rw [subscribers, value, previousValue, updateID]
  by_cases same : j = k
  · subst same
    rw [update_self]
    exact here
  · obtain ⟨role, listed⟩ := others j same
    rw [update_of_ne same, role, propext listed]
    exact inv.good j

theorem inv_write [DecidableEq ω] (inv : Inv s) (transformationFunc : ω → ω → ω)
    (computeFunc : ω → ω) (idle : s.writer = none) :
    Inv (updateValue transformationFunc s computeFunc) := by
  unfold updateValue
  dsimp only
  split
  · exact inv
  · next differs =>
    refine ⟨fun k => ?_, inv.nodup, ?_⟩
    · have good := inv.good k
      have role : s.role k = .none := by rw [State.role, idle]
      rw [role] at good
      obtain ⟨waits, rests⟩ := good.written (transformationFunc s.value (computeFunc s.value))
      simp only [State.role, Writer.role, State.previousValue]
      split
      · exact waits ‹_›
      · exact rests ‹_›
    · rintro w ⟨⟩
      exact ⟨rfl, Ne.symm differs, rfl, inv.nodup, fun k stage =>
        by rcases stage with stage | stage <;> cases stage⟩

section

variable (inv : Inv s) (writing : s.writer = some w)
include inv writing

/-- The writer moves on to the next callback, or takes the one it is at a step further. -/
theorem inv_writer (previousValue : after.previousValue = w.previousValue)
    (valid : after.Valid s.value s.uniqueUpdateID) (others : ∀ j, j ≠ k → after.role j = w.role j)
    (here : Good s.value s.previousValue s.uniqueUpdateID (after.role k) (k ∈ s.registeredCallbacks) c) :
    Inv { s.update k c with writer := some after } := by
  refine ⟨good_update inv rfl rfl ?_ rfl (fun j other => ⟨?_, Iff.rfl⟩) here, inv.nodup, ?_⟩
  · simp [State.previousValue, writing, previousValue]
  · simp only [State.role, writing]
    exact others j other
  · rintro _ ⟨⟩
    exact valid

/-- The loop takes the next callback, which is locked unless it is unsubscribed. -/
theorem inv_next (looping : w.stage = .looping)
    (listed : w.remaining = k :: remaining) (free : (s.subscribers k).executionMutex = false) :
    Inv (if (s.subscribers k).unsubscribed then { s with writer := some { w with remaining } }
      else { s.update k { s.subscribers k with lastUpdate := w.updateID, executionMutex := true } with
        writer := some { w with remaining, stage := .locked k } }) := by
  obtain ⟨newValue, differs, updateID, nodup, fresh⟩ := inv.writer w writing
  have good := inv.good k
  have waiting : s.role k = .waiting := by simp [State.role, writing, Writer.role, listed]
  rw [waiting] at good
  rw [listed] at nodup
  obtain ⟨absent, rest⟩ := List.nodup_cons.mp nodup
  split
  · next left =>
    have same : s.update k (s.subscribers k) = s := by
      rw [State.update, update_eq_self]
    have moved : Inv { s.update k (s.subscribers k) with writer := some { w with remaining } } := by
      refine inv_writer inv writing rfl ⟨newValue, differs, updateID, rest, ?_⟩ ?_ ?_
      · intro j stage
        rw [looping] at stage
        rcases stage with stage | stage <;> cases stage
      · intro j other
        rw [← role_rest listed looping (.inl rfl) j other, ← looping]
      · have idle : ({ w with remaining } : Writer ω κ).role k = .none := by
          simp [Writer.role, absent, looping]
        rw [idle]
        exact good.refused left
    rw [same] at moved
    exact moved
  · next active =>
    refine inv_writer inv writing rfl ⟨newValue, differs, updateID, rest, ?_⟩
      (role_rest listed looping (.inr rfl)) ?_
    · intro j stage
      rcases stage with stage | stage <;> cases stage
      exact absent
    · have locked : ({ w with remaining, stage := .locked k } : Writer ω κ).role k = .locked := by
        simp [Writer.role, absent]
      rw [locked, updateID]
      exact good.locked free (Bool.eq_false_iff.mpr active)

/-- The locked callback is called. -/
theorem inv_invoked (stage : w.stage = .locked k) :
    Inv { s.update k { s.subscribers k with
        received := (s.subscribers k).received ++ [(w.previousValue, w.newValue)] } with
      writer := some { w with stage := .invoked k } } := by
  obtain ⟨newValue, differs, updateID, nodup, fresh⟩ := inv.writer w writing
  have absent := fresh k (.inl stage)
  refine inv_writer inv writing rfl ⟨newValue, differs, updateID, nodup, ?_⟩ ?_ ?_
  · intro j there
    rcases there with there | there <;> cases there
    exact absent
  · intro j other
    simp [Writer.role, stage, other]
  · have good := inv.good k
    have locked : s.role k = .locked := by simp [State.role, writing, Writer.role, stage, absent]
    have previous : s.previousValue = w.previousValue := by rw [State.previousValue, writing]
    have invoked : ({ w with stage := .invoked k } : Writer ω κ).role k = .invoked := by
      simp [Writer.role, absent]
    rw [locked, previous] at good
    rw [invoked, previous, newValue]
    exact good.invoked differs

/-- The callback is released. -/
theorem inv_unlocked (stage : w.stage = .invoked k) :
    Inv { s.update k { s.subscribers k with executionMutex := false } with
      writer := some { w with stage := .looping } } := by
  obtain ⟨newValue, differs, updateID, nodup, fresh⟩ := inv.writer w writing
  have absent := fresh k (.inr stage)
  refine inv_writer inv writing rfl ⟨newValue, differs, updateID, nodup, ?_⟩ ?_ ?_
  · intro j there
    rcases there with there | there <;> cases there
  · intro j other
    simp [Writer.role, stage, other]
  · have good := inv.good k
    have invoked : s.role k = .invoked := by simp [State.role, writing, Writer.role, stage, absent]
    have idle : ({ w with stage := .looping } : Writer ω κ).role k = .none := by
      simp [Writer.role, absent]
    rw [invoked] at good
    rw [idle]
    exact good.unlocked

theorem inv_notify (notified : notify s w = some next) : Inv next := by
  unfold notify at notified
  split at notified
  · next stage rest =>
    cases notified
    refine ⟨fun k => ?_, inv.nodup, nofun⟩
    have good := inv.good k
    have idle : s.role k = .none := by simp [State.role, writing, Writer.role, stage, rest]
    rw [idle] at good
    exact { good with behind := nofun }
  · next k rest stage listed =>
    split at notified
    · cases notified
    · next free =>
      have moved := inv_next inv writing stage listed (Bool.eq_false_iff.mpr free)
      have waiting : s.role k = .waiting := by simp [State.role, writing, Writer.role, listed]
      rw [(inv.writer w writing).updateID] at moved notified
      rw [lockExecution_of_next ((inv.good k).next waiting)] at notified
      cases left : (s.subscribers k).unsubscribed with
      | true =>
        simp only [left, if_true] at moved notified
        cases notified
        exact moved
      | false =>
        simp only [left, Bool.false_eq_true, if_false] at moved notified
        cases notified
        exact moved
  · cases notified
    exact inv_invoked inv writing ‹_›
  · cases notified
    exact inv_unlocked inv writing ‹_›

end

theorem inv_register (inv : Inv s) (unregistered : (s.subscribers k).registration = .unregistered)
    (init : Bool) : Inv (register s k init) := by
  have good := inv.good k
  have absent : k ∉ s.registeredCallbacks := fun mem => (good.subscribed mem).1 unregistered
  have idle : s.role k = .none := by
    by_contra part
    exact good.involved part unregistered
  refine ⟨good_update inv rfl rfl rfl rfl (fun j other => ⟨rfl, ?_⟩) ?_, ?_, inv.writer⟩
  · simp [register, other]
  · have listed : (k ∈ (register s k init).registeredCallbacks) = True := by simp [register]
    have role : (register s k init).role k = .none := idle
    rw [role, listed]
    exact Good.created ..
  · exact List.nodup_append.mpr ⟨inv.nodup, by simp, by
      intro j mem other here
      cases List.mem_singleton.mp here
      rintro rfl
      exact absent mem⟩

/-- A callback changes by itself: its part in the write and its place in the list stay. -/
theorem inv_update (inv : Inv s)
    (here : Good s.value s.previousValue s.uniqueUpdateID (s.role k) (k ∈ s.registeredCallbacks) c) :
    Inv (s.update k c) :=
  ⟨good_update inv rfl rfl rfl rfl (fun _ _ => ⟨rfl, Iff.rfl⟩) here, inv.nodup, inv.writer⟩

theorem inv_remove (inv : Inv s) (done : (s.subscribers k).registration = .returned) :
    Inv { s.update k { s.subscribers k with removed := true } with
      registeredCallbacks := s.registeredCallbacks.erase k } := by
  refine ⟨good_update inv rfl rfl rfl rfl (fun j other => ⟨rfl, ?_⟩) ?_, inv.nodup.erase k, inv.writer⟩
  · exact List.mem_erase_of_ne other
  · have gone : (k ∈ s.registeredCallbacks.erase k) = False := by simp [inv.nodup.mem_erase_iff]
    rw [gone]
    exact (inv.good k).removed done

theorem inv_step [DecidableEq ω] (transformationFunc : ω → ω → ω) (s : State ω κ) (e : Event ω κ)
    (next : State ω κ) (inv : Inv s) (ran : step transformationFunc s e = some next) :
    Inv next := by
  cases e with
  | write computeFunc =>
    simp only [step] at ran
    split at ran
    · cases ran
    · cases ran
      exact inv_write inv transformationFunc computeFunc ‹_›
  | notify =>
    obtain ⟨w, writing, notified⟩ := Option.bind_eq_some_iff.mp ran
    exact inv_notify inv writing notified
  | register k init =>
    simp only [step] at ran
    split at ran
    · cases ran
      exact inv_register inv ‹_› init
    · cases ran
  | registration k =>
    simp only [step] at ran
    split at ran
    · next currentValue calling =>
      have silent := (inv.good k).silent currentValue calling
      split at ran
      · next why =>
        cases ran
        exact inv_update inv ((inv.good k).called calling (.inl ⟨by rw [silent]; rfl, why⟩))
      · next quiet =>
        cases ran
        refine inv_update inv ((inv.good k).called calling (.inr ⟨silent, ?_⟩))
        by_contra nonzero
        exact quiet (.inl nonzero)
    · cases ran
      exact inv_update inv ((inv.good k).registered ‹_›)
    · cases ran
  | remove k =>
    simp only [step] at ran
    split at ran
    · cases ran
      exact inv_remove inv ‹_›
    · cases ran
  | markUnsubscribed k =>
    simp only [step] at ran
    split at ran
    · next ready =>
      cases ran
      exact inv_update inv ((inv.good k).marked ready.1 ready.2)
    · cases ran

theorem inv_start : Inv ({ value } : State ω κ) :=
  ⟨fun _ => ⟨trivial, ⟨nofun, nofun⟩, nofun, fun other => absurd rfl other, nofun, nofun, nofun,
    fun other => absurd rfl other, fun other => absurd rfl other, nofun, nofun, nofun,
    fun _ _ => nofun, nofun, fun _ => nofun⟩, List.nodup_nil, nofun⟩

/-- A subscriber whose unsubscribe function has returned is not called any more. -/
theorem received_step [DecidableEq ω] (next : State ω κ) (inv : Inv s)
    (left : (s.subscribers k).unsubscribed = true)
    (ran : step transformationFunc s e = some next) : (next.subscribers k).unsubscribed = true ∧
      (next.subscribers k).received = (s.subscribers k).received := by
  have done := (inv.good k).leaving ((inv.good k).unsubscribed left)
  -- it is enough to look at a step of the subscriber itself
  have kept : ∀ j c, (j = k → c.unsubscribed = true ∧ c.received = (s.subscribers k).received) →
      (update s.subscribers j c k).unsubscribed = true ∧
        (update s.subscribers j c k).received = (s.subscribers k).received := by
    intro j c own
    by_cases same : j = k
    · subst same
      rw [update_self]
      exact own rfl
    · rw [update_of_ne (Ne.symm same)]
      exact ⟨left, rfl⟩
  cases e with
  | write computeFunc =>
    simp only [step] at ran
    split at ran
    · cases ran
    · cases ran
      unfold updateValue
      dsimp only
      split <;> exact ⟨left, rfl⟩
  | notify =>
    obtain ⟨w, writing, notified⟩ := Option.bind_eq_some_iff.mp ran
    unfold notify at notified
    split at notified
    · cases notified
      exact ⟨left, rfl⟩
    · split at notified
      · cases notified
      · split at notified
        · cases notified
          exact ⟨left, rfl⟩
        · next c locked =>
          cases notified
          refine kept _ c fun same => ?_
          rw [same] at locked
          simp [Subscriber.lockExecution, left] at locked
    · next j stage =>
      cases notified
      refine kept j _ ?_
      rintro rfl
      have absent := (inv.writer w writing).fresh j (.inl stage)
      have locked : s.role j = .locked := by simp [State.role, writing, Writer.role, stage, absent]
      cases left.symm.trans ((inv.good j).active locked)
    · next j _ =>
      cases notified
      refine kept j _ ?_
      rintro rfl
      exact ⟨left, rfl⟩
  | register j init =>
    simp only [step] at ran
    split at ran
    · next unregistered =>
      cases ran
      refine kept j _ ?_
      rintro rfl
      cases unregistered.symm.trans done
    · cases ran
  | registration j =>
    simp only [step] at ran
    split at ran
    · next calling =>
      have other : j ≠ k := by
        rintro rfl
        cases calling.symm.trans done
      split at ran <;> cases ran <;> exact kept j _ fun same => absurd same other
    · next returning =>
      cases ran
      refine kept j _ ?_
      rintro rfl
      cases returning.symm.trans done
    · cases ran
  | remove j =>
    simp only [step] at ran
    split at ran
    · cases ran
      refine kept j _ ?_
      rintro rfl
      exact ⟨left, rfl⟩
    · cases ran
  | markUnsubscribed j =>
    simp only [step] at ran
    split at ran
    · cases ran
      refine kept j _ ?_
      rintro rfl
      exact ⟨rfl, rfl⟩
    · cases ran

/-- What a subscriber has received is a chain from the zero value on, in which only a requested
first call can repeat the value; without a write or a registration in progress it ends at the
value of the variable; and it stays as it is once the unsubscribe function has returned. -/
theorem received_chain [DecidableEq ω] {transformationFunc : ω → ω → ω} {value : ω}
    {events : List (Event ω κ)} {last : State ω κ}
    (ran : run (step transformationFunc) { value } events = some last) (k : κ) :
    Linked default (last.subscribers k).received ∧
      Strict ((last.subscribers k).triggerWithInitialZeroValue = true) (last.subscribers k).received ∧
      (last.writer = none → (last.subscribers k).registration = .returned →
        (last.subscribers k).removed = false →
        finish default (last.subscribers k).received = last.value) ∧
      ((last.subscribers k).unsubscribed = true → ∀ more later,
        run (step transformationFunc) last more = some later →
        (later.subscribers k).received = (last.subscribers k).received) := by
  have inv := run_invariant (inv_step transformationFunc) inv_start ran
  have good := inv.good k
  refine ⟨good.linked, good.strict, fun idle done joined => ?_, fun left more later went => ?_⟩
  · have role : last.role k = .none := by rw [State.role, idle]
    rw [role] at good
    have known := good.current nofun nofun (good.present (by rw [done]; nofun) joined)
    rw [Subscriber.known, done] at known
    exact known
  · have stays : ∀ s e next, (Inv s ∧ (s.subscribers k).unsubscribed = true ∧
        (s.subscribers k).received = (last.subscribers k).received) →
        step transformationFunc s e = some next →
        Inv next ∧ (next.subscribers k).unsubscribed = true ∧
          (next.subscribers k).received = (last.subscribers k).received := by
      rintro s e next ⟨holds, gone, same⟩ stepped
      obtain ⟨still, received⟩ := received_step next holds gone stepped
      exact ⟨inv_step transformationFunc s e next holds stepped, still, received.trans same⟩
    exact (run_invariant stays ⟨inv, left, rfl⟩ went).2.2

/-- The value changes between the registration of a callback and its initial call. -/
def overtaken : List (Event Nat Nat) :=
  [.write fun _ => 1, .notify, .register 0 false, .write fun _ => 2, .registration 0,
    .registration 0, .notify, .notify, .notify, .notify]

theorem overtaken_received :
    ∃ last, run (step fun _ new => new) { value := 0 } overtaken = some last ∧
      last.writer.isNone ∧ (last.subscribers 0).received = [(0, 1), (1, 2)] ∧
      Linked default (last.subscribers 0).received ∧
      finish default (last.subscribers 0).received = last.value := by
  obtain ⟨last, ran, idle, received, done, joined⟩ :
      ∃ last, run (step fun _ new => new) { value := 0 } overtaken = some last ∧
        last.writer = none ∧ (last.subscribers 0).received = [(0, 1), (1, 2)] ∧
        (last.subscribers 0).registration = .returned ∧ (last.subscribers 0).removed = false :=
    ⟨_, rfl, rfl, rfl, rfl, rfl⟩
  obtain ⟨linked, -, current, -⟩ := received_chain ran 0
  exact ⟨last, ran, by rw [idle]; rfl, received, linked, current idle done joined⟩

end HiveGo.VariableNotification
