import Mathlib.Data.List.Basic

/-! The callback bookkeeping shared by reactive sets and variables. A label stands for the
registered function; whoever triggers an update receives the labels to invoke, in registration
order. Update identifiers do not wrap around. -/
namespace HiveGo
open List

/-- A registered function with the last update that was delivered to it. -/
structure Callback (κ : Type) where
  invoke : κ
  unsubscribed : Bool
  lastUpdate : Nat

namespace Callback

variable {κ : Type}

def new (invoke : κ) : Callback κ := ⟨invoke, false, 0⟩

/-- `callback.LockExecution`: refused for an unsubscribed callback and for an
update that was already delivered. -/
def lockExecution (updateID : Nat) (c : Callback κ) : Option (Callback κ) :=
  if c.unsubscribed || (updateID != 0 && updateID == c.lastUpdate) then none
  else some { c with lastUpdate := updateID }

theorem lockExecution_of_newer {c : Callback κ} (active : c.unsubscribed = false)
    (newer : c.lastUpdate < updateID) : c.lockExecution updateID =
        some { c with lastUpdate := updateID } := by
  have differs : (updateID == c.lastUpdate) = false := beq_false_of_ne (by omega)
  simp [lockExecution, active, differs]

/-- The loop over the registered callbacks after an update: the callbacks with
their new bookkeeping and the labels that were invoked. -/
def trigger (updateID : Nat) : List (Callback κ) → List (Callback κ) × List κ
  | [] => ([], [])
  | c :: rest =>
    let (triggered, invoked) := trigger updateID rest
    match c.lockExecution updateID with
    | none => (c :: triggered, invoked)
    | some locked => (locked :: triggered, c.invoke :: invoked)

/-- A newer update reaches every active callback. -/
theorem trigger_of_newer {callbacks : List (Callback κ)}
    (ready : ∀ c ∈ callbacks, c.unsubscribed = false ∧ c.lastUpdate < updateID) :
    trigger updateID callbacks =
      (callbacks.map fun c => { c with lastUpdate := updateID }, callbacks.map invoke) := by
  induction callbacks with
  | nil => rfl
  | cons c rest ih =>
    obtain ⟨active, newer⟩ := ready c mem_cons_self
    have reached := ih (fun d mem => ready d (mem_cons_of_mem c mem))
    simp [trigger, reached, lockExecution_of_newer active newer]

end Callback

/-- The callbacks of one reactive value together with its update counter. No
registered callback is unsubscribed, and none has seen an update from the future. -/
structure Subscriptions (κ : Type) where
  uniqueUpdateID : Nat
  callbacks : List (Callback κ)
  ready : ∀ c ∈ callbacks, c.unsubscribed = false ∧ c.lastUpdate ≤ uniqueUpdateID

namespace Subscriptions

variable {κ : Type}

def new : Subscriptions κ := ⟨0, [], by simp⟩

/-- The labels of the registered callbacks, in registration order. -/
def labels (s : Subscriptions κ) : List κ := s.callbacks.map Callback.invoke

/-- An update that takes an identifier but triggers nothing. -/
def advance (s : Subscriptions κ) : Subscriptions κ where
  uniqueUpdateID := s.uniqueUpdateID + 1
  callbacks := s.callbacks
  ready c member := ⟨(s.ready c member).1, Nat.le_succ_of_le (s.ready c member).2⟩

theorem ready_for_next (s : Subscriptions κ) :
    ∀ c ∈ s.callbacks, c.unsubscribed = false ∧ c.lastUpdate < s.uniqueUpdateID + 1 :=
  fun c mem => ⟨(s.ready c mem).1, Nat.lt_succ_of_le (s.ready c mem).2⟩

/-- An update that takes an identifier and triggers the registered callbacks. -/
def fire (s : Subscriptions κ) : Subscriptions κ × List κ :=
  ({ uniqueUpdateID := s.uniqueUpdateID + 1
     callbacks := (Callback.trigger (s.uniqueUpdateID + 1) s.callbacks).1
     ready := by
      rw [Callback.trigger_of_newer s.ready_for_next]
      intro c member
      obtain ⟨d, registered, rfl⟩ := mem_map.mp member
      exact ⟨(s.ready d registered).1, Nat.le_refl _⟩ },
    (Callback.trigger (s.uniqueUpdateID + 1) s.callbacks).2)

/-- `PushBack` of a fresh callback that is locked for the current update. -/
def register (s : Subscriptions κ) (k : κ) : Subscriptions κ where
  uniqueUpdateID := s.uniqueUpdateID
  callbacks := s.callbacks ++ [((Callback.new k).lockExecution s.uniqueUpdateID).getD (Callback.new k)]
  ready := by
    intro c member
    rcases mem_append.mp member with registered | created
    · exact s.ready c registered
    · rw [mem_singleton] at created
      subst created
      unfold Callback.lockExecution
      split
      · exact ⟨rfl, Nat.zero_le _⟩
      · exact ⟨rfl, Nat.le_refl _⟩

/-- `Remove` of the callback's list element by the returned unsubscribe function. -/
def unregister [DecidableEq κ] (s : Subscriptions κ) (k : κ) : Subscriptions κ where
  uniqueUpdateID := s.uniqueUpdateID
  callbacks := s.callbacks.filter fun c => c.invoke ≠ k
  ready c member := s.ready c (mem_of_mem_filter member)

@[simp] theorem labels_new : (new : Subscriptions κ).labels = [] := rfl

section

variable (s : Subscriptions κ)
include s

@[simp] theorem labels_advance : s.advance.labels = s.labels := rfl

@[simp] theorem labels_fire : s.fire.1.labels = s.labels := by
  have triggered := Callback.trigger_of_newer s.ready_for_next
  simp only [labels, fire, triggered, map_map]
  rfl

/-- Firing invokes every registered callback exactly once. -/
@[simp] theorem invoked_fire : s.fire.2 = s.labels := by
  simp [labels, fire, Callback.trigger_of_newer s.ready_for_next]

@[simp] theorem labels_register : (s.register k).labels = s.labels ++ [k] := by
  have made : (((Callback.new k).lockExecution s.uniqueUpdateID).getD (Callback.new k)).invoke = k := by
    unfold Callback.lockExecution
    split <;> rfl
  simp [labels, register, made]

end

@[simp] theorem labels_unregister [DecidableEq κ] (s : Subscriptions κ) :
    (s.unregister k).labels = s.labels.filter (· ≠ k) := by
  rw [labels, labels, unregister, filter_map]
  rfl

end Subscriptions
end HiveGo
