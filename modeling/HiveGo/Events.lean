import HiveGo.LinkForest
import HiveGo.OrderedMap
import HiveGo.Runs

/-! Events without trigger limits and worker pools. A link to another event is a hook of that
event like any other: its callback triggers the event that was linked. -/
namespace HiveGo.Events
open Function

/-- What a hook calls: a function of the caller, or the `Trigger` method of an event. -/
inductive TriggerFunc (E C : Type) where
  | callback (f : C)
  | trigger (e : E)
  deriving Repr, DecidableEq

structure Hook (E C : Type) where
  trigger : TriggerFunc E C
  preTriggerFunc : Option C := none
  deriving Repr, DecidableEq

structure Event (E C : Type) where
  hooks : List (Nat × Hook E C) := []
  hooksCounter : Nat := 0
  /-- The hook to another event: the event it is registered with, and its id. -/
  link : Option (E × Nat) := none
  preTriggerFunc : Option C := none
  deriving Repr, DecidableEq

/-- A call that a trigger makes. -/
inductive Invocation (E C A : Type) where
  | preTriggerFunc (f : C) (a : A)
  | callback (hook : E × Nat) (f : C) (a : A)
  deriving Repr, DecidableEq

variable {E C A : Type}

/-- A family of events. -/
abbrev State (E C : Type) := E → Event E C

namespace State

section updates

variable [DecidableEq E]

/-- The id of the new hook. -/
def hook (s : State E C) (e : E) (triggerFunc : TriggerFunc E C) (preTriggerFunc : Option C) :
    Nat × State E C :=
  let id := (s e).hooksCounter + 1
  (id, update s e { s e with
    hooksCounter := id
    hooks := OrderedMap.set id ⟨triggerFunc, preTriggerFunc⟩ (s e).hooks })

def unhook (s : State E C) (h : E × Nat) : State E C :=
  update s h.1 { s h.1 with hooks := OrderedMap.erase h.2 (s h.1).hooks }

def setLink (s : State E C) (e : E) (link : Option (E × Nat)) : State E C :=
  update s e { s e with link }

/-- Unhook the previous hook, which the event still remembers. -/
def unhookLink (s : State E C) (e : E) : State E C :=
  match (s e).link with
  | some link => s.unhook link
  | none => s

def linkTo (s : State E C) (e : E) (target : Option E) : State E C :=
  let s := s.unhookLink e
  match target with
  | none => s.setLink e none
  | some target =>
    let (id, s) := s.hook target (.trigger e) none
    s.setLink e (some (target, id))

end updates

def preTrigger (preTriggerFunc : Option C) (a : A) : List (Invocation E C A) :=
  match preTriggerFunc with
  | none => []
  | some f => [.preTriggerFunc f a]

/-- The consumer of the iteration over the hooks. Triggering another event is the parameter. -/
def triggerHook (s : State E C) (e : E) (a : A) (other : E → Option (List (Invocation E C A)))
    (id : Nat) (hook : Hook E C) (log : Option (List (Invocation E C A))) :
    Bool × Option (List (Invocation E C A)) :=
  (true, do
    let log := (← log) ++ preTrigger (s e).preTriggerFunc a ++ preTrigger hook.preTriggerFunc a
    match hook.trigger with
    | .callback f => return log ++ [.callback (e, id) f a]
    | .trigger linked => return log ++ (← other linked))

/-- The calls that a trigger makes, in their order, if so many nested triggers are enough. -/
def trigger (s : State E C) : (depth : Nat) → E → A → Option (List (Invocation E C A))
  | 0, _, _ => none
  | depth + 1, e, a =>
    (OrderedMap.forEach (s.triggerHook e a fun linked => s.trigger depth linked a) (s e).hooks
      (some [])).2

end State

inductive Operation (E C : Type) where
  | hook (e : E) (triggerFunc : C) (preTriggerFunc : Option C)
  /-- Unhook the hook that was returned by the given call of `Hook`. -/
  | unhook (call : Nat)
  | linkTo (e : E) (target : Option E)

/-- The events and the hooks that were returned to callers. -/
structure Session (E C : Type) where
  events : State E C
  hooks : List (E × Nat) := []

def step [DecidableEq E] (s : Session E C) : Operation E C → Option (Session E C)
  | .hook e triggerFunc preTriggerFunc =>
    let (id, events) := s.events.hook e (.callback triggerFunc) preTriggerFunc
    some { events, hooks := s.hooks ++ [(e, id)] }
  | .unhook call => do return { s with events := s.events.unhook (← s.hooks[call]?) }
  | .linkTo e target => some { s with events := s.events.linkTo e target }

/-- A new family of events. -/
def newSession (preTriggerFuncs : E → Option C) : Session E C where
  events e := { preTriggerFunc := preTriggerFuncs e }

/-! What the operations mean. -/

/-- The event and the callback of every call of `Hook` with whether it is still hooked, and the
event that every event is linked to. -/
structure Registry (E C : Type) where
  hooked : List (E × C × Bool) := []
  link : E → Option E := fun _ => none

def Registry.step [DecidableEq E] (r : Registry E C) : Operation E C → Registry E C
  | .hook e triggerFunc _ => { r with hooked := r.hooked ++ [(e, triggerFunc, true)] }
  | .unhook call =>
    { r with hooked := r.hooked.modify call fun (e, triggerFunc, _) => (e, triggerFunc, false) }
  | .linkTo e target => { r with link := update r.link e target }

def registry [DecidableEq E] (operations : List (Operation E C)) : Registry E C :=
  operations.foldl Registry.step {}

/-- The callbacks among the calls of a trigger. -/
def callbacks (log : List (Invocation E C A)) : List ((E × Nat) × C × A) :=
  log.filterMap fun
    | .preTriggerFunc _ _ => none
    | .callback hook f a => some (hook, f, a)

end HiveGo.Events
