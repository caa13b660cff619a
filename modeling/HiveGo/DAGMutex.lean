import HiveGo.Runs
import HiveGo.ShrinkingMap
import HiveGo.StarvingMutex

/-! The mutex for many entities. Each entity has a starving mutex of its own, which is made when
the first one registers and forgotten, not unlocked, when the last one unregisters. A waiting call
goes on when its loop lets it. -/
namespace HiveGo.DAGMutex

/-- The fields of the mutex, and all starving mutexes that were ever made. -/
structure Registry (T : Type) where
  consumerCounter : ShrinkingMap T Int
  mutexes : ShrinkingMap T Nat
  heap : List StarvingMutex

/-- One lock from its call to the end of its unlock. The locks that a reader has, and those it
still has to take, are kept with their entities; an unlocking call has the mutexes to unlock. -/
inductive Session (T : Type) where
  | reader (held rest : List (T × Nat))
  | rUnlocking (rest : List Nat)
  | locking (id : T) (mutex : Nat)
  | waiting (id : T) (mutex : Nat)
  | writer (id : T) (mutex : Nat)
  | unlocking (mutex : Nat)
  deriving DecidableEq

structure State (T : Type) where
  registry : Registry T
  sessions : List (Session T)
  panicked : Bool

variable {T : Type} [DecidableEq T]

def newDAGMutex : State T where
  registry := { consumerCounter := .new, mutexes := .new, heap := [] }
  sessions := []
  panicked := false

namespace Registry

/-- The starving mutex behind a pointer. -/
def mutex (d : Registry T) (pointer : Nat) : StarvingMutex := d.heap.getD pointer {}

def store (d : Registry T) (pointer : Nat) (mutex : StarvingMutex) : Registry T :=
  { d with heap := d.heap.set pointer mutex }

/-- The mutex of the entity, made if there is none. -/
def getOrCreate (d : Registry T) (id : T) : Registry T × Nat :=
  match d.mutexes.get id with
  | some mutex => (d, mutex)
  | none =>
    ({ d with mutexes := d.mutexes.set id d.heap.length, heap := d.heap ++ [{}] }, d.heap.length)

def registerMutex (d : Registry T) (id : T) : Registry T × Nat :=
  let (d, mutex) := d.getOrCreate id
  let count := (d.consumerCounter.get id).getD 0
  ({ d with consumerCounter := d.consumerCounter.set id (count + 1) }, mutex)

/-- The mutexes, each with its entity. -/
def registerMutexes (d : Registry T) : List T → Registry T × List (T × Nat)
  | [] => (d, [])
  | id :: ids =>
    let (d, mutex) := d.registerMutex id
    let (d, mutexes) := d.registerMutexes ids
    (d, (id, mutex) :: mutexes)

/-- The mutex to unlock, unless this was the last one. It is none if it panics. -/
def unregisterMutex (d : Registry T) (id : T) : Option (Registry T × Option Nat) :=
  let count := (d.consumerCounter.get id).getD 0
  if count = 1 then
    some ({ d with consumerCounter := d.consumerCounter.delete id, mutexes := d.mutexes.delete id },
      none)
  else
    match d.mutexes.get id with
    | none => none
    | some mutex =>
      some ({ d with consumerCounter := d.consumerCounter.set id (count - 1) }, some mutex)

def unregisterMutexes (d : Registry T) : List T → Option (Registry T × List Nat)
  | [] => some (d, [])
  | id :: ids => do
    let (d, mutex) ← d.unregisterMutex id
    let (d, mutexes) ← d.unregisterMutexes ids
    return (d, mutex.toList ++ mutexes)

end Registry

/-- What a session does next. An `RUnlock` may name the entities in another order. -/
inductive Event (T : Type) where
  | rLock (ids : List T)
  | rAcquire (session : Session T)
  | rUnlock (session : Session T) (ids : List T)
  | rRelease (session : Session T)
  | lock (id : T)
  | acquire (session : Session T)
  | unlock (session : Session T)
  | release (session : Session T)

namespace State

/-- A session goes on, and the registry changes. -/
def move (s : State T) (registry : Registry T) (old : Session T) (next : Option (Session T)) :
    State T :=
  { s with registry, sessions := CallPool.advance s.sessions old next }

def panic (s : State T) : State T := { s with panicked := true }

end State

/-- An `RLock` takes its next lock, if no writer has it. -/
def rAcquire (s : State T) : Session T → Option (State T)
  | .reader held ((id, mutex) :: rest) => do
    let f ← (s.registry.mutex mutex).tryRLock
    return s.move (s.registry.store mutex f) (.reader held ((id, mutex) :: rest))
      (some (.reader (held ++ [(id, mutex)]) rest))
  | _ => none

/-- An `RUnlock` of what was locked unregisters all of it. -/
def rUnlock (s : State T) (ids : List T) : Session T → Option (State T)
  | .reader held [] =>
    if ids.Perm (held.map Prod.fst) then
      match s.registry.unregisterMutexes ids with
      | none => some s.panic
      | some (registry, mutexes) => some (s.move registry (.reader held []) (some (.rUnlocking mutexes)))
    else none
  | _ => none

/-- An `RUnlock` unlocks its next mutex, or returns. -/
def rRelease (s : State T) : Session T → Option (State T)
  | .rUnlocking [] => some (s.move s.registry (.rUnlocking []) none)
  | .rUnlocking (mutex :: rest) =>
    match (s.registry.mutex mutex).rUnlock with
    | none => some s.panic
    | some (f, _) =>
      some (s.move (s.registry.store mutex f) (.rUnlocking (mutex :: rest)) (some (.rUnlocking rest)))
  | _ => none

/-- A `Lock` enters its loop, and passes it or waits in it. -/
def acquire (s : State T) : Session T → Option (State T)
  | .locking id mutex =>
    let entered := (s.registry.mutex mutex).enterLock
    match entered.tryLock with
    | some f => some (s.move (s.registry.store mutex f) (.locking id mutex) (some (.writer id mutex)))
    | none =>
      some (s.move (s.registry.store mutex entered) (.locking id mutex) (some (.waiting id mutex)))
  | .waiting id mutex => do
    let f ← (s.registry.mutex mutex).tryLock
    return s.move (s.registry.store mutex f) (.waiting id mutex) (some (.writer id mutex))
  | _ => none

def unlock (s : State T) : Session T → Option (State T)
  | .writer id mutex =>
    match s.registry.unregisterMutex id with
    | none => some s.panic
    | some (registry, none) => some (s.move registry (.writer id mutex) none)
    | some (registry, some found) =>
      some (s.move registry (.writer id mutex) (some (.unlocking found)))
  | _ => none

def release (s : State T) : Session T → Option (State T)
  | .unlocking mutex =>
    match (s.registry.mutex mutex).unlock with
    | none => some s.panic
    | some (f, _) => some (s.move (s.registry.store mutex f) (.unlocking mutex) none)
  | _ => none

/-- One step of one session, if it is there and can go on. -/
def step (s : State T) : Event T → Option (State T)
  | .rLock ids =>
    if ids.Nodup then
      let (registry, mutexes) := s.registry.registerMutexes ids
      some { s with registry, sessions := .reader [] mutexes :: s.sessions }
    else none
  | .rAcquire session => if session ∈ s.sessions then rAcquire s session else none
  | .rUnlock session ids => if session ∈ s.sessions then rUnlock s ids session else none
  | .rRelease session => if session ∈ s.sessions then rRelease s session else none
  | .lock id =>
    let (registry, mutex) := s.registry.registerMutex id
    some { s with registry, sessions := .locking id mutex :: s.sessions }
  | .acquire session => if session ∈ s.sessions then acquire s session else none
  | .unlock session => if session ∈ s.sessions then unlock s session else none
  | .release session => if session ∈ s.sessions then release s session else none

namespace Session

/-- The entities a session is registered for, with their mutexes. -/
def registered : Session T → List (T × Nat)
  | reader held rest => held ++ rest
  | locking id mutex | waiting id mutex | writer id mutex => [(id, mutex)]
  | rUnlocking _ | unlocking _ => []

/-- How often a mutex counts the session among its readers. -/
def readersOn (mutex : Nat) : Session T → Nat
  | reader held _ => (held.map Prod.snd).count mutex
  | rUnlocking rest => rest.count mutex
  | _ => 0

/-- How often a mutex counts the session as its writer. -/
def writersOn (mutex : Nat) : Session T → Nat
  | writer _ own | unlocking own => if own = mutex then 1 else 0
  | _ => 0

/-- The session is between the return of its lock and the call of its unlock. -/
def Holds (id : T) : Session T → Prop
  | reader held [] => id ∈ held.map Prod.fst
  | writer own _ => own = id
  | _ => False

end Session

end HiveGo.DAGMutex
