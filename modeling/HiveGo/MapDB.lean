import HiveGo.KVMap
import HiveGo.OrderedSet

/-! The in-memory key-value store. All stores that are made from one another by choosing a
realm share one map and one closed flag; a store itself is nothing but its realm. -/
namespace HiveGo.MapDB

inductive Error where
  | errStoreClosed
  | errKeyNotFound
  deriving Repr, DecidableEq

/-- The operations of a batch, at most one for a key. -/
structure BatchedMutations where
  realm : Bytes
  setOperations : KVMap := .empty
  deleteOperations : OrderedSet Bytes := .empty

structure State where
  m : KVMap
  closed : Bool
  /-- The realms of the stores, the first one being that of `NewMapDB`. -/
  stores : List Bytes
  batches : List BatchedMutations

def newMapDB : State := { m := .empty, closed := false, stores := [[]], batches := [] }

/-- A call on a store. -/
inductive StoreCall where
  | withRealm (realm : Bytes)
  | withExtendedRealm (realm : Bytes)
  | iterate (keyPrefix : Bytes) (consumerFunc : List (Bytes × Bytes) → Bool)
    (direction : IterDirection)
  | iterateKeys (keyPrefix : Bytes) (consumerFunc : List Bytes → Bool) (direction : IterDirection)
  | clear
  | get (key : Bytes)
  | set (key value : Bytes)
  | has (key : Bytes)
  | delete (key : Bytes)
  | deletePrefix (keyPrefix : Bytes)
  | flush
  | close
  | batched

/-- A call on a batch. The operations are committed in the order in which the two maps of the
batch happen to be traversed. -/
inductive BatchCall where
  | set (key value : Bytes)
  | delete (key : Bytes)
  | cancel
  | commit (sets : List (Bytes × Bytes)) (deletes : List Bytes)

inductive Call where
  | store (index : Nat) (call : StoreCall)
  | batch (index : Nat) (call : BatchCall)

inductive Result where
  | done
  | error (err : Error)
  | value (value : Bytes)
  | has (has : Bool)
  | pairs (delivered : List (Bytes × Bytes))
  | keys (delivered : List Bytes)
  deriving DecidableEq

/-- A call on a store that is open. -/
def onOpen (s : State) (storeRealm : Bytes) : StoreCall → State × Result
  | .withRealm realm => ({ s with stores := s.stores ++ [realm] }, .done)
  | .withExtendedRealm realm => ({ s with stores := s.stores ++ [storeRealm ++ realm] }, .done)
  | .iterate keyPrefix consumerFunc direction =>
    (s, .pairs (s.m.iterate storeRealm keyPrefix consumerFunc direction))
  | .iterateKeys keyPrefix consumerFunc direction =>
    (s, .keys (s.m.iterateKeys storeRealm keyPrefix consumerFunc direction))
  | .clear => ({ s with m := s.m.deletePrefix storeRealm }, .done)
  | .get key =>
    match s.m.get (storeRealm ++ key) with
    | none => (s, .error .errKeyNotFound)
    | some value => (s, .value value)
  | .set key value => ({ s with m := s.m.set (storeRealm ++ key) value }, .done)
  | .has key => (s, .has (s.m.has (storeRealm ++ key)))
  | .delete key => ({ s with m := s.m.delete (storeRealm ++ key) }, .done)
  | .deletePrefix keyPrefix => ({ s with m := s.m.deletePrefix (storeRealm ++ keyPrefix) }, .done)
  | .flush => (s, .done)
  | .close => ({ s with closed := true }, .done)
  | .batched => ({ s with batches := s.batches ++ [{ realm := storeRealm }] }, .done)

/-- Closing a store twice is not an error, anything else on a closed store is. -/
def onStore (s : State) (storeRealm : Bytes) (call : StoreCall) : State × Result :=
  if s.closed then
    match call with
    | .close => (s, .done)
    | _ => (s, .error .errStoreClosed)
  else onOpen s storeRealm call

def BatchedMutations.set (b : BatchedMutations) (key value : Bytes) : BatchedMutations :=
  { b with
    deleteOperations := b.deleteOperations.erase key
    setOperations := b.setOperations.set key value }

def BatchedMutations.delete (b : BatchedMutations) (key : Bytes) : BatchedMutations :=
  { b with
    setOperations := b.setOperations.delete key
    deleteOperations := b.deleteOperations.insert key }

/-- First the set operations, then the delete operations. -/
def commit (realm : Bytes) (sets : List (Bytes × Bytes)) (deletes : List Bytes) (m : KVMap) : KVMap :=
  deletes.foldl (fun m key => m.delete (realm ++ key))
    (sets.foldl (fun m entry => m.set (realm ++ entry.1) entry.2) m)

def onBatch (s : State) (index : Nat) (b : BatchedMutations) : BatchCall → Option (State × Result)
  | .set key value => some ({ s with batches := s.batches.set index (b.set key value) }, .done)
  | .delete key => some ({ s with batches := s.batches.set index (b.delete key) }, .done)
  | .cancel => some ({ s with batches := s.batches.set index { realm := b.realm } }, .done)
  | .commit sets deletes =>
    if s.closed then some (s, .error .errStoreClosed)
    else if sets.Perm b.setOperations.entries ∧ deletes.Perm b.deleteOperations.elems then
      some ({ s with m := commit b.realm sets deletes s.m }, .done)
    else none

/-- One call. It is none only if there is no such store or batch, or for a commit in an order
that is none of the batch's operations. -/
def step (s : State) : Call → Option (State × Result)
  | .store index call => s.stores[index]?.map fun storeRealm => onStore s storeRealm call
  | .batch index call => s.batches[index]?.bind fun b => onBatch s index b call

/-- A sequence of calls with their results. -/
def perform (s : State) : List Call → Option (State × List Result)
  | [] => some (s, [])
  | call :: calls => do
    let (s, result) ← step s call
    let (last, results) ← perform s calls
    return (last, result :: results)

end HiveGo.MapDB
