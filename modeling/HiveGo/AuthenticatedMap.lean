import HiveGo.KVMap
import HiveGo.TypedValue
import HiveGo.ShrinkingMap
import Mathlib.Data.UInt

/-! The authenticated map: the values are in a sparse Merkle trie, the keys once more next to
it for iterating over them, and their number is in a counter. All three are in one store,
whose calls do not fail. -/
namespace HiveGo.AuthenticatedMap

/-- What the store holds in the realm of the trie. -/
abbrev Nodes := Bytes → Option Bytes

/-- The calls that are made on the trie. It reads nodes from its realm when it needs them, and
only a commit writes there, one change after the other. -/
structure Trie (I : Type) where
  Tree : Type
  newSparseMerkleTrie : Tree
  importSparseMerkleTrie : I → Tree
  root : Tree → I
  get : Nodes → Tree → Bytes → Except KVError (Option Bytes × Tree)
  update : Nodes → Tree → Bytes → Bytes → Except KVError Tree
  delete : Nodes → Tree → Bytes → Except KVError Tree
  commit : Nodes → Tree → Except KVError (Tree × List (Bytes × Option Bytes))

/-- The functions that a map is created with. -/
structure Codecs (I K V : Type) where
  identifier : Codec I
  keyToBytes : K → Except KVError Bytes
  bytesToKey : Bytes → Except KVError (K × Nat)
  valueToBytes : V → Except KVError Bytes
  bytesToValue : Bytes → Except KVError (V × Nat)

def prefixRawKeysStorage : UInt8 := 0

def prefixTreeStorage : UInt8 := 1

def prefixRootKey : UInt8 := 2

def prefixSizeKey : UInt8 := 3

/-- `Uint64ToBytes` and `Uint64FromBytes`. -/
def uint64Codec : Codec UInt64 where
  vToBytes u := .ok (LittleEndian.put 8 u.toNat)
  bytesToV bytes :=
    if bytes.length < 8 then .error (.text "not enough bytes to decode uint64")
    else .ok (UInt64.ofNat (LittleEndian.get (bytes.take 8)))

variable {I K V : Type}

/-- The store, and the fields of the map that change. -/
structure State (trie : Trie I) where
  store : KVMap
  tree : trie.Tree
  size : TypedValue UInt64 := {}
  root : TypedValue I := {}

namespace State

/-- What the trie finds in its realm. -/
def nodes (s : State trie) : Nodes := fun key => s.store.get (prefixTreeStorage :: key)

/-- What a typed value leaves under its key. -/
def withContent (s : State trie) (key : Bytes) : Option Bytes → State trie
  | some content => { s with store := s.store.set key content }
  | none => { s with store := s.store.delete key }

end State

variable (trie : Trie I) (codecs : Codecs I K V)

/-- A map that is created over a store. -/
def newAuthenticatedMap [Inhabited I] (store : KVMap) : State trie :=
  match TypedValue.get codecs.identifier {} {} (store.get [prefixRootKey]) with
  | (root, identifier, none) => { store, tree := trie.importSparseMerkleTrie identifier, root }
  | (root, _, some _) => { store, tree := trie.newSparseMerkleTrie, root }

/-- A call that may fail half way. -/
abbrev Action (α : Type) := EStateM KVError (State trie) α

variable {trie}

def failing {α : Type} (message : String) (action : Action trie α) : Action trie α := fun s =>
  match action s with
  | .ok value s => .ok value s
  | .error err s => .error (.wrap err message) s

def lift {α : Type} : Except KVError α → Action trie α
  | .ok value => pure value
  | .error err => throw err

def treeGet (keyBytes : Bytes) : Action trie (Option Bytes) := fun s =>
  match trie.get s.nodes s.tree keyBytes with
  | .ok (value, tree) => .ok value { s with tree }
  | .error err => .error err s

def treeUpdate (keyBytes valueBytes : Bytes) : Action trie Unit := fun s =>
  match trie.update s.nodes s.tree keyBytes valueBytes with
  | .ok tree => .ok () { s with tree }
  | .error err => .error err s

def treeDelete (keyBytes : Bytes) : Action trie Unit := fun s =>
  match trie.delete s.nodes s.tree keyBytes with
  | .ok tree => .ok () { s with tree }
  | .error err => .error err s

/-- One change that a commit of the trie makes in its realm. -/
def writeNode (store : KVMap) (write : Bytes × Option Bytes) : KVMap :=
  match write with
  | (key, some node) => store.set (prefixTreeStorage :: key) node
  | (key, none) => store.delete (prefixTreeStorage :: key)

def treeCommit : Action trie Unit := fun s =>
  match trie.commit s.nodes s.tree with
  | .ok (tree, writes) => .ok () { s with tree, store := writes.foldl writeNode s.store }
  | .error err => .error err s

/-- `rawKeysStore.Set` of the empty value. -/
def rawKeysSet (key : K) : Action trie Unit := do
  let keyBytes ← failing "failed to encode key" (lift (codecs.keyToBytes key))
  modify fun s => { s with store := s.store.set (prefixRawKeysStorage :: keyBytes) [] }

def rawKeysDelete (key : K) : Action trie Unit := do
  let keyBytes ← failing "failed to encode key" (lift (codecs.keyToBytes key))
  modify fun s => { s with store := s.store.delete (prefixRawKeysStorage :: keyBytes) }

/-- `size.Get`, with the value next to the error. -/
def sizeGet (s : State trie) : State trie × UInt64 × Option KVError :=
  let (size, value, err) := s.size.get uint64Codec {} (s.store.get [prefixSizeKey])
  ({ s with size }, value, err)

def sizeSet (value : UInt64) : Action trie Unit := fun s =>
  match s.size.set uint64Codec value {} (s.store.get [prefixSizeKey]) with
  | (size, content, none) => .ok () { s.withContent [prefixSizeKey] content with size }
  | (size, content, some err) => .error err { s.withContent [prefixSizeKey] content with size }

def rootSet (identifier : I) : Action trie Unit := fun s =>
  match s.root.set codecs.identifier identifier {} (s.store.get [prefixRootKey]) with
  | (root, content, none) => .ok () { s.withContent [prefixRootKey] content with root }
  | (root, content, some err) => .error err { s.withContent [prefixRootKey] content with root }

def addSize (delta : Int) : Action trie Unit := fun s =>
  match sizeGet s with
  | (s, size, err) =>
    if ∃ error, err = some error ∧ error.root ≠ .errKeyNotFound then
      .error (.wrap (err.getD .store) "failed to get size") s
    else failing "failed to set size" (sizeSet (size.toInt64 + Int64.ofInt delta).toUInt64) s

def hasBytes (keyBytes : Bytes) : Action trie Bool := do
  let value ← failing "failed to get from tree" (treeGet keyBytes)
  return value.isSome

def set (key : K) (value : V) : Action trie Unit := do
  let valueBytes ← failing "failed to serialize value" (lift (codecs.valueToBytes value))
  let keyBytes ← failing "failed to serialize key" (lift (codecs.keyToBytes key))
  let has ← failing "failed to check if key exists" (hasBytes keyBytes)
  failing "failed to update tree" (treeUpdate keyBytes valueBytes)
  failing "failed to set raw key" (rawKeysSet codecs key)
  if !has then failing "failed to increase size" (addSize 1)

def size (s : State trie) : State trie × Int64 :=
  match sizeGet s with
  | (s, _, some _) => (s, 0)
  | (s, size, none) => (s, size.toInt64)

def commit : Action trie Unit := do
  let s ← MonadState.get
  failing "failed to set root" (rootSet codecs (trie.root s.tree))
  treeCommit

def delete (key : K) : Action trie Bool := do
  let keyBytes ← failing "failed to serialize key" (lift (codecs.keyToBytes key))
  let has ← failing "failed to check if key exists" (hasBytes keyBytes)
  if !has then return false
  failing "failed to delete from tree" (treeDelete keyBytes)
  failing "failed to delete from raw keys store" (rawKeysDelete codecs key)
  failing "failed to decrease size" (addSize (-1))
  return true

def has (key : K) : Action trie Bool := do
  let keyBytes ← failing "failed to serialize key" (lift (codecs.keyToBytes key))
  hasBytes keyBytes

def get (key : K) : Action trie (Option V) := do
  let keyBytes ← failing "failed to serialize key" (lift (codecs.keyToBytes key))
  match ← failing "failed to get from tree" (treeGet keyBytes) with
  | none => return none
  | some valueBytes =>
    let (value, consumed) ← failing "failed to deserialize value" (lift (codecs.bytesToValue valueBytes))
    if consumed ≠ valueBytes.length then throw (.text "failed to parse entire value")
    return some value

/-- The iteration over the raw keys that are left, with the entries the callback was given
already. A key without a value is handed on as if its value were empty. -/
def streamFrom (callback : List (K × V) → Option KVError) (visited : List (K × V)) :
    List Bytes → State trie → State trie × List (K × V) × Option KVError
  | [], s => (s, visited, none)
  | rawKey :: rawKeys, s =>
    match codecs.bytesToKey rawKey with
    | .error err => (s, visited, some (.wrap err "failed to iterate over raw keys"))
    | .ok (key, _) =>
      match codecs.keyToBytes key with
      | .error err => (s, visited, some (.wrap err "failed to serialize key "))
      | .ok keyBytes =>
        let name := spell keyBytes
        match treeGet keyBytes s with
        | .error err s => (s, visited, some (.wrap err s!"failed to get value for key {name}"))
        | .ok valueBytes s =>
          let text := spell (valueBytes.getD [])
          match codecs.bytesToValue (valueBytes.getD []) with
          | .error err => (s, visited, some (.wrap err s!"failed to deserialize value {text}"))
          | .ok (value, _) =>
            match callback (visited ++ [(key, value)]) with
            | some err =>
              (s, visited ++ [(key, value)],
                some (.wrap err s!"failed to execute callback for key {name}"))
            | none => streamFrom callback (visited ++ [(key, value)]) rawKeys s

/-- The keys that the store lists for the realm of the raw keys. -/
def rawKeys (store : KVMap) : List Bytes :=
  (store.sortedKeys [prefixRawKeysStorage] .forward).map fun key => key.drop 1

def stream (callback : List (K × V) → Option KVError) (s : State trie) :
    State trie × List (K × V) × Option KVError :=
  streamFrom codecs callback [] (rawKeys s.store) s

/-- A call on a map. -/
inductive Call (K V : Type) where
  | set (key : K) (value : V)
  | delete (key : K)
  | get (key : K)
  | has (key : K)
  | size
  | commit
  | stream (callback : List (K × V) → Option KVError)

/-- What a call returns; the entries are those a callback was given. -/
inductive Result (K V : Type) where
  | done
  | flag (flag : Bool)
  | value (value : Option V)
  | size (size : Int64)
  | visited (entries : List (K × V)) (err : Option KVError)
  | error (err : KVError)

/-- The state and the result of an action. -/
def Action.result {α : Type} (action : Action trie α) (result : α → Result K V) (s : State trie) :
    State trie × Result K V :=
  match action s with
  | .ok value s => (s, result value)
  | .error err s => (s, .error err)

def step (s : State trie) : Call K V → State trie × Result K V
  | .set key value => Action.result (set codecs key value) (fun _ => .done) s
  | .delete key => Action.result (delete codecs key) .flag s
  | .get key => Action.result (get codecs key) .value s
  | .has key => Action.result (has codecs key) .flag s
  | .size => ((size s).1, .size (size s).2)
  | .commit => Action.result (commit codecs) (fun _ => .done) s
  | .stream callback =>
    let (s, entries, err) := stream codecs callback s
    (s, .visited entries err)

/-- A sequence of calls with their results. -/
def perform (s : State trie) : List (Call K V) → State trie × List (Result K V)
  | [] => (s, [])
  | call :: calls =>
    let (s, result) := step codecs s call
    let (last, results) := perform s calls
    (last, result :: results)

end HiveGo.AuthenticatedMap
