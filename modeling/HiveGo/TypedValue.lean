import HiveGo.KVMap
import Mathlib.Data.List.Forall2

/-! A typed value behind a cache: what the key of the store holds is kept in memory, as a
value and as a flag for its existence. Seen from outside it is the store. -/
namespace HiveGo

/-- The errors that reach a caller. -/
inductive KVError where
  | errKeyNotFound
  | errTypedValueNotChanged
  | store
  | text (message : String)
  | wrap (cause : KVError) (message : String)
  deriving Repr, DecidableEq

/-- The error under all of its wrappings: what a caller matches with `Is`. -/
def KVError.root : KVError → KVError
  | wrap cause _ => cause.root
  | error => error

def StoreError.toKV : StoreError → KVError
  | keyNotFound => .errKeyNotFound
  | failed => .store

/-- The functions that turn a value into bytes and back. -/
structure Codec (V : Type) where
  vToBytes : V → Except KVError Bytes
  bytesToV : Bytes → Except KVError V

/-- Neither of the functions fails, and decoding inverts encoding. -/
structure Codec.Faithful {V : Type} (codec : Codec V) : Prop where
  encodes : ∀ value, ∃ b, codec.vToBytes value = .ok b ∧ codec.bytesToV b = .ok value
  decodes : ∀ b, ∃ value, codec.bytesToV b = .ok value

/-- A call on a typed value. -/
inductive Call (V : Type) where
  | get
  | has
  | set (value : V)
  | delete
  | compute (computeFunc : V → Bool → V × Option KVError)

/-- What a call returns. -/
inductive Result (V : Type) where
  | value (value : V) (err : Option KVError)
  | flag (has : Bool) (err : Option KVError)
  | done (err : Option KVError)

def Result.err {V : Type} : Result V → Option KVError
  | .value _ err | .flag _ err | .done err => err

/-- Results that a caller cannot tell apart: the texts around an error do not count. -/
def Result.Same {V : Type} : Result V → Result V → Prop
  | .value v err, .value w other => v = w ∧ err.map KVError.root = other.map KVError.root
  | .flag b err, .flag c other => b = c ∧ err.map KVError.root = other.map KVError.root
  | .done err, .done other => err.map KVError.root = other.map KVError.root
  | _, _ => False

theorem Result.Same.refl (result : Result V) : result.Same result := by
  cases result <;> simp [Same]

/-- The fields of a `TypedValue` that a call can change. -/
structure TypedValue (V : Type) where
  valueCached : Option V := none
  hasCached : Option Bool := none

namespace TypedValue

variable {V : Type} (codec : Codec V)

def get [Inhabited V] (t : TypedValue V) (faults : Faults) (content : Option Bytes) :
    TypedValue V × V × Option KVError :=
  if t.hasCached = some false then (t, default, some .errKeyNotFound)
  else
    match t.valueCached with
    | some value => (t, value, none)
    | none =>
      match StoreKey.get faults content with
      | .error error =>
        (if error = .keyNotFound then { t with hasCached := some false } else t, default,
          some (.wrap error.toKV "failed to retrieve value from KV store"))
      | .ok valueBytes =>
        match codec.bytesToV valueBytes with
        | .error error => (t, default, some (.wrap error "failed to decode value"))
        | .ok value => ({ valueCached := some value, hasCached := some true }, value, none)

def has (t : TypedValue V) (faults : Faults) (content : Option Bytes) :
    TypedValue V × Bool × Option KVError :=
  match t.hasCached with
  | some has => (t, has, none)
  | none =>
    match StoreKey.has faults content with
    | .error error => (t, false, some (.wrap error.toKV "failed to check whether key exists"))
    | .ok has => ({ t with hasCached := some has }, has, none)

def set (t : TypedValue V) (value : V) (faults : Faults) (content : Option Bytes) :
    TypedValue V × Option Bytes × Option KVError :=
  match codec.vToBytes value with
  | .error error => (t, content, some (.wrap error "failed to encode value"))
  | .ok valueBytes =>
    match StoreKey.set faults valueBytes with
    | .error error => (t, content, some (.wrap error.toKV "failed to store value in KV store"))
    | .ok content => ({ valueCached := some value, hasCached := some true }, content, none)

def delete (t : TypedValue V) (faults : Faults) (content : Option Bytes) :
    TypedValue V × Option Bytes × Option KVError :=
  match StoreKey.delete faults with
  | .error error => (t, content, some (.wrap error.toKV "failed to delete entry from KV store"))
  | .ok content => ({ valueCached := none, hasCached := some false }, content, none)

/-- The cached value, or the zero value. -/
def cachedValue [Inhabited V] (t : TypedValue V) : V × Bool :=
  match t.valueCached with
  | some value => (value, true)
  | none => (default, false)

/-- Whether `Compute` reads the store. The second operand of its condition follows the
pointer to the cached flag, whatever the first one found out about it. -/
def readsStore (t : TypedValue V) (present : Bool) : Option Bool :=
  if !present && t.hasCached.isNone then some true else t.hasCached

/-- The current value as the store has it. A missing key leaves the value as it was. -/
def readCurrent (current : V × Bool) (faults : Faults) (content : Option Bytes) :
    Except KVError (V × Bool) :=
  match StoreKey.get faults content with
  | .error .keyNotFound => .ok current
  | .error error => .error (.wrap error.toKV "failed to retrieve value from KV store")
  | .ok valueBytes =>
    match codec.bytesToV valueBytes with
    | .error error => .error (.wrap error "failed to decode value")
    | .ok value => .ok (value, true)

/-- The rest of `Compute`. The error of the encoder is not looked at, and a nil byte slice
is stored in its place. -/
def storeComputed (t : TypedValue V) (currentValue : V) (computed : V × Option KVError)
    (faults : Faults) (content : Option Bytes) : TypedValue V × Option Bytes × V × Option KVError :=
  match computed.2 with
  | some error =>
    if error.root = .errTypedValueNotChanged then (t, content, currentValue, none)
    else (t, content, computed.1, some (.wrap error "failed to compute new value"))
  | none =>
    let newValueBytes :=
      match codec.vToBytes computed.1 with
      | .ok newValueBytes => newValueBytes
      | .error _ => []
    match StoreKey.set faults newValueBytes with
    | .error error =>
      (t, content, currentValue, some (.wrap error.toKV "failed to store new value in KV store"))
    | .ok content =>
      ({ valueCached := some computed.1, hasCached := some true }, content, computed.1, none)

/-- `Compute`, which panics if the flag it looks at is not cached. -/
def compute [Inhabited V] (t : TypedValue V) (computeFunc : V → Bool → V × Option KVError) (faults : Faults)
    (content : Option Bytes) : Option (TypedValue V × Option Bytes × V × Option KVError) := do
  let current := t.cachedValue
  let reads ← t.readsStore current.2
  match if reads then readCurrent codec current faults content else .ok current with
  | .error error => return (t, content, default, some error)
  | .ok current =>
    return storeComputed codec t current.1 (computeFunc current.1 current.2) faults content

/-- One call: the typed value and the content of its key after it, and the result. -/
def step [Inhabited V] (t : TypedValue V) (content : Option Bytes) :
    Call V × Faults → Option ((TypedValue V × Option Bytes) × Result V)
  | (.get, faults) =>
    let (t, value, err) := t.get codec faults content
    some ((t, content), .value value err)
  | (.has, faults) =>
    let (t, has, err) := t.has faults content
    some ((t, content), .flag has err)
  | (.set value, faults) =>
    let (t, content, err) := t.set codec value faults content
    some ((t, content), .done err)
  | (.delete, faults) =>
    let (t, content, err) := t.delete faults content
    some ((t, content), .done err)
  | (.compute computeFunc, faults) => do
    let (t, content, value, err) ← t.compute codec computeFunc faults content
    return ((t, content), .value value err)

/-- A sequence of calls with their results. -/
def perform [Inhabited V] (t : TypedValue V) (content : Option Bytes) :
    List (Call V × Faults) → Option ((TypedValue V × Option Bytes) × List (Result V))
  | [] => some ((t, content), [])
  | call :: calls => do
    let ((t, content), result) ← t.step codec content call
    let (last, results) ← perform t content calls
    return (last, result :: results)

end TypedValue

/-! The uncached wrapper: every call goes to the store. -/
namespace DirectValue

variable {V : Type} [Inhabited V] (codec : Codec V)

def step (content : Option Bytes) : Call V × Faults → Option Bytes × Result V
  | (.get, faults) =>
    match StoreKey.get faults content with
    | .error error =>
      (content, .value default (some (.wrap error.toKV "failed to retrieve value from KV store")))
    | .ok valueBytes =>
      match codec.bytesToV valueBytes with
      | .error error => (content, .value default (some (.wrap error "failed to decode value")))
      | .ok value => (content, .value value none)
  | (.has, faults) =>
    match StoreKey.has faults content with
    | .error error =>
      (content, .flag false (some (.wrap error.toKV "failed to check whether key exists")))
    | .ok has => (content, .flag has none)
  | (.set value, faults) =>
    match codec.vToBytes value with
    | .error error => (content, .done (some (.wrap error "failed to encode value")))
    | .ok valueBytes =>
      match StoreKey.set faults valueBytes with
      | .error error => (content, .done (some (.wrap error.toKV "failed to store value in KV store")))
      | .ok content => (content, .done none)
  | (.delete, faults) =>
    match StoreKey.delete faults with
    | .error error => (content, .done (some (.wrap error.toKV "failed to delete entry from KV store")))
    | .ok content => (content, .done none)
  | (.compute computeFunc, faults) =>
    match StoreKey.get faults content with
    | .error .keyNotFound => write default (computeFunc default false) faults
    | .error error =>
      (content, .value default (some (.wrap error.toKV "failed to retrieve value from KV store")))
    | .ok valueBytes =>
      match codec.bytesToV valueBytes with
      | .error error => (content, .value default (some (.wrap error "failed to decode value")))
      | .ok value => write value (computeFunc value true) faults
where
  write (currentValue : V) (computed : V × Option KVError) (faults : Faults) :
      Option Bytes × Result V :=
    match computed with
    | (newValue, some error) =>
      if error.root = .errTypedValueNotChanged then (content, .value currentValue none)
      else (content, .value newValue (some (.wrap error "failed to compute new value")))
    | (newValue, none) =>
      match codec.vToBytes newValue with
      | .error error => (content, .value currentValue (some (.wrap error "failed to encode new value")))
      | .ok newValueBytes =>
        match StoreKey.set faults newValueBytes with
        | .error error =>
          (content, .value currentValue
            (some (.wrap error.toKV "failed to store new value in KV store")))
        | .ok content => (content, .value newValue none)

def perform (content : Option Bytes) : List (Call V × Faults) → Option Bytes × List (Result V)
  | [] => (content, [])
  | call :: calls =>
    let (content, result) := step codec content call
    let (last, results) := perform content calls
    (last, result :: results)

end DirectValue

/-- Fewer of the reads fail, and the same writes. -/
structure Faults.Within (fewer faults : Faults) : Prop where
  get : fewer.get = true → faults.get = true
  has : fewer.has = true → faults.has = true
  set : fewer.set = faults.set
  delete : fewer.delete = faults.delete

theorem Faults.Within.refl (faults : Faults) : faults.Within faults := ⟨id, id, rfl, rfl⟩

/-- No read fails that is never made. -/
theorem Faults.within_of_no_read (faults : Faults) :
    Faults.Within { faults with get := false, has := false } faults :=
  ⟨by simp, by simp, rfl, rfl⟩

namespace TypedValue

variable {V : Type} {codec : Codec V}
variable {content : Option Bytes}

/-- What is cached agrees with what the store holds. -/
structure Agrees (codec : Codec V) (t : TypedValue V) (content : Option Bytes) : Prop where
  value : ∀ value, t.valueCached = some value →
    t.hasCached = some true ∧ ∃ b, content = some b ∧ codec.bytesToV b = .ok value
  has : ∀ has, t.hasCached = some has → content.isSome = has

theorem agrees_new : Agrees codec {} content :=
  ⟨by rintro _ ⟨⟩, by rintro _ ⟨⟩⟩

variable {t : TypedValue V}

theorem Agrees.uncached (agrees : Agrees codec t content)
    (missing : t.hasCached ≠ some true ∨ content = none) : t.valueCached = none := by
  rw [Option.eq_none_iff_forall_ne_some]
  intro value held
  obtain ⟨present, b, stored, -⟩ := agrees.value value held
  simp [present, stored] at missing

theorem Agrees.absent (agrees : Agrees codec t content) (cached : t.hasCached = some false) :
    content = none ∧ t.valueCached = none :=
  ⟨by simpa using agrees.has false cached, agrees.uncached (.inl (by simp [cached]))⟩

/-- A value that is stored and cached. -/
theorem agrees_stored (read : codec.bytesToV b = .ok value) :
    Agrees codec { valueCached := some value, hasCached := some true } (some b) := by
  refine ⟨?_, ?_⟩
  · rintro _ ⟨⟩
    exact ⟨rfl, b, rfl, read⟩
  · rintro _ ⟨⟩
    rfl

variable [Inhabited V]

/-- Reading a key that is missing, while no call of the store fails. -/
theorem Agrees.get_absent (agrees : Agrees codec t none) :
    ∃ next err, t.get codec {} none = (next, default, some err) ∧ err.root = .errKeyNotFound ∧
      Agrees codec next none := by
  have uncached := agrees.uncached (.inr rfl)
  by_cases absent : t.hasCached = some false
  · exact ⟨t, .errKeyNotFound, by simp [get, absent], rfl, agrees⟩
  · have read : t.get codec {} none = ({ t with hasCached := some false }, default,
        some (.wrap .errKeyNotFound "failed to retrieve value from KV store")) := by
      simp [get, absent, uncached, StoreKey.get, StoreError.toKV]
    refine ⟨_, _, read, rfl, fun value held => ?_, ?_⟩
    · rw [uncached] at held
      cases held
    · rintro _ ⟨⟩
      rfl

/-- Reading a key that holds a value, while no call of the store fails. -/
theorem Agrees.get_present {value : V} (agrees : Agrees codec t (some b))
    (decoded : codec.bytesToV b = .ok value) :
    ∃ next, t.get codec {} (some b) = (next, value, none) ∧ Agrees codec next (some b) := by
  have present : t.hasCached ≠ some false := by
    intro absent
    cases (agrees.absent absent).1
  cases held : t.valueCached with
  | some cached =>
    obtain ⟨-, stored, same, also⟩ := agrees.value cached held
    cases same
    rw [decoded] at also
    cases also
    exact ⟨t, by simp [get, present, held], agrees⟩
  | none =>
    have read : t.get codec {} (some b) =
        ({ valueCached := some value, hasCached := some true }, value, none) := by
      simp [get, present, held, StoreKey.get, decoded]
    exact ⟨_, read, agrees_stored decoded⟩

/-- The reply to a call, seen from the uncached wrapper: the same reply on the same store,
where fewer of the reads fail, and a cache that agrees with the store. -/
structure Matches (codec : Codec V) (content : Option Bytes) (call : Call V × Faults)
    (reply : (TypedValue V × Option Bytes) × Result V) : Prop where
  agrees : Agrees codec reply.1.1 reply.1.2
  direct : ∃ fewer, Faults.Within fewer call.2 ∧
    (DirectValue.step codec content (call.1, fewer)).1 = reply.1.2 ∧
    reply.2.Same (DirectValue.step codec content (call.1, fewer)).2

section Matches

variable (agrees : Agrees codec t content)
include agrees

private theorem get_matches (faithful : codec.Faithful) :
    Matches codec content (.get, faults)
      (((t.get codec faults content).1, content), .value (t.get codec faults content).2.1
        (t.get codec faults content).2.2) := by
  by_cases absent : t.hasCached = some false
  · obtain ⟨rfl, _⟩ := agrees.absent absent
    have cached : t.get codec faults none = (t, default, some .errKeyNotFound) := by
      simp [get, absent]
    rw [cached]
    exact ⟨agrees, _, faults.within_of_no_read, rfl, rfl, rfl⟩
  · cases held : t.valueCached with
    | some value =>
      obtain ⟨_, b, rfl, read⟩ := agrees.value value held
      have cached : t.get codec faults (some b) = (t, value, none) := by simp [get, absent, held]
      rw [cached]
      refine ⟨agrees, _, faults.within_of_no_read, ?_⟩
      simp [DirectValue.step, StoreKey.get, read, Result.Same]
    | none =>
      refine ⟨?_, faults, .refl faults, ?_⟩
      · simp only [get, absent, if_false, held, StoreKey.get]
        cases failing : faults.get with
        | true => exact agrees
        | false =>
          cases content with
          | none => exact ⟨by rintro _ ⟨⟩, by rintro _ ⟨⟩; rfl⟩
          | some b =>
            obtain ⟨value, read⟩ := faithful.decodes b
            simp only [Bool.false_eq_true, if_false, read]
            exact agrees_stored read
      · simp only [get, absent, if_false, held, DirectValue.step]
        cases StoreKey.get faults content with
        | error error => exact ⟨rfl, rfl, rfl⟩
        | ok b =>
          obtain ⟨value, read⟩ := faithful.decodes b
          simp [read, Result.Same]

private theorem has_matches : Matches codec content (.has, faults)
      (((t.has faults content).1, content), .flag (t.has faults content).2.1
        (t.has faults content).2.2) := by
  cases cached : t.hasCached with
  | some present =>
    have found := agrees.has present cached
    have hit : t.has faults content = (t, present, none) := by simp [has, cached]
    rw [hit]
    exact ⟨agrees, _, faults.within_of_no_read, rfl, found.symm, rfl⟩
  | none =>
    refine ⟨?_, faults, .refl faults, ?_⟩
    · simp only [has, cached, StoreKey.has]
      cases failing : faults.has with
      | true => exact agrees
      | false =>
        refine ⟨fun value held => ?_, by rintro _ ⟨⟩; rfl⟩
        cases (agrees.uncached (.inl (by simp [cached]))).symm.trans held
    · simp only [has, cached, DirectValue.step]
      cases StoreKey.has faults content <;> exact ⟨rfl, rfl, rfl⟩

private theorem set_matches (faithful : codec.Faithful)
    (value : V) : Matches codec content (.set value, faults)
      (((t.set codec value faults content).1, (t.set codec value faults content).2.1),
        .done (t.set codec value faults content).2.2) := by
  obtain ⟨b, encoded, read⟩ := faithful.encodes value
  simp only [set, encoded, StoreKey.set]
  refine ⟨?_, faults, .refl faults, ?_⟩
  · cases failing : faults.set with
    | true => exact agrees
    | false => exact agrees_stored read
  · simp only [DirectValue.step, encoded, StoreKey.set]
    cases failing : faults.set <;> exact ⟨rfl, rfl⟩

private theorem delete_matches :
    Matches codec content (.delete, faults)
      (((t.delete faults content).1, (t.delete faults content).2.1),
        .done (t.delete faults content).2.2) := by
  simp only [delete, StoreKey.delete]
  refine ⟨?_, faults, .refl faults, ?_⟩
  · cases failing : faults.delete with
    | true => exact agrees
    | false => exact ⟨by rintro _ ⟨⟩, by rintro _ ⟨⟩; rfl⟩
  · simp only [DirectValue.step, StoreKey.delete]
    cases failing : faults.delete <;> exact ⟨rfl, rfl⟩

/-- The flag that `Compute` looks at is there, and a value that is not stored is not cached. -/
private theorem Agrees.readsStore
    (unknown : t.hasCached ≠ some false) : t.readsStore t.cachedValue.2 = some true ∧
      (content = none → t.cachedValue = (default, false)) := by
  cases cached : t.hasCached with
  | none =>
    have uncached := agrees.uncached (.inl (by simp [cached]))
    simp [TypedValue.readsStore, cachedValue, cached, uncached]
  | some present =>
    cases present with
    | false => exact absurd cached unknown
    | true =>
      refine ⟨by simp [TypedValue.readsStore, cached], fun missing => ?_⟩
      simpa [missing] using agrees.has true cached

/-- The rest of `Compute`, after as much as the uncached wrapper reads of the store. -/
private theorem storeComputed_matches (faithful : codec.Faithful)
    (within : Faults.Within fewer faults)
    (direct : DirectValue.step codec content (.compute computeFunc, fewer) =
      DirectValue.step.write codec content current computed faults)
    (stored : storeComputed codec t current computed faults content = reply) :
    Matches codec content (.compute computeFunc, faults)
      ((reply.1, reply.2.1), .value reply.2.2.1 reply.2.2.2) := by
  suffices both : Agrees codec reply.1 reply.2.1 ∧ DirectValue.step.write codec content current
      computed faults = (reply.2.1, .value reply.2.2.1 reply.2.2.2) by
    refine ⟨both.1, fewer, within, ?_⟩
    rw [direct, both.2]
    exact ⟨rfl, .refl _⟩
  subst stored
  obtain ⟨newValue, err⟩ := computed
  cases err with
  | some error =>
    simp only [storeComputed, DirectValue.step.write]
    split <;> exact ⟨agrees, rfl⟩
  | none =>
    obtain ⟨b, encoded, read⟩ := faithful.encodes newValue
    simp only [storeComputed, DirectValue.step.write, encoded, StoreKey.set]
    cases failing : faults.set with
    | true => exact ⟨agrees, rfl⟩
    | false => exact ⟨agrees_stored read, rfl⟩

private theorem compute_matches (faithful : codec.Faithful)
    (faults : Faults) :
    ∃ reply, t.compute codec computeFunc faults content = some reply ∧
      Matches codec content (.compute computeFunc, faults)
        ((reply.1, reply.2.1), .value reply.2.2.1 reply.2.2.2) := by
  by_cases absent : t.hasCached = some false
  · -- the store is not asked: the key is known to be missing
    obtain ⟨rfl, uncached⟩ := agrees.absent absent
    have computed : t.compute codec computeFunc faults none =
        some (storeComputed codec t default (computeFunc default false) faults none) := by
      simp [compute, cachedValue, readsStore, absent, uncached]
    exact ⟨_, computed, storeComputed_matches agrees faithful faults.within_of_no_read rfl rfl⟩
  · obtain ⟨reads, missing⟩ := agrees.readsStore absent
    simp only [compute, reads, readCurrent, StoreKey.get]
    cases failing : faults.get with
    | true =>
      refine ⟨_, rfl, agrees, faults, .refl faults, ?_⟩
      simp [DirectValue.step, StoreKey.get, failing, Result.Same]
    | false =>
      cases content with
      | none =>
        rw [missing rfl]
        refine ⟨_, rfl, storeComputed_matches agrees faithful (.refl faults) ?_ rfl⟩
        simp [DirectValue.step, StoreKey.get, failing]
      | some b =>
        obtain ⟨value, read⟩ := faithful.decodes b
        simp only [Bool.false_eq_true, if_false, read]
        refine ⟨_, rfl, storeComputed_matches agrees faithful (.refl faults) ?_ rfl⟩
        simp [DirectValue.step, StoreKey.get, failing, read]

/-- Every call goes through, and is a call of the uncached wrapper. -/
theorem step_matches (faithful : codec.Faithful) :
    ∃ reply, t.step codec content call = some reply ∧ Matches codec content call reply := by
  obtain ⟨call, faults⟩ := call
  cases call with
  | get => exact ⟨_, rfl, get_matches agrees faithful⟩
  | has => exact ⟨_, rfl, has_matches agrees⟩
  | set value => exact ⟨_, rfl, set_matches agrees faithful value⟩
  | delete => exact ⟨_, rfl, delete_matches agrees⟩
  | compute computeFunc =>
    obtain ⟨reply, computed, matched⟩ := compute_matches agrees faithful faults
    exact ⟨_, by simp [step, computed], matched⟩

end Matches

/-- The cache cannot be seen. Whatever the key holds at first and whichever calls of the store
fail, every call returns what it would return with every read made from the store, and leaves a
cache that agrees with it. A read that the cache answers does not fail. -/
theorem cache_transparent (faithful : codec.Faithful) (content : Option Bytes)
    (calls : List (Call V × Faults)) :
    ∃ last results, perform codec {} content calls = some (last, results) ∧
      Agrees codec last.1 last.2 ∧
      ∃ others replies,
        List.Forall₂ (fun call other => other.1 = call.1 ∧ Faults.Within other.2 call.2)
          calls others ∧
        DirectValue.perform codec content others = (last.2, replies) ∧
        List.Forall₂ Result.Same results replies := by
  -- the induction is over runs from any cache that agrees with the store
  have agrees : Agrees codec {} content := agrees_new
  generalize ({} : TypedValue V) = t at agrees ⊢
  induction calls generalizing t content with
  | nil => exact ⟨(t, content), [], rfl, agrees, [], [], .nil, rfl, .nil⟩
  | cons call calls rest =>
    obtain ⟨⟨⟨t', content'⟩, result⟩, ran, kept, fewer, within, stored, same⟩ :=
      step_matches agrees faithful
    obtain ⟨last, results, done, agreed, others, replies, rel, direct, replied⟩ :=
      rest _ _ kept
    refine ⟨last, result :: results, ?_, agreed, (call.1, fewer) :: others, _ :: replies,
      .cons ⟨rfl, within⟩ rel, ?_, .cons same replied⟩
    · simp [perform, ran, done]
    · simp [DirectValue.perform, stored, direct]

/-- Byte slices stored as they are. -/
def plainCodec : Codec Bytes := { vToBytes := .ok, bytesToV := .ok }

/-- A call of each kind, with a store that fails the second one. -/
def mixedCalls : List (Call Bytes × Faults) :=
  [(.compute fun value present => (if present then value else [1], none), {}),
    (.set [2], { set := true }), (.get, {}), (.has, {}), (.delete, {}), (.get, { get := true })]

theorem cache_transparent_mixed :
    ∃ last results, perform plainCodec {} none mixedCalls = some (last, results) ∧
      Agrees plainCodec last.1 last.2 ∧
      ∃ others replies,
        List.Forall₂ (fun call other => other.1 = call.1 ∧ Faults.Within other.2 call.2)
          mixedCalls others ∧
        DirectValue.perform plainCodec none others = (last.2, replies) ∧
        List.Forall₂ Result.Same results replies :=
  cache_transparent ⟨fun value => ⟨value, rfl, rfl⟩, fun b => ⟨b, rfl⟩⟩ none mixedCalls

/-- The value that a call encodes, if it comes to that. -/
def newValue (codec : Codec V) (t : TypedValue V) (content : Option Bytes) : Call V × Faults → Option V
  | (.set value, _) => some value
  | (.compute computeFunc, faults) => do
    let current := t.cachedValue
    let reads ← t.readsStore current.2
    match if reads then readCurrent codec current faults content else .ok current with
    | .error _ => none
    | .ok current =>
      match computeFunc current.1 current.2 with
      | (value, none) => some value
      | (_, some _) => none
  | _ => none

/-- The call returns an error and leaves the caches and the content of the key as they were. -/
def FailsAtomically (codec : Codec V) (t : TypedValue V) (content : Option Bytes)
    (call : Call V × Faults) : Prop :=
  ∃ result, t.step codec content call = some ((t, content), result) ∧ result.err ≠ none

/-- `Compute` does not look at the error of the encoder: only a store that fails as well
keeps the call from storing an empty slice and the value that could not be encoded. -/
theorem encode_error_atomic_iff (codec : Codec V) (t : TypedValue V) (content : Option Bytes)
    (call : Call V × Faults) (new : newValue codec t content call = some value)
    (fails : codec.vToBytes value = .error error) :
    FailsAtomically codec t content call ↔ (∃ value, call.1 = .set value) ∨ call.2.set = true := by
  obtain ⟨call, faults⟩ := call
  unfold FailsAtomically
  cases call with
  | set stored =>
    cases new
    simp [step, TypedValue.set, fails, Result.err]
  | compute computeFunc =>
    obtain ⟨reads, flagged, new⟩ := Option.bind_eq_some_iff.mp new
    simp only [step, compute, flagged, Option.bind_eq_bind, Option.bind_some]
    split at new
    · cases new
    · split at new
      · rename_i computed
        simp only [computed, storeComputed, StoreKey.set]
        cases faults.set <;> simp [Result.err]
      · cases new
  | _ => cases new

/-- A codec whose encoder always fails. -/
def mutilatedCodec : Codec Bytes := { vToBytes := fun _ => .error .store, bytesToV := .ok }

theorem encode_error_atomic_of_set :
    FailsAtomically mutilatedCodec { valueCached := some [1], hasCached := some true } (some [1])
      (.set [2], {}) :=
  (encode_error_atomic_iff mutilatedCodec _ _ (.set [2], {}) rfl rfl).mpr (.inl ⟨_, rfl⟩)

/-- The value that cannot be encoded is cached, an empty slice is stored for it, and the call
returns no error. -/
theorem compute_stores_unencoded :
    newValue mutilatedCodec {} none (.compute fun _ _ => ([1], none), {}) = some [1] ∧
      mutilatedCodec.vToBytes [1] = .error .store ∧
      step mutilatedCodec {} none (.compute fun _ _ => ([1], none), {}) =
        some (({ valueCached := some [1], hasCached := some true }, some []), .value [1] none) ∧
      ¬ FailsAtomically mutilatedCodec {} none (.compute fun _ _ => ([1], none), {}) := by
  refine ⟨rfl, rfl, rfl, ?_⟩
  rintro ⟨_, changed, -⟩
  cases changed

end TypedValue

end HiveGo
