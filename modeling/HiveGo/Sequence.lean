import HiveGo.Runs
import HiveGo.KVMap

/-! A sequence of integers that is backed by a key of a store, which holds the number up to
which integers are reserved. -/
namespace HiveGo

/-- The fields of a `Sequence`: all of them 64 bits wide, and the interval not zero. -/
structure Sequence where
  interval : Nat
  next : Nat
  reserved : Nat
  positive : 0 < interval

namespace Sequence

/-- `NewSequence`, which panics for the interval zero. -/
def newSequence (interval : Nat) : Option Sequence :=
  if positive : 0 < interval then some { interval, next := 0, reserved := 0, positive } else none

/-- Reserve the interval that starts with the number, and set it in the store. -/
def reserve (seq : Sequence) (number : Nat) (faults : Faults) (content : Option Bytes) :
    Sequence × Option Bytes × Except StoreError Unit :=
  let seq := { seq with next := number }
  let reserved := (number + seq.interval) % 2 ^ 64
  match StoreKey.set faults (bigEndian reserved) with
  | .error error => (seq, content, .error error)
  | .ok content => ({ seq with reserved }, content, .ok ())

/-- `update`: the sequence, the content of the key and the result; a value of less than
eight bytes in the store is a panic. -/
def update (seq : Sequence) (faults : Faults) (content : Option Bytes) :
    Option (Sequence × Option Bytes × Except StoreError Unit) :=
  match StoreKey.get faults content with
  | .error .keyNotFound => some (seq.reserve 0 faults content)
  | .error error => some (seq, content, .error error)
  | .ok value => (ofBigEndian value).map fun number => seq.reserve number faults content

/-- `Next`, with the integer that it returns. -/
def nextValue (seq : Sequence) (faults : Faults) (content : Option Bytes) :
    Option (Sequence × Option Bytes × Except StoreError Nat) := do
  let (seq, content, updated) ←
    if seq.reserved ≤ seq.next then seq.update faults content else some (seq, content, .ok ())
  match updated with
  | .error error => return (seq, content, .error error)
  | .ok () => return ({ seq with next := (seq.next + 1) % 2 ^ 64 }, content, .ok seq.next)

def release (seq : Sequence) (faults : Faults) (content : Option Bytes) :
    Sequence × Option Bytes × Except StoreError Unit :=
  match StoreKey.set faults (bigEndian seq.next) with
  | .error error => (seq, content, .error error)
  | .ok content => ({ seq with reserved := seq.next }, content, .ok ())

/-- The number that a refill starts from: zero for a missing key. -/
def persisted : Option Bytes → Option Nat
  | none => some 0
  | some value => ofBigEndian value

/-- The next refill does not overflow. -/
def Fits (seq : Sequence) (content : Option Bytes) : Prop :=
  seq.reserved ≤ seq.next → ∀ number, persisted content = some number →
    number + seq.interval < 2 ^ 64

variable {seq : Sequence}

theorem fits_of_persisted (found : persisted content = some number)
    (room : number + seq.interval < 2 ^ 64) : seq.Fits content := by
  intro _ other also
  cases found.symm.trans also
  exact room

theorem persisted_lt (found : persisted content = some number) : number < 2 ^ 64 := by
  cases content with
  | none =>
    cases found
    decide
  | some value =>
    change ofBigEndian value = some number at found
    unfold ofBigEndian at found
    split at found
    · cases found
    · cases found
      have bound := LittleEndian.get_lt (value.take 8).reverse
      rwa [List.length_reverse, List.length_take_of_le (by omega)] at bound

theorem persisted_bigEndian (small : number < 2 ^ 64) :
    persisted (some (bigEndian number)) = some number := ofBigEndian_bigEndian small

/-- What an update can do: nothing, when it cannot read the store; move to the persisted
number, when it cannot write; or reserve the interval that starts there. -/
theorem update_cases (fits : ∀ num, persisted content = some num → num + seq.interval < 2 ^ 64)
    (ran : seq.update faults content = some (last, after, result)) :
    (last = seq ∧ after = content ∧ result = .error .failed) ∨
      ∃ num, persisted content = some num ∧
        ((last = { seq with next := num } ∧ after = content ∧ result = .error .failed) ∨
          (last = { seq with next := num, reserved := num + seq.interval } ∧
            after = some (bigEndian (num + seq.interval)) ∧ result = .ok ())) := by
  have reserving : ∀ num, persisted content = some num →
      seq.reserve num faults content = (last, after, result) →
      (last = { seq with next := num } ∧ after = content ∧ result = .error .failed) ∨
        (last = { seq with next := num, reserved := num + seq.interval } ∧
          after = some (bigEndian (num + seq.interval)) ∧ result = .ok ()) := by
    intro num found reserved
    have room := fits num found
    unfold reserve StoreKey.set at reserved
    cases failing : faults.set
    · simp only [failing, Bool.false_eq_true, if_false, Prod.mk.injEq, Nat.mod_eq_of_lt room] at reserved
      obtain ⟨rfl, rfl, rfl⟩ := reserved
      exact .inr ⟨rfl, rfl, rfl⟩
    · simp only [failing, if_true, Prod.mk.injEq] at reserved
      obtain ⟨rfl, rfl, rfl⟩ := reserved
      exact .inl ⟨rfl, rfl, rfl⟩
  unfold update StoreKey.get at ran
  cases failing : faults.get
  · rw [failing] at ran
    cases content with
    | none => exact .inr ⟨0, rfl, reserving 0 rfl (Option.some.inj ran)⟩
    | some value =>
      obtain ⟨num, found, reserved⟩ := Option.map_eq_some_iff.mp ran
      exact .inr ⟨num, found, reserving num found reserved⟩
  · rw [failing] at ran
    cases ran
    exact .inl ⟨rfl, rfl, rfl⟩

/-- What `Next` can do: return the next reserved integer; fail, having moved at most to the
persisted number; or return that number as the first of an interval that it reserves. -/
theorem nextValue_cases (fits : seq.Fits content) (small : seq.reserved < 2 ^ 64)
    (ran : seq.nextValue faults content = some (last, after, result)) :
    (seq.next < seq.reserved ∧ last = { seq with next := seq.next + 1 } ∧ after = content ∧
        result = .ok seq.next) ∨
      (seq.reserved ≤ seq.next ∧ (∃ error, result = .error error) ∧ after = content ∧
        (last = seq ∨ ∃ num, persisted content = some num ∧ last = { seq with next := num })) ∨
      (seq.reserved ≤ seq.next ∧ ∃ num, persisted content = some num ∧ num + seq.interval < 2 ^ 64 ∧
        last = { seq with next := num + 1, reserved := num + seq.interval } ∧
        after = some (bigEndian (num + seq.interval)) ∧ result = .ok num) := by
  unfold nextValue at ran
  by_cases used : seq.reserved ≤ seq.next
  · rw [if_pos used] at ran
    obtain ⟨⟨middle, between, updated⟩, refilled, ran⟩ := Option.bind_eq_some_iff.mp ran
    rcases update_cases (fits used) refilled with ⟨rfl, rfl, rfl⟩ |
      ⟨num, found, ⟨rfl, rfl, rfl⟩ | ⟨rfl, rfl, rfl⟩⟩
    · cases ran
      exact .inr (.inl ⟨used, ⟨_, rfl⟩, rfl, .inl rfl⟩)
    · cases ran
      exact .inr (.inl ⟨used, ⟨_, rfl⟩, rfl, .inr ⟨num, found, rfl⟩⟩)
    · have room := fits used num found
      have pos := seq.positive
      cases ran
      refine .inr (.inr ⟨used, num, found, room, ?_, rfl, rfl⟩)
      dsimp only
      rw [Nat.mod_eq_of_lt (by omega)]
  · rw [if_neg used] at ran
    cases ran
    refine .inl ⟨by omega, ?_, rfl, rfl⟩
    rw [Nat.mod_eq_of_lt (by omega)]

end Sequence

end HiveGo
