import HiveGo.Sequence

/-! The integers that sequences over one key return: along the restarts of a single
sequence, and from many sequences that are live together. -/
namespace HiveGo

open Sequence Function List Nat Option

/-! One sequence after the other. -/
namespace SequenceLife

/-- The content of the key, the live sequence, whether it has returned an integer since it
was opened, and all integers returned so far. -/
structure State where
  content : Option Bytes
  live : Option Sequence := none
  returned : Bool := false
  issued : List Nat := []

inductive Event where
  | opened (interval : Nat)
  | next (faults : Faults)
  | release (faults : Faults)
  | dropped

/-- The state after a call of `Next`. -/
def record (s : State) (seq : Sequence) (content : Option Bytes) : Except StoreError Nat → State
  | .ok value => { content, live := some seq, returned := true, issued := s.issued ++ [value] }
  | .error _ => { s with content, live := some seq }

/-- There is at most one live sequence; calls on a missing one are not possible. -/
def step (s : State) : Event → Option State
  | .opened interval =>
    match s.live with
    | some _ => none
    | none => (newSequence interval).map fun seq => { s with live := some seq, returned := false }
  | .next faults => do
    let seq ← s.live
    let (seq, content, result) ← seq.nextValue faults s.content
    return record s seq content result
  | .release faults => do
    let seq ← s.live
    let (seq, content, _) := seq.release faults s.content
    return { s with content, live := some seq }
  | .dropped => some { s with live := none }

/-- No refill overflows, and a sequence is released only after it has returned an integer,
unless none was ever returned. -/
def Allowed (s : State) : Event → Prop
  | .next _ => ∀ seq, s.live = some seq → seq.Fits s.content
  | .release _ => s.returned = true ∨ s.issued = []
  | _ => True

/-- The persisted number is beyond everything returned, and the live sequence has reserved
nothing beyond it. -/
structure Inv (s : State) : Prop where
  increasing : s.issued.Pairwise (· < ·)
  below : ∀ value ∈ s.issued, ∃ number, persisted s.content = some number ∧ value < number
  reserved : ∀ seq, s.live = some seq →
    seq.reserved = 0 ∨ ∃ number, persisted s.content = some number ∧ seq.reserved ≤ number
  ahead : ∀ seq, s.live = some seq → s.returned = true ∨ seq.next < seq.reserved →
    ∀ value ∈ s.issued, value < seq.next
  small : ∀ seq, s.live = some seq → seq.reserved < 2 ^ 64 ∧ seq.next < 2 ^ 64

theorem inv_start (content : Option Bytes) : Inv { content } where
  increasing := List.Pairwise.nil
  below := by simp
  reserved := by rintro _ ⟨⟩
  ahead := by rintro _ ⟨⟩
  small := by rintro _ ⟨⟩

private theorem inv_opened {s next : State} {interval : Nat} (inv : Inv s)
    (ran : step s (.opened interval) = some next) : Inv next := by
  unfold step at ran
  cases live : s.live with
  | some seq => simp [live] at ran
  | none =>
    simp only [live] at ran
    obtain ⟨seq, made, rfl⟩ := map_eq_some_iff.mp ran
    unfold newSequence at made
    split at made
    · cases made
      refine ⟨inv.increasing, inv.below, ?_, ?_, ?_⟩
      · rintro _ ⟨⟩
        exact .inl rfl
      · rintro _ ⟨⟩ (⟨⟨⟩⟩ | unused)
        exact absurd unused (Nat.lt_irrefl 0)
      · rintro _ ⟨⟩
        exact ⟨Nat.two_pow_pos 64, Nat.two_pow_pos 64⟩
    · cases made

theorem Inv.beyond (inv : Inv s) (found : persisted s.content = some number) :
    ∀ value ∈ s.issued, value < number := by
  intro value mem
  obtain ⟨other, also, less⟩ := inv.below value mem
  cases found.symm.trans also
  exact less

/-- The invariant after a call that returned a value larger than all before. -/
private theorem inv_returned (inv : Inv s) (moved : seq.next = value + 1)
    (stored : persisted content = some num) (low : value < num)
    (within : seq.reserved ≤ num) (ahead : ∀ other ∈ s.issued, other < value) :
    Inv (record s seq content (.ok value)) := by
  have bound := persisted_lt stored
  have upTo : ∀ other ∈ s.issued ++ [value], other ≤ value := by
    intro other mem
    rcases mem_append.mp mem with before | new
    · exact (ahead other before).le
    · exact (mem_singleton.mp new).le
  refine ⟨?_, fun other mem => ⟨num, stored, (upTo other mem).trans_lt low⟩, ?_, ?_, ?_⟩
  · rw [record, pairwise_append]
    exact ⟨inv.increasing, pairwise_singleton _ _, by simpa using ahead⟩
  · rintro _ ⟨⟩
    exact .inr ⟨num, stored, within⟩
  · rintro _ ⟨⟩ _ other mem
    rw [moved]
    exact lt_succ_of_le (upTo other mem)
  · rintro _ ⟨⟩
    omega

/-- The invariant after a call that returned nothing and left the key as it was. -/
private theorem inv_failed (inv : Inv s) (live : s.live = some seq)
    (reserved : last.reserved = seq.reserved)
    (moved : last.next = seq.next ∨ persisted s.content = some last.next) :
    Inv { s with live := some last } := by
  refine ⟨inv.increasing, inv.below, ?_, ?_, ?_⟩
  · rintro _ ⟨⟩
    rw [reserved]
    exact inv.reserved seq live
  · rintro _ ⟨⟩ used
    rcases moved with same | found
    · rw [same, reserved] at used
      rw [same]
      exact inv.ahead seq live used
    · exact inv.beyond found
  · rintro _ ⟨⟩
    rw [reserved]
    refine ⟨(inv.small seq live).1, ?_⟩
    rcases moved with same | found
    · exact same ▸ (inv.small seq live).2
    · exact persisted_lt found

private theorem inv_next {s next : State} (inv : Inv s)
    (legal : Allowed s (.next faults)) (ran : step s (.next faults) = some next) : Inv next := by
  obtain ⟨seq, live, ran⟩ := bind_eq_some_iff.mp ran
  obtain ⟨⟨last, after, result⟩, called, ran⟩ := bind_eq_some_iff.mp ran
  cases ran
  rcases nextValue_cases (legal seq live) (inv.small seq live).1 called with
    ⟨unused, rfl, rfl, rfl⟩ | ⟨used, ⟨error, rfl⟩, rfl, moved⟩ | ⟨used, num, found, room, rfl, rfl, rfl⟩
  · -- the next integer of the reserved interval
    obtain zero | ⟨num, found, le⟩ := inv.reserved seq live
    · omega
    exact inv_returned inv rfl found (unused.trans_le le) le (inv.ahead seq live (.inr unused))
  · -- the store failed: nothing was returned
    rcases moved with rfl | ⟨num, found, rfl⟩
    · exact inv_failed inv live rfl (.inl rfl)
    · exact inv_failed inv live rfl (.inr found)
  · -- a new interval, which starts at the persisted number
    exact inv_returned inv rfl (persisted_bigEndian room) (Nat.lt_add_of_pos_right seq.positive)
      (le_refl _) (inv.beyond found)

private theorem inv_release {s next : State} (inv : Inv s)
    (legal : Allowed s (.release faults)) (ran : step s (.release faults) = some next) :
    Inv next := by
  obtain ⟨seq, live, ran⟩ := bind_eq_some_iff.mp ran
  have beyond : ∀ value ∈ s.issued, value < seq.next := by
    rcases legal with returned | none
    · exact inv.ahead seq live (.inl returned)
    · simp [none]
  have bounds := inv.small seq live
  unfold Sequence.release StoreKey.set at ran
  cases failing : faults.set
  · simp only [failing, Bool.false_eq_true, if_false] at ran
    cases ran
    have stored := persisted_bigEndian bounds.2
    refine ⟨inv.increasing, fun value mem => ⟨_, stored, beyond value mem⟩, ?_, ?_, ?_⟩
    · rintro _ ⟨⟩
      exact .inr ⟨_, stored, le_refl _⟩
    · rintro _ ⟨⟩ _
      exact beyond
    · rintro _ ⟨⟩
      exact ⟨bounds.2, bounds.2⟩
  · simp only [failing, if_true] at ran
    cases ran
    exact inv_failed inv live rfl (.inl rfl)

theorem inv_step (s : State) (e : Event) (next : State) (inv : Inv s) (legal : Allowed s e)
    (ran : step s e = some next) : Inv next := by
  cases e with
  | opened interval => exact inv_opened inv ran
  | next faults => exact inv_next inv legal ran
  | release faults => exact inv_release inv legal ran
  | dropped =>
    cases ran
    exact ⟨inv.increasing, inv.below, by rintro _ ⟨⟩, by rintro _ ⟨⟩, by rintro _ ⟨⟩⟩

/-- Along every run whose steps are allowed, `Next` returns larger and larger integers,
whatever the key held at the start. -/
theorem issued_increasing {content : Option Bytes} {events : List Event} {last : State}
    (allowed : Along step Allowed { content } events) (ran : run step { content } events = some last) :
    last.issued.Pairwise (· < ·) :=
  (run_invariant_along inv_step (inv_start content) allowed ran).increasing

theorem issued_increasing_over_restart : (run step { content := none }
        [.opened 3, .next {}, .release {}, .dropped, .opened 2, .next {}]).map State.issued =
      some [0, 1] ∧ [0, 1].Pairwise (· < ·) := by
  have legal : Along step Allowed { content := none }
      [.opened 3, .next {}, .release {}, .dropped, .opened 2, .next {}] := by
    refine .cons trivial rfl (.cons ?_ rfl (.cons (.inl rfl) rfl
      (.cons trivial rfl (.cons trivial rfl (.cons ?_ rfl trivial)))))
    · rintro _ ⟨⟩
      exact fits_of_persisted rfl (by decide)
    · rintro _ ⟨⟩
      exact fits_of_persisted rfl (by decide)
  exact ⟨by decide, issued_increasing legal rfl⟩

/-- A sequence that is released before it returned anything sets the key back to zero. -/
theorem release_unused_reissues : (run step { content := none }
      [.opened 2, .next {}, .dropped, .opened 2, .release {}, .next {}]).map State.issued =
        some [0, 0] := by
  decide

end SequenceLife

/-! Sequences that share the key. -/
namespace SharedSequences

variable {ι : Type} [DecidableEq ι]

/-- The content of the key, the sequences, and who returned which integers so far. -/
structure State (ι : Type) where
  content : Option Bytes
  sequences : ι → Sequence
  issued : List (ι × Nat) := []

/-- The integers that one of the sequences has returned, in their order. -/
def issuedBy (issued : List (ι × Nat)) (i : ι) : List Nat :=
  (issued.filter (·.1 = i)).map Prod.snd

def record (issued : List (ι × Nat)) (i : ι) : Except StoreError Nat → List (ι × Nat)
  | .ok value => issued ++ [(i, value)]
  | .error _ => issued

/-- A call of `Next` on one of the sequences. -/
def step (s : State ι) : ι × Faults → Option (State ι)
  | (i, faults) => do
    let (seq, content, result) ← (s.sequences i).nextValue faults s.content
    return { content, sequences := update s.sequences i seq, issued := record s.issued i result }

/-- The call does not overflow. -/
def Allowed (s : State ι) : ι × Faults → Prop
  | (i, _) => (s.sequences i).Fits s.content

/-- The integer is reserved and not returned yet. -/
def Holds (seq : Sequence) (value : Nat) : Prop := seq.next ≤ value ∧ value < seq.reserved

/-- What the sequences hold is theirs alone, was not returned by anybody, and is below the
persisted number, like everything that was returned. -/
structure Inv (s : State ι) : Prop where
  disjoint : ∀ i j value, Holds (s.sequences i) value → Holds (s.sequences j) value → i = j
  reserved : ∀ i, (s.sequences i).reserved = 0 ∨
    ∃ number, persisted s.content = some number ∧ (s.sequences i).reserved ≤ number
  below : ∀ entry ∈ s.issued, ∃ number, persisted s.content = some number ∧ entry.2 < number
  free : ∀ entry ∈ s.issued, ∀ i, ¬ Holds (s.sequences i) entry.2
  ahead : ∀ i value, (i, value) ∈ s.issued → (s.sequences i).next < (s.sequences i).reserved →
    value < (s.sequences i).next
  small : ∀ i, (s.sequences i).reserved < 2 ^ 64
  distinct : (s.issued.map Prod.snd).Nodup
  increasing : ∀ i, (issuedBy s.issued i).Pairwise (· < ·)

theorem inv_start (content : Option Bytes) (sequences : ι → Sequence)
    (unused : ∀ i, (sequences i).next = 0 ∧ (sequences i).reserved = 0) :
    Inv { content, sequences } where
  disjoint i _ value held := by
    have zero := (unused i).2
    have high : value < (sequences i).reserved := held.2
    omega
  reserved i := Or.inl (unused i).2
  below := by simp
  free := by simp
  ahead := by simp
  small i := by
    rw [(unused i).2]
    exact Nat.two_pow_pos 64
  distinct := nodup_nil
  increasing _ := List.Pairwise.nil

/-- The invariant after a call that returned a value: from the value on, what the sequence
holds was nobody's before. -/
private theorem inv_issue {s : State ι} (inv : Inv s) {i : ι} {seq : Sequence}
    {value num : Nat} (stored : persisted content = some num)
    (grown : ∀ earlier, persisted s.content = some earlier → earlier ≤ num)
    (moved : seq.next = value + 1) (low : value < num) (within : seq.reserved ≤ num)
    (small : seq.reserved < 2 ^ 64)
    (free : ∀ other, value ≤ other → other < seq.reserved →
      (∀ j, j ≠ i → ¬ Holds (s.sequences j) other) ∧ ∀ entry ∈ s.issued, entry.2 ≠ other)
    (kept : value < seq.reserved) (own : ∀ other, (i, other) ∈ s.issued → other < value) :
    Inv { content, sequences := update s.sequences i seq,
          issued := s.issued ++ [(i, value)] } := by
  have mine : ∀ {other}, Holds seq other → value < other ∧ other < seq.reserved := by
    intro other held
    unfold Holds at held
    omega
  refine ⟨?_, ?_, ?_, ?_, ?_, ?_, ?_, ?_⟩
  · intro j k other first second
    dsimp only at first second
    by_cases left : j = i <;> by_cases right : k = i
    · rw [left, right]
    · rw [left, update_self] at first
      rw [update_of_ne right] at second
      exact absurd second ((free other (mine first).1.le (mine first).2).1 k right)
    · rw [right, update_self] at second
      rw [update_of_ne left] at first
      exact absurd first ((free other (mine second).1.le (mine second).2).1 j left)
    · rw [update_of_ne left] at first
      rw [update_of_ne right] at second
      exact inv.disjoint j k other first second
  · intro j
    dsimp only
    by_cases same : j = i
    · rw [same, update_self]
      exact .inr ⟨num, stored, within⟩
    · rw [update_of_ne same]
      refine (inv.reserved j).imp_right ?_
      rintro ⟨earlier, found, le⟩
      exact ⟨num, stored, le.trans (grown earlier found)⟩
  · intro entry mem
    refine ⟨num, stored, ?_⟩
    rcases mem_append.mp mem with pre | new
    · obtain ⟨earlier, found, less⟩ := inv.below entry pre
      exact less.trans_le (grown earlier found)
    · rw [mem_singleton] at new
      exact new ▸ low
  · intro entry mem j held
    dsimp only at held
    by_cases same : j = i
    · rw [same, update_self] at held
      rcases mem_append.mp mem with pre | new
      · exact (free entry.2 (mine held).1.le (mine held).2).2 entry pre rfl
      · rw [mem_singleton] at new
        subst new
        exact lt_irrefl _ (mine held).1
    · rw [update_of_ne same] at held
      rcases mem_append.mp mem with pre | new
      · exact inv.free entry pre j held
      · rw [mem_singleton] at new
        subst new
        exact (free value (le_refl _) kept).1 j same held
  · intro j other mem unused
    dsimp only at unused ⊢
    by_cases same : j = i
    · subst same
      rw [update_self, moved]
      rcases mem_append.mp mem with pre | new
      · exact lt_succ_of_lt (own other pre)
      · cases mem_singleton.mp new
        exact lt_succ_self _
    · rw [update_of_ne same] at unused ⊢
      rcases mem_append.mp mem with pre | new
      · exact inv.ahead j other pre unused
      · cases mem_singleton.mp new
        exact absurd rfl same
  · intro j
    dsimp only
    by_cases same : j = i
    · rwa [same, update_self]
    · rw [update_of_ne same]
      exact inv.small j
  · rw [map_append, nodup_append]
    refine ⟨inv.distinct, by simp, ?_⟩
    intro other mem last new
    obtain ⟨entry, pre, rfl⟩ := mem_map.mp mem
    rw [map_singleton, mem_singleton] at new
    rw [new]
    exact (free value (le_refl _) kept).2 entry pre
  · intro j
    by_cases same : i = j
    · subst same
      have split : issuedBy (s.issued ++ [(i, value)]) i = issuedBy s.issued i ++ [value] := by
        simp [issuedBy]
      rw [split, pairwise_append]
      refine ⟨inv.increasing i, pairwise_singleton _ _, ?_⟩
      intro other mem last new
      obtain ⟨entry, pre, rfl⟩ := mem_map.mp mem
      rw [mem_filter, decide_eq_true_eq] at pre
      rw [mem_singleton] at new
      rw [new]
      exact own entry.2 (pre.2 ▸ pre.1)
    · have others : issuedBy (s.issued ++ [(i, value)]) j = issuedBy s.issued j := by
        simp [issuedBy, same]
      rw [others]
      exact inv.increasing j

/-- The invariant after a call that failed: the sequence held nothing and holds nothing. -/
private theorem inv_failed {s : State ι} (inv : Inv s) {i : ι}
    (reserved : seq.reserved = (s.sequences i).reserved) (empty : seq.reserved ≤ seq.next) :
    Inv { s with sequences := update s.sequences i seq } := by
  have still : ∀ {j value}, Holds (update s.sequences i seq j) value →
      Holds (s.sequences j) value := by
    intro j value held
    by_cases same : j = i
    · rw [same, update_self] at held
      unfold Holds at held
      omega
    · rwa [update_of_ne same] at held
  have reserves : ∀ j, (update s.sequences i seq j).reserved = (s.sequences j).reserved := by
    intro j
    by_cases same : j = i
    · rw [same, update_self, reserved]
    · rw [update_of_ne same]
  refine ⟨?_, ?_, inv.below, ?_, ?_, ?_, inv.distinct, inv.increasing⟩
  · exact fun j k value first second => inv.disjoint j k value (still first) (still second)
  · intro j
    rw [reserves]
    exact inv.reserved j
  · exact fun entry mem j held => inv.free entry mem j (still held)
  · intro j value mem unused
    dsimp only at unused ⊢
    by_cases same : j = i
    · rw [same, update_self] at unused
      omega
    · rw [update_of_ne same] at unused ⊢
      exact inv.ahead j value mem unused
  · intro j
    rw [reserves]
    exact inv.small j

theorem inv_step (s : State ι) (e : ι × Faults) (next : State ι) (inv : Inv s)
    (legal : Allowed s e) (ran : step s e = some next) : Inv next := by
  obtain ⟨i, faults⟩ := e
  obtain ⟨⟨seq, content, result⟩, called, ran⟩ := bind_eq_some_iff.mp ran
  cases ran
  rcases nextValue_cases legal (inv.small i) called with ⟨unused, rfl, rfl, rfl⟩ |
    ⟨used, ⟨error, rfl⟩, rfl, moved⟩ | ⟨used, num, found, room, rfl, rfl, rfl⟩
  · -- the next integer of the interval that the sequence holds
    obtain zero | ⟨num, found, le⟩ := inv.reserved i
    · omega
    have holds : ∀ other, (s.sequences i).next ≤ other → other < (s.sequences i).reserved →
        Holds (s.sequences i) other := fun other low high => ⟨low, high⟩
    refine inv_issue inv found (fun earlier also => ?_) rfl (unused.trans_le le) le (inv.small i)
      (fun other low high => ⟨fun j apart held => ?_, fun entry mem same => ?_⟩) unused
      (fun other mem => inv.ahead i other mem unused)
    · cases found.symm.trans also
      exact le_refl _
    · exact apart (inv.disjoint j i other held (holds other low high))
    · exact inv.free entry mem i (same ▸ holds other low high)
  · -- the store failed
    rcases moved with rfl | ⟨num, found, rfl⟩
    · exact inv_failed inv rfl used
    · refine inv_failed inv rfl ?_
      obtain zero | ⟨other, also, le⟩ := inv.reserved i
      · exact zero ▸ zero_le _
      · cases found.symm.trans also
        exact le
  · -- a new interval, beyond everything that was reserved
    have pos := (s.sequences i).positive
    have below : ∀ entry ∈ s.issued, entry.2 < num := by
      intro entry mem
      obtain ⟨_, also, less⟩ := inv.below entry mem
      exact some_inj.mp (also.symm.trans found) ▸ less
    refine inv_issue inv (persisted_bigEndian room) (fun earlier also => ?_) rfl (by omega)
      (le_refl _) room (fun other low high => ⟨fun j apart held => ?_,
        fun entry mem same => ?_⟩) (show num < num + (s.sequences i).interval by omega)
      (fun other mem => below (i, other) mem)
    · cases found.symm.trans also
      omega
    · unfold Holds at held
      obtain zero | ⟨earlier, also, le⟩ := inv.reserved j
      · omega
      · cases found.symm.trans also
        omega
    · have less := below entry mem
      omega

/-- Sequences over the same key never return an integer twice, and each returns larger and
larger ones, in whatever order they are called. -/
theorem issued_distinct {content : Option Bytes} {sequences : ι → Sequence}
    (unused : ∀ i, (sequences i).next = 0 ∧ (sequences i).reserved = 0) {calls : List (ι × Faults)}
    {last : State ι} (allowed : Along step Allowed { content, sequences } calls)
    (ran : run step { content, sequences } calls = some last) :
    (last.issued.map Prod.snd).Nodup ∧ ∀ i, (issuedBy last.issued i).Pairwise (· < ·) := by
  have inv := run_invariant_along inv_step (inv_start content sequences unused) allowed ran
  exact ⟨inv.distinct, inv.increasing⟩

def pair : Bool → Sequence
  | true => { interval := 2, next := 0, reserved := 0, positive := by decide }
  | false => { interval := 1, next := 0, reserved := 0, positive := by decide }

theorem issued_distinct_pair :
    (run step { content := none, sequences := pair } [(true, {}), (false, {}), (true, {}), (true, {})]).map
        State.issued = some [(true, 0), (false, 2), (true, 1), (true, 3)] ∧
      ([0, 2, 1, 3].Nodup ∧ ∀ i, (issuedBy [(true, 0), (false, 2), (true, 1),
          (true, 3)] i).Pairwise (· < ·)) := by
  have legal : Along step Allowed { content := none, sequences := pair }
      [(true, {}), (false, {}), (true, {}), (true, {})] :=
    .cons (fits_of_persisted rfl (by decide)) rfl (.cons (fits_of_persisted rfl (by decide)) rfl
      (.cons (fits_of_persisted rfl (by decide)) rfl
        (.cons (fits_of_persisted rfl (by decide)) rfl trivial)))
  exact ⟨rfl, issued_distinct (by decide) legal rfl⟩

end SharedSequences

end HiveGo
