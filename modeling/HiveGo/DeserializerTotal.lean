import HiveGo.Deserializer

/-! The reader always comes back, and it never leaves its source, also when it goes on
after an error. -/
namespace HiveGo

open Outcome

namespace Deserializer

/-- The number of bytes behind the position. -/
def left (d : Deserializer) : Nat := d.src.length - d.offset

/-- The position is not outside of the source. -/
def Inside (d : Deserializer) : Prop := d.offset ≤ d.src.length

/-- The reader moved forward in its source, or not at all. -/
structure Moves (d next : Deserializer) : Prop where
  src : next.src = d.src
  forth : d.offset ≤ next.offset
  inside : next.Inside

/-- The call comes back, with the reader further on in its source. -/
def Safe {α : Type} (d : Deserializer) (result : Outcome Err (Deserializer × α)) : Prop :=
  result.Returned ∧ ∀ next value, result = .ok (next, value) → d.Moves next

variable {d : Deserializer}
variable {α : Type}

theorem Moves.refl (inside : d.Inside) : d.Moves d := ⟨rfl, Nat.le_refl _, inside⟩

theorem Moves.trans (first : d.Moves next) (second : next.Moves last) : d.Moves last :=
  ⟨second.src.trans first.src, Nat.le_trans first.forth second.forth, second.inside⟩

theorem Moves.left_le (moves : d.Moves next) : next.left ≤ d.left := by
  have := moves.forth
  simp only [left, moves.src]
  omega

theorem moves_fail (inside : d.Inside) : d.Moves (d.fail error) := by
  unfold fail
  split
  · exact Moves.refl inside
  · exact ⟨rfl, Nat.le_refl _, inside⟩

theorem moves_advance (fits : n ≤ d.left) (inside : d.Inside) :
    d.Moves { d with offset := d.offset + n } := by
  refine ⟨rfl, Nat.le_add_right _ _, ?_⟩
  unfold left at fits
  unfold Inside at inside ⊢
  dsimp only
  omega

theorem safe_ok (moves : d.Moves next) : Safe d (.ok (next, value)) :=
  ⟨trivial, by rintro _ _ ⟨⟩; exact moves⟩

theorem safe_err : Safe d (.err error : Outcome Err (Deserializer × α)) :=
  ⟨trivial, by rintro _ _ ⟨⟩⟩

theorem Safe.bind {f : Deserializer × α → Outcome Err (Deserializer × β)} (safe : Safe d x)
    (rest : ∀ next value, x = .ok (next, value) → d.Moves next → Safe next (f (next, value))) :
    Safe d (x >>= f) := by
  constructor
  · exact safe.1.bind fun result same => (rest result.1 result.2 same (safe.2 _ _ same)).1
  · intro last value same
    obtain ⟨⟨next, first⟩, ran, followed⟩ := bind_eq_ok.mp same
    have moves := safe.2 next first ran
    exact moves.trans ((rest next first ran moves).2 last value followed)

theorem Safe.mapErr (safe : Safe d x) (wrap : Err → Err) : Safe d (x.mapErr wrap) :=
  ⟨returned_mapErr.mpr safe.1, fun next value same => safe.2 next value (mapErr_eq_ok.mp same)⟩

/-- What goes on from a place further on, is safe from here as well. -/
theorem Safe.from (moves : d.Moves next) (safe : Safe next x) : Safe d x :=
  ⟨safe.1, fun last value same => moves.trans (safe.2 last value same)⟩

@[simp] theorem length_drop_src : (d.src.drop d.offset).length = d.left :=
  List.length_drop

theorem sliceTo_rest (fits : n ≤ d.left) :
    sliceTo (d.src.drop d.offset) n = .ok ((d.src.drop d.offset).take n) :=
  if_pos (by rwa [length_drop_src])

variable (inside : d.Inside)
include inside

theorem remainingBytes_eq : d.remainingBytes = .ok (d.src.drop d.offset) :=
  if_pos inside

theorem skip_moves : ∃ next, d.skip n errProducer = .ok next ∧ d.Moves next := by
  unfold skip
  split
  · exact ⟨d, rfl, Moves.refl inside⟩
  · rw [remainingBytes_eq inside, ok_bind, length_drop_src]
    split
    · exact ⟨_, rfl, moves_fail inside⟩
    · exact ⟨_, rfl, moves_advance (by omega) inside⟩

theorem readFixed_safe : Safe d (d.readFixed dest width value errProducer) := by
  unfold readFixed
  split
  · exact safe_ok (Moves.refl inside)
  · rw [remainingBytes_eq inside, ok_bind, length_drop_src]
    split
    · exact safe_ok (moves_fail inside)
    · rw [sliceTo_rest (by omega), ok_bind]
      exact safe_ok (moves_advance (by omega) inside)

theorem readBool_safe (dest : Bool) : Safe d (d.readBool dest errProducer) := by
  unfold readBool
  split
  · exact safe_ok (Moves.refl inside)
  · rw [remainingBytes_eq inside, ok_bind]
    split
    · exact safe_ok (moves_fail inside)
    · rename_i byte rest split
      have more : 1 ≤ d.left := by
        rw [← length_drop_src, split]
        simp
      split
      · exact safe_ok (moves_advance more inside)
      · split
        · exact safe_ok (moves_advance more inside)
        · exact safe_ok (moves_fail inside)

/-- A length that was read is behind the reader. -/
theorem readSliceLength_safe (supported : lenType ≠ .asUint64) (errProducer : Err → Err) :
    Safe d (d.readSliceLength lenType errProducer) ∧
      ∀ next length, d.readSliceLength lenType errProducer = .ok (next, length) →
        next.left < d.left := by
  obtain ⟨size, sized, more⟩ : ∃ size, lenType.size = some size ∧ 0 < size := by
    cases lenType with
    | asUint64 => exact absurd rfl supported
    | _ => exact ⟨_, rfl, by decide⟩
  unfold readSliceLength
  rw [remainingBytes_eq inside, ok_bind, sized]
  dsimp only
  rw [length_drop_src]
  split
  · exact ⟨safe_err, by rintro _ _ ⟨⟩⟩
  · rw [sliceTo_rest (by omega), ok_bind]
    refine ⟨safe_ok (moves_advance (by omega) inside), ?_⟩
    rintro _ _ ⟨⟩
    unfold left at *
    dsimp only
    omega

theorem readPayloadLength_safe : Safe d d.readPayloadLength ∧
      ∀ next length, d.readPayloadLength = .ok (next, length) → next.left < d.left := by
  unfold readPayloadLength
  rw [remainingBytes_eq inside, ok_bind, length_drop_src]
  split
  · exact ⟨safe_err, by rintro _ _ ⟨⟩⟩
  · rw [sliceTo_rest (by omega), ok_bind]
    refine ⟨safe_ok (moves_advance (by omega) inside), ?_⟩
    rintro _ _ ⟨⟩
    unfold left at *
    dsimp only
    omega

theorem keeping_safe (dest : β) {rest : α → Outcome Err (Deserializer × β)} (done : call.Returned)
    (followed : ∀ value, call = .ok value → Safe d (rest value)) :
    Safe d (d.keeping dest call rest) := by
  cases call with
  | ok value => exact followed value rfl
  | err error => exact safe_ok (moves_fail inside)
  | panicked => exact done.elim
  | timeout => exact done.elim

/-- What is read behind a length. -/
theorem counted_safe (dest : β) {body : Deserializer × Nat → Outcome Err (Deserializer × β)}
    (supported : lenType ≠ .asUint64) (errProducer : Err → Err)
    (safe : ∀ next length, next.Inside → Safe next (body (next, length))) :
    Safe d (d.keeping dest (d.readSliceLength lenType errProducer) body) := by
  have length := (readSliceLength_safe inside supported errProducer).1
  refine keeping_safe inside dest length.1 fun read ran => ?_
  have moves := length.2 read.1 read.2 ran
  exact Safe.from moves (safe _ _ moves.inside)

/-- A length that is checked does not move the reader. -/
theorem checkLength_moves :
    d.Moves (d.checkLength length minLen maxLen tooLongText tooShortText errProducer) := by
  unfold checkLength
  split
  · exact moves_fail inside
  · split
    · exact moves_fail inside
    · exact Moves.refl inside

theorem readBody_safe (dest : Bytes) (length : Nat) (tooFew : Nat → Err) :
    Safe d (d.readBody dest length tooFew) := by
  unfold readBody
  rw [remainingBytes_eq inside, ok_bind, length_drop_src]
  split
  · exact safe_ok ⟨rfl, Nat.le_refl _, inside⟩
  · rw [sliceTo_rest (by omega), ok_bind]
    exact safe_ok (moves_advance (by omega) inside)

theorem readVariableByteSlice_safe (dest : Bytes) (supported : lenType ≠ .asUint64)
    (errProducer : Err → Err) (minLen maxLen : Int) :
    Safe d (d.readVariableByteSlice dest lenType errProducer minLen maxLen) := by
  unfold readVariableByteSlice
  split
  · exact safe_ok (Moves.refl inside)
  · refine counted_safe inside dest supported errProducer fun next length inside => ?_
    dsimp only
    split
    · exact safe_ok (checkLength_moves inside)
    · exact Safe.from (checkLength_moves inside) (readBody_safe (checkLength_moves inside).inside _ _ _)

theorem readString_safe (dest : Bytes) (supported : lenType ≠ .asUint64) (errProducer : Err → Err)
    (minLen maxLen : Int) : Safe d (d.readString dest lenType errProducer minLen maxLen) := by
  unfold readString
  split
  · exact safe_ok (Moves.refl inside)
  · refine counted_safe inside dest supported errProducer fun next length inside => ?_
    exact Safe.from (checkLength_moves inside) (readBody_safe (checkLength_moves inside).inside _ _ _)

theorem getObjectType_returned : (d.getObjectType typeDen).Returned := by
  unfold getObjectType
  rw [remainingBytes_eq inside, ok_bind]
  cases typeDen with
  | none => trivial
  | uint32 | byte =>
    rw [length_drop_src]
    dsimp only
    split
    · trivial
    · rw [sliceTo_rest (by omega)]
      trivial

theorem checkTypePrefix_moves (coded : typeDen ≠ .none) :
    ∃ next, d.checkTypePrefix code typeDen errProducer = .ok next ∧ d.Moves next := by
  unfold checkTypePrefix
  split
  · exact ⟨d, rfl, Moves.refl inside⟩
  · rw [remainingBytes_eq inside, ok_bind]
    cases typeDen with
    | none => exact absurd rfl coded
    | uint32 =>
      have done : (checkType (d.src.drop d.offset) code).Returned := by
        unfold checkType
        split
        · trivial
        · dsimp only
          split <;> trivial
      dsimp only
      split
      · exact skip_moves inside
      · exact ⟨_, rfl, moves_fail inside⟩
      · simp_all [Returned]
      · simp_all [Returned]
    | byte =>
      have done : (checkTypeByte (d.src.drop d.offset) code.toUInt8).Returned := by
        unfold checkTypeByte
        split
        · trivial
        · split <;> trivial
      dsimp only
      split
      · exact skip_moves inside
      · exact ⟨_, rfl, moves_fail inside⟩
      · simp_all [Returned]
      · simp_all [Returned]

omit inside

/-- The reader of one item comes back on every input shorter than the given length, and
reads no more than the input has. -/
def ItemSafe {σ : Type} (item : σ → Bytes → Outcome Err (σ × Nat)) (limit : Nat) : Prop :=
  ∀ acc b, b.length < limit → (item acc b).Returned ∧
    ∀ next n, item acc b = .ok (next, n) → n ≤ b.length

theorem readItems_safe {item : σ → Bytes → Outcome Err (σ × Nat)}
    (items : ItemSafe item limit) (count : Nat) :
    ∀ index seen d acc, Inside d → d.left < limit →
      Safe d (readItems item rules errProducer count index seen d acc) := by
  induction count with
  | zero => exact fun _ _ _ _ inside _ => safe_ok (Moves.refl inside)
  | succ count ih =>
    intro index seen d acc inside short
    unfold readItems
    rw [remainingBytes_eq inside, ok_bind]
    obtain ⟨done, small⟩ := items acc (d.src.drop d.offset) (by rw [length_drop_src]; exact short)
    refine keeping_safe inside acc (returned_mapErr.mpr done) fun read ran => ?_
    obtain ⟨next, bytesRead⟩ := read
    have fits := small next bytesRead (mapErr_eq_ok.mp ran)
    rw [length_drop_src] at fits
    have moves := moves_advance fits inside
    refine Safe.from moves ?_
    cases rules with
    | none => exact ih _ _ _ _ moves.inside (Nat.lt_of_le_of_lt moves.left_le short)
    | some arrayRules =>
      dsimp only
      rw [sliceTo_rest fits, ok_bind]
      refine keeping_safe moves.inside _
        (returned_mapErr.mpr (ArrayRules.elementValidationFunc_returned _ _ _ _)) fun seen _ => ?_
      exact ih _ _ _ _ moves.inside (Nat.lt_of_le_of_lt moves.left_le short)

/-- The items of a sequence are read behind its length. -/
theorem readSequenceOfObjects_safe (inside : d.Inside)
    {item : σ → Bytes → Outcome Err (σ × Nat)} (items : ItemSafe item limit)
    (short : d.left ≤ limit) (acc : σ) (supported : lenType ≠ .asUint64) (arrayRules : ArrayRules)
    (errProducer : Err → Err) :
    Safe d (d.readSequenceOfObjects acc item deSeriMode lenType arrayRules errProducer) := by
  unfold readSequenceOfObjects
  split
  · exact safe_ok (Moves.refl inside)
  · obtain ⟨length, behind⟩ := readSliceLength_safe inside supported errProducer
    refine keeping_safe inside acc length.1 fun read ran => ?_
    obtain ⟨next, sliceLength⟩ := read
    have moves := length.2 next sliceLength ran
    have less := behind next sliceLength ran
    refine Safe.from moves ?_
    refine keeping_safe moves.inside acc ?_ fun _ _ => ?_
    · split
      · exact returned_mapErr.mpr (ArrayRules.checkBounds_returned _)
      · trivial
    · exact readItems_safe items _ _ _ _ _ moves.inside (by omega)

end Deserializer

end HiveGo
