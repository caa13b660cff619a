import HiveGo.Serializer

/-! What the writer has written when it ends without an error. -/
namespace HiveGo
open LittleEndian Outcome

namespace Serializer

/-- A writer without an error. -/
def of (written : Bytes) : Serializer := { buf := written }

theorem empty_eq : ({} : Serializer) = of [] := rfl

@[simp] theorem of_err : (of written).err = none := rfl

@[simp] theorem of_inj : of left = of right ↔ left = right := by
  simp [of]

@[simp] theorem writeBytes_of : (of written).writeBytes data = of (written ++ data) := rfl

@[simp] theorem serialize_of : (of written).serialize = .ok written := rfl

theorem serialize_eq_ok : s.serialize = .ok b ↔ s = of b := by
  obtain ⟨buf, err⟩ := s
  cases err <;> simp [serialize, of]

/-- Ending a write gives the bytes exactly when the writer is without an error. -/
theorem written_eq_ok : (write >>= serialize) = .ok b ↔ write = .ok (of b) := by
  cases write <;> simp [serialize_eq_ok]

private theorem fail_of_ne :
    (ok ((of written).fail error) : Outcome Err Serializer) ≠ .ok (of b) := by
  simp [fail, of]

theorem writeSliceLength_of : (of written).writeSliceLength l lenType errProducer = .ok (of b) ↔
      ∃ size, lenType.size = some size ∧ l < 256 ^ size ∧ b = written ++ put size l := by
  unfold writeSliceLength
  cases known : lenType.size with
  | none => simp
  | some size =>
    by_cases large : l ≥ 256 ^ size
    · simp only [of_err, large, if_true, fail_of_ne, false_iff]
      rintro ⟨_, ⟨⟩, small, _⟩
      omega
    · simp only [of_err, large, if_false, writeNum, writeBytes_of]
      constructor
      · intro same
        cases same
        exact ⟨size, rfl, by omega, rfl⟩
      · rintro ⟨_, ⟨⟩, _, rfl⟩
        rfl

/-- The length prefix never leaves a clean writer with an error and goes on. -/
private theorem writeSliceLength_bind (stops : ∀ s, s.err ≠ none → next s ≠ .ok (of b)) :
    ((of wrote).writeSliceLength l lenType errProducer >>= next) = .ok (of b) ↔
      ∃ size, lenType.size = some size ∧ l < 256 ^ size ∧
        next (of (wrote ++ put size l)) = .ok (of b) := by
  constructor
  · intro wrote
    obtain ⟨s, prefixed, later⟩ := bind_eq_ok.mp wrote
    have clean : s.err = none := by
      by_contra kept
      exact stops s kept later
    have same : s = of s.buf := by
      obtain ⟨buf, err⟩ := s
      cases clean
      rfl
    rw [same] at prefixed later
    obtain ⟨size, known, small, split⟩ := writeSliceLength_of.mp prefixed
    rw [split] at later
    exact ⟨size, known, small, later⟩
  · rintro ⟨size, known, small, later⟩
    exact bind_eq_ok.mpr ⟨_, writeSliceLength_of.mpr ⟨size, known, small, rfl⟩, later⟩

private theorem writeBytes_ne {s : Serializer} (kept : s.err ≠ none) :
    (pure (s.writeBytes data) : Outcome Err Serializer) ≠ .ok (of b) := by
  obtain ⟨buf, err⟩ := s
  cases err with
  | none => exact absurd rfl kept
  | some error => simp [writeBytes, of]

/-- A length prefix, within the bounds, followed by the data. -/
private theorem counted_of :
    (if tooLong data.length maxLen then .ok ((of []).fail tooMany)
      else if tooShort data.length minLen then .ok ((of []).fail tooFew)
      else (of []).writeSliceLength data.length lenType errProducer >>= fun s =>
        pure (s.writeBytes data)) = .ok (of b) ↔
      (tooLong data.length maxLen = false ∧ tooShort data.length minLen = false) ∧
      ∃ size, lenType.size = some size ∧ data.length < 256 ^ size ∧
        b = put size data.length ++ data := by
  have same : ∀ size, (pure ((of ([] ++ put size data.length)).writeBytes data) :
      Outcome Err Serializer) = .ok (of b) ↔ b = put size data.length ++ data := by
    intro size
    rw [writeBytes_of, pure_eq, ok.injEq, of_inj, List.nil_append]
    exact eq_comm
  cases long : tooLong data.length maxLen with
  | true => simp [fail, of]
  | false =>
    cases short : tooShort data.length minLen with
    | true => simp [fail, of]
    | false =>
      simp only [Bool.false_eq_true, if_false, and_self, true_and,
        writeSliceLength_bind fun s kept => writeBytes_ne kept, same]

theorem writeVariableByteSlice_of :
    (of []).writeVariableByteSlice data lenType errProducer minLen maxLen = .ok (of b) ↔
      (tooLong data.length maxLen = false ∧ tooShort data.length minLen = false) ∧
      ∃ size, lenType.size = some size ∧ data.length < 256 ^ size ∧
        b = put size data.length ++ data := counted_of

theorem writeString_of : (of []).writeString str lenType errProducer minLen maxLen = .ok (of b) ↔
      (tooLong str.length maxLen = false ∧ tooShort str.length minLen = false) ∧
      ∃ size, lenType.size = some size ∧ str.length < 256 ^ size ∧
        b = put size str.length ++ str := counted_of

/-- The elements are accepted by the rules that are enforced. -/
def Accepted (rules : Option ArrayRules) (seen : ArrayRules.Seen) (index : Nat)
    (data : List (Option Bytes)) : Prop :=
  ∀ arrayRules, rules = some arrayRules →
    ∃ after, arrayRules.validateElements seen index data = .ok after

theorem writeElements_of : ∀ {wrote : Bytes} {seen : ArrayRules.Seen} {index : Nat},
      writeElements rules errProducer (of wrote) seen index data = .ok (of b) ↔
        Accepted rules seen index data ∧ b = wrote ++ (data.map ArrayRules.contents).flatten := by
  induction data with
  | nil =>
    intro wrote seen index
    have taken : Accepted rules seen index [] := fun arrayRules _ => ⟨seen, rfl⟩
    simp [writeElements, taken, eq_comm]
  | cons element data ih =>
    intro wrote seen index
    cases rules with
    | none =>
      have taken : ∀ seen index data, Accepted none seen index data := by
        rintro seen index data _ ⟨⟩
      simp [writeElements, ih, taken]
    | some arrayRules =>
      have step : Accepted (some arrayRules) seen index (element :: data) ↔
          ∃ after, arrayRules.elementValidationFunc seen index element = .ok after ∧
            Accepted (some arrayRules) after (index + 1) data := by
        constructor
        · intro taken
          obtain ⟨last, taken⟩ := taken arrayRules rfl
          obtain ⟨after, first, later⟩ := bind_eq_ok.mp taken
          exact ⟨after, first, by rintro _ ⟨⟩; exact ⟨last, later⟩⟩
        · rintro ⟨after, first, later⟩ _ ⟨⟩
          obtain ⟨last, later⟩ := later arrayRules rfl
          exact ⟨last, bind_eq_ok.mpr ⟨after, first, later⟩⟩
      rw [step]
      cases validated : arrayRules.elementValidationFunc seen index element with
      | ok after => simp [writeElements, validated, ih]
      | err error => simp [writeElements, validated, fail, of]
      | panicked => simp [writeElements, validated]
      | timeout => simp [writeElements, validated]

/-- A collection is the number of its elements, within the bounds, and the elements in
their order, if the rules accept them. -/
theorem writeSliceOfByteSlices_of :
    (of []).writeSliceOfByteSlices data mode lenType rules errProducer = .ok (of b) ↔
      (mode.performValidation = true → rules.checkBounds data.length = .ok () ∧
        ∃ after, rules.validateElements {} 0 (arranged mode rules data) = .ok after) ∧
      ∃ size, lenType.size = some size ∧ data.length < 256 ^ size ∧
        b = put size data.length ++
          ((arranged mode rules data).map ArrayRules.contents).flatten := by
  have body : ∀ validation, ((of []).writeSliceLength data.length lenType errProducer >>= fun s =>
        s.writeAllElements validation errProducer (arranged mode rules data)) = .ok (of b) ↔
        Accepted validation {} 0 (arranged mode rules data) ∧
        ∃ size, lenType.size = some size ∧ data.length < 256 ^ size ∧ b = put size data.length ++
            ((arranged mode rules data).map ArrayRules.contents).flatten := by
    intro validation
    rw [writeSliceLength_bind]
    · simp only [writeAllElements, of_err, writeElements_of, List.nil_append]
      constructor
      · rintro ⟨size, known, small, taken, same⟩
        exact ⟨taken, size, known, small, same⟩
      · rintro ⟨taken, size, known, small, same⟩
        exact ⟨size, known, small, taken, same⟩
    · intro s kept
      obtain ⟨buf, err⟩ := s
      cases err with
      | none => exact absurd rfl kept
      | some error => simp [writeAllElements, of]
  unfold writeSliceOfByteSlices
  cases done : mode.performValidation with
  | false =>
    have taken : Accepted none {} 0 (arranged mode rules data) := by rintro _ ⟨⟩
    have same := body none
    simp only [taken, true_and] at same
    simpa using same
  | true =>
    have taken : Accepted (some rules) {} 0 (arranged mode rules data) ↔
        ∃ after, rules.validateElements {} 0 (arranged mode rules data) = .ok after :=
      ⟨fun taken => taken rules rfl, by rintro ⟨after, ran⟩ _ ⟨⟩; exact ⟨after, ran⟩⟩
    have same := body (some rules)
    rw [taken] at same
    cases rules.checkBounds data.length with
    | ok _ => simpa using same
    | err error => simp [fail, of]
    | panicked => simp
    | timeout => simp

end Serializer

end HiveGo
