import HiveGo.Outcome
import HiveGo.ByteOrder

/-! Errors of the serializer packages, and the rules that a collection of
serialized elements has to keep. -/
namespace HiveGo

/-- The error variables that callers match with `Is`. -/
inductive Sentinel where
  | errInvalidBytes
  | errDeserializationTypeMismatch
  | errArrayValidationMinElementsNotReached
  | errArrayValidationMaxElementsExceeded
  | errArrayValidationViolatesUniqueness
  | errArrayValidationViolatesTypeUniqueness
  | errArrayValidationOrderViolatesLexicalOrder
  | errArrayValidationTypesNotOccurred
  | errDeserializationNotEnoughData
  | errDeserializationInvalidBoolValue
  | errDeserializationLengthMinNotReached
  | errDeserializationLengthMaxExceeded
  | errUint256NumNegative
  | errUint256TooBig
  | errUint256Nil
  | errSliceLengthTooShort
  | errSliceLengthTooLong
  | errStringTooShort
  | errStringTooLong
  | errMapValidationViolatesUniqueness
  | errNonUTF8String
  | errInterfaceUnderlyingTypeNotRegistered
  deriving Repr, DecidableEq

/-- An error value: a variable, a new text, a wrapped or a joined error. Wrapping a
nil error gives an error as well. -/
inductive Err where
  | sentinel (name : Sentinel)
  | text (message : String)
  | wrap (cause : Err) (message : String)
  | wrapNil (message : String)
  | join (first second : Err)
  deriving Repr, DecidableEq

/-- Whether the error is, or wraps, the given variable. -/
def Err.is : Err → Sentinel → Bool
  | .sentinel own, target => own == target
  | .text _, _ => false
  | .wrap cause _, target => cause.is target
  | .wrapNil _, _ => false
  | .join first second, target => first.is target || second.is target

/-- How a type code is written in front of an object. -/
inductive TypeDenotationType where
  | uint32
  | byte
  | none
  deriving Repr, DecidableEq

def TypeDenotationType.str : TypeDenotationType → String
  | uint32 => "TypeDenotationUint32"
  | byte => "TypeDenotationByte"
  | none => "TypeDenotationNone"

/-- The bits of the array validation mode. The bits above these four are read by
no function. -/
structure ArrayValidationMode where
  noDuplicates : Bool := false
  lexicalOrdering : Bool := false
  atMostOneOfEachTypeByte : Bool := false
  atMostOneOfEachTypeUint32 : Bool := false
  deriving Repr, DecidableEq

/-- The bits of the de/serialization mode. -/
structure DeSerializationMode where
  performValidation : Bool := false
  performLexicalOrdering : Bool := false
  deriving Repr, DecidableEq

/-- Rules for the elements of a collection; a bound of zero is not set. -/
structure ArrayRules where
  min : UInt64 := 0
  max : UInt64 := 0
  mustOccur : List UInt32 := []
  validationMode : ArrayValidationMode := {}
  deriving Repr, DecidableEq

namespace ArrayRules

/-- Whether a number of elements is within the bounds. -/
def checkBounds (rules : ArrayRules) (count : Nat) : Outcome Err Unit :=
  if rules.min ≠ 0 ∧ count < rules.min.toNat then
    .err (.wrap (.sentinel .errArrayValidationMinElementsNotReached)
      s!"min is {rules.min} but count is {count}")
  else if rules.max ≠ 0 ∧ count > rules.max.toNat then
    .err (.wrap (.sentinel .errArrayValidationMaxElementsExceeded)
      s!"max is {rules.max} but count is {count}")
  else .ok ()

/-- The variables that the validators of one collection keep between two elements. A
byte slice that is nil is `none`. -/
structure Seen where
  set : List (Bytes × Nat) := []
  prev : Option Bytes := none
  prevIndex : Nat := 0
  byteTypes : List (Nat × Nat) := []
  uint32Types : List (Nat × Nat) := []
  deriving Repr, DecidableEq

/-- The contents of a byte slice; a nil slice is empty. -/
def contents (next : Option Bytes) : Bytes := next.getD []

def elementUniqueValidator (seen : Seen) (index : Nat) (next : Option Bytes) : Outcome Err Seen :=
  match seen.set.lookup (contents next) with
  | some j =>
    .err (.wrap (.sentinel .errArrayValidationViolatesUniqueness)
      s!"element {j} and {index} are duplicates")
  | none => .ok { seen with set := (contents next, index) :: seen.set }

def lexicalOrderValidator (seen : Seen) (index : Nat) (next : Option Bytes) : Outcome Err Seen :=
  match seen.prev with
  | none => .ok { seen with prev := next, prevIndex := index }
  | some prev =>
    if ByteOrder.compare prev (contents next) = .gt then
      .err (.wrap (.sentinel .errArrayValidationOrderViolatesLexicalOrder)
        s!"element {index} should have been before element {seen.prevIndex}")
    else .ok { seen with prev := next, prevIndex := index }

def lexicalOrderWithoutDupsValidator (seen : Seen) (index : Nat) (next : Option Bytes) :
    Outcome Err Seen :=
  match seen.prev with
  | none => .ok { seen with prev := next, prevIndex := index }
  | some prev =>
    match ByteOrder.compare prev (contents next) with
    | .gt =>
      .err (.wrap (.sentinel .errArrayValidationOrderViolatesLexicalOrder)
        s!"element {index} should have been before element {seen.prevIndex}")
    | .eq =>
      .err (.wrap (.sentinel .errArrayValidationViolatesUniqueness)
        s!"element {index} and {seen.prevIndex} are duplicates")
    | .lt => .ok { seen with prev := next, prevIndex := index }

/-- The type code in the first bytes of an element, added to the codes seen so far. -/
def atMostOneOfEachType (width : Nat) (seenTypes : List (Nat × Nat)) (index : Nat)
    (next : Option Bytes) : Outcome Err (List (Nat × Nat)) :=
  if (contents next).length < width then
    .err (.wrap (.sentinel .errInvalidBytes) "not enough bytes to check type uniquness in array")
  else
    let key := LittleEndian.get ((contents next).take width)
    match seenTypes.lookup key with
    | some prevIndex =>
      .err (.wrap (.sentinel .errArrayValidationViolatesTypeUniqueness)
        s!"element {index} and {prevIndex} have the same type")
    | none => .ok ((key, index) :: seenTypes)

def atMostOneOfEachTypeValidator (typeDen : TypeDenotationType) (seen : Seen) (index : Nat)
    (next : Option Bytes) : Outcome Err Seen :=
  match typeDen with
  | .uint32 => do
    let uint32Types ← atMostOneOfEachType 4 seen.uint32Types index next
    return { seen with uint32Types }
  | .byte => do
    let byteTypes ← atMostOneOfEachType 1 seen.byteTypes index next
    return { seen with byteTypes }
  | .none => .panicked

/-- Run a validator only if its bit is set. -/
def validateIf (bit : Bool) (validator : Seen → Nat → Option Bytes → Outcome Err Seen)
    (seen : Seen) (index : Nat) (next : Option Bytes) : Outcome Err Seen :=
  if bit then validator seen index next else .ok seen

/-- The validators of the mode, in the order of their bits. Uniqueness and order are
checked together when both bits are set. -/
def elementValidationFunc (rules : ArrayRules) (seen : Seen) (index : Nat) (next : Option Bytes) :
    Outcome Err Seen := do
  let mode := rules.validationMode
  let seen ← validateIf (mode.noDuplicates && !mode.lexicalOrdering) elementUniqueValidator
    seen index next
  let seen ← validateIf (mode.lexicalOrdering && mode.noDuplicates)
    lexicalOrderWithoutDupsValidator seen index next
  let seen ← validateIf (mode.lexicalOrdering && !mode.noDuplicates) lexicalOrderValidator
    seen index next
  let seen ← validateIf mode.atMostOneOfEachTypeByte (atMostOneOfEachTypeValidator .byte)
    seen index next
  validateIf mode.atMostOneOfEachTypeUint32 (atMostOneOfEachTypeValidator .uint32) seen index next

/-- Validate the elements of a collection one after the other. -/
def validateElements (rules : ArrayRules) : Seen → Nat → List (Option Bytes) → Outcome Err Seen
  | seen, _, [] => .ok seen
  | seen, index, next :: rest => do
    let seen ← rules.elementValidationFunc seen index next
    rules.validateElements seen (index + 1) rest

/-! The validators always come back. -/

private theorem atMostOneOfEachType_returned (width : Nat) (seenTypes : List (Nat × Nat))
    (index : Nat) (next : Option Bytes) :
    (atMostOneOfEachType width seenTypes index next).Returned := by
  unfold atMostOneOfEachType
  split
  · trivial
  · dsimp only
    split <;> trivial

theorem elementValidationFunc_returned (rules : ArrayRules) (seen : Seen) (index : Nat)
    (next : Option Bytes) : (rules.elementValidationFunc seen index next).Returned := by
  have guarded : ∀ {bit validator seen}, (validator seen index next).Returned →
      (validateIf bit validator seen index next).Returned := by
    intro bit validator seen done
    cases bit
    · trivial
    · exact done
  refine (guarded ?_).bind fun _ _ => (guarded ?_).bind fun _ _ => (guarded ?_).bind fun _ _ =>
    (guarded ?_).bind fun _ _ => guarded ?_
  · unfold elementUniqueValidator; split <;> trivial
  · unfold lexicalOrderWithoutDupsValidator; split
    · trivial
    · split <;> trivial
  · unfold lexicalOrderValidator; split
    · trivial
    · split <;> trivial
  · exact (atMostOneOfEachType_returned _ _ _ _).bind fun _ _ => trivial
  · exact (atMostOneOfEachType_returned _ _ _ _).bind fun _ _ => trivial

theorem checkBounds_returned (rules : ArrayRules) : (rules.checkBounds count).Returned := by
  unfold checkBounds
  split
  · trivial
  · split <;> trivial

end ArrayRules

end HiveGo
