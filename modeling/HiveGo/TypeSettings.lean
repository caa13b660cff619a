import HiveGo.GoTypes

/-! Type settings, struct tags, and the registries of an API. The declarations of
the program stand beside the registries, because reflection gives serix access
to both. -/
namespace HiveGo

/-- An object type: the code together with its width. -/
inductive ObjectType where
  | uint8 (code : UInt8)
  | uint32 (code : UInt32)
  deriving Repr, DecidableEq

namespace ObjectType

/-- `getTypeDenotationAndCode` for an object type that is set. -/
def typeDenAndCode : ObjectType → TypeDenotationType × UInt32
  | uint8 code => (.byte, code.toUInt32)
  | uint32 code => (.uint32, code)

/-- The bytes of the code. -/
def bytes : ObjectType → Bytes
  | uint8 code => LittleEndian.put 1 code.toNat
  | uint32 code => LittleEndian.put 4 code.toNat

end ObjectType

/-- The settings of a type; every part may be unset. -/
structure TypeSettings where
  fieldKey : Option Bytes := none
  objectType : Option ObjectType := none
  lengthPrefixType : Option SeriLengthPrefixType := none
  lexicalOrdering : Option Bool := none
  arrayRules : Option ArrayRules := none
  deriving Repr, DecidableEq

/-- The conversion of an unsigned bound to `int`. -/
def goInt (n : UInt64) : Int := wrapInt64 n.toNat

namespace TypeSettings

def minLen (ts : TypeSettings) : Option UInt64 :=
  match ts.arrayRules with
  | some rules => if rules.min = 0 then none else some rules.min
  | none => none

def maxLen (ts : TypeSettings) : Option UInt64 :=
  match ts.arrayRules with
  | some rules => if rules.max = 0 then none else some rules.max
  | none => none

def minMaxLen (ts : TypeSettings) : Int × Int :=
  match ts.arrayRules with
  | some rules => (goInt rules.min, goInt rules.max)
  | none => (0, 0)

/-- The rules, or no rules at all. -/
def rules (ts : TypeSettings) : ArrayRules := ts.arrayRules.getD {}

/-- Maps are always sorted, and always checked to be. -/
def ensureOrdering (ts : TypeSettings) : TypeSettings :=
  { ts with
    lexicalOrdering := some true
    arrayRules := some { ts.rules with
      validationMode := { ts.rules.validationMode with lexicalOrdering := true } } }

/-- The settings themselves, and the other ones where they are unset. -/
def merge (ts other : TypeSettings) : TypeSettings where
  lengthPrefixType := ts.lengthPrefixType.or other.lengthPrefixType
  objectType := ts.objectType.or other.objectType
  lexicalOrdering := ts.lexicalOrdering.or other.lexicalOrdering
  arrayRules := ts.arrayRules.or other.arrayRules
  fieldKey := ts.fieldKey.or other.fieldKey

@[simp] theorem merge_self (ts : TypeSettings) : ts.merge ts = ts := by
  simp [merge]

@[simp] theorem merge_empty (ts : TypeSettings) : ts.merge {} = ts := by
  simp [merge]

@[simp] theorem empty_merge : ({} : TypeSettings).merge ts = ts := by
  simp [merge]

theorem merge_assoc (a b c : TypeSettings) : (a.merge b).merge c = a.merge (b.merge c) := by
  simp [merge, Option.or_assoc]

/-- Merging the same settings a second time changes nothing. -/
@[simp] theorem merge_merge_self (ts other : TypeSettings) :
    (ts.merge other).merge other = ts.merge other := by
  rw [merge_assoc, merge_self]

def checkMinMaxBoundsLength (ts : TypeSettings) (length : Nat) : Outcome Err Unit :=
  match ts.minLen.filter (fun minLen => length < minLen.toNat) with
  | some minLen =>
    .err (.wrap (.sentinel .errArrayValidationMinElementsNotReached)
      s!"min length {minLen} not reached (len {length})")
  | none =>
    match ts.maxLen.filter (fun maxLen => length > maxLen.toNat) with
    | some maxLen =>
      .err (.wrap (.sentinel .errArrayValidationMaxElementsExceeded)
        s!"max length {maxLen} exceeded (len {length})")
    | none => .ok ()

end TypeSettings

/-- The options of a call. -/
structure Options where
  validation : Bool := false
  ts : TypeSettings := {}
  deriving Repr, DecidableEq

def TypeSettings.toMode (ts : TypeSettings) (opts : Options) : DeSerializationMode where
  performValidation := opts.validation
  performLexicalOrdering := ts.lexicalOrdering == some true

/-- What a serix struct tag can set. -/
structure TagSettings where
  fieldKey : Option Bytes := none
  isOptional : Bool := false
  inlined : Bool := false
  omitEmpty : Bool := false
  lenPrefix : Option SeriLengthPrefixType := none
  minLen : Option UInt64 := none
  maxLen : Option UInt64 := none
  deriving Repr, DecidableEq

/-- The type settings of a tag: it sets no object type and no ordering. -/
def TagSettings.ts (tag : TagSettings) : TypeSettings where
  fieldKey := tag.fieldKey
  lengthPrefixType := tag.lenPrefix
  arrayRules :=
    if tag.minLen.isNone && tag.maxLen.isNone then none
    else some { min := tag.minLen.getD 0, max := tag.maxLen.getD 0 }

/-- A declared field. `tag` is what parsing its serix tag gives, if it has one. -/
structure FieldDecl where
  name : Bytes
  type : GoType
  isUnexported : Bool := false
  anonymous : Bool := false
  tag : Option (Except Err TagSettings) := some (.ok {})

/-- What reflection says about a type: its kind with the types it is made of. -/
inductive Shape where
  | bool
  | num (kind : NumKind)
  | string
  | slice (elem : GoType)
  | array (length : Nat) (elem : GoType)
  | map (key elem : GoType)
  | ptr (elem : GoType)
  | struct (fields : List FieldDecl)
  | bigInt
  | time
  | interface

namespace Shape

/-- The name of the kind. -/
def kind : Shape → String
  | bool => "bool"
  | num k => (GoType.num k).str
  | string => "string"
  | slice _ => "slice"
  | array _ _ => "array"
  | map _ _ => "map"
  | ptr _ => "ptr"
  | struct _ | bigInt | time => "struct"
  | interface => "interface"

def hasLength : Shape → Bool
  | array _ _ | map _ _ | slice _ | string => true
  | _ => false

def isStruct : Shape → Bool
  | struct _ | bigInt | time => true
  | _ => false

def isInterface : Shape → Bool
  | interface => true
  | _ => false

def isPtr : Shape → Bool
  | ptr _ => true
  | _ => false

end Shape

/-- The types of one interface, by code and by type. -/
structure InterfaceObjects where
  typeDen : TypeDenotationType
  fromCodeToType : UInt32 → Option GoType := fun _ => none
  fromTypeToCode : GoType → Option UInt32 := fun _ => none

/-- A field that serix handles. -/
structure StructField where
  name : Bytes
  isUnexported : Bool
  fType : GoType
  isEmbedded : Bool
  settings : TagSettings

/-- The declared types of the program, what `fmt` prints of their values with a verb, and the
registries. -/
structure API where
  decl : String → Shape
  sprintf : Char → GoType → Value → String := fun _ _ _ => ""
  typeSettings : GoType → Option TypeSettings := fun _ => none
  interfaces : GoType → Option InterfaceObjects := fun _ => none

end HiveGo
