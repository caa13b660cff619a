import HiveGo.SerixEncodeSound
import HiveGo.SerixDestination
import HiveGo.SerixRegistration
import Mathlib.Data.UInt

/-! Binary round trips: what `Encode` returns, `Decode` turns back into the normal form of
the value, whatever follows it. -/
namespace HiveGo
open List FieldDecl

namespace API

/-- A value whose fields fit is decoded to its normal form, from exactly the bytes of its
encoding. -/
theorem decode_of_fit {api : API} {world : api.Universe} (coded : Coded world)
    (codes : api.DistinctCodes) (parts : PartsFound world)
    (times : ∀ {ts τ}, world.mem ts τ → api.shape τ ≠ .time) (sized : Sized opts world)
    (mem : world.mem (api.settings opts.ts τ) τ) (own : api.OwnSettings τ)
    (typed : api.HasType value τ) (fit : Fit opts world (value, τ))
    (encoded : api.encode opts value opts.ts τ = .ok b) :
    ∃ enough, ∀ fuel, enough < fuel → ∀ s, api.decode opts fuel (b ++ s) τ =
      .ok (api.normal opts value (api.settings opts.ts τ) τ, b.length) := by
  have spelt := (spells world parts times sized codes).encoded mem typed fit encoded
  rw [← destination_eq own] at mem spelt ⊢
  exact ⟨_, fun fuel enough s => decode_of_denotes coded mem spelt enough s⟩

/-- Decoding gives back the value that was encoded, in its normal form, and reads exactly
the bytes of the encoding. -/
theorem decode_of_encode {api : API} {opts : Options} {world : api.Universe} (coded : Coded world)
    (codes : api.DistinctCodes) (plain : Plain world) (sized : Sized opts world) {τ : GoType}
    (member : world.mem (api.settings opts.ts τ) τ)
    (own : api.OwnSettings τ) {value : Value} {b : Bytes} (typed : api.HasType value τ)
    (encoded : api.encode opts value opts.ts τ = .ok b) :
    ∃ enough, ∀ fuel, enough < fuel → ∀ s, api.decode opts fuel (b ++ s) τ =
      .ok (api.normal opts value (api.settings opts.ts τ) τ, b.length) :=
  decode_of_fit coded codes plain.parts plain.times sized member own typed (plain.fit _) encoded

/-- The encodings of a type are a prefix code: a stream starts with one of them at most, and that
one stands for one value. -/
theorem encode_prefix_free {api : API} {world : api.Universe} (coded : Coded world)
    (codes : api.DistinctCodes) (plain : Plain world) (sized : Sized opts world)
    (mem : world.mem (api.settings opts.ts τ) τ) (own : api.OwnSettings τ)
    (typed : api.HasType value τ) (encoded : api.encode opts value opts.ts τ = .ok b)
    (alsoTyped : api.HasType other τ) (also : api.encode opts other opts.ts τ = .ok c)
    (same : b ++ s = c ++ t) : b = c ∧ api.normal opts value (api.settings opts.ts τ) τ =
      api.normal opts other (api.settings opts.ts τ) τ := by
  have back {value b} (typed : api.HasType value τ) := decode_of_fit (b := b) coded codes plain.parts
    plain.times sized mem own typed (plain.fit _)
  obtain ⟨first, read⟩ := back typed encoded
  obtain ⟨second, again⟩ := back alsoTyped also
  have both := again (first + second + 1) (by omega) t
  rw [← same, read _ (by omega)] at both
  obtain ⟨values, lengths⟩ := Prod.mk.inj (Outcome.ok.inj both)
  exact ⟨(append_inj same lengths).1, values⟩

end API

/-- A field with an empty tag. -/
def FieldDecl.plain (name : Bytes) (type : GoType) : FieldDecl := { name, type }

/-! A block with a sorted list of parents and with one of the registered payloads. -/
namespace BlockAPI

def block : GoType := .named "Block"

def parents : GoType := .named "Parents"

def payload : GoType := .named "Payload"

def data : GoType := .named "Data"

def sortedSettings : TypeSettings where
  lengthPrefixType := some .asByte
  lexicalOrdering := some true
  arrayRules := some { validationMode := { lexicalOrdering := true } }

def coded : TypeSettings := { objectType := some (.uint8 7) }

def declared : API where
  decl
    | "Block" => .struct [plain [80] parents, plain [81] payload]
    | "Parents" => .slice (.num .uint16)
    | "Data" => .struct [plain [86] (.num .uint8)]
    | _ => .interface

def registrations : List API.Registration :=
  [.typeSettings parents sortedSettings, .typeSettings data coded,
    .interfaceObjects (.ptr payload) [.ptr data]]

def api : API := registrations.foldl API.register declared

theorem consistent : api.Consistent := by
  refine API.consistent_of_registrations (fun _ => rfl) ?_
    (show run (fun api call => some (API.register api call)) declared registrations = some api from rfl)
  refine ⟨by rintro _ _ ⟨⟩, ?_⟩
  rintro _ ⟨⟩
  refine ⟨by rintro _ _ ⟨⟩, ?_⟩
  rintro _ ⟨⟩
  exact ⟨trivial, fun _ _ => trivial⟩

theorem distinctCodes : api.DistinctCodes := by
  intro τ objects σ code registered found
  have known : τ = payload := by
    by_contra other
    have miss : api.interfaces τ = none := if_neg other
    rw [miss] at registered
    cases registered
  subst known
  cases registered
  have only : σ = .ptr data := by
    by_contra other
    have miss : (if σ = .ptr data then some (7 : UInt32) else none) = none := if_neg other
    cases miss.symm.trans found
  subst only
  cases found
  rfl

theorem object_eq (known : api.interfaces payload = some objects)
    (found : objects.fromCodeToType code = some σ) : σ = .ptr data := by
  cases known
  by_cases only : code = 7
  · subst only
    cases found
    rfl
  · have miss : (if code = 7 then some (GoType.ptr data) else none) = none := if_neg only
    cases miss.symm.trans found

/-- The types of a block with their settings. -/
inductive Listed : TypeSettings → GoType → Prop
  | block : Listed {} block
  | parents : Listed sortedSettings parents
  | parent : Listed {} (.num .uint16)
  | payload : Listed {} payload
  | pointer : Listed coded (.ptr data)
  | data : Listed coded data
  | value : Listed {} (.num .uint8)

def world : api.Universe where
  mem := Listed
  structs τ := τ = block ∨ τ = data
  mem_closed := by
    intro ts τ member
    cases member
    · exact .inl rfl
    · exact ⟨by rintro _ ⟨⟩ ⟨⟩, fun _ => .parent⟩
    · trivial
    · intro objects registered code σ found
      cases object_eq registered found
      exact .pointer
    · exact .inr .data
    · exact .inr rfl
    · trivial
  structs_shape := by
    rintro σ (rfl | rfl)
    · exact ⟨_, rfl⟩
    · exact ⟨_, rfl⟩
  structs_closed := by
    rintro σ fields (rfl | rfl) parsed
    · cases parsed
      simp only [forall_mem_cons]
      exact ⟨.parents, .payload, by simp⟩
    · cases parsed
      simp only [forall_mem_cons]
      exact ⟨.value, by simp⟩

theorem objects_coded : API.Coded world where
  consistent := consistent
  unset := by
    intro ts τ mem shape
    cases mem <;> cases shape
    rfl
  writes := by
    intro ts τ objects code σ mem shape known found
    cases mem <;> cases shape
    cases object_eq known found
    exact ⟨by decide, trivial⟩

theorem plain : API.Plain world where
  parts := by
    intro ts τ key elem mem shape
    cases mem <;> cases shape
  times := by
    intro ts τ mem
    cases mem <;> rintro ⟨⟩
  fields := by
    rintro σ fields (rfl | rfl) parsed
    · cases parsed
      simp only [forall_mem_cons]
      exact ⟨rfl, rfl, by simp⟩
    · cases parsed
      simp only [forall_mem_cons]
      exact ⟨rfl, by simp⟩

theorem sized (opts : Options) : API.Sized opts world where
  elems := by
    intro ts τ elem mem shape notBytes value b typed encoded
    cases mem <;> cases shape
    cases value with
    | num n =>
      unfold API.encode at encoded
      obtain ⟨_, encoded⟩ := Outcome.checked_eq_ok.mp encoded
      cases encoded
      rintro ⟨⟩
    | _ => simp [API.HasType, API.shape] at typed
  entries := by
    intro ts τ key elem mem shape
    cases mem <;> cases shape

def blockOf (parents : List Int) : Value :=
  .struct [.slice (parents.map .num), .iface (.ptr data) (.ptr (.struct [.num 5]))]

def value : Value := blockOf [2, 1]

theorem typed_blockOf {parents : List Int} (held : ∀ n ∈ parents, NumKind.uint16.Holds n) :
    api.HasType (blockOf parents) block := by
  refine ⟨⟨_, rfl⟩, ?_⟩
  rintro fields ⟨⟩
  refine ⟨⟨.num .uint16, rfl, by decide, API.hasTypeAll_iff.mpr ?_⟩,
    ⟨rfl, data, rfl, ⟨_, rfl⟩, ?_⟩, trivial⟩
  · exact forall_mem_map.mpr fun n listed => ⟨.uint16, rfl, held n listed⟩
  · rintro fields ⟨⟩
    exact ⟨⟨.uint8, rfl, by decide⟩, trivial⟩

theorem typed : api.HasType value block := typed_blockOf (by decide)

theorem block_mem : world.mem (api.settings {} block) block := Listed.block

theorem decode_of_encode_block :
    ∃ enough, ∀ fuel, enough < fuel → ∀ s,
      api.decode { validation := true } fuel ([2, 1, 0, 2, 0, 7, 5] ++ s) block =
        .ok (.struct [.slice [.num 1, .num 2], .iface (.ptr data) (.ptr (.struct [.num 5]))], 7) := by
  exact API.decode_of_encode objects_coded distinctCodes plain (sized _) block_mem (.inl rfl) typed
    (by decide)

theorem encode_prefix_free_block :
    api.encode { validation := true } value {} block = .ok [2, 1, 0, 2, 0, 7, 5] ∧
    api.encode { validation := true } (blockOf [1, 2]) {} block = .ok [2, 1, 0, 2, 0, 7, 5] ∧
    api.normal { validation := true } value {} block =
      api.normal { validation := true } (blockOf [1, 2]) {} block :=
  ⟨by decide, by decide, (API.encode_prefix_free (s := [9]) (t := [9]) objects_coded distinctCodes
    plain (sized ⟨true, {}⟩) block_mem (.inl rfl) typed (b := [2, 1, 0, 2, 0, 7, 5]) (by decide)
    (typed_blockOf (by decide)) (c := [2, 1, 0, 2, 0, 7, 5]) (by decide) rfl).2⟩

theorem decode_block : api.decode { validation := true } 10 [2, 1, 0, 2, 0, 7, 5, 9] block =
    .ok (.struct [.slice [.num 1, .num 2], .iface (.ptr data) (.ptr (.struct [.num 5]))], 7) := rfl

end BlockAPI

/-! Registrations that break the round trip. -/
namespace BrokenAPI

def coded : TypeSettings := { objectType := some (.uint8 7) }

/-- The settings of `Point` are registered on the pointer; `Number` is an object that does
not write its code; `Index` has an interface for its elements; `List` asks for an
order that its rules do not ask for; `Text` has an enormous lower bound. -/
def api : API where
  decl
    | "Point" | "Item" => .struct [plain [65] (.num .uint8)]
    | "Number" => .num .uint8
    | "Holder" => .struct [plain [66] (.named "Numeric")]
    | "Index" => .map (.num .uint8) (.named "Thing")
    | "List" => .slice (.num .uint16)
    | "Text" => .string
    | _ => .interface
  typeSettings τ :=
    if τ = .ptr (.named "Point") ∨ τ = .named "Item" ∨ τ = .named "Number" then some coded
    else if τ = .named "Index" then some { lengthPrefixType := some .asByte }
    else if τ = .named "List" then
      some { lengthPrefixType := some .asByte, lexicalOrdering := some true }
    else if τ = .named "Text" then
      some { lengthPrefixType := some .asByte, arrayRules := some { min := 2 ^ 63 } }
    else none
  interfaces τ :=
    let object : Option GoType :=
      if τ = .named "Numeric" then some (.named "Number")
      else if τ = .named "Thing" then some (.ptr (.named "Item"))
      else none
    object.map fun object =>
      { typeDen := .byte
        fromCodeToType := fun code => if code = 7 then some object else none
        fromTypeToCode := fun σ => if σ = object then some 7 else none }

def opts : Options := { validation := true }

/-- Settings on a pointer type, objects without a code in front of them and maps with
interfaces inside cannot be decoded; a slice that only asks for an order is not sorted. -/
theorem encoded_not_decoded :
    (api.encode opts (.struct [.num 1]) {} (.named "Point") = .ok [1] ∧
      ∀ fuel result, api.decode opts fuel [1] (.named "Point") ≠ .ok result) ∧
    (api.encode opts (.struct [.iface (.named "Number") (.num 5)]) {} (.named "Holder") = .ok [5] ∧
      ∀ fuel result, api.decode opts fuel [5] (.named "Holder") ≠ .ok result) ∧
    (api.encode opts (.map [(.num 1, .iface (.ptr (.named "Item")) (.ptr (.struct [.num 2])))]) {}
        (.named "Index") = .ok [1, 1, 7, 2] ∧
      ∀ fuel result, api.decode opts fuel [1, 1, 7, 2] (.named "Index") ≠ .ok result) ∧
    (api.encode opts (.slice [.num 2, .num 1]) {} (.named "List") = .ok [2, 2, 0, 1, 0] ∧
      api.decode opts 5 [2, 2, 0, 1, 0] (.named "List") = .ok (.slice [.num 2, .num 1], 5)) := by
  refine ⟨⟨by decide, ?_⟩, ⟨by decide, ?_⟩, ⟨by decide, ?_⟩, ⟨by decide, rfl⟩⟩
  · intro fuel result
    rcases fuel with _ | _ | _ | fuel <;> rintro ⟨⟩
  · intro fuel result
    rcases fuel with _ | _ | _ | _ | fuel <;> rintro ⟨⟩
  · intro fuel result
    rcases fuel with _ | _ | _ | _ | fuel <;> rintro ⟨⟩

end BrokenAPI

end HiveGo
