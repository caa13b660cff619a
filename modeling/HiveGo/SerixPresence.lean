import HiveGo.SerixCanonical

/-! Fields that may be missing. The encoder skips a nil pointer to an embedded struct, and the
decoder reads one; the presence of an optional value is told from the length of its encoding. -/
namespace HiveGo
open List

namespace API

variable {api : API} {opts : Options} {world : api.Universe}

/-- A nil pointer to an embedded struct. -/
def Skipped (field : StructField) (value : Value) : Prop :=
  (field.isEmbedded && !field.settings.inlined) = true ∧ value = .nil

/-- A field that was written comes back. -/
def Restored (api : API) (opts : Options) (field : StructField) (value back : Value) : Prop :=
  ¬ Skipped field value →
    back = api.normal opts value (api.settings field.settings.ts field.fType) field.fType

/-- The empty string is all that stands for a value of a type, if it stands for one of them. -/
theorem eq_nil_of_denotes (coded : Coded world) (mem : world.mem (api.settings given τ) τ)
    (silent : api.Denotes opts other (api.settings given τ) τ [])
    (spelt : api.Denotes opts value (api.settings given τ) τ b) : b = [] := by
  have complete : Complete opts world (api.decoders opts _) (2 * value.height + 2 * other.height + 1) :=
    decoders_complete coded
  have read := complete.value mem spelt (by omega) []
  rw [append_nil, ← nil_append b] at read
  have same := (complete.value mem silent (by omega) b).symm.trans read
  exact eq_nil_of_length_eq_zero (Prod.mk.inj (Outcome.ok.inj same)).2.symm

section

variable (coded : Coded world) (codes : api.DistinctCodes) (parts : PartsFound world)
  (times : ∀ {ts τ}, world.mem ts τ → api.shape τ ≠ .time) (sized : Sized opts world)
  (member : world.mem (api.settings opts.ts τ) τ) (own : api.OwnSettings τ)
  (inside : world.structs τ) (parsed : api.getStructFields τ = .ok fields)
  (typed : api.HasType (.struct values) τ)

include coded codes parts times sized member own inside parsed typed

end

end API

/-! A struct with an embedded pointer and an optional one, and one with an optional pointer to a
struct without fields. -/
namespace PresenceAPI

def base : GoType := .named "Base"

def outer : GoType := .named "Outer"

def optional (elem : GoType) : FieldDecl where
  name := [79]
  type := .ptr elem
  tag := some (.ok { isOptional := true })

def api : API where
  decl
    | "Base" => .struct [FieldDecl.plain [86] (.num .uint8)]
    | "Outer" => .struct [{ name := [66], type := .ptr base, anonymous := true }, optional base]
    | "Holder" => .struct [optional (.named "Empty")]
    | "Empty" => .struct []
    | _ => .interface

def opts : Options := { validation := true }

/-- The types of `Outer`, all with the default settings. -/
inductive Listed : TypeSettings → GoType → Prop
  | outer : Listed {} outer
  | pointer : Listed {} (.ptr base)
  | base : Listed {} base
  | value : Listed {} (.num .uint8)

def world : api.Universe where
  mem := Listed
  structs τ := τ = outer ∨ τ = base
  mem_closed := by
    intro ts τ member
    cases member
    · exact .inl rfl
    · exact .inr .base
    · exact .inr rfl
    · trivial
  structs_shape := by
    rintro σ (rfl | rfl)
    · exact ⟨_, rfl⟩
    · exact ⟨_, rfl⟩
  structs_closed := by
    rintro σ fields (rfl | rfl) parsed
    · cases parsed
      simp only [forall_mem_cons]
      exact ⟨.inr rfl, .pointer, by simp⟩
    · cases parsed
      simp only [forall_mem_cons]
      exact ⟨.value, by simp⟩

theorem coded : API.Coded world where
  consistent := by rintro _ _ _ _ ⟨⟩
  unset := by
    intro ts τ mem shape
    cases mem <;> cases shape
  writes := by
    intro ts τ objects code σ mem shape
    cases mem <;> cases shape

theorem parts : API.PartsFound world := by
  intro ts τ key elem mem shape
  cases mem <;> cases shape

theorem times (mem : world.mem ts τ) : api.shape τ ≠ .time := by
  cases mem <;> rintro ⟨⟩

theorem sized : API.Sized opts world where
  elems := by
    intro ts τ elem mem shape
    cases mem <;> cases shape
  entries := by
    intro ts τ key elem mem shape
    cases mem <;> cases shape

def pointer : Value := .ptr (.struct [.num 1])

def value : Value := .struct [pointer, pointer]

theorem typed : api.HasType value outer := by
  have pointer : api.HasType pointer (.ptr base) := by
    refine ⟨base, rfl, ⟨_, rfl⟩, ?_⟩
    rintro fields ⟨⟩
    exact ⟨⟨.uint8, rfl, by decide⟩, trivial⟩
  refine ⟨⟨_, rfl⟩, ?_⟩
  rintro fields ⟨⟩
  exact ⟨pointer, pointer, trivial⟩

/-- The places inside the value. -/
inductive Place : Value × GoType → Prop
  | outer : Place (value, outer)
  | pointer : Place (pointer, .ptr base)
  | base : Place (.struct [.num 1], base)
  | value : Place (.num 1, .num .uint8)

theorem place_of_inside (mem : api.Inside (value, outer) place) : Place place := by
  induction mem with
  | refl => exact .outer
  | tail _ part ih =>
    cases ih
    · exact forall_mem_cons.mpr ⟨.pointer, forall_mem_singleton.mpr .pointer⟩ _ part
    · exact forall_mem_singleton.mpr .base _ part
    · exact forall_mem_singleton.mpr .value _ part
    · cases part

/-- A pointer to `Base` has a byte. -/
theorem filled (silent : api.Denotes opts other {} (.ptr base) []) : False := by
  have number : api.Form opts {} (.num .uint8) (.num 1) [1] :=
    .num rfl (show NumKind.uint8.Holds 1 by decide)
  have struct : api.Form opts {} base (.struct [.num 1]) [1] :=
    .struct rfl rfl ⟨[1], [], rfl, rfl, number.denotes⟩
  have spelt : api.Form opts {} (.ptr base) pointer [1] := .ptr rfl (by decide) struct.denotes
  have mem : world.mem (api.settings {} (.ptr base)) (.ptr base) := Listed.pointer
  cases API.eq_nil_of_denotes coded mem silent spelt.denotes

theorem fit : API.Fit opts world (value, outer) := by
  intro values σ fields mem struct parsed
  cases place_of_inside mem
  · cases parsed
    simp only [pointer, zip_cons_cons, forall_mem_cons]
    refine ⟨⟨fun _ _ => ⟨rfl, nofun⟩, nofun, nofun⟩,
      ⟨nofun, fun _ _ _ => ?_, fun _ _ b encoded => ?_⟩, by simp⟩
    · rintro ⟨other, silent⟩
      exact filled silent
    · cases encoded
      decide
  · cases parsed
    simp only [zip_cons_cons, forall_mem_cons]
    exact ⟨⟨nofun, nofun, nofun⟩, by simp⟩

end PresenceAPI

end HiveGo
