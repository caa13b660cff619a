import HiveGo.SerixDecodeBudget
import HiveGo.SerixDecodeTotal
import HiveGo.SerixRoundTrip

/-! Decoding is total, bounded and local: every call comes back, it never reads more than
it is given, and the result depends on no byte behind the ones that it read. -/
namespace HiveGo

open Outcome PrefixReader List API

namespace API

variable {api : API} {opts : Options} {world : api.Universe} {rank : GoType → Nat} {bound : Nat}

/-- The call ends with the result: under every budget that is large enough. -/
def Decodes (api : API) (opts : Options) (b : Bytes) (τ : GoType)
    (result : Outcome Err (Value × Nat)) : Prop :=
  ∃ enough, ∀ fuel, enough ≤ fuel → api.decode opts fuel b τ = result

theorem Decodes.of_returned (ran : api.decode opts fuel b τ = result)
    (done : result.Returned) : api.Decodes opts b τ result := by
  subst ran
  exact ⟨fuel, fun _ enough => decode_eq_of_returned done enough⟩

theorem Decodes.unique (one : api.Decodes opts b τ first) (other : api.Decodes opts b τ second) :
    first = second := by
  obtain ⟨enough, one⟩ := one
  obtain ⟨more, other⟩ := other
  exact (one _ (Nat.le_max_left enough more)).symm.trans (other _ (Nat.le_max_right enough more))

private theorem decodePtr_ptr {rec : Decoders}
    (ran : api.decodePtr opts rec b τ ts = .ok result) : ∃ value n, result = (.ptr value, n) := by
  unfold decodePtr at ran
  cases pointee : api.shape τ
  all_goals
    rw [pointee] at ran
    obtain ⟨⟨value, n⟩, _, ran⟩ := bind_eq_ok.mp ran
    cases ran
    exact ⟨value, n, rfl⟩

/-- The budget grows with the input alone. -/
theorem decode_returned (coded : Coded world) (grounded : Grounded world rank bound)
    (parts : PartsFound world) (hashed : KeysHashable world)
    (mem : world.mem (api.destination opts τ) τ)
    (enough : b.length * width bound + 2 * rank τ + 2 < fuel) :
    (api.decode opts fuel b τ).Returned := by
  have notNumber : τ ≠ .bigInt := by
    rintro rfl
    exact (world.mem_closed mem).elim
  obtain _ | fuel := fuel
  · omega
  have total : Total opts world rank bound (api.decoders opts fuel) fuel :=
    decoders_total coded grounded parts hashed
  have done := total.ptr_returned grounded coded parts hashed mem (b := b) (by omega)
  unfold decode
  simp only [decoders, decodeValue, decodeMerged, shape_ptr, GoType.ptr.injEq, notNumber, if_false]
  refine done.bind fun result ran => ?_
  obtain ⟨value, n, rfl⟩ := decodePtr_ptr ran
  trivial

/-- `Decode` returns an error, or a value with the number of bytes that it read: at most
those that it was given, and the same again whatever follows them. -/
theorem decode_total_and_local (coded : Coded world) (grounded : Grounded world rank bound)
    (parts : PartsFound world) (hashed : KeysHashable world)
    (member : world.mem (api.destination opts τ) τ) (b : Bytes) :
    ∃ result, result.Returned ∧ api.Decodes opts b τ result ∧
      ∀ value n, result = .ok (value, n) →
        n ≤ b.length ∧ ∀ s, api.Decodes opts (b.take n ++ s) τ (.ok (value, n)) := by
  have done := decode_returned coded grounded parts hashed member (b := b) (Nat.lt_succ_self _)
  refine ⟨_, done, Decodes.of_returned rfl done, fun value n read => ?_⟩
  obtain ⟨piece, behind, rfl, rfl, spelt⟩ := denotes_of_decode member _ _ _ read
  refine ⟨by simp, fun s => ⟨2 * value.height + 3, fun fuel enough => ?_⟩⟩
  rw [take_left]
  exact decode_of_denotes coded member spelt enough s

end API

namespace BlockAPI

def rank (τ : GoType) : Nat :=
  if τ = .ptr data then 2 else if τ = block ∨ τ = data then 1 else 0

theorem grounded : API.Grounded world rank 2 where
  types := by
    intro ts τ mem
    cases mem <;> decide
  structs := by
    rintro σ (rfl | rfl) <;> decide
  pointers := by
    intro ts τ elem mem shape _
    cases mem <;> cases shape
    decide
  embedded := by
    rintro σ fields (rfl | rfl) parsed <;> cases parsed <;> decide
  fields := by
    rintro σ fields (rfl | rfl) parsed <;> cases parsed <;> decide

theorem keysHashable : API.KeysHashable world := by
  intro ts τ key elem mem shape
  cases mem <;> cases shape

theorem decode_block_local :
    api.Decodes { validation := true } [2, 1, 0, 2, 0, 7, 5, 9] block
        (.ok (.struct [.slice [.num 1, .num 2], .iface (.ptr data) (.ptr (.struct [.num 5]))], 7)) ∧
      api.Decodes { validation := true } [2, 1, 0, 2, 0, 7, 5, 8, 8] block
        (.ok (.struct [.slice [.num 1, .num 2], .iface (.ptr data) (.ptr (.struct [.num 5]))], 7)) := by
  have mem : world.mem (api.destination { validation := true } block) block := block_mem
  obtain ⟨result, -, ends, behind⟩ := decode_total_and_local objects_coded grounded plain.parts
    keysHashable mem [2, 1, 0, 2, 0, 7, 5, 9]
  have same := ends.unique (.of_returned decode_block trivial)
  exact ⟨same ▸ ends, (behind _ _ same).2 [8, 8]⟩

end BlockAPI

/-! Registrations that `Decode` does not cope with. -/
namespace LooseAPI

/-- `Small` is an object with a code of four bytes that reads a single byte; `Key` can hold a
`List`, which cannot be hashed; `Node` points to itself. -/
def api : API where
  decl
    | "Small" => .num .uint8
    | "List" => .struct [FieldDecl.plain [76] (.slice (.num .uint8))]
    | "Key" => .struct [FieldDecl.plain [75] (.named "Hidden")]
    | "Table" => .map (.named "Key") .bool
    | "Node" => .struct [FieldDecl.plain [78] (.ptr (.named "Node"))]
    | _ => .interface
  typeSettings τ :=
    if τ = .named "Small" ∨ τ = .named "List" then some { objectType := some (.uint32 7) }
    else if τ = .named "Table" ∨ τ = .slice (.num .uint8) then
      some { lengthPrefixType := some .asByte }
    else none
  interfaces τ :=
    let object : Option GoType :=
      if τ = .named "Numeric" then some (.named "Small")
      else if τ = .named "Hidden" then some (.named "List")
      else none
    object.map fun object =>
      { typeDen := .uint32
        fromCodeToType := fun code => if code = 7 then some object else none
        fromTypeToCode := fun σ => if σ = object then some 7 else none }

def node : GoType := .named "Node"

/-- A struct that contains a pointer to itself is read without end. -/
private theorem node_unbounded (opts : Options) (fuel : Nat) :
    (∀ b, (api.decoders opts fuel).value b {} (.ptr node) = .timeout) ∧
      ∀ b, (api.decoders opts fuel).fields { src := b } node = .timeout := by
  induction fuel with
  | zero => exact ⟨fun _ => rfl, fun _ => rfl⟩
  | succ fuel ih =>
    constructor
    · intro b
      have start : api.decodePtr opts (api.decoders opts fuel) b node {} = .timeout := by
        unfold decodePtr
        simp only [show api.shape node = .struct _ from rfl, decodeKind, decodeStruct,
          checkObjectType, ok_bind, ih.2]
        rfl
      exact start
    · intro b
      have first : ∀ field, field.settings.ts = {} → field.fType = .ptr node → ∀ check message,
          decodeFieldValue (api.decoders opts fuel) { src := b } field check message = .timeout := by
        intro field plain ptr check message
        unfold decodeFieldValue
        rw [Deserializer.remainingBytes_eq (Nat.zero_le _), ok_bind, plain, ptr, ih.1]
        rfl
      have start : api.decodeStructFields (api.decoders opts fuel) { src := b } node = .timeout := by
        unfold decodeStructFields
        simp only [show api.getStructFields node = .ok [_] from rfl, mapErr, ok_bind,
          decodeFieldList, decodeField]
        rw [first _ rfl rfl]
        rfl
      exact start

/-- The result depends on a byte that was not read; keys that cannot be hashed and maps with
interfaces inside are panics; a type that contains itself is read without end. -/
theorem decode_not_total_nor_local :
    (api.decode {} 5 [7, 0, 0, 0] (.named "Numeric") = .ok (.iface (.named "Small") (.num 7), 1) ∧
      ∀ fuel result, api.decode {} fuel [7, 1, 0, 0] (.named "Numeric") ≠ .ok result) ∧
    api.decode {} 9 [1, 7, 0, 0, 0, 1, 5, 1] (.named "Table") = .panicked ∧
    BrokenAPI.api.decode {} 5 [1, 1, 7, 2] (.named "Index") = .panicked ∧
    ∀ fuel, api.decode {} fuel [] node = .timeout := by
  refine ⟨⟨rfl, ?_⟩, rfl, rfl, fun fuel => ?_⟩
  · intro fuel result
    rcases fuel with _ | _ | _ | fuel <;> rintro ⟨⟩
  · have endless := (node_unbounded {} fuel).1 []
    unfold decode
    rw [if_neg (by rintro ⟨⟩), endless]
    rfl

end LooseAPI

end HiveGo
