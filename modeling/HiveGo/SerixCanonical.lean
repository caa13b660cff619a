import HiveGo.SerixEncodeComplete
import HiveGo.SerixRoundTrip

/-! Binary canonicity: what `Decode` accepts under validation is exactly what `Encode`
returns for the value, so that a value has only one spelling. -/
namespace HiveGo

namespace API

/-- The bytes that were read are the encoding of the value, and every other input that is
decoded to the value starts with them too. -/
theorem encode_of_decode {api : API} {opts : Options} {world : api.Universe}
    (consistent : api.Consistent) (encodable : Encodable world) (sized : Sized opts world)
    (validation : opts.validation = true) {τ : GoType}
    (member : world.mem (api.settings opts.ts τ) τ) (own : api.OwnSettings τ) {fuel n : Nat}
    {b : Bytes} {value : Value} (decoded : api.decode opts fuel b τ = .ok (value, n)) :
    n ≤ b.length ∧ api.encode opts value opts.ts τ = .ok (b.take n) ∧
      ∀ otherFuel otherN other, api.decode opts otherFuel other τ = .ok (value, otherN) →
        other.take otherN = b.take n := by
  have spelled : ∀ {fuel n b}, api.decode opts fuel b τ = .ok (value, n) →
      n ≤ b.length ∧ api.encode opts value opts.ts τ = .ok (b.take n) := by
    intro fuel n b decoded
    have mem := member
    rw [← destination_eq own] at mem
    obtain ⟨piece, rest, rfl, rfl, spelt⟩ := denotes_of_decode mem _ _ _ decoded
    rw [destination_eq own] at spelt
    rw [List.take_left]
    exact ⟨by simp, (encodes world encodable sized consistent validation value).encoded member
      spelt⟩
  obtain ⟨small, encoded⟩ := spelled decoded
  refine ⟨small, encoded, fun otherFuel otherN other again => ?_⟩
  exact Outcome.ok.inj ((spelled again).2.symm.trans encoded)

end API

namespace BlockAPI

theorem encodable : API.Encodable world where
  times := plain.times
  arrays := by
    intro ts τ length elem mem shape
    cases mem <;> cases shape
  bounds := by
    intro ts τ mem shape
    cases mem <;> decide
  pointers := by
    intro ts τ elem mem shape _
    cases mem <;> cases shape
    exact .inl ⟨_, rfl⟩

theorem encode_of_decode_block : api.encode { validation := true }
      (.struct [.slice [.num 1, .num 2], .iface (.ptr data) (.ptr (.struct [.num 5]))]) {} block =
      .ok ([2, 1, 0, 2, 0, 7, 5, 9].take 7) := by
  exact (API.encode_of_decode consistent encodable (sized _) rfl block_mem (.inl rfl) decode_block).2.1

end BlockAPI

namespace BrokenAPI

set_option maxRecDepth 100000 in
/-- Settings on a pointer type, a lower bound that is negative as an `int`, and bytes that
are not read. -/
theorem decoded_not_canonical :
    (api.decode opts 5 [7, 1] (.named "Point") = .ok (.struct [.num 1], 2) ∧
      api.encode opts (.struct [.num 1]) {} (.named "Point") = .ok [1]) ∧
    (api.decode opts 5 [0] (.named "Text") = .ok (.string [], 1) ∧
      ∀ b, api.encode opts (.string []) {} (.named "Text") ≠ .ok b) ∧
    (api.decode opts 5 [1, 0] .bool = .ok (.bool true, 1) ∧
      api.decode opts 5 [1, 1] .bool = .ok (.bool true, 1)) := by
  refine ⟨⟨rfl, by decide⟩, ⟨rfl, ?_⟩, rfl, rfl⟩
  rintro b ⟨⟩

end BrokenAPI

end HiveGo
