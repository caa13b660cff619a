import HiveGo.SerixDecodeComplete
import HiveGo.SerixDecodeSound

/-! `Decode` reads through a pointer to its destination. The settings of the pointer type
stand in for those of the destination, so the two have to agree. -/
namespace HiveGo

open PrefixReader

namespace API

variable {api : API}

section Closure

private theorem AdmitsPart.mono (included : ∀ {ts σ}, mem ts σ → wider ts σ)
    (fits : api.AdmitsPart mem σ) : api.AdmitsPart wider σ :=
  fun ts found => included (fits ts found)

private theorem Admits.mono (included : ∀ {ts σ}, mem ts σ → wider ts σ)
    (fits : api.Admits mem structs ts τ) : api.Admits wider structs ts τ := by
  unfold Admits at *
  cases shape : api.shape τ with
  | slice elem =>
    simp only [shape] at fits ⊢
    exact ⟨fits.1, fun notBytes => included (fits.2 notBytes)⟩
  | map key elem =>
    simp only [shape] at fits ⊢
    exact ⟨fits.1, fits.2.1.mono included, fits.2.2.mono included⟩
  | ptr elem =>
    simp only [shape] at fits ⊢
    exact fits.imp_right included
  | interface =>
    simp only [shape] at fits ⊢
    exact fun objects registered code σ known => included (fits objects registered code σ known)
  | _ => simp_all only

private theorem AdmitsField.mono (included : ∀ {ts σ}, mem ts σ → wider ts σ)
    (fits : api.AdmitsField mem structs field) : api.AdmitsField wider structs field := by
  unfold AdmitsField at *
  split
  · rwa [if_pos ‹_›] at fits
  · rw [if_neg ‹_›] at fits
    exact included fits

end Closure

/-- A universe with one more pointer type. -/
def Universe.withPtr (world : api.Universe) {ts : TypeSettings} {τ : GoType}
    (member : world.mem (api.pointed ts τ) τ) : api.Universe where
  mem given σ := world.mem given σ ∨ (given = ts ∧ σ = .ptr τ)
  structs := world.structs
  mem_closed := by
    rintro given σ (inside | ⟨rfl, rfl⟩)
    · exact (world.mem_closed inside).mono Or.inl
    · exact .inr (.inl member)
  structs_shape := world.structs_shape
  structs_closed inside parsed field listed :=
    (world.structs_closed inside parsed field listed).mono Or.inl

theorem Coded.withPtr (coded : Coded world) (mem : world.mem (api.pointed ts τ) τ) :
    Coded (world.withPtr mem) where
  consistent := coded.consistent
  unset := by
    rintro given σ (inside | ⟨rfl, rfl⟩) shaped
    · exact coded.unset inside shaped
    · cases shaped
  writes := by
    rintro given σ objects code ρ (inside | ⟨rfl, rfl⟩) shaped
    · exact coded.writes inside shaped
    · cases shaped

/-- The settings under which `Decode` reads its destination. -/
def destination (api : API) (opts : Options) (τ : GoType) : TypeSettings :=
  api.pointed (api.settings opts.ts (.ptr τ)) τ

/-- The pointer to the type has no settings, or the ones of the type. -/
def OwnSettings (api : API) (τ : GoType) : Prop :=
  api.typeSettings (.ptr τ) = none ∨ api.typeSettings (.ptr τ) = api.typeSettings τ

theorem OwnSettings.getByType_ptr (own : api.OwnSettings τ) :
    api.getByType (.ptr τ) = api.typeSettings τ := by
  unfold getByType
  rw [shape_ptr]
  rcases own with bare | same
  · rw [bare]
  · cases found : api.typeSettings τ <;> simp [same, found]

/-- Then the destination is read with the settings of its own type. -/
theorem destination_eq (own : api.OwnSettings τ) :
    api.destination opts τ = api.settings opts.ts τ := by
  have inner : (opts.ts.merge ((api.typeSettings τ).getD {})).merge ((api.getByType τ).getD {}) =
      opts.ts.merge ((api.getByType τ).getD {}) := by
    unfold getByType
    cases api.typeSettings τ <;> simp
  unfold destination pointed settings
  rw [own.getByType_ptr]
  cases shape : api.shape τ
  case bool | num | string | ptr => exact inner
  all_goals
    unfold getByType
    cases found : api.typeSettings τ <;> simp [shape]

section

variable {world : api.Universe}

/-- What `Decode` returns is a value of the format, spelled by the bytes that it read. -/
theorem denotes_of_decode (mem : world.mem (api.destination opts τ) τ) :
    Within (fun input => api.decode opts fuel input τ)
      (api.Denotes opts · (api.destination opts τ) τ) := by
  intro input value n read
  unfold decode at read
  split at read
  · cases read
  · rename_i notNumber
    obtain ⟨⟨result, bytesRead⟩, called, read⟩ := Outcome.bind_eq_ok.mp read
    cases fuel with
    | zero => cases called
    | succ fuel =>
      obtain ⟨piece, rest, split, size, spelt⟩ :=
        (decoders_sound (world.withPtr mem)).merged_within (Or.inr ⟨rfl, rfl⟩) _ _ _ called
      unfold Denotes at spelt
      cases result <;> try exact spelt.elim
      cases read
      simp only [GoType.ptr.injEq, notNumber, if_false] at spelt
      exact ⟨piece, rest, split, size, spelt⟩

/-- Whatever stands for a value is decoded to it, under every budget that its nesting fits
into. -/
theorem decode_of_denotes (coded : Coded world) (mem : world.mem (api.destination opts τ) τ)
    (spelt : api.Denotes opts value (api.destination opts τ) τ b)
    (enough : 2 * value.height + 2 < fuel) :
    Takes (fun input => api.decode opts fuel input τ) value b := by
  have notNumber : τ ≠ .bigInt := by
    rintro rfl
    exact (world.mem_closed mem).elim
  intro rest
  obtain _ | fuel := fuel
  · omega
  have ptr : api.Denotes opts (.ptr value) (api.settings opts.ts (.ptr τ)) (.ptr τ) b := by
    unfold Denotes
    simp only [shape_ptr, GoType.ptr.injEq, notNumber, if_false]
    exact spelt
  have height : 2 * (Value.ptr value).height ≤ fuel := by
    rw [Value.height]
    omega
  have taken := (decoders_complete (coded.withPtr mem)).merged_takes (Or.inr ⟨rfl, rfl⟩) ptr height rest
  simp only [decode, notNumber, if_false, decoders, decodeValue, taken]
  rfl

end

end API

end HiveGo
