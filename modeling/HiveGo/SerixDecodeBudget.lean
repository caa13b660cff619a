import HiveGo.SerixDecode

/-! A larger budget of nested calls changes nothing but a timeout. -/
namespace HiveGo

open Outcome Below

namespace API

variable {api : API}

/-- The second decoders agree with the first ones wherever these do not run out of budget. -/
structure Decoders.Below (first second : Decoders) : Prop where
  value : ∀ b given τ, Outcome.Below (first.value b given τ) (second.value b given τ)
  fields : ∀ d τ, Outcome.Below (first.fields d τ) (second.fields d τ)
  zero : ∀ τ, Outcome.Below (first.zero τ) (second.zero τ)

namespace Decoders.Below

variable {first : Decoders}

private theorem keeping_below (d : Deserializer) (dest : β) {call other : Outcome Err α}
    {rest later : α → Outcome Err (Deserializer × β)} (ran : Outcome.Below call other)
    (followed : ∀ value, Outcome.Below (rest value) (later value)) :
    Outcome.Below (d.keeping dest call rest) (d.keeping dest other later) := by
  rcases ran with rfl | rfl
  · exact below_timeout
  · cases call with
    | ok value => exact followed value
    | err error => exact refl _
    | panicked => exact refl _
    | timeout => exact refl _

section

variable {item other : σ → Bytes → Outcome Err (σ × Nat)}
    (items : ∀ acc b, Outcome.Below (item acc b) (other acc b))
include items

private theorem readItems_below (left : Nat) :
    ∀ index seen d acc, Outcome.Below
      (Deserializer.readItems item rules errProducer left index seen d acc)
      (Deserializer.readItems other rules errProducer left index seen d acc) := by
  induction left with
  | zero => exact fun _ _ _ _ => refl _
  | succ left ih =>
    intro index seen d acc
    refine (refl _).bind fun srcBefore => ?_
    refine keeping_below d acc ((items acc srcBefore).mapErr errProducer) fun next => ?_
    cases rules with
    | none => exact ih _ _ _ _
    | some arrayRules =>
      exact (refl _).bind fun element => keeping_below _ _ (refl _) fun seen => ih _ _ _ _

private theorem decodeSequence_below (b : Bytes) (acc : σ) :
    Outcome.Below (decodeSequence opts b acc item τ ts) (decodeSequence opts b acc other τ ts) := by
  unfold decodeSequence
  cases ts.lengthPrefixType with
  | none => exact refl _
  | some lenType =>
    refine bind ?_ fun _ => refl _
    refine keeping_below _ _ (refl _) fun next => ?_
    exact keeping_below _ _ (refl _) fun _ => readItems_below items _ _ _ _ _

end

variable (below : first.Below second)
include below

private theorem decodeElem_below (elems : List Value) (b : Bytes) :
    Outcome.Below (decodeElem first elem elems b) (decodeElem second elem elems b) :=
  (below.value b {} elem).bind fun _ => refl _

private theorem decodeObjectArray_below (b : Bytes) (length : Nat) (ts : TypeSettings) :
    Outcome.Below (api.decodeObjectArray opts first b τ elem length ts)
      (api.decodeObjectArray opts second b τ elem length ts) := by
  refine (below.zero elem).bind fun zero => bind ?_ fun _ => refl _
  exact decodeSequence_below
    (fun acc b => (below.decodeElem_below acc b).bind fun _ => refl _) b _

private theorem decodeMapKVPair_below (entries : List (Value × Value)) (b : Bytes) :
    Outcome.Below (api.decodeMapKVPair first key elem entries b)
      (api.decodeMapKVPair second key elem entries b) := by
  refine (refl _).bind fun keySettings => (refl _).bind fun elemSettings => ?_
  refine ((below.value b keySettings key).mapErr _).bind fun keyRead => ?_
  refine (refl _).bind fun rest => ?_
  exact ((below.value rest elemSettings elem).mapErr _).bind fun _ => refl _

private theorem decodeInterface_below (b : Bytes) (τ : GoType) (ts : TypeSettings) :
    Outcome.Below (api.decodeInterface first b τ ts) (api.decodeInterface second b τ ts) := by
  unfold decodeInterface
  cases api.interfaces τ with
  | none => exact refl _
  | some objects =>
    refine (refl _).bind fun objectCode => ?_
    cases objects.fromCodeToType objectCode with
    | none => exact refl _
    | some σ => exact (below.value b ts σ).bind fun _ => refl _

private theorem decodeStruct_below (b : Bytes) (τ : GoType) (ts : TypeSettings) :
    Outcome.Below (decodeStruct first b τ ts) (decodeStruct second b τ ts) := by
  unfold decodeStruct
  split
  · exact refl _
  · exact (refl _).bind fun d => (below.fields d τ).bind fun _ => refl _

private theorem decodeKind_below (b : Bytes) (τ : GoType) :
    Outcome.Below (api.decodeKind opts first b τ ts) (api.decodeKind opts second b τ ts) := by
  unfold decodeKind
  cases api.shape τ with
  | struct | bigInt | time => exact below.decodeStruct_below b τ ts
  | slice elem =>
    dsimp only
    split
    · exact refl _
    · exact (decodeSequence_below below.decodeElem_below b []).bind fun _ => refl _
  | map key elem =>
    exact (decodeSequence_below below.decodeMapKVPair_below b []).bind fun _ => refl _
  | array length elem =>
    dsimp only
    split
    · exact refl _
    · exact below.decodeObjectArray_below b length ts
  | interface => exact below.decodeInterface_below b τ ts
  | _ => exact refl _

private theorem decodeMerged_below :
    Outcome.Below (api.decodeMerged opts first b ts τ) (api.decodeMerged opts second b ts τ) := by
  unfold decodeMerged
  split
  · rename_i elem shape
    split
    · exact refl _
    · unfold decodePtr
      cases api.shape elem with
      | ptr | string | bool | num => exact (below.value b ts elem).bind fun _ => refl _
      | _ => exact (below.decodeKind_below b elem).bind fun _ => refl _
  · exact below.decodeKind_below b τ

private theorem decodeFieldValue_below (d : Deserializer) (field : StructField)
    (check : Nat → Outcome Err Unit) (message : String) :
    Outcome.Below (decodeFieldValue first d field check message)
      (decodeFieldValue second d field check message) :=
  (refl _).bind fun rest => ((below.value rest field.settings.ts field.fType).mapErr _).bind
    fun _ => refl _

private theorem decodeField_below (d : Deserializer) (field : StructField) :
    Outcome.Below (api.decodeField first d field) (api.decodeField second d field) := by
  unfold decodeField
  split
  · unfold decodeEmbedded
    split
    · split
      · exact refl _
      · exact ((below.fields d _).mapErr _).bind fun _ => refl _
    · exact ((below.fields d _).mapErr _).bind fun _ => refl _
  · split
    · refine (refl _).bind fun payload => ?_
      dsimp only
      split
      · exact refl _
      · exact below.decodeFieldValue_below _ _ _ _
    · exact below.decodeFieldValue_below _ _ _ _

private theorem decodeFieldList_below (fields : List StructField) :
    ∀ d, Outcome.Below (api.decodeFieldList first d fields) (api.decodeFieldList second d fields) := by
  induction fields with
  | nil => exact fun _ => refl _
  | cons field fields ih =>
    intro d
    exact (below.decodeField_below d field).bind fun next => (ih _).bind fun _ => refl _

private theorem zeroFields_below (fields : List StructField) :
    Outcome.Below (zeroFields first.zero fields) (zeroFields second.zero fields) := by
  induction fields with
  | nil => exact refl _
  | cons field fields ih =>
    exact (below.zero field.fType).bind fun _ => ih.bind fun _ => refl _

private theorem zeroValue_below :
    Outcome.Below (api.zeroValue first.zero τ) (api.zeroValue second.zero τ) := by
  unfold zeroValue
  cases api.shape τ with
  | array length elem =>
    dsimp only
    split
    · exact refl _
    · exact (below.zero elem).bind fun _ => refl _
  | struct decls =>
    dsimp only
    split
    · exact (below.zeroFields_below _).bind fun _ => refl _
    · exact refl _
  | _ => exact refl _

/-- Decoders over decoders that agree, agree. -/
theorem layer : Decoders.Below
    { value := api.decodeValue opts first, fields := api.decodeStructFields first,
      zero := api.zeroValue first.zero }
    { value := api.decodeValue opts second, fields := api.decodeStructFields second,
      zero := api.zeroValue second.zero } where
  value _ _ _ := below.decodeMerged_below
  fields d _ := (refl _).bind fun fields => below.decodeFieldList_below fields d
  zero _ := below.zeroValue_below

end Decoders.Below

theorem decoders_below : (api.decoders opts fuel).Below (api.decoders opts (fuel + 1)) := by
  induction fuel with
  | zero => exact ⟨fun _ _ _ => below_timeout, fun _ _ => below_timeout, fun _ => below_timeout⟩
  | succ fuel ih => exact ih.layer

/-- A call that came back under one budget, comes back the same under every larger one. -/
theorem decode_eq_of_returned (done : (api.decode opts fuel b τ).Returned)
    (enough : fuel ≤ more) : api.decode opts more b τ = api.decode opts fuel b τ := by
  induction enough with
  | refl => rfl
  | @step more _ ih =>
    rw [← ih] at done ⊢
    refine eq_of_returned ?_ done
    unfold decode
    split
    · exact refl _
    · exact (decoders_below.value b opts.ts (.ptr τ)).bind fun _ => refl _

end API

end HiveGo
