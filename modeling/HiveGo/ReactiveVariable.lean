import HiveGo.ReactiveCallback

/-! The reactive `Variable`, written and observed by one thread. -/
namespace HiveGo

variable {ω κ : Type}

/-- A variable with its transformation function and its callbacks. -/
structure ReactiveVariable (ω κ : Type) where
  value : ω
  transformationFunc : ω → ω → ω
  subscriptions : Subscriptions κ

namespace ReactiveVariable

/-- The labels of the registered callbacks, in registration order. -/
def labels (v : ReactiveVariable ω κ) : List κ := v.subscriptions.labels

/-- `variable.Compute` with the callbacks it invokes: an unchanged value
triggers nothing and takes no update identifier. -/
def compute [DecidableEq ω] (v : ReactiveVariable ω κ)
    (computeFunc : ω → ω) : ReactiveVariable ω κ × List κ :=
  let newValue := v.transformationFunc v.value (computeFunc v.value)
  if newValue ≠ v.value then
    ({ v with value := newValue, subscriptions := v.subscriptions.fire.1 }, v.subscriptions.fire.2)
  else (v, [])

/-- `readableVariable.OnUpdate`: the variable with the callback registered and
the value of the initial invocation if there is one. -/
def onUpdate [DecidableEq ω] [Inhabited ω] (v : ReactiveVariable ω κ) (k : κ)
    (triggerWithInitialZeroValue : Bool) :
    ReactiveVariable ω κ × Option ω :=
  ({ v with subscriptions := v.subscriptions.register k },
    if v.value ≠ default || triggerWithInitialZeroValue then some v.value else none)

/-- The unsubscribe function returned by `OnUpdate`. -/
def unsubscribe [DecidableEq κ] (v : ReactiveVariable ω κ) (k : κ) : ReactiveVariable ω κ :=
  { v with subscriptions := v.subscriptions.unregister k }

variable [DecidableEq ω] (v : ReactiveVariable ω κ)
include v

theorem compute_labels : (v.compute f).1.labels = v.labels := by
  unfold compute
  dsimp only
  split
  · exact v.subscriptions.labels_fire
  · rfl

/-- A computation either reaches all callbacks or changes nothing. -/
theorem compute_reaches (f : ω → ω) :
    (v.compute f).2 = v.labels ∨ (v.compute f).2 = [] ∧ (v.compute f).1 = v := by
  unfold compute
  dsimp only
  split
  · exact .inl v.subscriptions.invoked_fire
  · exact .inr ⟨rfl, rfl⟩

end ReactiveVariable
end HiveGo
