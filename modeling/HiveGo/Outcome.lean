import Mathlib.Data.List.Basic

/-! Results of a computation that may fail, panic or not finish. A function with a recursion
budget times out if the budget was too small; the information order compares two budgets. -/
namespace HiveGo

/-- What a call does: return a value, return an error, panic, or still be running
when its budget is spent. -/
inductive Outcome (ε α : Type) where
  | ok (value : α)
  | err (error : ε)
  | panicked
  | timeout
  deriving Repr, DecidableEq

namespace Outcome

variable {ε α β : Type}

/-- Go on with the value, and stop on everything else. -/
def bind (x : Outcome ε α) (f : α → Outcome ε β) : Outcome ε β :=
  match x with
  | ok value => f value
  | err error => err error
  | panicked => panicked
  | timeout => timeout

instance : Monad (Outcome ε) where
  pure := ok
  bind := bind

@[simp] theorem pure_eq (value : α) : (pure value : Outcome ε α) = ok value := rfl

@[simp] theorem ok_bind (value : α) (f : α → Outcome ε β) : (ok value >>= f) = f value := rfl

@[simp] theorem err_bind : ((err error : Outcome ε α) >>= f) = err error := rfl

@[simp] theorem panicked_bind : ((panicked : Outcome ε α) >>= f) = panicked := rfl

@[simp] theorem timeout_bind : ((timeout : Outcome ε α) >>= f) = timeout := rfl

variable {x : Outcome ε α} {f : α → Outcome ε β}

protected theorem bind_assoc : (x >>= f) >>= g = x >>= fun value => f value >>= g := by
  cases x <;> rfl

/-- A sequence returns a value exactly when both of its parts do. -/
theorem bind_eq_ok : (x >>= f) = ok result ↔ ∃ value, x = ok value ∧ f value = ok result := by
  cases x <;> simp

/-- A check that is made under a condition, followed by the rest. -/
theorem checked_eq_ok [Decidable c] :
    (if c then check >>= rest else rest ()) = ok result ↔
      (c → check = ok ()) ∧ rest () = ok result := by
  by_cases made : c
  · cases check <;> simp [made]
  · simp [made]

/-- Replace the error of a failed call; the other outcomes pass through. -/
def mapErr (x : Outcome ε α) (wrap : ε → ε) : Outcome ε α :=
  match x with
  | err error => err (wrap error)
  | other => other

@[simp] theorem mapErr_eq_ok : x.mapErr wrap = ok value ↔ x = ok value := by
  cases x <;> simp [mapErr]

@[simp] theorem mapErr_ok : (ok value : Outcome ε α).mapErr wrap = ok value := rfl

/-- A value that the call returns meets `P`. -/
def Ensures (x : Outcome ε α) (P : α → Prop) : Prop := ∀ value, x = ok value → P value

@[simp] theorem ensures_ok : (ok value : Outcome ε α).Ensures P ↔ P value := by simp [Ensures]

@[simp] theorem ensures_bind :
    (x >>= f).Ensures P ↔ ∀ value, x = ok value → (f value).Ensures P := by
  cases x <;> simp [Ensures]

theorem Ensures.checked [Decidable c] {rest : Unit → Outcome ε α}
    (later : (rest ()).Ensures P) : (if c then check >>= rest else rest ()).Ensures P :=
  fun value ran => later value (checked_eq_ok.mp ran).2

/-- The call came back, with a value or with an error. -/
def Returned : Outcome ε α → Prop
  | ok _ | err _ => True
  | panicked | timeout => False

instance (x : Outcome ε α) : Decidable x.Returned := by
  cases x <;> simp only [Returned] <;> infer_instance

@[simp] theorem returned_ok : (ok value : Outcome ε α).Returned := trivial

/-- A sequence comes back if its first part does, and its second part does on the
value that the first one returned. -/
theorem Returned.bind (first : x.Returned) (second : ∀ value, x = ok value → (f value).Returned) :
    (x >>= f).Returned := by
  cases x with
  | ok value => exact second value rfl
  | err error => trivial
  | panicked => exact first
  | timeout => exact first

/-- A check that is made under a condition comes back, and so does the rest. -/
theorem returned_checked {c : Prop} [Decidable c] {check : Outcome ε Unit}
    (good : check.Returned) (later : (rest ()).Returned) :
    (if c then check >>= rest else rest ()).Returned := by
  split
  · exact good.bind fun _ _ => later
  · exact later

@[simp] theorem returned_mapErr : (x.mapErr wrap).Returned ↔ x.Returned := by
  cases x <;> simp [mapErr, Returned]

/-- The second outcome says at least as much as the first: they agree unless the
first ran out of budget. -/
def Below (x y : Outcome ε α) : Prop := x = timeout ∨ x = y

theorem Below.refl (x : Outcome ε α) : Below x x := Or.inr rfl

theorem below_timeout : Below timeout y := Or.inl rfl

theorem Below.bind (first : Below x y) (second : ∀ value, Below (f value) (g value)) :
    Below (x >>= f) (y >>= g) := by
  rcases first with rfl | rfl
  · exact .inl rfl
  · cases x with
    | ok value => exact second value
    | err error => exact .inr rfl
    | panicked => exact .inr rfl
    | timeout => exact .inl rfl

theorem Below.mapErr (wrap : ε → ε) (below : Below x y) :
    Below (x.mapErr wrap) (y.mapErr wrap) := by
  rcases below with rfl | rfl
  · exact .inl rfl
  · exact .inr rfl

/-- An outcome that came back is the same under every larger budget. -/
theorem Below.eq_of_returned (below : Below x y) (done : x.Returned) : y = x := by
  rcases below with rfl | rfl
  · exact absurd done id
  · rfl

end Outcome

end HiveGo
