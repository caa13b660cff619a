import Mathlib.Tactic.IntervalCases

/-! The fixed-size integers of Go: which numbers a kind holds, the machine word of a number,
and arithmetic that wraps around. -/
namespace HiveGo

/-- The fixed-size integer kinds. -/
inductive NumKind where
  | int8 | int16 | int32 | int64
  | uint8 | uint16 | uint32 | uint64
  deriving Repr, DecidableEq

namespace NumKind

/-- Width in bytes. -/
def size : NumKind → Nat
  | int8 | uint8 => 1
  | int16 | uint16 => 2
  | int32 | uint32 => 4
  | int64 | uint64 => 8

def signed : NumKind → Bool
  | int8 | int16 | int32 | int64 => true
  | uint8 | uint16 | uint32 | uint64 => false

/-- The numbers of the kind. -/
def Holds (kind : NumKind) (number : Int) : Prop :=
  if kind.signed then -(256 ^ kind.size / 2) ≤ number ∧ number < 256 ^ kind.size / 2
  else 0 ≤ number ∧ number < 256 ^ kind.size

instance (kind : NumKind) (number : Int) : Decidable (kind.Holds number) := by
  unfold Holds; infer_instance

/-- The machine word of a number. -/
def toWord (kind : NumKind) (number : Int) : Nat := (number % 256 ^ kind.size).toNat

/-- The number of a machine word. -/
def ofWord (kind : NumKind) (word : Nat) : Int :=
  if kind.signed ∧ 256 ^ kind.size / 2 ≤ word then word - 256 ^ kind.size else word

theorem toWord_lt (kind : NumKind) : kind.toWord number < 256 ^ kind.size := by
  cases kind <;> simp only [toWord, size] <;> omega

variable {kind : NumKind}

theorem ofWord_toWord (held : kind.Holds number) : kind.ofWord (kind.toWord number) = number := by
  cases kind <;> simp [Holds, toWord, ofWord, size, signed] at held ⊢ <;> omega

theorem toWord_ofWord (small : word < 256 ^ kind.size) : kind.toWord (kind.ofWord word) = word := by
  cases kind <;> simp [toWord, ofWord, size, signed] at small ⊢ <;> omega

theorem holds_ofWord (small : word < 256 ^ kind.size) : kind.Holds (kind.ofWord word) := by
  cases kind <;> simp [Holds, ofWord, size, signed] at small ⊢ <;> omega

/-- The smallest number of the kind. -/
def lowest (kind : NumKind) : Int := if kind.signed then -(256 ^ kind.size / 2) else 0

/-- How many numbers of the kind there are. -/
def period (kind : NumKind) : Int := 256 ^ kind.size

/-- The largest number of the kind. -/
def highest (kind : NumKind) : Int := kind.lowest + kind.period - 1

/-- What is left of the result of an operation: arithmetic wraps around. -/
def wrap (kind : NumKind) (number : Int) : Int := kind.ofWord (kind.toWord number)

theorem holds_iff :
    kind.Holds number ↔ kind.lowest ≤ number ∧ number < kind.lowest + kind.period := by
  cases kind <;> simp [Holds, lowest, period, signed, size]

theorem holds_iff_highest : kind.Holds number ↔ kind.lowest ≤ number ∧ number ≤ kind.highest := by
  rw [holds_iff, highest]
  omega

theorem holds_wrap (kind : NumKind) (num : Int) : kind.Holds (kind.wrap num) :=
  holds_ofWord kind.toWord_lt

/-- The kind has zero among its numbers, and no number as large as its period. -/
theorem lowest_bounds (kind : NumKind) : kind.lowest ≤ 0 ∧ 0 < kind.lowest + kind.period := by
  cases kind <;> decide

theorem wrap_eq (kind : NumKind) (num : Int) :
    kind.wrap num = kind.lowest + (num - kind.lowest) % kind.period := by
  cases kind <;> simp [wrap, ofWord, toWord, lowest, period, signed, size] <;> omega

theorem wrap_of_holds (held : kind.Holds number) : kind.wrap number = number := ofWord_toWord held

/-- Above its numbers, a kind wraps around to one period less. -/
theorem wrap_of_above (above : kind.lowest + kind.period ≤ number)
    (near : number < kind.lowest + 2 * kind.period) : kind.wrap number = number - kind.period := by
  rw [wrap_eq, ← Int.sub_emod_right, Int.emod_eq_of_lt (by omega) (by omega)]
  omega

/-- Below its numbers, a kind wraps around to one period more. -/
theorem wrap_of_below (below : number < kind.lowest) (near : kind.lowest - kind.period ≤ number) :
    kind.wrap number = number + kind.period := by
  rw [wrap_eq, ← Int.add_emod_right, Int.emod_eq_of_lt (by omega) (by omega)]
  omega

end NumKind

end HiveGo

/-! Loops that count up to a bound in a fixed-size type. The counter wraps around, so a bound that
is the last number of the type is never passed. -/
namespace HiveGo.CountingLoop

variable {σ : Type}

/-- `for i := i; i <= bound; i++`, as many rounds as there is fuel for. -/
def upTo (kind : NumKind) (bound : Int) (body : Int → σ → σ) : (fuel : Nat) → Int → σ → Option σ
  | 0, _, _ => none
  | fuel + 1, i, s =>
    if i ≤ bound then upTo kind bound body fuel (kind.wrap (i + 1)) (body i s) else some s

theorem upTo_highest (held : kind.Holds i) : upTo kind kind.highest body fuel i s = none := by
  induction fuel generalizing i s with
  | zero => rfl
  | succ fuel ih =>
    rw [upTo, if_pos (NumKind.holds_iff_highest.mp held).2]
    exact ih (kind.holds_wrap _)

/-- What every round keeps holds behind a bound that is not the last number. -/
theorem upTo_invariant {P : Int → σ → Prop} (start : P i s)
    (round : ∀ j t, i ≤ j → j ≤ bound → P j t → P (j + 1) (body j t)) (held : kind.Holds i)
    (below : bound < kind.highest) (enough : (bound + 1 - i).toNat < fuel) :
    ∃ t, upTo kind bound body fuel i s = some t ∧ P (max i (bound + 1)) t := by
  induction fuel generalizing i s with
  | zero => omega
  | succ fuel ih =>
    rw [upTo]
    split
    · rename_i mem
      have next : kind.Holds (i + 1) := by
        rw [NumKind.holds_iff_highest] at held ⊢
        omega
      rw [NumKind.wrap_of_holds next]
      have behind : max i (bound + 1) = max (i + 1) (bound + 1) := by omega
      rw [behind]
      refine ih (round i s le_rfl mem start) (fun j t later => ?_) next (by omega)
      exact round j t (by omega)
    · refine ⟨s, rfl, ?_⟩
      rwa [max_eq_left (by omega)]

/-- Counting to a bound comes to an end unless the bound is the last number. -/
theorem upTo_ends_iff (held : kind.Holds i) (within : kind.Holds bound) :
    (∃ fuel t, upTo kind bound body fuel i s = some t) ↔ bound ≠ kind.highest := by
  constructor
  · rintro ⟨fuel, t, ended⟩ rfl
    rw [upTo_highest held] at ended
    cases ended
  · intro other
    have below := (NumKind.holds_iff_highest.mp within).2
    have ended : ∃ t, upTo kind bound body ((bound + 1 - i).toNat + 1) i s = some t ∧ True :=
      upTo_invariant (P := fun _ _ => True) trivial (fun _ _ _ _ _ => trivial) held (by omega)
        (Nat.lt_succ_self _)
    obtain ⟨t, ended, -⟩ := ended
    exact ⟨_, t, ended⟩

end HiveGo.CountingLoop
