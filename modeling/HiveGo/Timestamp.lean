import HiveGo.Serializer

/-! The 64-bit timestamp of a time. The nanoseconds since the epoch are cut to the range from zero
to the largest signed number, but the test looks at the seconds, the last of which does not fit as
a whole. -/
namespace HiveGo.Time

/-- The nanoseconds since the epoch. -/
def nanoseconds (time : Time) : Int := time.sec * 1000000000 + time.nsec

/-- A number cut to those that a timestamp can have. -/
def clamp (number : Int) : Int := max 0 (min number maxInt64)

theorem clamp_mono (le : earlier ≤ later) : clamp earlier ≤ clamp later := by
  simp only [clamp]
  omega

/-- The part of the last second whose nanoseconds are no signed 64-bit number. The seconds pass
the test there, and the wrapped nanoseconds are negative. -/
def Overflowing (time : Time) : Prop :=
  time.sec = maxNanoTimestampInt64Seconds ∧ maxInt64 < time.nanoseconds

instance (time : Time) : Decidable time.Overflowing :=
  inferInstanceAs (Decidable (_ ∧ _))

theorem unixNano_eq {time : Time} (nonneg : 0 ≤ time.sec) (fits : time.nanoseconds ≤ maxInt64) :
    time.unixNano = time.nanoseconds := by
  simp only [unixNano, wrapInt64, nanoseconds, maxInt64] at *
  omega

theorem toUint64_eq_clamp {time : Time} (within : time.nsec < 1000000000)
    (regular : ¬ time.Overflowing) : (time.toUint64 : Int) = clamp time.nanoseconds := by
  unfold toUint64
  split
  · simp only [clamp, nanoseconds, maxNanoTimestampInt64Seconds, maxInt64] at *
    omega
  · have fits : time.nanoseconds ≤ maxInt64 := by
      simp only [Overflowing, nanoseconds, maxNanoTimestampInt64Seconds, maxInt64] at *
      omega
    split
    · rename_i neg
      have pre : time.sec < 0 := by
        rcases neg with pre | wrapped
        · exact pre
        · by_contra nonneg
          rw [unixNano_eq (by omega) fits, nanoseconds] at wrapped
          omega
      simp only [clamp, nanoseconds, maxInt64] at *
      omega
    · have same := unixNano_eq (by omega) fits
      simp only [clamp] at *
      omega

/-- A time in the overflowing part is written as the epoch. -/
theorem toUint64_of_overflowing {time : Time} (within : time.nsec < 1000000000)
    (overflowing : time.Overflowing) : time.toUint64 = 0 := by
  simp only [Overflowing, nanoseconds, maxNanoTimestampInt64Seconds, maxInt64] at overflowing
  have wrapped : time.unixNano < 0 := by
    simp only [unixNano, wrapInt64]
    omega
  unfold toUint64
  rw [if_neg (by simp only [maxNanoTimestampInt64Seconds]; omega), if_pos (.inr wrapped)]

/-- A time is written as its nanoseconds, cut to what fits, unless it is in the overflowing part
of the last second. A later time is written as a smaller number only if it is in that part and the
earlier one is after the epoch and not in it. -/
theorem toUint64_saturates (time : Time) (within : time.nsec < 1000000000) :
    ((time.toUint64 : Int) = max 0 (min (time.sec * 10 ^ 9 + time.nsec) (2 ^ 63 - 1)) ↔
      ¬ time.Overflowing) ∧
    ∀ later : Time, later.nsec < 1000000000 → time.nanoseconds ≤ later.nanoseconds →
      (time.toUint64 ≤ later.toUint64 ↔
        ¬ (later.Overflowing ∧ ¬ time.Overflowing ∧ 0 < time.nanoseconds)) := by
  refine ⟨⟨fun same overflowing => ?_, toUint64_eq_clamp within⟩, fun later laterWithin order => ?_⟩
  · rw [toUint64_of_overflowing within overflowing] at same
    simp only [Overflowing, nanoseconds, maxInt64] at overflowing
    omega
  · by_cases regular : time.Overflowing
    · simp [toUint64_of_overflowing within regular, regular]
    · have written := toUint64_eq_clamp within regular
      by_cases laterRegular : later.Overflowing
      · rw [toUint64_of_overflowing laterWithin laterRegular]
        simp only [laterRegular, regular, not_false_iff, true_and, clamp, maxInt64] at written ⊢
        omega
      · have ordered := clamp_mono order
        rw [← written, ← toUint64_eq_clamp laterWithin laterRegular] at ordered
        simp only [laterRegular, false_and, not_false_iff, iff_true]
        exact Int.ofNat_le.mp ordered

/-- The last nanosecond that fits, and the first one of the second after it. -/
theorem toUint64_saturates_at_end :
    (toUint64 ⟨9223372036, 854775807⟩ : Int) =
      max 0 (min (9223372036 * 10 ^ 9 + 854775807) (2 ^ 63 - 1)) ∧
    toUint64 ⟨9223372036, 854775807⟩ ≤ toUint64 ⟨9223372037, 0⟩ := by
  have result := toUint64_saturates ⟨9223372036, 854775807⟩ (by decide)
  exact ⟨result.1.mpr (by decide), (result.2 ⟨9223372037, 0⟩ (by decide) (by decide)).mpr (by decide)⟩

/-- The nanosecond after the last one that fits is written as the epoch. -/
theorem toUint64_wraps_to_epoch :
    toUint64 ⟨9223372036, 854775808⟩ = 0 ∧ toUint64 ⟨9223372036, 854775807⟩ = 2 ^ 63 - 1 ∧
    nanoseconds ⟨9223372036, 854775807⟩ < nanoseconds ⟨9223372036, 854775808⟩ := by
  decide

end HiveGo.Time
