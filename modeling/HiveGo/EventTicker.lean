import HiveGo.EvictionState

/-! The eviction of the event ticker, and when the loops of both evictions come to an end. -/
namespace HiveGo.EventTicker
open CountingLoop

variable {T Task : Type}

/-- What `EvictUntil` works on: the scheduled tasks by index and id, their number, and the tasks
that were cancelled. -/
structure State (T Task : Type) where
  lastEvictedIndex : Int := 0
  scheduledTickers : ShrinkingMap Int (ShrinkingMap T Task) := .new
  scheduledTickerCount : Int := 0
  cancelled : List Task := []

/-- The body of the loop of `EvictUntil`. The tasks of an index are cancelled in any order. -/
def evictIndex (currentIndex : Int) (s : State T Task) : State T Task :=
  match s.scheduledTickers.get currentIndex with
  | none => s
  | some evictedStorage =>
    { s with
      scheduledTickers := s.scheduledTickers.delete currentIndex
      scheduledTickerCount := s.scheduledTickerCount - evictedStorage.size
      cancelled := evictedStorage.entries.map Prod.snd ++ s.cancelled }

/-- The index types are those of 32 unsigned bits; the loop makes as many rounds as there is fuel
for. -/
def evictUntil (fuel : Nat) (s : State T Task) (index : Int) : Option (State T Task) :=
  if index ≤ s.lastEvictedIndex then some s
  else do
    let evicted ← upTo .uint32 index evictIndex fuel
      (NumKind.wrap .uint32 (s.lastEvictedIndex + 1)) s
    return { evicted with lastEvictedIndex := index }

theorem evictUntil_ends_iff (within : NumKind.Holds .uint32 index) :
    (∃ fuel next, evictUntil fuel s index = some next) ↔
      index ≠ NumKind.highest .uint32 ∨ index ≤ s.lastEvictedIndex := by
  unfold evictUntil
  by_cases behind : index ≤ s.lastEvictedIndex
  · simp only [behind, if_true, or_true, iff_true]
    exact ⟨0, s, rfl⟩
  · simp only [behind, if_false, or_false]
    simpa [Option.bind_eq_some_iff] using upTo_ends_iff (NumKind.holds_wrap .uint32 _) within

/-- Evicting slots or indexes comes to an end, in every state, unless the last number of the type
is to be evicted and was not evicted before. -/
theorem evictions_end_iff {kind : NumKind} {slot index : Int} (events : EvictionState.State)
    (tickers : State T Task) (within : kind.Holds slot) (inside : NumKind.Holds .uint32 index) :
    ((∃ fuel evicted, events.evict kind fuel slot = some evicted) ↔
      slot ≠ kind.highest ∨ events.ahead slot = false) ∧
    ((∃ fuel next, evictUntil fuel tickers index = some next) ↔
      index ≠ NumKind.highest .uint32 ∨ index ≤ tickers.lastEvictedIndex) :=
  ⟨events.evict_ends_iff within, evictUntil_ends_iff inside⟩

theorem evictions_end_below_the_last :
    (∃ fuel evicted, EvictionState.State.evict .int8 fuel {} 126 = some evicted) ∧
      ∃ fuel next, evictUntil fuel ({} : State Nat Nat) 7 = some next := by
  have within : NumKind.Holds .int8 126 := by decide
  have mem : NumKind.Holds .uint32 7 := by decide
  have both := evictions_end_iff {} ({} : State Nat Nat) within mem
  exact ⟨both.1.mpr (.inl (by decide)), both.2.mpr (.inl (by decide))⟩

/-- A new state of 8 bits does not finish the eviction of slot 255, nor does a new ticker finish
the one of its last index. -/
theorem evictions_never_end :
    (∀ fuel, EvictionState.State.evict .uint8 fuel {} 255 = none) ∧
      ∀ fuel, evictUntil fuel ({} : State Nat Nat) (2 ^ 32 - 1) = none := by
  constructor
  · intro fuel
    have held : NumKind.Holds .uint8 0 := by decide
    have never : upTo .uint8 255 EvictionState.State.evictSlot fuel 0 (.new, []) = none :=
      upTo_highest held
    exact congrArg (Option.bind · _) never
  · intro fuel
    have held : NumKind.Holds .uint32 1 := by decide
    have never : upTo .uint32 (2 ^ 32 - 1) evictIndex fuel 1 ({} : State Nat Nat) = none :=
      upTo_highest held
    exact congrArg (Option.bind · _) never

end HiveGo.EventTicker
