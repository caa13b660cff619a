import Mathlib.Data.List.Perm.Basic

/-! Binary heaps in any collection that compares and swaps its entries by position, as in the
standard library. An entry is never less than its parent. Sifting moves one entry that may be out
of order up or down to its place. -/
namespace HiveGo.BinaryHeap
open List

/-- What a collection has to provide. Its operations are undefined where they would panic. -/
structure Interface (σ X : Type) where
  len : σ → Nat
  less : σ → Nat → Nat → Option Bool
  swap : σ → Nat → Nat → Option σ
  push : σ → X → Option σ
  pop : σ → Option (X × σ)

variable {σ X α : Type}

def parent (k : Nat) : Nat := (k - 1) / 2

section algorithms

variable (h : Interface σ X)

/-- The budget is an upper bound on the number of rounds. -/
def upWithin : (budget : Nat) → σ → Nat → Option σ
  | 0, _, _ => none
  | budget + 1, s, j => do
    let i := parent j
    if i = j then return s
    if !(← h.less s j i) then return s
    upWithin budget (← h.swap s i j) i

def up (s : σ) (j : Nat) : Option σ := upWithin h (j + 1) s j

/-- The right child if there is one and it is less, the left child otherwise. -/
def lesserChild (s : σ) (n j1 : Nat) : Option Nat := do
  let j2 := j1 + 1
  let right ← if j2 < n then h.less s j2 j1 else some false
  return if right then j2 else j1

/-- The state after the last round, and where the entry is now. -/
def downWithin (n : Nat) : (budget : Nat) → σ → Nat → Option (Nat × σ)
  | 0, _, _ => none
  | budget + 1, s, i => do
    let j1 := 2 * i + 1
    if n ≤ j1 then return (i, s)
    let j ← lesserChild h s n j1
    if !(← h.less s j i) then return (i, s)
    downWithin n budget (← h.swap s i j) j

/-- Whether the entry was moved. -/
def down (s : σ) (i n : Nat) : Option (Bool × σ) := do
  let (last, s) ← downWithin h n (n + 1) s i
  return (decide (i < last), s)

def push (s : σ) (x : X) : Option σ := do
  let s ← h.push s x
  up h s (h.len s - 1)

def pop (s : σ) : Option (X × σ) := do
  if h.len s = 0 then none
  let n := h.len s - 1
  let s ← h.swap s 0 n
  let (_, s) ← down h s 0 n
  h.pop s

def remove (s : σ) (i : Nat) : Option (X × σ) := do
  if h.len s = 0 then none
  let n := h.len s - 1
  if n = i then h.pop s
  else do
    let s ← h.swap s i n
    let (moved, s) ← down h s i n
    let s ← if moved then some s else up h s i
    h.pop s

end algorithms

/-! Lists in heap order. -/

/-- The comparison is that of a total preorder. -/
structure IsStrict (lt : α → α → Bool) : Prop where
  asymm : ∀ a b, lt a b = true → lt b a = false
  trans : ∀ a b c, lt b a = false → lt c b = false → lt c a = false

variable (lt : α → α → Bool)

/-- The entry at the second place is not less than that at the first. -/
def Above (entries : List α) (i k : Nat) : Prop :=
  ∀ a b, entries[i]? = some a → entries[k]? = some b → lt b a = false

def IsHeap (entries : List α) : Prop := ∀ k, 0 < k → Above lt entries (parent k) k

/-- The order of a heap but for the hole. Its children are not less than its parent. -/
structure Sifting (entries : List α) (hole : Nat) : Prop where
  edges : ∀ k, 0 < k → k ≠ hole → parent k ≠ hole → Above lt entries (parent k) k
  across : ∀ k, 0 < k → parent k = hole → 0 < hole → Above lt entries (parent hole) k

/-- The children of the hole are in order. -/
def Lower (entries : List α) (hole : Nat) : Prop :=
  ∀ k, 0 < k → parent k = hole → Above lt entries hole k

/-- The hole is in order with its parent. -/
def Upper (entries : List α) (hole : Nat) : Prop :=
  0 < hole → Above lt entries (parent hole) hole

variable {lt}

theorem parent_lt (pos : 0 < k) : parent k < k := by
  unfold parent
  omega

theorem IsHeap.sifting (strict : IsStrict lt) (heap : IsHeap lt entries) (hole : Nat) :
    Sifting lt entries hole := by
  refine ⟨fun k pos _ _ => heap k pos, fun k pos child inner a c above below => ?_⟩
  subst child
  have bound := (List.getElem?_eq_some_iff.mp below).1
  have between := getElem?_eq_getElem (Nat.lt_trans (parent_lt pos) bound)
  exact strict.trans _ _ _ (heap _ inner a _ above between) (heap k pos _ c between below)

theorem Sifting.isHeap (sifting : Sifting lt entries hole) (lower : Lower lt entries hole)
    (upper : Upper lt entries hole) : IsHeap lt entries := by
  intro k pos
  by_cases here : k = hole
  · subst here
    exact upper pos
  · by_cases child : parent k = hole
    · subst child
      exact lower k pos rfl
    · exact sifting.edges k pos here child

/-- The first entry of a heap is not greater than any other one. -/
theorem IsHeap.root_le (strict : IsStrict lt) (heap : IsHeap lt entries)
    (first : entries[0]? = some root) (mem : entry ∈ entries) : lt entry root = false := by
  obtain ⟨k, bound, rfl⟩ := mem_iff_getElem.mp mem
  clear mem
  induction k using Nat.strongRecOn with
  | ind k ih =>
    rcases Nat.eq_zero_or_pos k with rfl | positive
    · rw [getElem?_eq_getElem bound, Option.some.injEq] at first
      rw [first]
      by_contra less
      rw [Bool.not_eq_false] at less
      exact absurd less (by rw [strict.asymm _ _ less]; simp)
    · have below := parent_lt positive
      exact strict.trans _ _ _ (ih (parent k) below (Nat.lt_trans below bound))
        (heap k positive _ _ (getElem?_eq_getElem _) (getElem?_eq_getElem _))

/-- The list with the entries of two places exchanged. -/
def exchange (entries : List α) (i j : Nat) : List α :=
  match entries[i]?, entries[j]? with
  | some a, some b => (entries.set i b).set j a
  | _, _ => entries

theorem exchange_eq (left : entries[i]? = some a) (right : entries[j]? = some b) :
    exchange entries i j = (entries.set i b).set j a := by
  simp [exchange, left, right]

theorem getElem?_exchange (left : entries[i]? = some a) (right : entries[j]? = some b) (k : Nat) :
    (exchange entries i j)[k]? =
      if k = j then some a else if k = i then some b else entries[k]? := by
  have leftBound := (List.getElem?_eq_some_iff.mp left).1
  have rightBound := (List.getElem?_eq_some_iff.mp right).1
  rw [exchange_eq left right, getElem?_set, getElem?_set, length_set]
  simp [leftBound, rightBound, eq_comm]

theorem map_exchange (f : α → β) (entries : List α) (i j : Nat) :
    (exchange entries i j).map f = exchange (entries.map f) i j := by
  unfold exchange
  rw [getElem?_map, getElem?_map]
  cases entries[i]? with
  | none => rfl
  | some a =>
    cases entries[j]? with
    | none => rfl
    | some b => rw [Option.map_some, Option.map_some, map_set, map_set]

@[simp] theorem length_exchange : (exchange entries i j).length = entries.length := by
  unfold exchange
  split <;> simp

theorem exchange_perm (entries : List α) (i j : Nat) : (exchange entries i j).Perm entries := by
  unfold exchange
  split
  · rename_i a b left right
    obtain ⟨leftBound, rfl⟩ := List.getElem?_eq_some_iff.mp left
    obtain ⟨rightBound, rfl⟩ := List.getElem?_eq_some_iff.mp right
    exact set_set_perm leftBound rightBound
  · exact .refl _

theorem exchange_append (left : i < entries.length) (right : j < entries.length) :
    exchange (entries ++ rest) i j = exchange entries i j ++ rest := by
  rw [exchange_eq (getElem?_eq_getElem left) (getElem?_eq_getElem right),
    exchange_eq (a := entries[i]) (b := entries[j])]
  · rw [set_append_left _ _ left, set_append_left]
    rwa [length_set]
  · rw [getElem?_append_left left, getElem?_eq_getElem left]
  · rw [getElem?_append_left right, getElem?_eq_getElem right]

/-! One round of sifting. -/

/-- The hole is exchanged with its least child. -/
theorem Sifting.down (sifting : Sifting lt entries i) (pos : 0 < j) (child : parent j = i)
    (left : entries[i]? = some a) (right : entries[j]? = some b)
    (least : ∀ k, 0 < k → parent k = i → Above lt entries j k) (ordered : lt a b = false) :
    Sifting lt (exchange entries i j) j ∧ Upper lt (exchange entries i j) j := by
  have below := parent_lt pos
  refine ⟨⟨fun k inner other apart x y above under => ?_,
    fun k inner grandchild _ x y above under => ?_⟩, fun _ x y above under => ?_⟩
  · have climb := parent_lt inner
    rw [getElem?_exchange left right] at above under
    rw [if_neg apart] at above
    rw [if_neg other] at under
    by_cases here : k = i
    · rw [if_neg (by omega)] at above
      rw [if_pos here] at under
      subst here
      cases under
      exact sifting.across j pos child inner x b above right
    · rw [if_neg here] at under
      by_cases sibling : parent k = i
      · rw [if_pos sibling] at above
        cases above
        exact least k inner sibling b y right under
      · rw [if_neg sibling] at above
        exact sifting.edges k inner here sibling x y above under
  · have climb := parent_lt inner
    rw [getElem?_exchange left right] at above under
    rw [if_neg (by omega), if_pos child] at above
    rw [if_neg (by omega), if_neg (by omega)] at under
    cases above
    have edge := sifting.edges k inner (by omega) (by omega)
    rw [grandchild] at edge
    exact edge b y right under
  · rw [getElem?_exchange left right] at above under
    rw [if_neg (by omega), if_pos child] at above
    rw [if_pos rfl] at under
    cases above
    cases under
    exact ordered

/-- The hole is exchanged with its parent. -/
theorem Sifting.up (strict : IsStrict lt) (sifting : Sifting lt entries j) (pos : 0 < j)
    (child : parent j = i) (left : entries[i]? = some a) (right : entries[j]? = some b)
    (less : lt b a = true) :
    Sifting lt (exchange entries i j) i ∧ Lower lt (exchange entries i j) i := by
  have below := parent_lt pos
  have ordered := strict.asymm b a less
  -- what stands below the parent beside the hole stays below the entry that takes its place
  have sibling : ∀ k y, 0 < k → k ≠ j → parent k = i → entries[k]? = some y → lt y a = false := by
    intro k y inner other beside under
    have edge := sifting.edges k inner other (by omega)
    rw [beside] at edge
    exact edge a y left under
  refine ⟨⟨fun k inner other apart x y above under => ?_,
    fun k inner grandchild high x y above under => ?_⟩, fun k inner beside x y above under => ?_⟩
  · have notHole : k ≠ j := fun same => apart (same ▸ child)
    rw [getElem?_exchange left right] at above under
    rw [if_neg notHole, if_neg other] at under
    by_cases beneath : parent k = j
    · rw [if_pos beneath] at above
      cases above
      have edge := sifting.across k inner beneath pos
      rw [child] at edge
      exact edge a y left under
    · rw [if_neg beneath, if_neg apart] at above
      exact sifting.edges k inner notHole beneath x y above under
  · have climb := parent_lt high
    rw [getElem?_exchange left right] at above under
    rw [if_neg (by omega), if_neg (by omega)] at above
    have edge := sifting.edges i high (by omega) (by omega) x a above left
    by_cases here : k = j
    · rw [if_pos here] at under
      cases under
      exact edge
    · rw [if_neg here, if_neg (by have := parent_lt inner; omega)] at under
      exact strict.trans x a y edge (sibling k y inner here grandchild under)
  · have climb := parent_lt inner
    rw [getElem?_exchange left right] at above under
    rw [if_neg (by omega), if_pos rfl] at above
    cases above
    by_cases here : k = j
    · rw [if_pos here] at under
      cases under
      exact ordered
    · rw [if_neg here, if_neg (by omega)] at under
      exact strict.trans b a y ordered (sibling k y inner here beside under)

/-! The algorithms on a collection. -/

/-- The collection holds a list of entries, compares them as `lt` does, and swaps them. -/
structure Implements (h : Interface σ X) (lt : α → α → Bool) (Holds : σ → List α → Prop) :
    Prop where
  len : ∀ s entries, Holds s entries → h.len s = entries.length
  less : ∀ s entries i j a b, Holds s entries → entries[i]? = some a → entries[j]? = some b →
    h.less s i j = some (lt a b)
  swap : ∀ s entries i j, Holds s entries → i < entries.length → j < entries.length →
    ∃ t, h.swap s i j = some t ∧ Holds t (exchange entries i j)

/-- Sifting up among the first entries makes them a heap. -/
theorem upWithin_spec (strict : IsStrict lt) (implements : Implements h lt Holds)
    (holds : Holds s (entries ++ rest)) (mem : j < entries.length) (enough : j < budget)
    (sifting : Sifting lt entries j) (lower : Lower lt entries j) :
    ∃ t sifted, upWithin h budget s j = some t ∧ Holds t (sifted ++ rest) ∧
      sifted.Perm entries ∧ IsHeap lt sifted := by
  induction budget generalizing s j entries with
  | zero => exact absurd enough (Nat.not_lt_zero j)
  | succ budget ih =>
    rw [upWithin]
    by_cases top : parent j = j
    · have zero : ¬ 0 < j := fun pos => Nat.ne_of_lt (parent_lt pos) top
      exact ⟨s, entries, by simp [top], holds, .refl _,
        sifting.isHeap lower fun pos => absurd pos zero⟩
    · have pos : 0 < j := by
        rcases Nat.eq_zero_or_pos j with rfl | pos
        · exact absurd rfl top
        · exact pos
      have below := parent_lt pos
      have above := Nat.lt_trans below mem
      have left := getElem?_eq_getElem above
      have right := getElem?_eq_getElem mem
      have compared := implements.less s _ j (parent j) _ _ holds
        ((getElem?_append_left mem).trans right)
        ((getElem?_append_left above).trans left)
      cases less : lt entries[j] entries[parent j] with
      | false =>
        refine ⟨s, entries, by simp [top, compared, less], holds, .refl _, sifting.isHeap lower ?_⟩
        intro _ x y above under
        cases left.symm.trans above
        cases right.symm.trans under
        exact less
      | true =>
        obtain ⟨next, swapped, held⟩ := implements.swap s _ (parent j) j holds
          (by rw [length_append]; omega) (by rw [length_append]; omega)
        rw [exchange_append above mem] at held
        obtain ⟨stillSifting, stillLower⟩ := sifting.up strict pos rfl left right less
        obtain ⟨t, sifted, ran, final, perm, heap⟩ := ih held
          (by rw [length_exchange]; exact above) (by omega) stillSifting stillLower
        refine ⟨t, sifted, ?_, final, perm.trans (exchange_perm entries (parent j) j), heap⟩
        simp [top, compared, less, swapped, ran]

theorem parent_eq_iff : 0 < k ∧ parent k = i ↔ k = 2 * i + 1 ∨ k = 2 * i + 2 := by
  unfold parent
  omega

/-- What `down` leaves: the entry is at its last place, and it is in order with all but perhaps
the parent of the place it started from. -/
structure Sunk (lt : α → α → Bool) (entries sifted : List α) (start last : Nat) : Prop where
  perm : sifted.Perm entries
  le : start ≤ last
  sifting : Sifting lt sifted last
  lower : Lower lt sifted last
  unmoved : last = start → sifted = entries
  upper : start < last → Upper lt sifted last

theorem IsStrict.refl (strict : IsStrict lt) (a : α) : lt a a = false := by
  cases less : lt a a with
  | false => rfl
  | true => exact less.symm.trans (strict.asymm a a less)

theorem lesserChild_spec (strict : IsStrict lt) (implements : Implements h lt Holds)
    (holds : Holds s (entries ++ rest)) (mem : 2 * i + 1 < entries.length) :
    ∃ j, lesserChild h s entries.length (2 * i + 1) = some j ∧ j < entries.length ∧
      (0 < j ∧ parent j = i) ∧ ∀ k, 0 < k → parent k = i → Above lt entries j k := by
  have left := getElem?_eq_getElem mem
  unfold lesserChild
  by_cases both : 2 * i + 1 + 1 < entries.length
  · have right := getElem?_eq_getElem both
    have compared := implements.less s _ (2 * i + 1 + 1) (2 * i + 1) _ _ holds
      ((getElem?_append_left both).trans right)
      ((getElem?_append_left mem).trans left)
    cases less : lt entries[2 * i + 1 + 1] entries[2 * i + 1] with
    | true =>
      refine ⟨2 * i + 2, by simp [both, compared, less], both, parent_eq_iff.mpr (.inr rfl), ?_⟩
      intro k pos child x y above under
      cases right.symm.trans above
      rcases parent_eq_iff.mp ⟨pos, child⟩ with rfl | rfl
      · cases left.symm.trans under
        exact strict.asymm _ _ less
      · cases right.symm.trans under
        exact strict.refl _
    | false =>
      refine ⟨2 * i + 1, by simp [both, compared, less], mem, parent_eq_iff.mpr (.inl rfl), ?_⟩
      intro k pos child x y above under
      cases left.symm.trans above
      rcases parent_eq_iff.mp ⟨pos, child⟩ with rfl | rfl
      · cases left.symm.trans under
        exact strict.refl _
      · cases right.symm.trans under
        exact less
  · refine ⟨2 * i + 1, by simp [both], mem, parent_eq_iff.mpr (.inl rfl), ?_⟩
    intro k pos child x y above under
    cases left.symm.trans above
    rcases parent_eq_iff.mp ⟨pos, child⟩ with rfl | rfl
    · cases left.symm.trans under
      exact strict.refl _
    · exact absurd (List.getElem?_eq_some_iff.mp under).1 both

/-- Sifting down among the first entries. -/
theorem downWithin_spec (strict : IsStrict lt) (implements : Implements h lt Holds)
    (holds : Holds s (entries ++ rest)) (mem : i ≤ entries.length)
    (enough : entries.length < i + budget) (sifting : Sifting lt entries i) :
    ∃ t sifted last, downWithin h entries.length budget s i = some (last, t) ∧
      Holds t (sifted ++ rest) ∧ Sunk lt entries sifted i last := by
  induction budget generalizing s i entries with
  | zero => omega
  | succ budget ih =>
    rw [downWithin]
    have stop (lower : Lower lt entries i) : Sunk lt entries entries i i :=
      ⟨.refl _, Nat.le_refl i, sifting, lower, fun _ => rfl,
        fun moved => absurd moved (Nat.lt_irrefl i)⟩
    by_cases leaf : entries.length ≤ 2 * i + 1
    · refine ⟨s, entries, i, by simp [leaf], holds, stop ?_⟩
      intro k pos child x y _ under
      have bound := (List.getElem?_eq_some_iff.mp under).1
      have := parent_eq_iff.mp ⟨pos, child⟩
      omega
    · obtain ⟨j, chosen, bound, ⟨pos, child⟩, least⟩ :=
        lesserChild_spec strict implements holds (Nat.lt_of_not_le leaf)
      have below := child ▸ parent_lt pos
      have above := Nat.lt_trans below bound
      have left := getElem?_eq_getElem above
      have right := getElem?_eq_getElem bound
      have compared := implements.less s _ j i _ _ holds ((getElem?_append_left bound).trans right)
        ((getElem?_append_left above).trans left)
      cases less : lt entries[j] entries[i] with
      | false =>
        refine ⟨s, entries, i, by simp [leaf, chosen, compared, less], holds, stop ?_⟩
        intro k inner beside x y above under
        cases left.symm.trans above
        exact strict.trans _ _ _ less (least k inner beside _ y right under)
      | true =>
        obtain ⟨next, swapped, held⟩ := implements.swap s _ i j holds
          (by rw [length_append]; omega) (by rw [length_append]; omega)
        rw [exchange_append above bound] at held
        obtain ⟨stillSifting, upper⟩ := sifting.down pos child left right least
          (strict.asymm _ _ less)
        obtain ⟨t, sifted, last, ran, final, sunk⟩ := ih held
          (by rw [length_exchange]; exact Nat.le_of_lt bound) (by rw [length_exchange]; omega)
          stillSifting
        rw [length_exchange] at ran
        refine ⟨t, sifted, last, by simp [leaf, chosen, compared, less, swapped, ran], final, ?_⟩
        have further := sunk.le
        refine ⟨sunk.perm.trans (exchange_perm entries i j), by omega, sunk.sifting, sunk.lower,
          by omega, fun _ => ?_⟩
        rcases Nat.eq_or_lt_of_le further with same | moved
        · rw [sunk.unmoved same.symm, ← same]
          exact upper
        · exact sunk.upper moved

/-! The operations on a heap. -/

theorem getElem?_append_of_some {k : Nat} (found : entries[k]? = some a) (rest : List α) :
    (entries ++ rest)[k]? = some a := by
  rw [List.getElem?_append_left (List.getElem?_eq_some_iff.mp found).1]
  exact found

theorem IsHeap.of_append (heap : IsHeap lt (entries ++ rest)) : IsHeap lt entries :=
  fun k pos a b above below => heap k pos a b
    (getElem?_append_of_some above rest) (getElem?_append_of_some below rest)

/-- A heap with another entry at one of its places. -/
theorem IsHeap.sifting_set (strict : IsStrict lt) (heap : IsHeap lt entries) (i : Nat) (a : α) :
    Sifting lt (entries.set i a) i := by
  have sifting := heap.sifting strict i
  refine ⟨fun k pos other apart x y above below => ?_, fun k pos child inner x y above below => ?_⟩
  · rw [getElem?_set_ne (Ne.symm apart)] at above
    rw [getElem?_set_ne (Ne.symm other)] at below
    exact sifting.edges k pos other apart x y above below
  · have lower := parent_lt pos
    have upper := parent_lt inner
    rw [getElem?_set_ne (by omega)] at above below
    exact sifting.across k pos child inner x y above below

/-- A heap with one entry more at its end. -/
theorem IsHeap.sifting_append (heap : IsHeap lt entries) (a : α) :
    Sifting lt (entries ++ [a]) entries.length ∧ Lower lt (entries ++ [a]) entries.length := by
  have leaf : ∀ k y, 0 < k → parent k = entries.length → (entries ++ [a])[k]? ≠ some y := by
    intro k y pos child found
    have bound := (List.getElem?_eq_some_iff.mp found).1
    have below := parent_lt pos
    rw [length_append, length_singleton] at bound
    omega
  refine ⟨⟨fun k pos other apart x y above below => ?_,
    fun k pos child _ x y _ below => ?_⟩, fun k pos child x y _ below => ?_⟩
  · have bound := (List.getElem?_eq_some_iff.mp below).1
    have upper := parent_lt pos
    rw [length_append, length_singleton] at bound
    rw [getElem?_append_left (by omega)] at above below
    exact heap k pos x y above below
  · exact absurd below (leaf k y pos child)
  · exact absurd below (leaf k y pos child)

theorem push_spec (strict : IsStrict lt) (implements : Implements h lt Holds)
    (heap : IsHeap lt entries) (pushed : h.push s x = some t) (holds : Holds t (entries ++ [a])) :
    ∃ u sifted, push h s x = some u ∧ Holds u sifted ∧ sifted.Perm (entries ++ [a]) ∧
      IsHeap lt sifted := by
  obtain ⟨sifting, lower⟩ := heap.sifting_append a
  have last : h.len t - 1 = entries.length := by
    rw [implements.len t _ holds, length_append, length_singleton, Nat.add_sub_cancel]
  have whole : Holds t (entries ++ [a] ++ []) := by rwa [append_nil]
  obtain ⟨u, sifted, ran, final, perm, ordered⟩ := upWithin_spec strict implements whole
    (by rw [length_append, length_singleton]; exact Nat.lt_succ_self _)
    (Nat.lt_succ_self _) sifting lower
  rw [append_nil] at final
  refine ⟨u, sifted, ?_, final, perm, ordered⟩
  rw [push, pushed]
  change up h t (h.len t - 1) = some u
  rw [last]
  exact ran

theorem exchange_last (found : entries[i]? = some a) :
    exchange (entries ++ [last]) i entries.length = entries.set i last ++ [a] := by
  have bound := (List.getElem?_eq_some_iff.mp found).1
  rw [exchange_eq (getElem?_append_of_some found [last]) getElem?_concat_length,
    set_append_left _ _ bound,
    set_append_right _ _ (Nat.le_of_eq length_set)]
  simp

/-- What is left when an entry is taken out and the others are put in order again. -/
structure Without (lt : α → α → Bool) (entries sifted : List α) (a : α) : Prop where
  perm : (a :: sifted).Perm entries
  heap : IsHeap lt sifted

variable {h : Interface σ X} {Holds : σ → List α → Prop} (strict : IsStrict lt)
    (implements : Implements h lt Holds)
include strict implements

/-- The entry of a place and the last one change places, and the last one starts to sink. -/
theorem swap_last (holds : Holds s (entries ++ [last])) (heap : IsHeap lt (entries ++ [last]))
    (found : entries[i]? = some a) :
    ∃ t, h.swap s i entries.length = some t ∧ Holds t (entries.set i last ++ [a]) ∧
      Sifting lt (entries.set i last) i ∧
      (a :: entries.set i last).Perm (entries ++ [last]) := by
  have bound := (List.getElem?_eq_some_iff.mp found).1
  obtain ⟨t, swapped, held⟩ := implements.swap s _ i entries.length holds
    (by rw [length_append]; omega)
    (by rw [length_append, length_singleton]; exact Nat.lt_succ_self _)
  have exchanged := exchange_perm (entries ++ [last]) i entries.length
  rw [exchange_last found] at held exchanged
  exact ⟨t, swapped, held, heap.of_append.sifting_set strict i last,
    (perm_append_singleton a _).symm.trans exchanged⟩

theorem down_spec (holds : Holds s (entries ++ rest)) (mem : i ≤ entries.length)
    (sifting : Sifting lt entries i) :
    ∃ t sifted last, down h s i entries.length = some (decide (i < last), t) ∧
      Holds t (sifted ++ rest) ∧ Sunk lt entries sifted i last := by
  obtain ⟨t, sifted, last, ran, final, sunk⟩ := downWithin_spec strict implements holds mem
    (Nat.lt_add_left i (Nat.lt_succ_self entries.length)) sifting
  exact ⟨t, sifted, last, by rw [down, ran]; rfl, final, sunk⟩

/-- The first entry is moved to the end, and the others are a heap again. -/
theorem pop_spec
    (holds : Holds s entries) (heap : IsHeap lt entries) (first : entries[0]? = some root) :
    ∃ t sifted, pop h s = h.pop t ∧ Holds t (sifted ++ [root]) ∧
      Without lt entries sifted root := by
  rcases eq_nil_or_concat' entries with rfl | ⟨front, last, rfl⟩
  · cases first
  have len : h.len s = front.length + 1 := by
    rw [implements.len s _ holds, length_append, length_singleton]
  obtain ⟨next, middle, swapped, held, length, sifting, perm⟩ : ∃ next middle,
      h.swap s 0 front.length = some next ∧ Holds next (middle ++ [root]) ∧
        middle.length = front.length ∧ Sifting lt middle 0 ∧
        (root :: middle).Perm (front ++ [last]) := by
    cases front with
    | nil =>
      cases first
      obtain ⟨next, swapped, held⟩ := implements.swap s _ 0 0 holds (by simp) (by simp)
      exact ⟨next, [], swapped, held, rfl, ⟨by simp [Above], by simp [Above]⟩, .refl _⟩
    | cons top front =>
      cases first
      obtain ⟨next, swapped, held, sifting, perm⟩ :=
        swap_last strict implements holds heap (i := 0) rfl
      exact ⟨next, _, swapped, held, length_set, sifting, perm⟩
  obtain ⟨t, sifted, place, ran, final, sunk⟩ :=
    down_spec strict implements held (Nat.zero_le _) sifting
  rw [length] at ran
  refine ⟨t, sifted, ?_, final, (sunk.perm.cons root).trans perm, sunk.sifting.isHeap sunk.lower
    fun pos => sunk.upper pos pos⟩
  simp [pop, len, swapped, ran]

/-- The entry of the place is moved to the end, and the others are a heap again. -/
theorem remove_spec
    (holds : Holds s entries) (heap : IsHeap lt entries) (found : entries[i]? = some a) :
    ∃ t sifted, remove h s i = h.pop t ∧ Holds t (sifted ++ [a]) ∧ Without lt entries sifted a := by
  rcases eq_nil_or_concat' entries with rfl | ⟨front, last, rfl⟩
  · cases found
  have len : h.len s = front.length + 1 := by
    rw [implements.len s _ holds, length_append, length_singleton]
  have bound := (List.getElem?_eq_some_iff.mp found).1
  rw [length_append, length_singleton] at bound
  rcases Nat.lt_succ_iff_lt_or_eq.mp bound with inside | rfl
  · rw [getElem?_append_left inside] at found
    obtain ⟨next, swapped, held, sifting, perm⟩ := swap_last strict implements holds heap found
    obtain ⟨after, sifted, place, ran, final, sunk⟩ := down_spec strict implements held
      (by rw [length_set]; exact Nat.le_of_lt inside) sifting
    rw [length_set] at ran
    have apart := Nat.ne_of_gt inside
    rcases Nat.eq_or_lt_of_le sunk.le with same | moved
    · obtain rfl := sunk.unmoved same.symm
      have lower := sunk.lower
      rw [← same] at lower
      obtain ⟨t, risen, climbed, settled, risenPerm, ordered⟩ := upWithin_spec strict implements
        final (by rwa [length_set]) (Nat.lt_succ_self i) sifting lower
      refine ⟨t, risen, ?_, settled, (risenPerm.cons a).trans perm, ordered⟩
      have stays : ¬ i < place := by omega
      simp [remove, len, apart, swapped, ran, stays, up, climbed]
    · refine ⟨after, sifted, ?_, final, (sunk.perm.cons a).trans perm,
        sunk.sifting.isHeap sunk.lower (sunk.upper moved)⟩
      simp [remove, len, apart, swapped, ran, moved]
  · rw [getElem?_concat_length] at found
    cases found
    exact ⟨s, front, by simp [remove, len], holds, perm_append_singleton _ _ |>.symm,
      heap.of_append⟩

end HiveGo.BinaryHeap
