import HiveGo.Bubble
import HiveGo.Runs
import HiveGo.SortedSet

/-! The order invariant of the sorted set. The entries are described by their stored weights,
which differ from the weight variables only while an update is being delivered. -/
namespace HiveGo
open List Function Bubble

variable {α ω ν : Type}
variable {s : SortedElements α ω ν} {stored : α → ω}

/-- `Less`, if the element type has it, is a strict total order. -/
structure SortedSetConfig.LawfulLess (cfg : SortedSetConfig α ν) : Prop where
  irrefl : ∀ less, cfg.less = some less → ∀ a, less a a = false
  trans : ∀ less, cfg.less = some less → ∀ a b c, less a b = true → less b c = true → less a c = true
  total : ∀ less, cfg.less = some less → ∀ a b, a ≠ b → less a b = true ∨ less b a = true

namespace SortedElements

private theorem set_adjacent :
    ((left ++ a :: b :: right).set left.length b).set (left.length + 1) a = left ++ b :: a :: right := by
  simp

theorem not_mem_around (nodup : (left ++ x :: right).Nodup) : x ∉ left ++ right := by
  rw [nodup_middle] at nodup
  exact (nodup_cons.mp nodup).1

variable [LinearOrder ω]

/-- One element is below another when `swap` would exchange them. -/
def Below (cfg : SortedSetConfig α ν) (stored : α → ω) (a b : α) : Prop :=
  swaps cfg a b (stored a) (stored b) = true

instance (cfg : SortedSetConfig α ν) (stored : α → ω) : DecidableRel (Below cfg stored) :=
  fun a b => inferInstanceAs (Decidable (swaps cfg a b (stored a) (stored b) = true))

theorem below_iff :
    Below cfg stored a b ↔
      stored a < stored b ∨ stored a = stored b ∧ ∃ less, cfg.less = some less ∧ less a b = true := by
  unfold Below swaps
  cases cfg.less with
  | none => simp
  | some less => simp

theorem below_strictWeakOrder (lawful : cfg.LawfulLess) (stored : α → ω) :
    IsStrictWeakOrder α (Below cfg stored) where
  irrefl a below := by
    rcases below_iff.mp below with smaller | ⟨-, less, has, ordered⟩
    · exact lt_irrefl _ smaller
    · rw [lawful.irrefl less has a] at ordered
      exact Bool.false_ne_true ordered
  trans a b c first second := by
    rw [below_iff] at first second ⊢
    rcases first with ab | ⟨sameAB, less, has, orderedAB⟩
    · rcases second with bc | ⟨sameBC, -⟩
      · exact .inl (lt_trans ab bc)
      · exact .inl (sameBC ▸ ab)
    · rcases second with bc | ⟨sameBC, less', has', orderedBC⟩
      · exact .inl (sameAB ▸ bc)
      · cases has.symm.trans has'
        exact .inr ⟨sameAB.trans sameBC, less, has, lawful.trans less has a b c orderedAB orderedBC⟩
  incomp_trans a b c first second := by
    -- Incomparable elements have one weight and, if `Less` exists, are equal.
    have same : ∀ a b, ¬ Below cfg stored a b ∧ ¬ Below cfg stored b a →
        stored a = stored b ∧ ((∃ less, cfg.less = some less) → a = b) := by
      rintro a b ⟨notAB, notBA⟩
      rw [below_iff, not_or] at notAB notBA
      have equal := le_antisymm (not_lt.mp notBA.1) (not_lt.mp notAB.1)
      refine ⟨equal, ?_⟩
      rintro ⟨less, has⟩
      by_contra different
      rcases lawful.total less has a b different with ordered | ordered
      · exact notAB.2 ⟨equal, less, has, ordered⟩
      · exact notBA.2 ⟨equal.symm, less, has, ordered⟩
    obtain ⟨equalAB, sameAB⟩ := same a b first
    obtain ⟨equalBC, sameBC⟩ := same b c second
    have apart : ∀ a c, stored a = stored c → ((∃ less, cfg.less = some less) → a = c) →
        ¬ Below cfg stored a c := by
      intro a c equal identical below
      rcases below_iff.mp below with smaller | ⟨-, less, has, ordered⟩
      · exact ne_of_lt smaller equal
      · rw [identical ⟨less, has⟩, lawful.irrefl less has c] at ordered
        exact Bool.false_ne_true ordered
    exact ⟨apart a c (equalAB.trans equalBC) (fun has => (sameAB has).trans (sameBC has)),
      apart c a (equalAB.trans equalBC).symm (fun has => ((sameAB has).trans (sameBC has)).symm)⟩

/-- The order between elements depends only on their own stored weights. -/
theorem descending_congr (same : ∀ a ∈ l, stored' a = stored a)
    (descends : Descending (Below cfg stored) l) :
    Descending (Below cfg stored') l := by
  refine List.Pairwise.imp_of_mem (fun {a b} inA inB notBelow => ?_) descends
  rw [Below, same a inA, same b inB]
  exact notBelow

variable [DecidableEq α]

/-- The map and the slice describe the same entries: each listed element is
stored with its weight and its position, and nothing else is stored. -/
structure Consistent (s : SortedElements α ω ν) (stored : α → ω) : Prop where
  nodup : s.sortedElements.Nodup
  entries : ∀ x, s.elements x =
    if x ∈ s.sortedElements then some ⟨stored x, s.sortedElements.idxOf x⟩ else none

/-- The states agree in everything but the slice and its index. -/
structure SameEnds (s t : SortedElements α ω ν) : Prop where
  heaviest : t.heaviestElement = s.heaviestElement
  lightest : t.lightestElement = s.lightestElement
  weights : t.weights = s.weights

omit [LinearOrder ω] [DecidableEq α] in
theorem SameEnds.refl (s : SortedElements α ω ν) : SameEnds s s := ⟨rfl, rfl, rfl⟩

omit [LinearOrder ω] [DecidableEq α] in
theorem SameEnds.trans (first : SameEnds s t) (second : SameEnds t u) : SameEnds s u :=
  ⟨second.heaviest.trans first.heaviest, second.lightest.trans first.lightest,
      second.weights.trans first.weights⟩

omit [LinearOrder ω] in
theorem Consistent.entry (sound : Consistent s stored)
    (shape : s.sortedElements = left ++ x :: right) :
    s.elements x = some ⟨stored x, left.length⟩ := by
  have mem : x ∈ s.sortedElements := by simp [shape]
  have fresh : x ∉ left := by
    have nodup := sound.nodup
    rw [shape, nodup_append] at nodup
    exact fun inLeft => nodup.2.2 x inLeft x mem_cons_self rfl
  rw [sound.entries x, if_pos mem, shape, idxOf_append_of_notMem fresh, idxOf_cons_self, Nat.add_zero]

/-- `swap` on two neighbours exchanges them exactly when the first is below the
second, and keeps map and slice consistent. -/
theorem swap_adjacent (sound : Consistent s stored)
    (shape : s.sortedElements = left ++ a :: b :: right) :
    (Below cfg stored a b ∧ ∃ t, s.swap cfg a b = some (t, true) ∧ Consistent t stored ∧
        t.sortedElements = left ++ b :: a :: right ∧ SameEnds s t) ∨
      (¬ Below cfg stored a b ∧ s.swap cfg a b = some (s, false)) := by
  have entryA := sound.entry shape
  have entryB : s.elements b = some ⟨stored b, left.length + 1⟩ := by
    have shifted : s.sortedElements = (left ++ [a]) ++ b :: right := by simp [shape]
    simpa using sound.entry shifted
  by_cases below : Below cfg stored a b
  · refine .inl ⟨below, ?_⟩
    have atA : s.sortedElements[left.length]? = some a := by simp [shape]
    have atB : s.sortedElements[left.length + 1]? = some b := by simp [shape]
    have decided : swaps cfg a b (stored a) (stored b) = true := below
    have swapped : s.swap cfg a b = some ({ s with
        sortedElements := (s.sortedElements.set left.length b).set (left.length + 1) a
        elements := update (update s.elements a (some ⟨stored a, left.length + 1⟩))
          b (some ⟨stored b, left.length⟩) }, true) := by
      simp [swap, entryA, entryB, decided, atA, atB]
    refine ⟨_, swapped, ?_, ?_, ⟨rfl, rfl, rfl⟩⟩
    · have distinct : (left ++ b :: a :: right).Nodup := by
        have nodup := sound.nodup
        rw [shape] at nodup
        exact (List.Perm.nodup_iff (List.Perm.append_left left (List.Perm.swap a b right))).mpr nodup
      have moved : ((s.sortedElements.set left.length b).set (left.length + 1) a) = left ++
          b :: a :: right := by
        rw [shape, set_adjacent]
      refine ⟨by rw [moved]; exact distinct, fun x => ?_⟩
      simp only [moved]
      have parts := nodup_append.mp distinct
      have differ : b ≠ a := fun same => (nodup_cons.mp parts.2.1).1 (same ▸ mem_cons_self)
      have freshA : a ∉ left := fun inLeft => parts.2.2 a inLeft a (by simp) rfl
      have freshB : b ∉ left := fun inLeft => parts.2.2 b inLeft b (by simp) rfl
      by_cases isB : x = b
      · subst isB
        simp [freshB, idxOf_append_of_notMem]
      · by_cases isA : x = a
        · subst isA
          rw [update_of_ne isB, update_self]
          simp [freshA, idxOf_append_of_notMem, idxOf_cons_ne _ differ]
        · rw [update_of_ne isB, update_of_ne isA, sound.entries x, shape]
          simp [isA, isB, idxOf_append, idxOf_cons_ne _ (Ne.symm isA),
            idxOf_cons_ne _ (Ne.symm isB)]
    · rw [← set_adjacent, ← shape]
  · have decided := Bool.eq_false_iff.mpr below
    refine .inr ⟨below, ?_⟩
    simp [swap, entryA, entryB, decided]

/-- The loop to the left carries the element past everything smaller. -/
theorem moveLeft_spec (x : α) (left : List α) :
    ∀ right fuel moved {s : SortedElements α ω ν}, Consistent s stored →
      s.sortedElements = left ++ x :: right → left.length < fuel →
      ∃ t, s.moveLeft cfg x fuel moved = some (t, moved || !(passedLeft (Below cfg stored) x left).isEmpty) ∧
        Consistent t stored ∧ SameEnds s t ∧
        t.sortedElements = keptLeft (Below cfg stored) x left ++
          x :: (passedLeft (Below cfg stored) x left ++ right) := by
  induction left using List.reverseRecOn with
  | nil =>
    intro right fuel moved s sound shape enough
    obtain _ | fuel := fuel
    · cases enough
    have entry := sound.entry shape
    refine ⟨s, ?_, sound, .refl s, by simpa [keptLeft, passedLeft] using shape⟩
    simp [moveLeft, entry, passedLeft]
  | append_singleton left a ih =>
    intro right fuel moved s sound shape enough
    obtain _ | fuel := fuel
    · omega
    rw [length_append, length_singleton] at enough
    have entry : s.elements x = some ⟨stored x, left.length + 1⟩ := by
      simpa using sound.entry shape
    have shape' : s.sortedElements = left ++ a :: x :: right := by simp [shape]
    have pre : s.sortedElements[left.length]? = some a := by simp [shape']
    rcases swap_adjacent sound shape' with ⟨below, t, swapped, kept, exchanged, ends⟩ | ⟨settled, stayed⟩
    · obtain ⟨u, ran, final, later, placed⟩ := ih (a :: right) fuel true kept exchanged (by omega)
      obtain ⟨kept_eq, passed_eq⟩ := keptLeft_concat_pos (Below cfg stored) left below
      refine ⟨u, ?_, final, ends.trans later, ?_⟩
      · simp [moveLeft, entry, pre, swapped, ran, passed_eq]
      · rw [placed, kept_eq, passed_eq, append_assoc, singleton_append]
    · obtain ⟨kept_eq, passed_eq⟩ := keptLeft_concat_neg (Below cfg stored) left settled
      refine ⟨s, ?_, sound, .refl s, ?_⟩
      · simp [moveLeft, entry, pre, stayed, passed_eq]
      · rw [kept_eq, passed_eq, shape, nil_append]

/-- The loop to the right carries the element past everything greater. -/
theorem moveRight_spec (x : α) (stored : α → ω) (right : List α) :
    ∀ left fuel moved {s : SortedElements α ω ν}, Consistent s stored →
      s.sortedElements = left ++ x :: right → right.length < fuel →
      ∃ t, s.moveRight cfg x fuel moved = some
          (t, moved || !(passedRight (Below cfg stored) x right).isEmpty) ∧
        Consistent t stored ∧ SameEnds s t ∧
        t.sortedElements = left ++ (passedRight (Below cfg stored) x right ++
          x :: keptRight (Below cfg stored) x right) := by
  induction right with
  | nil =>
    intro left fuel moved s sound shape enough
    obtain _ | fuel := fuel
    · cases enough
    have entry := sound.entry shape
    refine ⟨s, ?_, sound, .refl s, by simpa [keptRight, passedRight] using shape⟩
    simp [moveRight, entry, shape, passedRight]
  | cons b right ih =>
    intro left fuel moved s sound shape enough
    obtain _ | fuel := fuel
    · omega
    rw [length_cons] at enough
    have entry := sound.entry shape
    have after : s.sortedElements[left.length + 1]? = some b := by simp [shape]
    have mem : left.length ≠ s.sortedElements.length - 1 := by simp [shape]
    rcases swap_adjacent sound shape with ⟨below, t, swapped, kept, exchanged, ends⟩ | ⟨settled, stayed⟩
    · obtain ⟨u, ran, final, later, placed⟩ := ih (left ++ [b]) fuel true kept
        (by simp [exchanged]) (by omega)
      obtain ⟨kept_eq, passed_eq⟩ := keptRight_cons_pos (Below cfg stored) right below
      refine ⟨u, ?_, final, ends.trans later, ?_⟩
      · simp [moveRight, entry, mem, after, swapped, ran, passed_eq]
      · rw [placed, kept_eq, passed_eq, append_assoc, singleton_append, cons_append]
    · obtain ⟨kept_eq, passed_eq⟩ := keptRight_cons_neg (Below cfg stored) right settled
      refine ⟨s, ?_, sound, .refl s, ?_⟩
      · simp [moveRight, entry, mem, after, stayed, passed_eq]
      · rw [kept_eq, passed_eq, shape, nil_append]

variable [Inhabited α]

/-- The invariant between two deliveries: consistent, descending if `Less` is an
order, and the ends of the slice are the heaviest and the lightest element. -/
structure Ordered (cfg : SortedSetConfig α ν) (s : SortedElements α ω ν) (stored : α → ω) : Prop
    extends Consistent s stored where
  descends : cfg.LawfulLess → Descending (Below cfg stored) s.sortedElements
  heaviest : s.heaviestElement = s.sortedElements.head?.getD default
  lightest : s.lightestElement = s.sortedElements.getLast?.getD default

/-- The deferred case splits put the ends of the new slice in place if it keeps its first element
unless the moved element comes or goes there, and likewise its last. -/
theorem updateEnds_spec (sound : Consistent s stored)
    (shape : s.sortedElements = left ++ x :: right)
    (descends : cfg.LawfulLess → Descending (Below cfg stored) (left ++ x :: right))
    (oldLeft oldRight : List α) (moved : Bool)
    (size : left.length + right.length = oldLeft.length + oldRight.length)
    (heaviest : oldLeft ≠ [] → s.heaviestElement = oldLeft.head?.getD default)
    (lightest : oldRight ≠ [] → s.lightestElement = oldRight.getLast?.getD default)
    (first : left ≠ [] → (moved = true → oldLeft ≠ []) → oldLeft ≠ [] ∧ oldLeft.head? = left.head?)
    (last : right ≠ [] → (moved = true → oldRight ≠ []) →
      oldRight ≠ [] ∧ oldRight.getLast? = right.getLast?) :
    ∃ t, s.updateEnds x oldLeft.length moved = some t ∧ Ordered cfg t stored ∧
      t.sortedElements = s.sortedElements ∧ t.weights = s.weights := by
  have entry := sound.entry shape
  have total : s.sortedElements.length - 1 = left.length + right.length := by simp [shape]
  have heavy : ∃ h, s.heaviestAfterMove x oldLeft.length left.length moved = some h ∧
      h = s.sortedElements.head?.getD default := by
    unfold heaviestAfterMove
    split
    · rw [← head?_eq_getElem?, shape]
      cases left with
      | nil => exact ⟨x, rfl, rfl⟩
      | cons a left => exact ⟨a, rfl, rfl⟩
    · rename_i fromStart
      split
      · rename_i atStart
        rw [shape, length_eq_zero_iff.mp atStart]
        exact ⟨x, rfl, rfl⟩
      · rename_i atStart
        have nonempty : left ≠ [] := fun void => atStart (by simp [void])
        obtain ⟨filled, same⟩ := first nonempty
          (fun isMoved void => fromStart ⟨isMoved, by simp [void]⟩)
        refine ⟨_, rfl, ?_⟩
        rw [heaviest filled, same, shape, head?_append_of_ne_nil _ nonempty]
  have light : ∃ l, s.lightestAfterMove x oldLeft.length left.length moved = some l ∧
      l = s.sortedElements.getLast?.getD default := by
    unfold lightestAfterMove
    by_cases fromEnd : moved = true ∧ oldLeft.length = s.sortedElements.length - 1
    · rw [if_pos fromEnd, ← getLast?_eq_getElem?]
      have nonempty : s.sortedElements ≠ [] := by simp [shape]
      exact ⟨_, getLast?_eq_some_getLast nonempty, by rw [getLast?_eq_some_getLast nonempty]; rfl⟩
    · rw [if_neg fromEnd]
      by_cases atEnd : left.length = s.sortedElements.length - 1
      · rw [if_pos atEnd]
        have void : right = [] := length_eq_zero_iff.mp (by omega)
        exact ⟨x, rfl, by simp [shape, void]⟩
      · rw [if_neg atEnd]
        have nonempty : right ≠ [] := fun void => atEnd (by rw [total, void, length_nil, Nat.add_zero])
        obtain ⟨filled, same⟩ := last nonempty
          (fun isMoved void => fromEnd ⟨isMoved, by rw [total, size, void, length_nil, Nat.add_zero]⟩)
        refine ⟨_, rfl, ?_⟩
        rw [lightest filled, same, shape, getLast?_append_cons, getLast?_cons_of_ne_nil nonempty]
  obtain ⟨h, heavyRan, heavyIs⟩ := heavy
  obtain ⟨l, lightRan, lightIs⟩ := light
  refine ⟨{ s with heaviestElement := h, lightestElement := l }, ?_,
    ⟨⟨sound.nodup, sound.entries⟩, shape ▸ descends, heavyIs, lightIs⟩, rfl, rfl⟩
  simp [updateEnds, entry, heavyRan, lightRan]

section

/-- The slice is in order but for one element, and its ends are known where they are not this
element. -/
structure Misplaced (cfg : SortedSetConfig α ν) (s : SortedElements α ω ν) (stored : α → ω)
    (left : List α) (x : α) (right : List α) : Prop where
  sound : Consistent s stored
  shape : s.sortedElements = left ++ x :: right
  around : cfg.LawfulLess → Descending (Below cfg stored) (left ++ right)
  heaviest : left ≠ [] → s.heaviestElement = left.head?.getD default
  lightest : right ≠ [] → s.lightestElement = right.getLast?.getD default

variable {left right : List α} {x : α} {cfg : SortedSetConfig α ν}
variable (misplaced : Misplaced cfg s stored left x right)
include misplaced

/-- `updatePosition` puts the one element that may be out of place where it
belongs, whatever the slice around it looks like. -/
theorem updatePosition_spec :
    ∃ t, s.updatePosition cfg x = some t ∧ Ordered cfg t stored ∧ t.weights = s.weights ∧
      ∀ y, y ∈ t.sortedElements ↔ y ∈ s.sortedElements := by
  obtain ⟨sound, shape, around, heaviest, lightest⟩ := misplaced
  have entry := sound.entry shape
  have sizeLeft : left.length < s.sortedElements.length + 1 := by
    rw [shape, length_append]
    omega
  have sizeRight : right.length < s.sortedElements.length + 1 := by
    rw [shape, length_append, length_cons]
    omega
  have splitLeft := keptLeft_append_passedLeft (Below cfg stored) x left
  have splitRight := passedRight_append_keptRight (Below cfg stored) x right
  obtain ⟨t, ranLeft, consistentLeft, endsLeft, shapeLeft⟩ :=
    moveLeft_spec x left right _ false sound shape sizeLeft
  by_cases stays : passedLeft (Below cfg stored) x left = []
  · -- Nothing smaller on the left: the loop to the right decides.
    have whole : keptLeft (Below cfg stored) x left = left := by
      rw [stays, append_nil] at splitLeft
      exact splitLeft
    have settled : cfg.LawfulLess → Descending (Below cfg stored) (left ++ _) := fun lawful =>
      have := below_strictWeakOrder lawful stored
      descending_moveRight (Below cfg stored) (around lawful) stays
    rw [stays, whole, nil_append] at shapeLeft
    obtain ⟨u, ranRight, consistentRight, endsRight, shapeRight⟩ :=
      moveRight_spec x stored right left _ false consistentLeft shapeLeft sizeRight
    have ends := endsLeft.trans endsRight
    generalize passedRight (Below cfg stored) x right = passed at *
    generalize keptRight (Below cfg stored) x right = kept at *
    subst splitRight
    rw [← append_assoc] at shapeRight settled
    obtain ⟨v, ranEnds, ordered, same, weights⟩ :=
      updateEnds_spec consistentRight shapeRight settled left (passed ++ kept) (!passed.isEmpty)
        (by simp only [length_append]; omega)
        (fun filled => ends.heaviest ▸ heaviest filled) (fun filled => ends.lightest ▸ lightest filled)
        (by
          intro filled came
          cases passed with
          | nil => exact ⟨by simpa using filled, by simp⟩
          | cons b passed =>
            have nonempty := came (by simp)
            exact ⟨nonempty, (head?_append_of_ne_nil _ nonempty).symm⟩)
        (fun filled _ => ⟨append_ne_nil_of_right_ne_nil _ filled, getLast?_append_of_ne_nil _ filled⟩)
    refine ⟨v, ?_, ordered, weights.trans ends.weights, fun y => ?_⟩
    · simp [updatePosition, entry, ranLeft, stays, ranRight, ranEnds]
    · simp [same, shapeRight, shape, or_left_comm]
  · -- The element passed something on its left and is in place.
    have settled : cfg.LawfulLess → Descending (Below cfg stored) (_ ++ x :: _) := fun lawful =>
      have := below_strictWeakOrder lawful stored
      descending_moveLeft (Below cfg stored) (around lawful) stays
    generalize passedLeft (Below cfg stored) x left = passed at *
    generalize keptLeft (Below cfg stored) x left = kept at *
    subst splitLeft
    obtain ⟨v, ranEnds, ordered, same, weights⟩ :=
      updateEnds_spec consistentLeft shapeLeft settled (kept ++ passed) right true
        (by simp only [length_append]; omega)
        (fun filled => endsLeft.heaviest ▸ heaviest filled)
            (fun filled => endsLeft.lightest ▸ lightest filled)
        (fun filled _ => ⟨append_ne_nil_of_left_ne_nil filled _, head?_append_of_ne_nil _ filled⟩)
        (fun _ came => ⟨came rfl, (getLast?_append_of_ne_nil _ (came rfl)).symm⟩)
    refine ⟨v, ?_, ordered, weights.trans endsLeft.weights, fun y => ?_⟩
    · have moved : passed.isEmpty = false := by simpa using stays
      rw [length_append] at ranEnds
      simp [updatePosition, entry, ranLeft, moved, ranEnds]
    · simp [same, shapeLeft, shape, or_left_comm]

/-- A delivered weight is stored and the entry finds its place. -/
theorem onWeightUpdate_spec :
    ∃ t, s.onWeightUpdate cfg newWeight x = some t ∧ Ordered cfg t (update stored x newWeight) ∧
      t.weights = s.weights ∧ ∀ y, y ∈ t.sortedElements ↔ y ∈ s.sortedElements := by
  obtain ⟨sound, shape, around, heaviest, lightest⟩ := misplaced
  have entry := sound.entry shape
  have fresh := not_mem_around (shape ▸ sound.nodup)
  let weighed : SortedElements α ω ν :=
    { s with elements := update s.elements x (some ⟨newWeight, left.length⟩) }
  have stays : Consistent weighed (update stored x newWeight) := by
    refine ⟨sound.nodup, fun y => ?_⟩
    by_cases same : y = x
    · subst same
      have found := sound.entries y
      have mem : y ∈ s.sortedElements := by simp [shape]
      rw [entry, if_pos mem] at found
      simp only [weighed, update_self, if_pos mem]
      rw [← (SortedSetElement.mk.inj (Option.some.inj found)).2]
    · simp only [weighed, update_of_ne same]
      exact sound.entries y
  have others : ∀ a ∈ left ++ right, update stored x newWeight a = stored a :=
    fun a mem => update_of_ne (by rintro rfl; exact fresh mem) _ _
  obtain ⟨t, ran, kept⟩ := updatePosition_spec ⟨stays, shape,
    fun lawful => descending_congr others (around lawful), heaviest, lightest⟩
  refine ⟨t, ?_, kept⟩
  simp only [onWeightUpdate, entry, Option.bind_eq_bind, Option.bind_some]
  exact ran

end

theorem onWeightUpdate_ordered (ordered : Ordered cfg s stored) (mem : x ∈ s.sortedElements) :
    ∃ t, s.onWeightUpdate cfg newWeight x = some t ∧ Ordered cfg t (update stored x newWeight) ∧
      t.weights = s.weights ∧ ∀ y, y ∈ t.sortedElements ↔ y ∈ s.sortedElements := by
  obtain ⟨left, right, shape⟩ := append_of_mem mem
  have descends := ordered.descends
  rw [shape] at descends
  refine onWeightUpdate_spec ⟨ordered.toConsistent, shape,
    fun lawful => (descends lawful).sublist (by simp), ?_, ?_⟩
  · intro filled
    rw [ordered.heaviest, shape, head?_append_of_ne_nil _ filled]
  · intro filled
    rw [ordered.lightest, shape, getLast?_append_cons, getLast?_cons_of_ne_nil filled]

/-- The weight variables are observed by exactly the listed elements, and the
stored weights are the current ones. -/
structure Settled (cfg : SortedSetConfig α ν) (s : SortedElements α ω ν) : Prop where
  ordered : Ordered cfg s fun x => (s.weights (cfg.weightVariable x)).value
  once : ∀ v, (s.weights v).labels.Nodup
  watched : ∀ v x, x ∈ (s.weights v).labels ↔ x ∈ s.sortedElements ∧ cfg.weightVariable x = v

/-- What is ordered by the weights in use is ordered by any equal weights. -/
theorem Ordered.congr (ordered : Ordered cfg s stored)
    (same : ∀ x ∈ s.sortedElements, stored' x = stored x) : Ordered cfg s stored' := by
  refine ⟨⟨ordered.nodup, fun x => ?_⟩, fun lawful =>
    descending_congr same (ordered.descends lawful), ordered.heaviest, ordered.lightest⟩
  rw [ordered.entries x]
  split
  · rename_i mem
    rw [same x mem]
  · rfl

/-- Delivering one new weight to several entries stores it in each of them. -/
theorem onWeightUpdate_loop (newWeight : ω) (xs : List α) (ordered : Ordered cfg s stored)
    (mem : ∀ x ∈ xs, x ∈ s.sortedElements) :
    ∃ t, xs.foldlM (fun s x => onWeightUpdate cfg newWeight x s) s = some t ∧
      Ordered cfg t (fun y => if y ∈ xs then newWeight else stored y) ∧ t.weights = s.weights ∧
      ∀ y, y ∈ t.sortedElements ↔ y ∈ s.sortedElements := by
  induction xs generalizing s stored with
  | nil => exact ⟨s, rfl, by simpa using ordered, rfl, fun y => Iff.rfl⟩
  | cons x xs ih =>
    obtain ⟨t, ran, next, weights, listing⟩ :=
      onWeightUpdate_ordered ordered (mem x mem_cons_self)
    obtain ⟨u, rest, final, same, members⟩ :=
      ih next (fun y tail => (listing y).mpr (mem y (mem_cons_of_mem x tail)))
    refine ⟨u, ?_, ?_, same.trans weights, fun y => (members y).trans (listing y)⟩
    · rw [foldlM_cons, ran]
      exact rest
    · refine final.congr fun y _ => ?_
      by_cases tail : y ∈ xs
      · rw [if_pos (mem_cons_of_mem x tail), if_pos tail]
      · rw [if_neg tail]
        by_cases same : y = x
        · subst same
          rw [if_pos mem_cons_self, update_self]
        · rw [if_neg (by simp [same, tail]), update_of_ne same]

variable [DecidableEq ν] [Inhabited ω]

/-- The state in which a new entry stands at the end of the slice, observed but
without its weight. -/
private def appendEntry (cfg : SortedSetConfig α ν) (s : SortedElements α ω ν)
    (x : α) : SortedElements α ω ν :=
  { s with
    elements := update s.elements x (some ⟨default, s.sortedElements.length⟩)
    sortedElements := s.sortedElements ++ [x]
    weights := update s.weights (cfg.weightVariable x)
        ((s.weights (cfg.weightVariable x)).onUpdate x true).1 }

omit [Inhabited α] in
private theorem appendEntry_labels :
    ((appendEntry cfg s x).weights v).labels =
      if v = cfg.weightVariable x then (s.weights v).labels ++ [x] else (s.weights v).labels := by
  simp only [appendEntry, update_apply]
  split
  · subst v
    exact Subscriptions.labels_register _
  · rfl

omit [Inhabited α] in
private theorem appendEntry_value :
    ((appendEntry cfg s x).weights v).value = (s.weights v).value := by
  simp only [appendEntry, update_apply]
  split
  · subst v
    rfl
  · rfl

omit [Inhabited α] in
private theorem appendEntry_consistent (cfg : SortedSetConfig α ν)
    (sound : Consistent s stored) (absent : x ∉ s.sortedElements) :
    Consistent (appendEntry cfg s x) (update stored x default) := by
  refine ⟨?_, fun y => ?_⟩
  · refine nodup_append.mpr ⟨sound.nodup, nodup_singleton x, ?_⟩
    rintro a mem b single rfl
    rw [mem_singleton] at single
    exact absent (single ▸ mem)
  · by_cases same : y = x
    · subst same
      simp [appendEntry, idxOf_append_of_notMem absent]
    · have entry := sound.entries y
      simp only [appendEntry, update_of_ne same, entry, mem_append, mem_singleton, same, or_false]
      by_cases mem : y ∈ s.sortedElements
      · rw [if_pos mem, if_pos mem, idxOf_append_of_mem mem]
      · rw [if_neg mem, if_neg mem]

/-- Adding an element keeps the invariant and lists the element once. -/
theorem addSorted_settled (settled : Settled cfg s) :
    ∃ t, s.addSorted cfg x = some t ∧ Settled cfg t ∧ ∀ y, y ∈ t.sortedElements ↔
        y ∈ s.sortedElements ∨ y = x := by
  by_cases listed : x ∈ s.sortedElements
  · have entry := settled.ordered.entries x
    rw [if_pos listed] at entry
    refine ⟨s, by simp [addSorted, entry], settled, fun y => ⟨Or.inl, ?_⟩⟩
    rintro (old | rfl)
    · exact old
    · exact listed
  · have entry := settled.ordered.entries x
    rw [if_neg listed] at entry
    have appended := appendEntry_consistent cfg settled.ordered.toConsistent listed
    have fresh : ∀ a ∈ s.sortedElements ++ [], update
        (fun x => (s.weights (cfg.weightVariable x)).value) x default a =
            (s.weights (cfg.weightVariable a)).value := by
      intro a mem
      rw [append_nil] at mem
      exact update_of_ne (by rintro rfl; exact listed mem) _ _
    have shape : (appendEntry cfg s x).sortedElements = s.sortedElements ++ x :: [] := rfl
    obtain ⟨t, ran, ordered, weights, members⟩ := onWeightUpdate_spec ⟨appended, shape,
      fun lawful => descending_congr fresh (by simpa using settled.ordered.descends lawful),
      fun _ => settled.ordered.heaviest, fun filled => absurd rfl filled⟩
    have listing : ∀ y, y ∈ t.sortedElements ↔ y ∈ s.sortedElements ∨ y = x := by
      intro y
      rw [members y]
      simp [appendEntry]
    refine ⟨t, ?_, ⟨?_, ?_, ?_⟩, listing⟩
    · simp only [addSorted, entry, ReactiveVariable.onUpdate, Bool.or_true, ↓reduceIte]
      exact ran
    · refine ordered.congr fun y mem => ?_
      rw [weights, appendEntry_value]
      by_cases same : y = x
      · subst same
        rw [update_self]
      · rw [update_of_ne same, update_of_ne same]
    · intro v
      rw [weights, appendEntry_labels]
      split
      · refine nodup_append.mpr ⟨settled.once v, nodup_singleton x, ?_⟩
        rintro a old b single rfl
        rw [mem_singleton] at single
        exact listed (single ▸ ((settled.watched v a).mp old).1)
      · exact settled.once v
    · intro v y
      rw [weights, appendEntry_labels, listing]
      split
      · rename_i here
        rw [mem_append, mem_singleton, settled.watched v y]
        constructor
        · rintro (⟨old, var⟩ | rfl)
          · exact ⟨.inl old, var⟩
          · exact ⟨.inr rfl, here.symm⟩
        · rintro ⟨old | rfl, var⟩
          · exact .inl ⟨old, var⟩
          · exact .inr rfl
      · rename_i elsewhere
        rw [settled.watched v y]
        constructor
        · exact fun old => ⟨.inl old.1, old.2⟩
        · rintro ⟨old | rfl, var⟩
          · exact ⟨old, var⟩
          · exact absurd var.symm elsewhere

/-- The slice while a deletion shifts its tail: the place after `front` is
stale, and the entries of `rest` are one position too far. -/
structure Hole (s : SortedElements α ω ν) (stored : α → ω) (front : List α) (stale : α)
    (rest : List α) : Prop where
  shape : s.sortedElements = front ++ stale :: rest
  nodup : (front ++ rest).Nodup
  inFront : ∀ y ∈ front, s.elements y = some ⟨stored y, front.idxOf y⟩
  inRest : ∀ y ∈ rest, s.elements y = some ⟨stored y, front.length + 1 + rest.idxOf y⟩
  nowhere : ∀ y, y ∉ front ++ rest → s.elements y = none

omit [LinearOrder ω] [Inhabited α] [DecidableEq ν] [Inhabited ω] in
/-- The shifting loop fills the hole with the following entries, one by one. -/
theorem shiftLeft_spec (rest : List α) : ∀ front stale {s : SortedElements α ω ν} {stored : α → ω},
    Hole s stored front stale rest →
    ∃ t last, shiftLeft rest.length front.length s = some t ∧
        Hole t stored (front ++ rest) last [] ∧ SameEnds s t := by
  induction rest with
  | nil =>
    intro front stale s stored hole
    refine ⟨s, stale, rfl, ?_, .refl s⟩
    rw [append_nil]
    exact hole
  | cons b rest ih =>
    intro front stale s stored hole
    have entry := hole.inRest b mem_cons_self
    rw [idxOf_cons_self, Nat.add_zero] at entry
    have following : s.sortedElements[front.length + 1]? = some b := by simp [hole.shape]
    have fresh := not_mem_around hole.nodup
    rw [mem_append, not_or] at fresh
    let shifted : SortedElements α ω ν :=
      { s with
        sortedElements := s.sortedElements.set front.length b
        elements := update s.elements b (some ⟨stored b, front.length⟩) }
    have next : Hole shifted stored (front ++ [b]) b rest := by
      refine ⟨by simp [shifted, hole.shape], by simpa using hole.nodup, ?_, ?_, ?_⟩
      · intro y mem
        by_cases same : y = b
        · subst same
          simp [shifted, idxOf_append_of_notMem fresh.1]
        · have inFront : y ∈ front := by simpa [same] using mem
          simp [shifted, update_of_ne same, hole.inFront y inFront, idxOf_append_of_mem inFront]
      · intro y mem
        have same : y ≠ b := fun same => fresh.2 (same ▸ mem)
        have found := hole.inRest y (mem_cons_of_mem b mem)
        rw [idxOf_cons_ne _ (Ne.symm same)] at found
        simp only [shifted, update_of_ne same, found, length_append, length_singleton]
        congr 2
        omega
      · intro y out
        have same : y ≠ b := fun same => out (by simp [same])
        simp only [shifted, update_of_ne same]
        exact hole.nowhere y (by simpa using out)
    obtain ⟨t, last, ran, filled, ends⟩ := ih (front ++ [b]) b next
    refine ⟨t, last, ?_, by simpa using filled, ⟨ends.heaviest, ends.lightest, ends.weights⟩⟩
    rw [length_append, length_singleton] at ran
    simp only [length_cons, shiftLeft, following, entry, Option.bind_eq_bind, Option.bind_some,
      Nat.add_sub_cancel]
    exact ran

omit [LinearOrder ω] [Inhabited α] [DecidableEq ν] [Inhabited ω] in
/-- Dropping an entry from the map opens a hole at its place in the slice. -/
theorem Consistent.hole (sound : Consistent s stored)
    (shape : s.sortedElements = left ++ x :: right) (weights : ν → ReactiveVariable ω α) :
    Hole { s with elements := update s.elements x none, weights := weights } stored left x right := by
  have nodup := sound.nodup
  rw [shape] at nodup
  have fresh := not_mem_around nodup
  have apart : ∀ y ∈ left ++ right, y ≠ x := fun y mem same => fresh (same ▸ mem)
  refine ⟨shape, nodup.sublist (by simp), ?_, ?_, ?_⟩
  · intro y inLeft
    have mem : y ∈ s.sortedElements := by simp [shape, inLeft]
    simp only [update_of_ne (apart y (mem_append_left _ inLeft)), sound.entries y, if_pos mem]
    rw [shape, idxOf_append_of_mem inLeft]
  · intro y inRight
    have mem : y ∈ s.sortedElements := by simp [shape, inRight]
    have different := apart y (mem_append_right _ inRight)
    have notLeft : y ∉ left := fun inLeft =>
      (nodup_append.mp nodup).2.2 y inLeft y (mem_cons_of_mem x inRight) rfl
    simp only [update_of_ne different, sound.entries y, if_pos mem]
    rw [shape, idxOf_append_of_notMem notLeft, idxOf_cons_ne _ (Ne.symm different)]
    congr 2
    omega
  · intro y out
    by_cases same : y = x
    · subst same
      simp
    · have unlisted : y ∉ s.sortedElements := by
        rw [shape]
        simp only [mem_append, mem_cons, same, false_or]
        exact fun mem => out (mem_append.mpr mem)
      simp [update_of_ne same, sound.entries y, if_neg unlisted]

omit [DecidableEq α] in
private theorem heaviestAfterDelete_spec (left right : List α)
    (pre : heaviest = (left ++ x :: right).head?.getD default) :
    heaviestAfterDelete left.length (left ++ right) heaviest = some ((left ++ right).head?.getD default) := by
  cases left with
  | nil =>
    cases right with
    | nil => rfl
    | cons b right => rfl
  | cons a left =>
    subst pre
    rfl

omit [DecidableEq α] in
private theorem lightestAfterDelete_spec (left right : List α)
    (pre : lightest = (left ++ x :: right).getLast?.getD default) :
    lightestAfterDelete left.length (left ++ right) lightest = some
        ((left ++ right).getLast?.getD default) := by
  unfold lightestAfterDelete
  cases right with
  | nil =>
    rw [append_nil, if_pos rfl]
    by_cases void : left = []
    · subst void
      rfl
    · rw [if_pos (length_pos_iff.mpr void), ← getLast?_eq_getElem?, getLast?_eq_some_getLast void]
      rfl
  | cons b right =>
    have mem : left.length ≠ (left ++ b :: right).length := by simp
    rw [if_neg mem, pre]
    simp

omit [Inhabited ω] in
/-- Deleting an element keeps the invariant and unlists the element. -/
theorem deleteSorted_settled (settled : Settled cfg s) :
    ∃ t, s.deleteSorted cfg x = some t ∧ Settled cfg t ∧ ∀ y, y ∈ t.sortedElements ↔ y ≠ x ∧
        y ∈ s.sortedElements := by
  by_cases listed : x ∈ s.sortedElements
  · obtain ⟨left, right, shape⟩ := append_of_mem listed
    have entry := settled.ordered.toConsistent.entry shape
    have nodup := settled.ordered.nodup
    rw [shape] at nodup
    have fresh := not_mem_around nodup
    obtain ⟨t, last, ran, filled, ends⟩ := shiftLeft_spec right left x
      (settled.ordered.toConsistent.hole shape
        (update s.weights (cfg.weightVariable x) ((s.weights (cfg.weightVariable x)).unsubscribe x)))
    have rounds : s.sortedElements.length - 1 - left.length = right.length := by
      simp only [shape, length_append, length_cons]
      omega
    have rest : t.sortedElements.dropLast = left ++ right := by simp [filled.shape]
    have nonempty : t.sortedElements ≠ [] := by simp [filled.shape]
    have heavy := heaviestAfterDelete_spec left right (shape ▸ settled.ordered.heaviest)
    have light := lightestAfterDelete_spec left right (shape ▸ settled.ordered.lightest)
    have value : ∀ v, (t.weights v).value = (s.weights v).value := by
      intro v
      simp only [ends.weights, update_apply]
      split
      · subst v
        rfl
      · rfl
    have labels : ∀ v, (t.weights v).labels =
        if v = cfg.weightVariable x then (s.weights v).labels.filter (· ≠ x) else (s.weights v).labels := by
      intro v
      simp only [ends.weights, update_apply]
      split
      · subst v
        exact Subscriptions.labels_unregister _
      · rfl
    have listing : ∀ y, y ∈ left ++ right ↔ y ≠ x ∧ y ∈ s.sortedElements := by
      intro y
      rw [shape]
      constructor
      · intro mem
        exact ⟨fun same => fresh (same ▸ mem), by simpa using Or.imp_right Or.inr (mem_append.mp mem)⟩
      · rintro ⟨apart, mem⟩
        simpa [apart] using mem
    refine ⟨{ t with
        sortedElements := left ++ right
        heaviestElement := (left ++ right).head?.getD default
        lightestElement := (left ++ right).getLast?.getD default }, ?_,
            ⟨⟨⟨?_, ?_⟩, ?_, rfl, rfl⟩, ?_, ?_⟩, listing⟩
    · simp [deleteSorted, entry, rounds, ran, nonempty, rest, heavy, light]
    · simpa using filled.nodup
    · intro y
      simp only [value]
      split
      · rename_i mem
        exact filled.inFront y mem
      · rename_i mem
        exact filled.nowhere y (by simpa using mem)
    · simp only [value]
      have descends := settled.ordered.descends
      rw [shape] at descends
      exact fun lawful => (descends lawful).sublist (by simp)
    · intro v
      simp only [labels]
      split
      · exact (settled.once v).filter _
      · exact settled.once v
    · intro v y
      simp only [labels, listing]
      split
      · rw [mem_filter, settled.watched v y, decide_eq_true_eq]
        tauto
      · rename_i elsewhere
        rw [settled.watched v y]
        constructor
        · rintro ⟨mem, var⟩
          exact ⟨⟨fun same => elsewhere (by rw [← var, same]), mem⟩, var⟩
        · rintro ⟨⟨-, mem⟩, var⟩
          exact ⟨mem, var⟩
  · have entry := settled.ordered.entries x
    rw [if_neg listed] at entry
    refine ⟨s, by simp [deleteSorted, entry], settled, fun y => ⟨fun mem => ⟨?_, mem⟩, And.right⟩⟩
    rintro rfl
    exact listed mem

theorem addSorted_loop (xs : List α) (settled : Settled cfg s) :
    ∃ t, xs.foldlM (addSorted cfg) s = some t ∧ Settled cfg t ∧
      ∀ y, y ∈ t.sortedElements ↔ y ∈ s.sortedElements ∨ y ∈ xs := by
  induction xs generalizing s with
  | nil => exact ⟨s, rfl, settled, by simp⟩
  | cons x xs ih =>
    obtain ⟨t, ran, next, listing⟩ := addSorted_settled settled
    obtain ⟨u, rest, final, mem⟩ := ih next
    refine ⟨u, ?_, final, fun y => ?_⟩
    · rw [foldlM_cons, ran]
      exact rest
    · rw [mem y, listing y, mem_cons, or_assoc]

omit [Inhabited ω] in
theorem deleteSorted_loop (xs : List α) (settled : Settled cfg s) :
    ∃ t, xs.foldlM (deleteSorted cfg) s = some t ∧ Settled cfg t ∧
      ∀ y, y ∈ t.sortedElements ↔ y ∈ s.sortedElements ∧ y ∉ xs := by
  induction xs generalizing s with
  | nil => exact ⟨s, rfl, settled, by simp⟩
  | cons x xs ih =>
    obtain ⟨t, ran, next, listing⟩ := deleteSorted_settled settled
    obtain ⟨u, rest, final, mem⟩ := ih next
    refine ⟨u, ?_, final, fun y => ?_⟩
    · rw [foldlM_cons, ran]
      exact rest
    · rw [mem y, listing y, mem_cons, not_or]
      tauto

/-- A delivery of mutations keeps the invariant and replays on the slice. -/
theorem onSetUpdate_settled (settled : Settled cfg s) (m : SetMutations α) :
    ∃ t, s.onSetUpdate cfg m = some t ∧ Settled cfg t ∧
      ∀ y, y ∈ t.sortedElements ↔ (y ∈ s.sortedElements ∨ y ∈ m.addedElements) ∧ y ∉ m.deletedElements := by
  obtain ⟨t, added, next, listing⟩ := addSorted_loop m.addedElements.elems settled
  obtain ⟨u, deleted, final, mem⟩ := deleteSorted_loop m.deletedElements.elems next
  refine ⟨u, ?_, final, fun y => ?_⟩
  · simp only [onSetUpdate, added, Option.bind_eq_bind, Option.bind_some]
    exact deleted
  · rw [mem y, listing y]
    exact .rfl

omit [Inhabited ω] in
/-- An update of a weight variable reaches every entry that observes it. -/
theorem computeWeight_settled (settled : Settled cfg s) (v : ν) (f : ω → ω) :
    ∃ t, s.computeWeight cfg v f = some t ∧ Settled cfg t ∧ ∀ y, y ∈ t.sortedElements ↔
        y ∈ s.sortedElements := by
  rcases (s.weights v).compute_reaches f with reached | ⟨nobody, unchanged⟩
  · let updated := ((s.weights v).compute f).1
    have labels : updated.labels = (s.weights v).labels := (s.weights v).compute_labels
    let written : SortedElements α ω ν := { s with weights := update s.weights v updated }
    have start : Ordered cfg written fun x => (s.weights (cfg.weightVariable x)).value :=
      ⟨⟨settled.ordered.nodup, settled.ordered.entries⟩, settled.ordered.descends, settled.ordered.heaviest,
        settled.ordered.lightest⟩
    obtain ⟨t, ran, ordered, weights, members⟩ := onWeightUpdate_loop updated.value (s.weights v).labels start
      (fun x label => ((settled.watched v x).mp label).1)
    have observed : ∀ u, (t.weights u).labels = (s.weights u).labels := by
      intro u
      simp only [weights, written, update_apply]
      split
      · rw [labels, ‹u = v›]
      · rfl
    refine ⟨t, ?_, ⟨ordered.congr fun y mem => ?_, fun u => ?_, fun u y => ?_⟩, members⟩
    · simp only [computeWeight, reached]
      exact ran
    · rw [weights]
      have inS := (members y).mp mem
      by_cases here : cfg.weightVariable y = v
      · rw [if_pos ((settled.watched v y).mpr ⟨inS, here⟩)]
        simp [written, here]
      · rw [if_neg (fun label => here ((settled.watched v y).mp label).2)]
        simp [written, update_of_ne here]
    · rw [observed]
      exact settled.once u
    · rw [observed, members y]
      exact settled.watched u y
  · refine ⟨s, ?_, settled, fun y => Iff.rfl⟩
    simp only [computeWeight, nobody, unchanged, update_eq_self, foldlM_nil]
    rfl

omit [LinearOrder ω] [DecidableEq α] [DecidableEq ν] [Inhabited ω] in
theorem descending_eq (s : SortedElements α ω ν) : s.descending = s.sortedElements := by
  have loop : ∀ (rest done : List α), (rest.zipIdx done.length).foldl
      (fun slice entry => slice.set entry.2 entry.1)
      (done ++ List.replicate rest.length default) = done ++ rest := by
    intro rest
    induction rest with
    | nil => simp
    | cons a rest ih =>
      intro done
      have next := ih (done ++ [a])
      simpa [replicate_succ] using next
  simpa [descending] using loop s.sortedElements []

omit [LinearOrder ω] [DecidableEq α] [DecidableEq ν] [Inhabited ω] in
theorem ascending_eq (s : SortedElements α ω ν) : s.ascending = s.sortedElements.reverse := by
  have loop : ∀ (rest done : List α), (rest.zipIdx done.length).foldl
      (fun slice entry => slice.set (done.length + rest.length - entry.2 - 1) entry.1)
      (List.replicate rest.length default ++ done.reverse) = (done ++ rest).reverse := by
    intro rest
    induction rest with
    | nil => simp
    | cons a rest ih =>
      intro done
      have next := ih (done ++ [a])
      have place : done.length + (rest.length + 1) - done.length - 1 = rest.length := by omega
      have total : done.length + 1 + rest.length = done.length + (rest.length + 1) := by omega
      rw [length_append, length_singleton, total] at next
      simp only [zipIdx_cons, foldl_cons, length_cons, place]
      have wrote : (List.replicate (rest.length + 1) default ++ done.reverse).set rest.length a =
          List.replicate rest.length default ++ (done ++ [a]).reverse := by
        rw [replicate_succ', append_assoc, set_append_right _ _ (by simp)]
        simp
      rw [wrote, next, append_assoc, singleton_append]
  have all := loop s.sortedElements []
  simpa [ascending] using all

end SortedElements

namespace SortedSet

variable [DecidableEq α] [DecidableEq ν] [LinearOrder ω] [Inhabited α] [Inhabited ω]

/-- The current weight of an element. -/
def weight (cfg : SortedSetConfig α ν) (s : SortedSet α ω ν) (x : α) : ω :=
  (s.sorted.weights (cfg.weightVariable x)).value

/-- The contract of the sorted set. -/
structure OrderInvariant (cfg : SortedSetConfig α ν) (s : SortedSet α ω ν) : Prop where
  /-- Every element of the set is listed exactly once, and nothing else is. -/
  nodup : s.sorted.sortedElements.Nodup
  members : ∀ x, x ∈ s.sorted.sortedElements ↔ x ∈ s.set.value
  /-- The stored entries are those of the listed elements, each with the
  element's current weight and its position. -/
  entries : ∀ x, s.sorted.elements x =
    if x ∈ s.set.value then some ⟨s.weight cfg x, s.sorted.sortedElements.idxOf x⟩ else none
  /-- The slice descends by weight and, among equal weights, by `Less`. -/
  descends : s.sorted.sortedElements.Pairwise fun a b => s.weight cfg b < s.weight cfg a ∨
    s.weight cfg a = s.weight cfg b ∧ ∀ less, cfg.less = some less → less b a = true
  ascending : s.sorted.ascending = s.sorted.descending.reverse
  descending : s.sorted.descending = s.sorted.sortedElements
  /-- The ends are the zero value when there is no element. -/
  heaviest : s.sorted.heaviestElement = s.sorted.sortedElements.head?.getD default
  lightest : s.sorted.lightestElement = s.sorted.sortedElements.getLast?.getD default

/-- The slice is settled and lists the elements of the embedded set, which
delivers its mutations to the slice. -/
structure InStep (cfg : SortedSetConfig α ν) (s : SortedSet α ω ν) : Prop where
  settled : s.sorted.Settled cfg
  members : ∀ x, x ∈ s.sorted.sortedElements ↔ x ∈ s.set.value
  subscribed : s.set.labels = [()]

omit [DecidableEq ν] [Inhabited ω] in
theorem new_inStep : InStep cfg (new weights : SortedSet α ω ν) := by
  refine ⟨⟨⟨⟨nodup_nil, fun x => rfl⟩, fun _ => List.Pairwise.nil, rfl, rfl⟩, fun v => nodup_nil,
    fun v x => ?_⟩,
    fun x => ?_, rfl⟩
  · exact ⟨fun label => absurd label not_mem_nil, fun mem => absurd mem.1 not_mem_nil⟩
  · exact ⟨fun mem => absurd mem not_mem_nil, fun mem =>
        absurd mem (by simp [new, ReactiveSet.new, ReactiveSet.onUpdate])⟩

theorem step_inStep (cfg : SortedSetConfig α ν) (s : SortedSet α ω ν)
    (e : SortedSetEvent α ω ν) (inStep : InStep cfg s) (mutation : e.IsMutation) :
    ∃ t, s.step cfg e = some t ∧ InStep cfg t := by
  cases e with
  | write call =>
    have net := s.set.write_net mutation
    have joined := net.labels.trans inStep.subscribed
    rcases net.reaches with reached | ⟨nobody, unchanged⟩
    · obtain ⟨sorted, ran, settled, listing⟩ :=
        SortedElements.onSetUpdate_settled inStep.settled (s.set.write call).mutations
      refine ⟨⟨(s.set.write call).set, sorted⟩, ?_, settled, fun x => ?_, joined⟩
      · simp [step, reached, inStep.subscribed, ran]
      · rw [listing x, inStep.members x]
        exact (net.replays x).symm
    · refine ⟨⟨(s.set.write call).set, s.sorted⟩, ?_, inStep.settled, fun x => ?_, joined⟩
      · simp [step, nobody]
      · rw [inStep.members x]
        exact (unchanged x).symm
  | computeWeight v f =>
    obtain ⟨sorted, ran, settled, listing⟩ := SortedElements.computeWeight_settled inStep.settled v f
    refine ⟨⟨s.set, sorted⟩, ?_, settled, fun x => ?_, inStep.subscribed⟩
    · simp [step, ran]
    · rw [listing x, inStep.members x]

omit [DecidableEq ν] [Inhabited ω] in
theorem InStep.orderInvariant (lawful : cfg.LawfulLess) {s : SortedSet α ω ν}
    (inStep : InStep cfg s) : OrderInvariant cfg s := by
  have ordered := inStep.settled.ordered
  refine ⟨ordered.nodup, inStep.members, fun x => ?_, ?_, ?_, s.sorted.descending_eq,
    ordered.heaviest, ordered.lightest⟩
  · simp only [← inStep.members x]
    exact ordered.entries x
  · refine List.Pairwise.imp (fun {a b} both => ?_)
      (List.Pairwise.and (ordered.descends lawful) ordered.nodup)
    obtain ⟨notBelow, apart⟩ := both
    rw [SortedElements.below_iff, not_or] at notBelow
    rcases lt_or_eq_of_le (not_lt.mp notBelow.1) with lighter | equal
    · exact .inl lighter
    · refine .inr ⟨equal.symm, fun less has => ?_⟩
      rcases lawful.total less has a b apart with ordered | ordered
      · exact absurd ⟨equal.symm, less, has, ordered⟩ notBelow.2
      · exact ordered
  · rw [s.sorted.ascending_eq, s.sorted.descending_eq]

/-- No sequence of writes and weight updates panics, and after each of them the
slice is in order. -/
theorem sortedSet_stays_ordered (cfg : SortedSetConfig α ν) (lawful : cfg.LawfulLess)
    (weights : ν → ω × (ω → ω → ω)) (events : List (SortedSetEvent α ω ν))
        (mutations : ∀ e ∈ events, e.IsMutation) :
    ∃ s, run (step cfg) (new weights) events = some s ∧ OrderInvariant cfg s := by
  obtain ⟨s, ran, inStep⟩ := run_total (step_inStep cfg) new_inStep mutations
  exact ⟨s, ran, inStep.orderInvariant lawful⟩

/-- Ties between numbers are broken by their natural order. -/
theorem sortedSet_stays_ordered_with_ties :
    let cfg : SortedSetConfig Nat Nat := ⟨id, some fun a b => decide (a < b)⟩
    ∃ s, run (step cfg) (new fun _ => (0, fun _ new => new))
        [.write (.add 1), .write (.add 2), .computeWeight 1 fun _ => 5, .write (.delete 2),
            .write (.add 3)] = some s ∧
      OrderInvariant cfg s := by
  refine sortedSet_stays_ordered _ ⟨?_, ?_, ?_⟩ _ _ ?_
  · simp
  · rintro less ⟨⟩ a b c
    simp only [decide_eq_true_eq]
    exact Nat.lt_trans
  · rintro less ⟨⟩ a b apart
    simp only [decide_eq_true_eq]
    omega
  · simp [SortedSetEvent.IsMutation, Write.IsMutation]

end SortedSet
end HiveGo
