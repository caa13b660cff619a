import Mathlib.Data.List.DropRight

/-! Moving one element of a descending list to its place. The list around it is descending in a
strict weak order; the element passes the smaller ones on its left or, if there are none, the
greater ones on its right, and then all is descending. -/
namespace HiveGo.Bubble
open List

variable {α : Type} (lt : α → α → Prop) [DecidableRel lt]

/-- No element is below a later one. -/
def Descending (l : List α) : Prop := l.Pairwise fun a b => ¬ lt a b

/-- The part of the left side the element passes. -/
def passedLeft (x : α) (left : List α) : List α := left.rtakeWhile fun a => lt a x

/-- The part of the left side that stays in front of the element. -/
def keptLeft (x : α) (left : List α) : List α := left.rdropWhile fun a => lt a x

/-- The part of the right side the element passes. -/
def passedRight (x : α) (right : List α) : List α := right.takeWhile fun b => lt x b

/-- The part of the right side that stays behind the element. -/
def keptRight (x : α) (right : List α) : List α := right.dropWhile fun b => lt x b

@[simp] theorem keptLeft_append_passedLeft (x : α) (left : List α) :
    keptLeft lt x left ++ passedLeft lt x left = left := rdropWhile_append_rtakeWhile

@[simp] theorem passedRight_append_keptRight (x : α) (right : List α) :
    passedRight lt x right ++ keptRight lt x right = right := takeWhile_append_dropWhile

theorem keptLeft_concat_pos (left : List α) (below : lt a x) :
    keptLeft lt x (left ++ [a]) = keptLeft lt x left ∧
      passedLeft lt x (left ++ [a]) = passedLeft lt x left ++ [a] :=
  ⟨rdropWhile_concat_pos _ _ _ (by simpa using below), rtakeWhile_concat_pos _ _ _ (by simpa using below)⟩

theorem keptLeft_concat_neg (left : List α) (settled : ¬ lt a x) :
    keptLeft lt x (left ++ [a]) = left ++ [a] ∧ passedLeft lt x (left ++ [a]) = [] :=
  ⟨rdropWhile_concat_neg _ _ _ (by simpa using settled), rtakeWhile_concat_neg _ _ _ (by simpa using settled)⟩

theorem keptRight_cons_pos (right : List α) (above : lt x b) :
    keptRight lt x (b :: right) = keptRight lt x right ∧
      passedRight lt x (b :: right) = b :: passedRight lt x right := by
  simp [keptRight, passedRight, above]

theorem keptRight_cons_neg (right : List α) (settled : ¬ lt x b) :
    keptRight lt x (b :: right) = b :: right ∧ passedRight lt x (b :: right) = [] := by
  simp [keptRight, passedRight, settled]

theorem passedLeft_lt : ∀ a ∈ passedLeft lt x left, lt a x := by
  intro a mem
  simpa using mem_rtakeWhile_imp mem

theorem passedRight_lt : ∀ b ∈ passedRight lt x right, lt x b := by
  intro b mem
  simpa using mem_takeWhile_imp mem

variable [IsStrictWeakOrder α lt]

omit [DecidableRel lt] in
/-- Between two ordered elements, every third one is above the first or below
the second. -/
theorem cotrans (below : lt a c) : lt a b ∨ lt b c := by
  by_contra neither
  rw [not_or] at neither
  obtain ⟨notAB, notBC⟩ := neither
  have notBA : ¬ lt b a := fun h => notBC (trans_of lt h below)
  have notCB : ¬ lt c b := fun h => notAB (trans_of lt below h)
  exact (IsStrictWeakOrder.incomp_trans a b c ⟨notAB, notBA⟩ ⟨notBC, notCB⟩).1 below

/-- Every element kept on the left is at least as great as the moved one. -/
theorem keptLeft_not_lt (descending : Descending lt left) : ∀ a ∈ keptLeft lt x left, ¬ lt a x := by
  intro a mem below
  have nonempty := ne_nil_of_mem mem
  have last : ¬ lt ((keptLeft lt x left).getLast nonempty) x :=
    fun final => rdropWhile_last_not (fun a => decide (lt a x)) left nonempty (decide_eq_true final)
  have kept : Descending lt (keptLeft lt x left) := descending.sublist (List.rdropWhile_prefix _ left).sublist
  rw [← dropLast_append_getLast nonempty] at mem kept
  rcases mem_append.mp mem with earlier | final
  · have ordered := (pairwise_append.mp kept).2.2 a earlier _ (mem_singleton_self _)
    rcases cotrans lt below with up | down
    · exact ordered up
    · exact last down
  · rw [mem_singleton] at final
    exact last (final ▸ below)

/-- Every element kept on the right is at most as great as the moved one. -/
theorem keptRight_not_lt (descending : Descending lt right) :
    ∀ b ∈ keptRight lt x right, ¬ lt x b := by
  induction right with
  | nil => simp [keptRight]
  | cons c right ih =>
    obtain ⟨head, tail⟩ := pairwise_cons.mp descending
    by_cases above : lt x c
    · rw [(keptRight_cons_pos lt right above).1]
      exact ih tail
    · rw [(keptRight_cons_neg lt right above).1]
      intro b mem below
      rcases mem_cons.mp mem with rfl | later
      · exact above below
      · rcases cotrans lt below with up | down
        · exact above up
        · exact head b later down

/-- Having passed a smaller element on its left, the element is in place. -/
theorem descending_moveLeft (descending : Descending lt (left ++ right))
    (moved : passedLeft lt x left ≠ []) :
    Descending lt (keptLeft lt x left ++ x :: (passedLeft lt x left ++ right)) := by
  obtain ⟨leftDescending, rightDescending, across⟩ := pairwise_append.mp descending
  have split := keptLeft_append_passedLeft lt x left
  have parts := leftDescending
  rw [← split] at parts
  obtain ⟨keptDescending, passedDescending, keptAcross⟩ := pairwise_append.mp parts
  have inLeft : ∀ a, a ∈ keptLeft lt x left ∨ a ∈ passedLeft lt x left → a ∈ left := by
    intro a mem
    rw [← split]
    exact mem_append.mpr mem
  refine pairwise_append.mpr ⟨keptDescending, pairwise_cons.mpr ⟨?_, ?_⟩, ?_⟩
  · intro b behind above
    rcases mem_append.mp behind with passed | later
    · exact asymm (passedLeft_lt lt b passed) above
    · obtain ⟨a, first⟩ := exists_mem_of_ne_nil _ moved
      exact across a (inLeft a (.inr first)) b later (trans_of lt (passedLeft_lt lt a first) above)
  · exact pairwise_append.mpr
      ⟨passedDescending, rightDescending, fun a passed b later => across a (inLeft a (.inr passed)) b later⟩
  · intro a kept b behind
    rcases mem_cons.mp behind with rfl | behind
    · exact keptLeft_not_lt lt leftDescending a kept
    · rcases mem_append.mp behind with passed | later
      · exact keptAcross a kept b passed
      · exact across a (inLeft a (.inl kept)) b later

/-- With nothing smaller on its left, passing the greater elements on its right
puts the element in place. -/
theorem descending_moveRight (descending : Descending lt (left ++ right))
    (settled : passedLeft lt x left = []) :
    Descending lt (left ++ (passedRight lt x right ++ x :: keptRight lt x right)) := by
  obtain ⟨leftDescending, rightDescending, across⟩ := pairwise_append.mp descending
  have split := passedRight_append_keptRight lt x right
  have parts := rightDescending
  rw [← split] at parts
  obtain ⟨passedDescending, keptDescending, keptAcross⟩ := pairwise_append.mp parts
  have inRight : ∀ b, b ∈ passedRight lt x right ∨ b ∈ keptRight lt x right → b ∈ right := by
    intro b mem
    rw [← split]
    exact mem_append.mpr mem
  have whole : keptLeft lt x left = left := by
    have rejoined := keptLeft_append_passedLeft lt x left
    rwa [settled, append_nil] at rejoined
  refine pairwise_append.mpr ⟨leftDescending, pairwise_append.mpr ⟨passedDescending,
    pairwise_cons.mpr ⟨keptRight_not_lt lt rightDescending, keptDescending⟩, ?_⟩, ?_⟩
  · intro b passed c behind below
    rcases mem_cons.mp behind with rfl | kept
    · exact asymm (passedRight_lt lt b passed) below
    · exact keptAcross b passed c kept below
  · intro a front b behind
    rcases mem_append.mp behind with passed | behind
    · exact across a front b (inRight b (.inl passed))
    · rcases mem_cons.mp behind with rfl | kept
      · exact keptLeft_not_lt lt leftDescending a (whole.symm ▸ front)
      · exact across a front b (inRight b (.inr kept))

end HiveGo.Bubble
