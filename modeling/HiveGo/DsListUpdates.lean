import HiveGo.DsListShape

/-! What the operations of a list do to its elements. `MoveBefore` and `MoveAfter` look at the
element where they should look at the position, and so they move nothing. -/
namespace HiveGo.DsList
open Function List Pointer

variable {T : Type}

namespace Memory

variable {m : Memory T} {l : Nat} {members front back : List Pointer} {e : Pointer}

theorem init_spec (allocated : Allocated m) (l : Nat) : Updated m (m.init l) l [] where
  shape := by
    refine ⟨Links.ring_nil_iff.mpr ⟨?_, ?_⟩, by simp, by simp, update_self ..⟩
    · exact update_self ..
    · exact update_self ..
  others := by
    have within : ∀ p ∈ [root l],
        p = .root l ∨ (∃ i, p = .element i) ∧ (m.list p = some l ∨ m.list p = none) := by simp
    refine Shape.others within (fun p out => ?_) (fun other ne => update_of_ne ne ..) le_rfl
    have ne := mem_singleton.not.mp out
    exact ⟨⟨update_of_ne ne .., update_of_ne ne ..⟩, rfl⟩
  allocated := ⟨allocated.fresh, allocated.roots, allocated.stored⟩
  value _ _ := rfl
  elements := le_rfl
  lists := rfl

theorem lazyInit_eq (shape : Shape m l members) : m.lazyInit l = m := by
  rw [lazyInit, shape.next_root]
  rfl

variable (allocated : Allocated m)
include allocated

/-- A ring that was linked anew, with one element that changed its owner. -/
theorem Relinked.updated (relinked : Relinked m linked (.root l :: touched))
    (within : ∀ p ∈ touched, (∃ i, p = .element i) ∧ (m.list p = some l ∨ m.list p = none))
    (made : i < m.elements) (inside : .element i ∈ touched)
    (ring : linked.links.Ring (some (.root l)) (members.map some))
    (owned : ∀ p ∈ members, update m.list (.element i) owner p = some l ∧ ∃ j < m.elements, p = .element j) :
    Updated m { linked with
      list := update linked.list (.element i) owner
      len := update linked.len l members.length } l members := by
  have same : ∀ p, p ≠ .element i →
      update linked.list (.element i) owner p = m.list p := fun p ne => by
    rw [update_of_ne ne, relinked.list]
  refine ⟨⟨ring, ?_, ?_, update_self ..⟩, ?_, ⟨?_, ?_, ?_⟩, ?_, relinked.elements.ge,
    relinked.lists⟩
  · intro p mem
    rw [relinked.list]
    exact (owned p mem).1
  · intro p mem
    rw [relinked.elements]
    exact (owned p mem).2
  · refine Shape.others (fun p mem => (mem_cons.mp mem).imp id (within p))
      (fun p out => ⟨relinked.elsewhere p out, same p ?_⟩) (fun other ne => ?_)
      relinked.elements.ge
    · rintro rfl
      exact out (mem_cons_of_mem _ inside)
    · rw [relinked.len]
      exact update_of_ne ne ..
  · intro j bound
    rw [relinked.elements] at bound
    refine (same _ ?_).trans (allocated.fresh j bound)
    rintro ⟨⟩
    exact Nat.not_lt.mpr bound made
  · intro other
    exact (same _ (by simp)).trans (allocated.roots other)
  · intro j bound
    rw [relinked.elements] at bound
    rw [relinked.value]
    exact allocated.stored j bound
  · intro j _
    exact congrFun relinked.value _

theorem newElement_spec (shape : Shape m l members) (value : T) :
    Updated m (m.newElement value) l members where
  shape := shape.frame (fun _ _ => ⟨rfl, rfl⟩) (fun _ _ => rfl) rfl (Nat.le_succ _)
  others _ _ _ other := other.frame (fun _ _ => ⟨rfl, rfl⟩) (fun _ _ => rfl) rfl (Nat.le_succ _)
  allocated := by
    refine ⟨fun i bound => allocated.fresh i (Nat.le_of_succ_le bound), allocated.roots, ?_⟩
    intro i bound
    rcases Nat.lt_succ_iff_lt_or_eq.mp bound with older | rfl
    · have kept : (m.newElement value).value (.element i) = m.value (.element i) :=
        update_of_ne (by simpa using older.ne) ..
      rw [kept]
      exact allocated.stored i older
    · have held : (m.newElement value).value (.element m.elements) = some value :=
        update_self ..
      rw [held]
      rfl
  value i bound := update_of_ne (by simpa using bound.ne) ..
  elements := Nat.le_succ _
  lists := rfl

/-- An element that is in no list is put behind the elements of the front part. -/
theorem insert_spec (shape : Shape m l (front ++ back)) (made : i < m.elements)
    (unowned : m.list (.element i) = none) :
    ∃ after, m.insert l (.element i) (front.getLastD (.root l)) = some after ∧
      Updated m after l (front ++ .element i :: back) := by
  have out : element i ∉ front ++ back := by
    intro inside
    cases unowned.symm.trans (shape.owned _ inside)
  have fresh : element i ∉ root l :: (front ++ back) := by simpa using out
  obtain ⟨linked, ran, relinked, inserted⟩ := link_ring shape.ring fresh
  have members : ∀ p ∈ front ++ .element i :: back, p = .element i ∨ p ∈ front ++ back := by
    intro p mem
    rw [mem_append, mem_cons] at mem
    rw [mem_append]
    tauto
  have owned : ∀ p ∈ front ++ .element i :: back, update m.list (.element i) (some l) p = some l ∧
        ∃ j < m.elements, p = .element j := by
    intro p mem
    rcases members p mem with rfl | inside
    · exact ⟨update_self .., i, made, rfl⟩
    · have ne : p ≠ .element i := fun same => out (same ▸ inside)
      exact ⟨(update_of_ne ne ..).trans (shape.owned p inside), shape.created p inside⟩
  have within : ∀ p ∈ front ++ .element i :: back,
      (∃ j, p = .element j) ∧ (m.list p = some l ∨ m.list p = none) := by
    intro p mem
    rcases members p mem with rfl | inside
    · exact ⟨⟨i, rfl⟩, .inr unowned⟩
    · exact shape.within p inside
  have updated := relinked.updated allocated within made (by simp) inserted owned
  have len : linked.len l + 1 = ((front ++ element i :: back).length : Int) := by
    rw [relinked.len, shape.len]
    simp only [length_append, length_cons]
    push_cast
    omega
  exact ⟨_, by rw [insert, ran, ← len]; rfl, updated⟩

/-- A new element is put behind the elements of the front part. -/
theorem insertValue_spec (shape : Shape m l (front ++ back)) (value : T) :
    ∃ after, m.insertValue l value (front.getLastD (.root l)) =
        some (.element m.elements, after) ∧
      Updated m after l (front ++ .element m.elements :: back) := by
  have started := newElement_spec allocated shape value
  have unowned :=
    allocated.fresh m.elements le_rfl
  obtain ⟨after, ran, updated⟩ := insert_spec started.allocated started.shape
    (Nat.lt_succ_self m.elements) unowned
  exact ⟨after, by rw [insertValue, ran]; rfl, started.trans updated⟩

/-- An element of the list is taken out of it. -/
theorem removeElement_spec (shape : Shape m l (front ++ e :: back)) :
    ∃ after, m.removeElement l e = some after ∧ Updated m after l (front ++ back) ∧
      after.value = m.value := by
  obtain ⟨unlinked, ran, relinked, ring⟩ := unlink_ring shape
  obtain ⟨i, made, rfl⟩ := shape.created e (by simp)
  have nodup := shape.nodup
  rw [← cons_append, nodup_middle, nodup_cons] at nodup
  have cleared : Relinked m ((unlinked.setNext (.element i) none).setPrev (.element i) none)
      (.root l :: (front ++ .element i :: back)) :=
    (relinked.trans ((relinked_setNext ..).mono (by simp))).trans
      ((relinked_setPrev ..).mono (by simp))
  have others : ((unlinked.setNext (.element i) none).setPrev (.element i) none).links.Ring
      (some (.root l)) ((front ++ back).map some) := by
    refine ring.congr fun place mem => ?_
    rw [← map_cons (f := some)] at mem
    obtain ⟨p, inside, rfl⟩ := mem_map.mp mem
    have ne : p ≠ .element i := fun same => nodup.1 (same ▸ inside)
    exact ⟨update_of_ne ne .., update_of_ne ne ..⟩
  have owned : ∀ p ∈ front ++ back, update m.list (.element i) none p = some l ∧
      ∃ j < m.elements, p = .element j := by
    intro p mem
    have ne : p ≠ .element i := fun same => nodup.1 (same ▸ mem_cons_of_mem _ mem)
    have inside : p ∈ front ++ .element i :: back := by
      rw [mem_append] at mem ⊢
      exact mem.imp id (mem_cons_of_mem _)
    exact ⟨(update_of_ne ne ..).trans (shape.owned p inside), shape.created p inside⟩
  have updated := cleared.updated allocated shape.within made (by simp) others owned
  have len : unlinked.len l - 1 = ((front ++ back).length : Int) := by
    rw [relinked.len, shape.len]
    simp only [length_append, length_cons]
    push_cast
    omega
  exact ⟨_, by rw [removeElement, ran, ← len]; rfl, updated, relinked.value⟩

/-- An element of the list is put somewhere else in it. -/
theorem move_spec (shape : Shape m l (before ++ e :: behind))
    (rest : before ++ behind = front ++ back) :
    ∃ after, m.move e (front.getLastD (.root l)) = some after ∧
      Updated m after l (front ++ e :: back) := by
  obtain ⟨unlinked, ran, relinked, ring⟩ := unlink_ring shape
  obtain ⟨i, made, rfl⟩ := shape.created e (by simp)
  have nodup := shape.nodup
  rw [← cons_append, nodup_middle, nodup_cons, cons_append, rest] at nodup
  have ne : element i ≠ front.getLastD (.root l) := by
    intro same
    have last : front.getLastD (.root l) ∈ root l :: front := getLastD_mem_cons
    exact nodup.1 (cons_subset_cons _ (subset_append_left front back) (same ▸ last))
  rw [rest] at ring
  obtain ⟨linked, placed, again, inserted⟩ := link_ring ring nodup.1
  have perm : (before ++ .element i :: behind).Perm (front ++ .element i :: back) := by
    refine perm_middle.trans (List.Perm.trans ?_ perm_middle.symm)
    rw [rest]
  have moved := (relinked.mono (cons_subset_cons _ perm.subset)).trans again
  have list : linked.list (.element i) = some l :=
    (congrFun moved.list _).trans (shape.owned _ (by simp))
  have owned : ∀ p ∈ front ++ .element i :: back, update m.list (.element i) (some l) p = some l ∧
        ∃ j < m.elements, p = .element j := by
    intro p mem
    have inside := perm.mem_iff.mpr mem
    rw [← list, moved.list, update_eq_self]
    exact ⟨(shape.owned p inside).trans (shape.owned _ (by simp)).symm, shape.created p inside⟩
  have updated := moved.updated allocated (fun p mem => shape.within p (perm.mem_iff.mpr mem))
    made (by simp) inserted owned
  have len : linked.len l = ((front ++ element i :: back).length : Int) := by
    rw [moved.len, shape.len, perm.length_eq]
  rw [← list, ← len, update_eq_self, update_eq_self] at updated
  refine ⟨linked, ?_, updated⟩
  rw [move, if_neg ne, ran]
  exact placed

omit allocated

theorem newList_wellFormed (wellFormed : WellFormed m) : WellFormed m.newList := by
  let started : Memory T := { m with lists := m.lists + 1 }
  have allocated : Allocated started :=
    ⟨wellFormed.fresh, wellFormed.roots, wellFormed.stored⟩
  have updated := init_spec allocated m.lists
  refine ⟨updated.allocated, fun l made => ?_⟩
  rcases Nat.lt_succ_iff_lt_or_eq.mp made with older | rfl
  · obtain ⟨members, shape⟩ := wellFormed.shape l older
    have kept : Shape started l members :=
      shape.frame (fun _ _ => ⟨rfl, rfl⟩) (fun _ _ => rfl) rfl le_rfl
    exact ⟨members, updated.others l older.ne members kept⟩
  · exact ⟨[], updated.shape⟩

/-! The operations of the list, on a list with the given elements. -/

variable (allocated : Allocated m)
include allocated

theorem pushFront_spec (shape : Shape m l members) (value : T) :
    ∃ after, m.pushFront l value = some (.element m.elements, after) ∧
      Updated m after l (.element m.elements :: members) := by
  have gap : Shape m l ([] ++ members) := shape
  rw [pushFront, lazyInit_eq shape]
  exact insertValue_spec allocated gap value

theorem pushBack_spec (shape : Shape m l members) (value : T) :
    ∃ after, m.pushBack l value = some (.element m.elements, after) ∧
      Updated m after l (members ++ [.element m.elements]) := by
  have gap : Shape m l (members ++ []) := by rwa [append_nil]
  rw [pushBack, lazyInit_eq shape, shape.prev_root]
  exact insertValue_spec allocated gap value

variable (shape : Shape m l (front ++ e :: back))
include shape

theorem remove_spec : ∃ value after, m.value e = some value ∧ m.remove l e = some (value, after) ∧
      Updated m after l (front ++ back) := by
  obtain ⟨after, ran, updated, values⟩ := removeElement_spec allocated shape
  obtain ⟨i, bound, rfl⟩ := shape.created e (by simp)
  obtain ⟨value, held⟩ := Option.isSome_iff_exists.mp (allocated.stored i bound)
  refine ⟨value, after, held, ?_, updated⟩
  rw [remove, if_pos (shape.owned _ (by simp)), ran]
  change (after.value (.element i)).bind _ = _
  rw [values, held]
  rfl

theorem insertBefore_spec (value : T) :
    ∃ after, m.insertBefore l value e = some (some (.element m.elements), after) ∧
      Updated m after l (front ++ .element m.elements :: e :: back) := by
  obtain ⟨after, ran, updated⟩ := insertValue_spec allocated shape value
  refine ⟨after, ?_, updated⟩
  rw [insertBefore, if_neg (not_not.mpr (shape.owned e (by simp))), shape.prev_eq]
  change (m.insertValue l value _).bind _ = _
  rw [ran]
  rfl

theorem insertAfter_spec (value : T) :
    ∃ after, m.insertAfter l value e = some (some (.element m.elements), after) ∧
      Updated m after l (front ++ e :: .element m.elements :: back) := by
  have owned := shape.owned e (by simp)
  rw [append_cons] at shape ⊢
  obtain ⟨after, ran, updated⟩ := insertValue_spec allocated shape value
  rw [getLastD_concat] at ran
  refine ⟨after, ?_, updated⟩
  rw [insertAfter, if_neg (not_not.mpr owned)]
  rw [ran]
  rfl

theorem moveToFront_spec :
    ∃ after, m.moveToFront l e = some after ∧ Updated m after l (e :: (front ++ back)) := by
  have owned := shape.owned e (by simp)
  have next := shape.next_root
  unfold moveToFront
  by_cases first : m.next (.root l) = some e
  · cases front with
    | nil => exact ⟨m, if_pos (.inr first), .refl allocated shape⟩
    | cons other front =>
      obtain rfl : other = e := Option.some.inj (next.symm.trans first)
      have nodup := shape.nodup
      simp at nodup
  · rw [if_neg (by simp [owned, first])]
    have whole : front ++ back = [] ++ (front ++ back) := rfl
    exact move_spec allocated shape whole

theorem moveToBack_spec :
    ∃ after, m.moveToBack l e = some after ∧ Updated m after l (front ++ back ++ [e]) := by
  have owned := shape.owned e (by simp)
  have prev := shape.prev_root
  unfold moveToBack
  rcases eq_nil_or_concat' back with rfl | ⟨between, last, rfl⟩
  · rw [getLastD_concat] at prev
    refine ⟨m, if_pos (.inr prev), ?_⟩
    rw [append_nil]
    exact .refl allocated shape
  · rw [← cons_append, ← append_assoc, getLastD_concat] at prev
    have other : m.prev (.root l) ≠ some e := by
      intro same
      cases prev.symm.trans same
      have nodup := shape.nodup
      simp [nodup_append] at nodup
    rw [if_neg (by simp [owned, other]), prev]
    have whole : front ++ (between ++ [last]) = front ++ between ++ [last] ++ [] := by simp
    have moved := move_spec allocated shape whole
    rwa [getLastD_concat, append_assoc front between] at moved

omit shape

/-- `MoveBefore` puts the element where it already is. -/
theorem moveBefore_spec (shape : Shape m l members) (mem : e ∈ members) (position : Pointer) :
    ∃ after, m.moveBefore l e position = some after ∧ Updated m after l members := by
  obtain ⟨front, back, rfl⟩ := append_of_mem mem
  unfold moveBefore
  by_cases same : e = position
  · rw [if_pos (.inr (.inl same))]
    exact ⟨m, rfl, .refl allocated shape⟩
  · have owned := shape.owned e mem
    rw [if_neg (by simp [owned, same]), shape.prev_eq]
    exact move_spec allocated shape rfl

omit allocated

/-- `MoveAfter` puts the element behind itself. -/
theorem moveAfter_eq (l : Nat) : m.moveAfter l e position = some m := by
  simp [moveAfter, move]

end Memory

end HiveGo.DsList
