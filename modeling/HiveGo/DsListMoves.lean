import HiveGo.DsListUpdates

/-! Runs of list operations, and the two operations that move an element next to another one.
They relocate an element only when it is there already. -/
namespace HiveGo.DsList

open Memory List Option

variable {T : Type}

/-- The handles that an operation is given, with the list it is made on. -/
def Operation.handles : Operation T → List (Nat × Pointer)
  | remove l e | insertBefore l _ e | insertAfter l _ e | moveToFront l e | moveToBack l e => [(l, e)]
  | moveBefore l element position | moveAfter l element position => [(l, element), (l, position)]
  | newList | init _ | pushFront _ _ | pushBack _ _ | pushBackList _ _ | pushFrontList _ _ => []

/-- No handle is that of an element which was cleared out of the list. -/
def Live (m : Memory T) (operation : Operation T) : Prop :=
  ∀ handle ∈ operation.handles, m.list handle.2 = some handle.1 →
    handle.2 ∈ (m.elementsOf handle.1).getD []

instance (m : Memory T) (operation : Operation T) : Decidable (Live m operation) :=
  inferInstanceAs (Decidable (∀ _ ∈ _, _))

variable {m after : Memory T} {l : Nat} {members : List Pointer}

/-- An element that the list owns stands somewhere in it. -/
theorem Live.split (live : Live m operation) (handle : (l, e) ∈ operation.handles)
    (shape : Shape m l members) (owned : m.list e = some l) :
    ∃ front back, Shape m l (front ++ e :: back) := by
  have mem := live (l, e) handle owned
  rw [shape.elementsOf_eq, getD_some] at mem
  obtain ⟨front, back, rfl⟩ := append_of_mem mem
  exact ⟨front, back, shape⟩

theorem pushBackAll_keeps (owned : Allocated m) (shape : Shape m l members)
    (pushed : m.pushBackAll l i e = some after) : ∃ more, Updated m after l more := by
  induction i generalizing m members e with
  | zero =>
    cases pushed
    exact ⟨members, .refl owned shape⟩
  | succ i ih =>
    obtain ⟨e, rfl, pushed⟩ := bind_eq_some_iff.mp pushed
    obtain ⟨value, -, pushed⟩ := bind_eq_some_iff.mp pushed
    have gap : Shape m l (members ++ []) := by rwa [append_nil]
    obtain ⟨next, inserted, updated⟩ := insertValue_spec owned gap value
    rw [shape.prev_root] at pushed
    change (m.insertValue l value _).bind _ = _ at pushed
    rw [inserted] at pushed
    obtain ⟨more, rest⟩ := ih updated.allocated updated.shape pushed
    exact ⟨more, updated.trans rest⟩

theorem pushFrontAll_keeps (owned : Allocated m) (shape : Shape m l members)
    (pushed : m.pushFrontAll l i e = some after) : ∃ more, Updated m after l more := by
  induction i generalizing m members e with
  | zero =>
    cases pushed
    exact ⟨members, .refl owned shape⟩
  | succ i ih =>
    obtain ⟨e, rfl, pushed⟩ := bind_eq_some_iff.mp pushed
    obtain ⟨value, -, pushed⟩ := bind_eq_some_iff.mp pushed
    have gap : Shape m l ([] ++ members) := shape
    obtain ⟨next, inserted, updated⟩ := insertValue_spec owned gap value
    rw [getLastD_nil] at inserted
    rw [inserted] at pushed
    obtain ⟨more, rest⟩ := ih updated.allocated updated.shape pushed
    exact ⟨more, updated.trans rest⟩

/-- Every operation with live handles leaves every list in its shape. -/
theorem step_keeps (wellFormed : WellFormed m) (live : Live m operation)
    (stepped : step m operation = some after) : WellFormed after := by
  rw [step, ite_none_right_eq_some] at stepped
  obtain ⟨made, done⟩ := stepped
  have allocated := wellFormed.toAllocated
  have shapes : ∀ l ∈ operation.lists, ∃ members, Shape m l members := fun l mem =>
    wellFormed.shape l (made l mem)
  have kept : ∀ {next l members}, perform m operation = some next → Updated m next l members →
      WellFormed after := by
    intro next l members ran updated
    cases ran.symm.trans done
    exact updated.wellFormed wellFormed
  -- A handle of another list changes nothing.
  have handled : ∀ l e, l ∈ operation.lists → (l, e) ∈ operation.handles →
      (∀ front back, Shape m l (front ++ e :: back) → WellFormed after) →
      (m.list e ≠ some l → m = after) → WellFormed after := by
    intro l e listed handle changed unchanged
    by_cases owned : m.list e = some l
    · obtain ⟨members, shape⟩ := shapes l listed
      obtain ⟨front, back, shape⟩ := live.split handle shape owned
      exact changed front back shape
    · exact unchanged owned ▸ wellFormed
  cases operation with
  | newList =>
    cases done
    exact newList_wellFormed wellFormed
  | init l => exact kept rfl (init_spec allocated l)
  | pushFront l value =>
    obtain ⟨members, shape⟩ := shapes l mem_cons_self
    obtain ⟨next, ran, updated⟩ := pushFront_spec allocated shape value
    exact kept (by rw [perform, ran]; rfl) updated
  | pushBack l value =>
    obtain ⟨members, shape⟩ := shapes l mem_cons_self
    obtain ⟨next, ran, updated⟩ := pushBack_spec allocated shape value
    exact kept (by rw [perform, ran]; rfl) updated
  | remove l e =>
    refine handled l e mem_cons_self mem_cons_self (fun front back shape => ?_) fun foreign => ?_
    · obtain ⟨value, next, -, ran, updated⟩ := remove_spec allocated shape
      exact kept (by rw [perform, ran]; rfl) updated
    · obtain ⟨⟨value, same⟩, read, rfl⟩ := map_eq_some_iff.mp done
      rw [remove, if_neg foreign] at read
      change (m.value e).bind _ = _ at read
      obtain ⟨_, -, equal⟩ := bind_eq_some_iff.mp read
      cases equal
      rfl
  | insertBefore l value position =>
    refine handled l position mem_cons_self mem_cons_self (fun front back shape => ?_) fun foreign => ?_
    · obtain ⟨next, ran, updated⟩ := insertBefore_spec allocated shape value
      exact kept (by rw [perform, ran]; rfl) updated
    · simpa [perform, insertBefore, foreign] using done
  | insertAfter l value position =>
    refine handled l position mem_cons_self mem_cons_self (fun front back shape => ?_) fun foreign => ?_
    · obtain ⟨next, ran, updated⟩ := insertAfter_spec allocated shape value
      exact kept (by rw [perform, ran]; rfl) updated
    · simpa [perform, insertAfter, foreign] using done
  | moveToFront l element =>
    refine handled l element mem_cons_self mem_cons_self (fun front back shape => ?_) fun foreign => ?_
    · obtain ⟨next, ran, updated⟩ := moveToFront_spec allocated shape
      exact kept ran updated
    · simpa [perform, moveToFront, foreign] using done
  | moveToBack l element =>
    refine handled l element mem_cons_self mem_cons_self (fun front back shape => ?_) fun foreign => ?_
    · obtain ⟨next, ran, updated⟩ := moveToBack_spec allocated shape
      exact kept ran updated
    · simpa [perform, moveToBack, foreign] using done
  | moveBefore l element position =>
    refine handled l element mem_cons_self mem_cons_self (fun front back shape => ?_) fun foreign => ?_
    · obtain ⟨next, ran, updated⟩ := moveBefore_spec allocated shape
        (mem_append_right _ mem_cons_self) position
      exact kept ran updated
    · simpa [perform, moveBefore, foreign] using done
  | moveAfter l element position =>
    rw [perform, moveAfter_eq] at done
    cases done
    exact wellFormed
  | pushBackList l other =>
    obtain ⟨members, shape⟩ := shapes l mem_cons_self
    rw [perform, pushBackList, lazyInit_eq shape] at done
    obtain ⟨more, updated⟩ := pushBackAll_keeps allocated shape done
    exact updated.wellFormed wellFormed
  | pushFrontList l other =>
    obtain ⟨members, shape⟩ := shapes l mem_cons_self
    rw [perform, pushFrontList, lazyInit_eq shape] at done
    obtain ⟨more, updated⟩ := pushFrontAll_keeps allocated shape done
    exact updated.wellFormed wellFormed

theorem initially_wellFormed : WellFormed ({} : Memory T) where
  fresh _ _ := rfl
  roots _ := rfl
  stored _ absurd := (Nat.not_lt_zero _ absurd).elim
  shape _ absurd := (Nat.not_lt_zero _ absurd).elim

theorem run_wellFormed (live : Along step Live {} operations)
    (ran : run step {} operations = some m) : WellFormed m :=
  run_invariant_along (fun _ _ _ wellFormed live stepped => step_keeps wellFormed live stepped)
    initially_wellFormed live ran

/-- The list with the element put directly before the position. -/
def placedBefore (members : List Pointer) (e position : Pointer) : List Pointer :=
  (members.erase e).flatMap fun p => if p = position then [e, position] else [p]

/-- The list with the element put directly behind the position. -/
def placedAfter (members : List Pointer) (e position : Pointer) : List Pointer :=
  (members.erase e).flatMap fun p => if p = position then [position, e] else [p]

theorem flatMap_of_not_mem (out : position ∉ members) :
    (members.flatMap fun p => if p = position then insertion else [p]) = members := by
  induction members with
  | nil => rfl
  | cons first rest ih =>
    rw [mem_cons, not_or] at out
    rw [flatMap_cons, if_neg (Ne.symm out.1), ih out.2]
    rfl

theorem flatMap_split {front back : List Pointer} (nodup : (front ++ position :: back).Nodup) :
    ((front ++ position :: back).flatMap fun p => if p = position then insertion else [p]) =
      front ++ insertion ++ back := by
  rw [nodup_middle, nodup_cons, mem_append, not_or] at nodup
  rw [flatMap_append, flatMap_cons, flatMap_of_not_mem nodup.1.1,
    flatMap_of_not_mem nodup.1.2, if_pos rfl, append_assoc]

/-- A list stays as it is exactly when the element is where it is to be put. -/
theorem relocated_iff (nodup : members.Nodup) (mem : position ∈ members) (apart : e ≠ position)
    (pair : insertion = [e, position] ∨ insertion = [position, e]) :
    ((members.erase e).flatMap fun p => if p = position then insertion else [p]) = members ↔
      insertion <:+: members := by
  constructor
  · intro same
    have remains := (mem_erase_of_ne apart.symm).mpr mem
    obtain ⟨front, back, split⟩ := append_of_mem remains
    have parts := nodup.erase e
    rw [split] at same parts
    rw [flatMap_split parts] at same
    exact ⟨front, back, same⟩
  · rintro ⟨front, back, rfl⟩
    have erased : (front ++ insertion ++ back).erase e = front ++ position :: back := by
      have out : e ∉ front := by
        have held : e ∈ insertion := by rcases pair with rfl | rfl <;> simp
        rw [append_assoc, nodup_append] at nodup
        exact fun also => nodup.2.2 e also e (mem_append_left back held) rfl
      rw [append_assoc, erase_append_right _ out]
      rcases pair with rfl | rfl
      · simp
      · simp [apart.symm]
    have parts := nodup.erase e
    rw [erased] at parts ⊢
    exact flatMap_split parts

/-- Whatever was done to a list before, `MoveBefore` and `MoveAfter` put an element next to another
one exactly when it is there already. The list keeps its length. -/
theorem move_relocates_iff_adjacent {operations : List (Operation T)}
    (live : Along step Live {} operations) (ran : run step {} operations = some m)
    (created : l < m.lists) (listed : m.elementsOf l = some members) {e position : Pointer}
    (inside : e ∈ members) (other : position ∈ members) (different : e ≠ position) :
    (∃ after, m.moveBefore l e position = some after ∧ after.len l = m.len l ∧
      (after.elementsOf l = some (placedBefore members e position) ↔
        [e, position] <:+: members)) ∧
    (∃ after, m.moveAfter l e position = some after ∧ after.len l = m.len l ∧
      (after.elementsOf l = some (placedAfter members e position) ↔
        [position, e] <:+: members)) := by
  have wellFormed := run_wellFormed live ran
  obtain ⟨places, shape⟩ := wellFormed.shape l created
  obtain rfl : places = members := some.inj (shape.elementsOf_eq.symm.trans listed)
  have nodup := (nodup_cons.mp shape.nodup).2
  constructor
  · obtain ⟨after, moved, updated⟩ :=
      moveBefore_spec wellFormed.toAllocated shape inside position
    refine ⟨after, moved, updated.shape.len.trans shape.len.symm, ?_⟩
    rw [updated.shape.elementsOf_eq, some.injEq, eq_comm]
    exact relocated_iff nodup other different (.inl rfl)
  · refine ⟨m, moveAfter_eq l, rfl, ?_⟩
    rw [listed, some.injEq, eq_comm]
    exact relocated_iff nodup other different (.inr rfl)

/-- Two elements that stand in the order they are moved to. -/
theorem move_relocates_iff_adjacent_of_two :
    ∃ m : Memory Nat,
      run step {} [.newList, .pushBack 0 7, .pushBack 0 8] = some m ∧
      (∃ after, m.moveBefore 0 (.element 0) (.element 1) = some after ∧ after.len 0 = m.len 0 ∧
        (after.elementsOf 0 = some (placedBefore [.element 0, .element 1] (.element 0) (.element 1)) ↔
          [Pointer.element 0, .element 1] <:+: [.element 0, .element 1])) := by
  have live : Along step Live ({} : Memory Nat) [.newList, .pushBack 0 7, .pushBack 0 8] := by
    decide
  exact ⟨_, rfl, (move_relocates_iff_adjacent live rfl (by decide) rfl (by decide) (by decide)
    (by decide)).1⟩

/-- The second of two elements is not moved before the first one, and the first one is not moved
behind the second. -/
theorem move_leaves_two_elements_in_place :
    ∃ m before after : Memory Nat,
      run step {} [.newList, .pushBack 0 7, .pushBack 0 8] = some m ∧
      m.elementsOf 0 = some [.element 0, .element 1] ∧
      m.moveBefore 0 (.element 1) (.element 0) = some before ∧
      before.elementsOf 0 ≠
        some (placedBefore [.element 0, .element 1] (.element 1) (.element 0)) ∧
      before.values 0 = some [7, 8] ∧
      m.moveAfter 0 (.element 0) (.element 1) = some after ∧
      after.elementsOf 0 ≠
        some (placedAfter [.element 0, .element 1] (.element 0) (.element 1)) ∧
      after.values 0 = some [7, 8] :=
  ⟨_, _, _, rfl, rfl, rfl, by decide, rfl, rfl, by decide, rfl⟩

end HiveGo.DsList
