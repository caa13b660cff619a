import HiveGo.PriorityQueue

/-! The priority queue behaves as the multiset it stands for. -/
namespace HiveGo.PriorityQueue

open GeneralHeap Multiset List Entry

variable {K V : Type}
variable {entry : Entry K V} {operation : Operation K V}

/-- The entries of the queue are in heap order. -/
structure Ordered (compareTo : K → K → Int) (elements : List (K × V)) (s : State K V)
    (entries : List (Entry K V)) : Prop where
  holds : Holds elements s entries
  heap : BinaryHeap.IsHeap (lt compareTo) entries

section operations

variable {entries : List (Entry K V)}

theorem Ordered.len_eq (ordered : Ordered compareTo elements s entries) : s.len = entries.length := by
  rw [State.len, ordered.holds.heap, length_map]

/-- The first entry has minimal priority. -/
theorem Ordered.first_le (preorder : IsTotalPreorder compareTo)
    (ordered : Ordered compareTo elements s entries) (found : entries[0]? = some first)
    (mem : entry ∈ entries) : Entry.Le compareTo first entry :=
  preorder.lt_eq_false_iff.mp (ordered.heap.root_le preorder.isStrict found mem)

theorem push_spec (preorder : IsTotalPreorder compareTo)
    (ordered : Ordered compareTo elements s entries) (element : V) (priority : K) :
    ∃ t more, push compareTo s element priority = some (elements.length, t) ∧
      Ordered compareTo (elements ++ [(priority, element)]) t more ∧
      more.Perm (⟨elements.length, priority, element⟩ :: entries) := by
  obtain ⟨between, pushed, holds⟩ := ordered.holds.push priority element
  obtain ⟨t, more, ran, final, perm, heap⟩ := BinaryHeap.push_spec preorder.isStrict
    (implements _) ordered.heap pushed holds
  rw [ordered.holds.length_eq] at perm
  refine ⟨t, more, ?_, ⟨final, heap⟩, perm.trans (perm_append_singleton _ _)⟩
  rw [push, ran, ordered.holds.length_eq]
  rfl

theorem popValue_spec (preorder : IsTotalPreorder compareTo)
    (ordered : Ordered compareTo elements s entries) (found : entries[0]? = some first) :
    ∃ t rest, popValue compareTo s = some (first.value, t) ∧
      Ordered compareTo elements t rest ∧ (first :: rest).Perm entries := by
  obtain ⟨between, rest, ran, held, without⟩ := BinaryHeap.pop_spec preorder.isStrict
    (implements elements) ordered.holds ordered.heap found
  obtain ⟨t, popped, holds⟩ := held.pop
  have stored := ordered.holds.stored first (mem_of_getElem? found)
  rw [← holds.contents, State.contents, getElem?_map, Option.map_eq_some_iff] at stored
  obtain ⟨element, here, equal⟩ := stored
  have value : element.value = first.value := congrArg Prod.snd equal
  refine ⟨t, rest, ?_, ⟨holds, without.heap⟩, without.perm⟩
  have same : (interface compareTo).pop between = some (first.pointer, t) := popped
  rw [popValue, ran, same]
  change (t.elements[first.pointer]?).bind _ = _
  rw [here, ← value]
  rfl

/-- The function of an entry that is queued takes it out. -/
theorem remove_spec (preorder : IsTotalPreorder compareTo)
    (ordered : Ordered compareTo elements s entries) (mem : entry ∈ entries) :
    ∃ t rest, remove compareTo s entry.pointer = some t ∧
      Ordered compareTo elements t rest ∧ (entry :: rest).Perm entries := by
  obtain ⟨i, bound, rfl⟩ := mem_iff_getElem.mp mem
  have found := getElem?_eq_getElem bound
  obtain ⟨between, rest, ran, held, without⟩ := BinaryHeap.remove_spec preorder.isStrict
    (implements elements) ordered.holds ordered.heap found
  obtain ⟨t, popped, holds⟩ := held.pop
  have index := ordered.holds.inside i _ (ordered.holds.getElem?_heap found)
  obtain ⟨element, here, place⟩ := Option.map_eq_some_iff.mp index
  refine ⟨t, rest, ?_, ⟨holds, without.heap⟩, without.perm⟩
  have same : (interface compareTo).pop between = some (entries[i].pointer, t) := popped
  rw [remove, here]
  change (if element.index ≠ -1 then _ else _) = _
  rw [place, if_pos (by omega), if_neg (by omega), Int.toNat_natCast, ran, same]
  rfl

/-- The function of an entry that left the queue does nothing. -/
theorem remove_of_gone (holds : Holds elements s entries) (ran : heapElement < elements.length)
    (gone : ∀ entry ∈ entries, entry.pointer ≠ heapElement) :
    remove compareTo s heapElement = some s := by
  have absent : heapElement ∉ s.heap := by
    rw [holds.heap, List.mem_map]
    rintro ⟨entry, mem, same⟩
    exact gone entry mem same
  obtain ⟨element, here, place⟩ := Option.map_eq_some_iff.mp (holds.outside heapElement ran absent)
  rw [remove, here]
  change (if element.index ≠ -1 then _ else _) = _
  rw [place, if_neg (by simp)]
  rfl

/-- Taking out entries as long as the first one meets a condition that holds of all entries
before one it holds of. -/
theorem popWhile_spec (preorder : IsTotalPreorder compareTo) [DecidablePred condition]
    (closed : ∀ a b, compareTo a b ≤ 0 → condition b → condition a)
    (ordered : Ordered compareTo elements s entries) (enough : entries.length < budget) :
    ∃ t leaving remaining,
      popWhile compareTo (fun element => decide (condition element.key)) budget s =
        some (leaving.map value, t) ∧
      Ordered compareTo elements t remaining ∧ (leaving ++ remaining).Perm entries ∧
      leaving.Pairwise (Entry.Le compareTo) ∧ (∀ entry ∈ leaving, condition entry.key) ∧
      ∀ entry ∈ remaining, ¬ condition entry.key := by
  induction budget generalizing s entries with
  | zero => omega
  | succ budget ih =>
    rw [popWhile, ordered.len_eq]
    cases entries with
    | nil => exact ⟨s, [], [], rfl, ordered, .refl _, .nil, by simp, by simp⟩
    | cons first others =>
      have found : (first :: others)[0]? = some first := rfl
      obtain ⟨element, here, key, -⟩ := ordered.holds.at_eq found
      rw [if_neg (by simp), here]
      by_cases meets : condition first.key
      · obtain ⟨next, rest, popped, stillOrdered, perm⟩ := popValue_spec preorder ordered found
        have length := perm.length_eq
        rw [length_cons, length_cons] at length
        rw [length_cons] at enough
        obtain ⟨t, leaving, remaining, ran, final, all, sorted, holds, fails⟩ :=
          ih stillOrdered (by omega)
        refine ⟨t, first :: leaving, remaining, ?_, final, (all.cons first).trans perm, ?_, ?_, fails⟩
        · simp [key, meets, popped, ran]
        · refine pairwise_cons.mpr ⟨fun entry mem => ?_, sorted⟩
          apply ordered.first_le preorder found
          apply perm.subset
          exact mem_cons_of_mem _ (all.subset (mem_append_left _ mem))
        · exact forall_mem_cons.mpr ⟨meets, holds⟩
      · refine ⟨s, [], first :: others, by simp [key, meets], ordered, .refl _, .nil, by simp, ?_⟩
        intro entry mem also
        exact meets (closed _ _ (ordered.first_le preorder found mem) also)

end operations

/-- The queue stands for the bag. -/
structure Represents (compareTo : K → K → Int) (s : State K V) (bag : Bag K V) : Prop where
  pushed : bag.pushed = s.contents.length
  ordered : ∃ entries, Ordered compareTo s.contents s entries ∧ bag.queued = ↑entries

theorem Represents.intro (pushed : n = elements.length)
    (ordered : Ordered compareTo elements s entries) (same : queued = ↑entries) :
    Represents compareTo s ⟨n, queued⟩ := by
  have contents := ordered.holds.contents
  subst contents
  exact ⟨pushed, entries, ordered, same⟩

theorem step_refines (preorder : IsTotalPreorder compareTo)
    (models : Represents compareTo s bag) (callable : operation.CallableAt bag.pushed) :
    ∃ result t leaving next, step compareTo s operation = some (result, t) ∧
      Effect compareTo bag operation result leaving next ∧ Represents compareTo t next := by
  obtain ⟨n, queued⟩ := bag
  obtain ⟨pushed, entries, ordered, same⟩ := models
  change n = _ at pushed
  subst same
  cases operation with
  | push element priority =>
    obtain ⟨t, more, ran, after, perm⟩ := push_spec preorder ordered element priority
    rw [← pushed] at perm
    refine ⟨.done, t, [], _, by simp [step, ran], .push element priority, .intro ?_ after ?_⟩
    · rw [length_append, length_singleton, pushed]
    · exact Multiset.coe_eq_coe.mpr perm.symm
  | pop =>
    cases entries with
    | nil => exact ⟨.element none, s, [], _, by simp [step, pop, ordered.len_eq], .popEmpty,
        .intro pushed ordered rfl⟩
    | cons first others =>
      obtain ⟨t, rest, ran, after, perm⟩ := popValue_spec preorder ordered rfl
      have parts := (Multiset.coe_eq_coe.mpr perm.symm).trans (Multiset.cons_coe first rest).symm
      have minimal : Minimal compareTo (↑(first :: others)) first :=
        ⟨mem_cons_self, fun other mem => ordered.first_le preorder rfl mem⟩
      rw [parts] at minimal ⊢
      exact ⟨_, t, [first], _, by simp [step, pop, ordered.len_eq, ran], .pop minimal,
        .intro pushed after rfl⟩
  | peek =>
    cases entries with
    | nil => exact ⟨.element none, s, [], _, by simp [step, peek, ordered.len_eq], .peekEmpty,
        .intro pushed ordered rfl⟩
    | cons first others =>
      obtain ⟨element, here, -, value⟩ := ordered.holds.at_eq (i := 0) rfl
      refine ⟨_, s, [], _, by simp [step, peek, ordered.len_eq, here, value]; rfl, .peek ?_,
        .intro pushed ordered rfl⟩
      exact ⟨mem_cons_self, fun other mem => ordered.first_le preorder rfl mem⟩
  | popUntil priority =>
    obtain ⟨t, leaving, rest, ran, after, perm, sorted, within, beyond⟩ :=
      popWhile_spec preorder (fun a b pre within => preorder.trans a b priority pre within) ordered
        (Nat.lt_succ_self _)
    have parts : (↑entries : Multiset (Entry K V)) = ↑leaving + ↑rest :=
      Quotient.sound perm.symm
    rw [← ordered.len_eq] at ran
    have empty : ∀ entry ∈ leaving, ¬ ¬ compareTo entry.key priority ≤ 0 := fun entry mem =>
      not_not.mpr (within entry mem)
    refine ⟨_, t, leaving, _, by simp [step, popUntil, ran], .popUntil sorted ?_,
      .intro pushed after ?_⟩
    · rw [parts, Multiset.filter_add, Multiset.filter_eq_self.mpr within,
        Multiset.filter_eq_nil.mpr beyond, Multiset.add_zero]
    · rw [parts, Multiset.filter_add, Multiset.filter_eq_nil.mpr empty,
        Multiset.filter_eq_self.mpr beyond, Multiset.zero_add]
  | popAll =>
    obtain ⟨t, leaving, rest, ran, after, perm, sorted, -, gone⟩ :=
      popWhile_spec preorder (fun _ _ _ _ => trivial) ordered (Nat.lt_succ_self _)
    obtain rfl : rest = [] := eq_nil_iff_forall_not_mem.mpr fun entry mem =>
      gone entry mem trivial
    have parts : (↑entries : Multiset (Entry K V)) = ↑leaving := by
      rw [append_nil] at perm
      exact Quotient.sound perm.symm
    rw [← ordered.len_eq, decide_true] at ran
    rw [parts]
    exact ⟨_, t, leaving, _, by simp [step, popAll, ran], .popAll sorted, .intro pushed after rfl⟩
  | remove heapElement =>
    by_cases queued : ∃ entry ∈ entries, entry.pointer = heapElement
    · obtain ⟨entry, mem, rfl⟩ := queued
      obtain ⟨t, rest, ran, after, perm⟩ := remove_spec preorder ordered mem
      rw [Multiset.coe_eq_coe.mpr perm.symm, ← Multiset.cons_coe]
      exact ⟨.done, t, [entry], _, by simp [step, ran], .remove entry, .intro pushed after rfl⟩
    · have gone : ∀ entry ∈ entries, entry.pointer ≠ heapElement := fun entry mem same =>
        queued ⟨entry, mem, same⟩
      have called := callable
      have unchanged : remove compareTo s heapElement = some s :=
        remove_of_gone ordered.holds (pushed ▸ called) gone
      exact ⟨.done, s, [], _, by simp [step, unchanged], .removeGone called gone,
        .intro pushed ordered rfl⟩

theorem Effect.pushed_eq {next : Bag K V} {result : Result V} {leaving : List (Entry K V)}
    (effect : Effect compareTo bag operation result leaving next) :
    next.pushed = operation.pushes bag.pushed := by
  cases effect <;> rfl

/-- The entry that an operation adds to the queue. -/
def Operation.added (pushed : Nat) : Operation K V → Multiset (Entry K V)
  | .push element priority => {⟨pushed, priority, element⟩}
  | _ => 0

/-- No entry is lost, and none leaves the queue twice. -/
theorem Effect.conserves {next : Bag K V} {result : Result V} {leaving : List (Entry K V)}
    (effect : Effect compareTo bag operation result leaving next) :
    ↑leaving + next.queued = operation.added bag.pushed + bag.queued := by
  cases effect with
  | push element priority =>
    rw [Multiset.coe_nil, Multiset.zero_add]
    rfl
  | popEmpty => rfl
  | pop minimal =>
    exact (Multiset.zero_add _).symm
  | peekEmpty => rfl
  | peek minimal => rfl
  | popUntil sorted exactly =>
    rw [exactly, filter_add_not]
    exact (Multiset.zero_add _).symm
  | popAll sorted =>
    rw [Multiset.add_zero]
    exact (Multiset.zero_add _).symm
  | remove entry =>
    exact (Multiset.zero_add _).symm
  | removeGone ran gone => rfl

theorem Effects.all_pushed (effects : Effects compareTo bag operations results left last)
    (all : gone + bag.queued.map pointer = Multiset.range bag.pushed) :
    gone + (↑(left.map pointer) + last.queued.map pointer) = Multiset.range last.pushed := by
  induction effects generalizing gone with
  | nil => rwa [List.map_nil, Multiset.coe_nil, Multiset.zero_add]
  | @cons bag next last operation operations result results leaving later first rest ih =>
    have here : gone + ↑(leaving.map pointer) + next.queued.map pointer =
        Multiset.range next.pushed := by
      have conserved := congrArg (Multiset.map pointer) first.conserves
      rw [map_add, map_add, map_coe] at conserved
      rw [Multiset.add_assoc, conserved, first.pushed_eq, ← Multiset.add_assoc,
        Multiset.add_comm gone, Multiset.add_assoc, all]
      cases operation with
      | push element priority =>
        exact (singleton_add _ _).trans (range_succ _).symm
      | _ => exact Multiset.zero_add _
    have final := ih here
    rw [map_append, ← coe_add]
    rwa [Multiset.add_assoc, ← Multiset.add_assoc] at final ⊢

/-- Whatever is called, the results are those of the multiset. -/
theorem execute_refines (preorder : IsTotalPreorder compareTo) (models : Represents compareTo s bag)
    (callable : Callable bag.pushed operations) :
    ∃ results t left last, execute compareTo s operations = some (results, t) ∧
      Effects compareTo bag operations results left last ∧ Represents compareTo t last := by
  induction operations generalizing s bag with
  | nil => exact ⟨[], s, [], bag, rfl, .nil, models⟩
  | cons operation operations ih =>
    obtain ⟨result, between, leaving, next, stepped, effect, still⟩ :=
      step_refines preorder models callable.1
    obtain ⟨results, t, left, last, ran, effects, final⟩ :=
      ih still (effect.pushed_eq ▸ callable.2)
    exact ⟨result :: results, t, leaving ++ left, last, by simp [execute, stepped, ran],
      .cons effect effects, final⟩

theorem represents_new : Represents compareTo ({} : State K V) {} :=
  ⟨rfl, [], ⟨⟨rfl, rfl, by simp, .nil, by simp, by simp [State.contents]⟩,
    by simp [BinaryHeap.IsHeap, BinaryHeap.Above]⟩, rfl⟩

/-- A new priority queue behaves as an empty multiset. Every element that was pushed is either
still queued or has left the queue, and it has left it once. -/
theorem priorityQueue_refines_multiset (preorder : IsTotalPreorder compareTo)
    (operations : List (Operation K V)) (callable : Callable 0 operations) :
    ∃ results s left last, execute compareTo {} operations = some (results, s) ∧
      Effects compareTo {} operations results left last ∧
      ↑(left.map pointer) + last.queued.map pointer = Multiset.range last.pushed := by
  obtain ⟨results, s, left, last, ran, effects, -⟩ :=
    execute_refines preorder represents_new callable
  refine ⟨results, s, left, last, ran, effects, ?_⟩
  have start : 0 + ({} : Bag K V).queued.map pointer = Multiset.range 0 := rfl
  have all := effects.all_pushed start
  rwa [Multiset.zero_add] at all

/-- A function that is called before and after its element is taken. -/
theorem priorityQueue_refines_multiset_of_two :
    ∃ results s left last,
      execute (fun a b : Int => a - b) {} [.push "b" 2, .push "a" 1, .remove 0, .pop, .remove 1] =
        some (results, s) ∧
      Effects (fun a b : Int => a - b) {}
        [.push "b" 2, .push "a" 1, .remove 0, .pop, .remove 1] results left last ∧
      ↑(left.map pointer) + last.queued.map pointer = Multiset.range last.pushed :=
  priorityQueue_refines_multiset ⟨fun a b => by omega, fun a b c first second => by omega⟩ _ (by
    simp [Callable, Operation.CallableAt, Operation.pushes])

example : (execute (fun a b : Int => a - b) {}
    [.push "c" 3, .push "b" 2, .push "a" 1, .remove 1, .remove 1, .peek, .popUntil 2, .popAll]).map
      Prod.fst =
    some [.done, .done, .done, .done, .done, .element (some "a"), .elements ["a"],
      .elements ["c"]] := by decide

end HiveGo.PriorityQueue
