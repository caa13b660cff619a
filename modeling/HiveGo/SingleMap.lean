import HiveGo.MapDB
import Mathlib.Data.List.Induction

/-! What the in-memory store is for: one map from keys to values, seen through realms. The
abstract store is a function and a batch the list of its calls; the in-memory store, with the two
maps of its batches, refines it. -/
namespace HiveGo

/-! One map, and what the calls mean for it. -/
namespace SingleMap
open MapDB KVMap List Function OrderedSet OrderedMap

/-- A call on a batch, to be executed later. -/
inductive Mutation where
  | set (key value : Bytes)
  | delete (key : Bytes)

def Mutation.apply (realm : Bytes) (content : Bytes → Option Bytes) : Mutation → Bytes → Option Bytes
  | .set key value => update content (realm ++ key) (some value)
  | .delete key => update content (realm ++ key) none

structure State where
  content : Bytes → Option Bytes
  closed : Bool
  stores : List Bytes
  batches : List (Bytes × List Mutation)

def new : State := { content := fun _ => none, closed := false, stores := [[]], batches := [] }

/-- The entries under a realm and a prefix, without the realm and in order. -/
structure Lists (content : Bytes → Option Bytes) (realm keyPrefix : Bytes)
    (direction : IterDirection) (items : List (Bytes × Bytes)) : Prop where
  ordered : (items.map Prod.fst).Pairwise direction.Before
  mem : ∀ key value, (key, value) ∈ items ↔ keyPrefix <+: key ∧ content (realm ++ key) = some value

/-- The key space without the keys that have the prefix. -/
def without (content : Bytes → Option Bytes) (keyPrefix : Bytes) : Bytes → Option Bytes :=
  fun key => if keyPrefix <+: key then none else content key

/-- What a call on a store does to the key space. -/
def afterStore (s : State) (realm : Bytes) : StoreCall → State
  | .withRealm other => { s with stores := s.stores ++ [other] }
  | .withExtendedRealm extension => { s with stores := s.stores ++ [realm ++ extension] }
  | .clear => { s with content := without s.content realm }
  | .set key value => { s with content := update s.content (realm ++ key) (some value) }
  | .delete key => { s with content := update s.content (realm ++ key) none }
  | .deletePrefix keyPrefix => { s with content := without s.content (realm ++ keyPrefix) }
  | .close => { s with closed := true }
  | .batched => { s with batches := s.batches ++ [(realm, [])] }
  | .iterate .. | .iterateKeys .. | .get _ | .has _ | .flush => s

/-- What a call on a store may answer. -/
def AnswersStore (s : State) (realm : Bytes) : StoreCall → Result → Prop
  | .iterate keyPrefix consumerFunc direction, result =>
    ∃ items, Lists s.content realm keyPrefix direction items ∧
      result = .pairs (deliver consumerFunc [] items)
  | .iterateKeys keyPrefix consumerFunc direction, result =>
    ∃ items, Lists s.content realm keyPrefix direction items ∧
      result = .keys (deliver consumerFunc [] (items.map Prod.fst))
  | .get key, result =>
    match s.content (realm ++ key) with
    | none => result = .error .errKeyNotFound
    | some value => result = .value value
  | .has key, result => result = .has (s.content (realm ++ key)).isSome
  | _, result => result = .done

/-- A batch remembers its calls, and a commit executes them in their order. -/
def afterBatch (s : State) (index : Nat) (realm : Bytes) (mutations : List Mutation) :
    BatchCall → State
  | .set key value =>
    { s with batches := s.batches.set index (realm, mutations ++ [.set key value]) }
  | .delete key => { s with batches := s.batches.set index (realm, mutations ++ [.delete key]) }
  | .cancel => { s with batches := s.batches.set index (realm, []) }
  | .commit _ _ =>
    if s.closed then s
    else { s with content := mutations.foldl (Mutation.apply realm) s.content }

/-- What a call on a batch answers. -/
def answerBatch (s : State) : BatchCall → Result
  | .commit _ _ => if s.closed then .error .errStoreClosed else .done
  | _ => .done

/-- One call on the abstract store with its result. A closed store only answers that it is
closed. -/
def Step (s : State) : Call → Result → State → Prop
  | .store index call, result, next =>
    ∃ realm, s.stores[index]? = some realm ∧
      if s.closed then
        next = s ∧ result = match call with | .close => .done | _ => .error .errStoreClosed
      else next = afterStore s realm call ∧ AnswersStore s realm call result
  | .batch index call, result, next =>
    ∃ realm mutations, s.batches[index]? = some (realm, mutations) ∧
      next = afterBatch s index realm mutations call ∧ result = answerBatch s call

/-- A sequence of calls with their results. -/
inductive Performs : State → List Call → List Result → State → Prop
  | nil (s : State) : Performs s [] [] s
  | cons {s next last : State} {call : Call} {calls : List Call} {result : Result}
    {results : List Result} (first : Step s call result next)
    (rest : Performs next calls results last) :
    Performs s (call :: calls) (result :: results) last

/-- What the calls of a batch leave at a key, if there is one for it. -/
def outcome (mutations : List Mutation) (key : Bytes) : Option (Option Bytes) :=
  mutations.foldl (fun last mutation =>
    match mutation with
    | .set other value => if other = key then some (some value) else last
    | .delete other => if other = key then some none else last) none

/-- The listing of a map is the listing of its content. -/
theorem lists_sortedKeys (m : KVMap) (realm keyPrefix : Bytes) (direction : IterDirection) :
    Lists m.get realm keyPrefix direction
      ((m.sortedKeys (realm ++ keyPrefix) direction).map fun key =>
        (key.drop realm.length,
          ((m.filter fun key => (realm ++ keyPrefix).isPrefixOf key).get key).getD [])) := by
  have inside : ∀ key ∈ m.sortedKeys (realm ++ keyPrefix) direction,
      ∃ rest, key = realm ++ (keyPrefix ++ rest) := by
    intro key mem
    obtain ⟨⟨rest, rfl⟩, -⟩ := mem_sortedKeys.mp mem
    exact ⟨rest, append_assoc ..⟩
  refine ⟨?_, fun key value => ?_⟩
  · rw [map_map, pairwise_map]
    refine (m.ordered_sortedKeys _ direction).imp_of_mem fun {left right} first second before => ?_
    obtain ⟨left, rfl⟩ := inside left first
    obtain ⟨right, rfl⟩ := inside right second
    simpa using IterDirection.before_append.mp before
  · rw [mem_map]
    constructor
    · rintro ⟨full, mem, same⟩
      obtain ⟨⟨rest, rfl⟩, held⟩ := mem_sortedKeys.mp mem
      obtain ⟨found, content⟩ := Option.ne_none_iff_exists'.mp held
      rw [append_assoc] at content
      simp [content] at same
      obtain ⟨rfl, rfl⟩ := same
      exact ⟨⟨rest, rfl⟩, content⟩
    · rintro ⟨⟨rest, rfl⟩, content⟩
      refine ⟨realm ++ (keyPrefix ++ rest), mem_sortedKeys.mpr ⟨?_, by simp [content]⟩, ?_⟩
      · exact ⟨rest, append_assoc ..⟩
      · simp [content]

theorem outcome_concat :
    outcome (mutations ++ [mutation]) key =
      match mutation with
      | .set other value => if other = key then some (some value) else outcome mutations key
      | .delete other => if other = key then some none else outcome mutations key := by
  rw [outcome, foldl_append]
  rfl

/-- Executing the calls of a batch leaves their outcome, and nothing else changes. -/
theorem apply_all :
    (∀ key, mutations.foldl (Mutation.apply realm) content (realm ++ key) =
        (outcome mutations key).getD (content (realm ++ key))) ∧
      ∀ key, ¬ realm <+: key → mutations.foldl (Mutation.apply realm) content key = content key := by
  induction mutations using reverseRecOn with
  | nil => exact ⟨fun _ => rfl, fun _ _ => rfl⟩
  | append_singleton mutations mutation ih =>
    obtain ⟨mem, out⟩ := ih
    refine ⟨fun key => ?_, fun key other => ?_⟩
    · rw [foldl_append, outcome_concat]
      cases mutation with
      | set changed value =>
        by_cases same : changed = key
        · simp [Mutation.apply, same]
        · simp [Mutation.apply, same, mem, Ne.symm same]
      | delete changed =>
        by_cases same : changed = key
        · simp [Mutation.apply, same]
        · simp [Mutation.apply, same, mem, Ne.symm same]
    · have apart : ∀ changed, key ≠ realm ++ changed := by
        rintro changed rfl
        exact other ⟨changed, rfl⟩
      cases mutation <;> simp [Mutation.apply, apart, out key other]

/-- The operations of a batch are the last ones for their keys. -/
structure Represents (b : BatchedMutations) (batch : Bytes × List Mutation) : Prop where
  realm : b.realm = batch.1
  disjoint : ∀ key ∈ b.deleteOperations, b.setOperations.get key = none
  outcome : ∀ key, outcome batch.2 key =
    if key ∈ b.deleteOperations then some none else (b.setOperations.get key).map some

theorem represents_empty : Represents { realm } (realm, []) :=
  ⟨rfl, fun key mem => absurd mem (not_mem_empty key), fun key => by
    simp [SingleMap.outcome]⟩

variable {realm : Bytes}

theorem Represents.set (models : Represents b (realm, mutations)) (key value : Bytes) :
    Represents (b.set key value) (realm, mutations ++ [.set key value]) := by
  refine ⟨models.realm, fun other mem => ?_, fun other => ?_⟩
  · obtain ⟨apart, held⟩ := mem_erase.mp mem
    rw [BatchedMutations.set, get_set, if_neg (Ne.symm apart)]
    exact models.disjoint other held
  · rw [outcome_concat]
    simp only [BatchedMutations.set, mem_erase, get_set, models.outcome other]
    by_cases same : key = other
    · simp [same]
    · simp [same, Ne.symm same]

theorem Represents.delete (models : Represents b (realm, mutations)) (key : Bytes) :
    Represents (b.delete key) (realm, mutations ++ [.delete key]) := by
  refine ⟨models.realm, fun other mem => ?_, fun other => ?_⟩
  · rw [BatchedMutations.delete, get_delete]
    by_cases same : key = other
    · rw [if_pos same]
    · rw [if_neg same]
      refine models.disjoint other ?_
      exact (mem_insert.mp mem).resolve_right (Ne.symm same)
  · rw [outcome_concat]
    simp only [BatchedMutations.delete, mem_insert, get_delete, models.outcome other]
    by_cases same : key = other
    · simp [same]
    · simp [same, Ne.symm same]

/-- The set operations of a batch, in any order. -/
theorem get_sets (nodup : OrderedMap.Distinct sets) (m : KVMap) :
    (∀ key, (sets.foldl (fun m entry => m.set (realm ++ entry.1) entry.2) m).get (realm ++ key) =
        (get key sets).or (m.get (realm ++ key))) ∧
      ∀ key, ¬ realm <+: key →
        (sets.foldl (fun m entry => m.set (realm ++ entry.1) entry.2) m).get key = m.get key := by
  induction sets generalizing m with
  | nil => exact ⟨fun _ => rfl, fun _ _ => rfl⟩
  | cons entry sets ih =>
    obtain ⟨fresh, nodup⟩ := nodup_cons.mp nodup
    obtain ⟨mem, out⟩ := ih nodup (m.set (realm ++ entry.1) entry.2)
    refine ⟨fun key => ?_, fun key other => ?_⟩
    · rw [foldl_cons, mem, get_set, OrderedMap.get]
      by_cases same : entry.1 = key
      · rw [same] at fresh
        rw [OrderedMap.get_eq_none.mpr fresh]
        simp [same]
      · simp [same]
    · rw [foldl_cons, out key other, get_set, if_neg]
      rintro rfl
      exact other ⟨entry.1, rfl⟩

theorem get_deletes (deletes : List Bytes) (m : KVMap) :
    (∀ key, (deletes.foldl (fun m key => m.delete (realm ++ key)) m).get (realm ++ key) =
        if key ∈ deletes then none else m.get (realm ++ key)) ∧
      ∀ key, ¬ realm <+: key →
        (deletes.foldl (fun m key => m.delete (realm ++ key)) m).get key = m.get key := by
  induction deletes generalizing m with
  | nil => exact ⟨fun _ => rfl, fun _ _ => rfl⟩
  | cons deleted deletes ih =>
    obtain ⟨mem, out⟩ := ih (m.delete (realm ++ deleted))
    refine ⟨fun key => ?_, fun key other => ?_⟩
    · rw [foldl_cons, mem, get_delete]
      by_cases same : deleted = key
      · simp [same]
      · simp [same, Ne.symm same]
    · rw [foldl_cons, out key other, get_delete, if_neg]
      rintro rfl
      exact other ⟨deleted, rfl⟩

/-- A commit changes nothing outside of the realm of its batch. -/
theorem get_commit_outside (nodup : OrderedMap.Distinct sets) (out : ¬ realm <+: key) :
    (commit realm sets deletes m).get key = m.get key :=
  ((get_deletes deletes _).2 key out).trans ((get_sets nodup m).2 key out)

/-- A commit, in whichever order the maps are traversed, executes the calls of the batch. -/
theorem get_commit (models : Represents b (realm, mutations))
    (sameSets : sets.Perm b.setOperations.entries)
    (sameDeletes : deletes.Perm b.deleteOperations.elems) :
    (commit b.realm sets deletes m).get = mutations.foldl (Mutation.apply realm) m.get := by
  have nodup :=
    (sameSets.map Prod.fst).nodup_iff.mpr b.setOperations.distinct
  have realms := models.realm
  obtain ⟨applied, untouched⟩ := apply_all
  funext full
  by_cases mem : realm <+: full
  · obtain ⟨key, rfl⟩ := mem
    have found : get key sets = b.setOperations.get key :=
      get_perm sameSets nodup
    have deleted : key ∈ deletes ↔ key ∈ b.deleteOperations := sameDeletes.mem_iff
    rw [applied, models.outcome, realms, commit, (get_deletes deletes _).1,
      (get_sets nodup m).1, found]
    simp only [deleted]
    split
    · rfl
    · cases b.setOperations.get key <;> rfl
  · rw [realms, get_commit_outside nodup mem, untouched full mem]

/-- The in-memory store holds what the abstract store holds. -/
structure Refines (s : MapDB.State) (a : State) : Prop where
  content : s.m.get = a.content
  closed : s.closed = a.closed
  stores : s.stores = a.stores
  batches : List.Forall₂ Represents s.batches a.batches

theorem refines_new : Refines newMapDB new := ⟨rfl, rfl, rfl, .nil⟩

theorem refines_onOpen (refines : Refines s a) :
    Refines (onOpen s realm call).1 (afterStore a realm call) ∧
      AnswersStore a realm call (onOpen s realm call).2 := by
  obtain ⟨content, closed, stores, batches⟩ := refines
  cases call with
  | withRealm other => exact ⟨⟨content, closed, congrArg (· ++ _) stores, batches⟩, rfl⟩
  | withExtendedRealm extension => exact ⟨⟨content, closed, congrArg (· ++ _) stores, batches⟩, rfl⟩
  | iterate keyPrefix consumerFunc direction =>
    have lists := lists_sortedKeys s.m realm keyPrefix direction
    rw [content] at lists
    exact ⟨⟨content, closed, stores, batches⟩, _, lists, rfl⟩
  | iterateKeys keyPrefix consumerFunc direction =>
    have lists := lists_sortedKeys s.m realm keyPrefix direction
    rw [content] at lists
    refine ⟨⟨content, closed, stores, batches⟩, _, lists, ?_⟩
    rw [map_map]
    rfl
  | clear =>
    refine ⟨⟨?_, closed, stores, batches⟩, rfl⟩
    funext key
    rw [onOpen, get_deletePrefix, content]
    rfl
  | get key =>
    simp only [onOpen, AnswersStore, ← content]
    cases s.m.get (realm ++ key) <;> exact ⟨⟨content, closed, stores, batches⟩, rfl⟩
  | set key value =>
    refine ⟨⟨?_, closed, stores, batches⟩, rfl⟩
    funext other
    rw [onOpen, get_set, content]
    simp [afterStore, update_apply, eq_comm]
  | has key =>
    refine ⟨⟨content, closed, stores, batches⟩, ?_⟩
    simp [AnswersStore, onOpen, has, content]
  | delete key =>
    refine ⟨⟨?_, closed, stores, batches⟩, rfl⟩
    funext other
    rw [onOpen, get_delete, content]
    simp [afterStore, update_apply, eq_comm]
  | deletePrefix keyPrefix =>
    refine ⟨⟨?_, closed, stores, batches⟩, rfl⟩
    funext key
    rw [onOpen, get_deletePrefix, content]
    rfl
  | flush => exact ⟨⟨content, closed, stores, batches⟩, rfl⟩
  | close => exact ⟨⟨content, rfl, stores, batches⟩, rfl⟩
  | batched =>
    refine ⟨⟨content, closed, stores, ?_⟩, rfl⟩
    exact rel_append batches (.cons represents_empty .nil)

section

variable {R : α → β → Prop} {xs : List α} {ys : List β} (rel : List.Forall₂ R xs ys)
include rel

private theorem forall₂_found {index : Nat} {x : α} (found : xs[index]? = some x) :
    ∃ y, ys[index]? = some y ∧ R x y := by
  induction rel generalizing index with
  | nil => cases found
  | cons first rest ih =>
    cases index with
    | zero =>
      cases found
      exact ⟨_, rfl, first⟩
    | succ index => exact ih found

private theorem forall₂_set (index : Nat) {x : α} {y : β} (here : R x y) :
    List.Forall₂ R (xs.set index x) (ys.set index y) := by
  induction rel generalizing index with
  | nil => exact .nil
  | cons first rest ih =>
    cases index with
    | zero => exact .cons here rest
    | succ index => exact .cons first (ih index)

end

theorem refines_onBatch {next : MapDB.State} {index : Nat} {call : BatchCall} {result : Result}
    (refines : Refines s a) (found : s.batches[index]? = some b)
    (ran : onBatch s index b call = some (next, result)) :
    ∃ realm mutations, a.batches[index]? = some (realm, mutations) ∧
      Refines next (afterBatch a index realm mutations call) ∧ result = answerBatch a call := by
  obtain ⟨content, closed, stores, batches⟩ := refines
  obtain ⟨⟨realm, mutations⟩, mem, models⟩ := forall₂_found batches found
  refine ⟨realm, mutations, mem, ?_⟩
  cases call with
  | set key value =>
    cases ran
    exact ⟨⟨content, closed, stores, forall₂_set batches index (models.set key value)⟩, rfl⟩
  | delete key =>
    cases ran
    exact ⟨⟨content, closed, stores, forall₂_set batches index (models.delete key)⟩, rfl⟩
  | cancel =>
    cases ran
    have same := models.realm
    have emptied : Represents { realm := b.realm } (realm, []) := same ▸ represents_empty
    exact ⟨⟨content, closed, stores, forall₂_set batches index emptied⟩, rfl⟩
  | commit sets deletes =>
    simp only [onBatch] at ran
    rw [afterBatch, answerBatch, ← closed]
    split at ran
    · next shut =>
      cases ran
      rw [if_pos shut, if_pos shut]
      exact ⟨⟨content, closed, stores, batches⟩, rfl⟩
    · next opened =>
      split at ran
      · next order =>
        cases ran
        rw [if_neg opened, if_neg opened]
        refine ⟨⟨?_, rfl, stores, batches⟩, rfl⟩
        rw [get_commit models order.1 order.2, content]
      · cases ran

/-- One call on the in-memory store is one call on the abstract store. -/
theorem step_refines {next : MapDB.State} (refines : Refines s a)
    (ran : MapDB.step s call = some (next, result)) :
    ∃ after, Step a call result after ∧ Refines next after := by
  cases call with
  | store index call =>
    obtain ⟨realm, found, ran⟩ := Option.map_eq_some_iff.mp ran
    have mem := refines.stores ▸ found
    unfold onStore at ran
    split at ran
    · next shut =>
      have closed := refines.closed ▸ shut
      refine ⟨a, ⟨realm, mem, ?_⟩, ?_⟩
      · rw [if_pos closed]
        cases call <;> cases ran <;> exact ⟨rfl, rfl⟩
      · cases call <;> cases ran <;> exact refines
    · next opened =>
      have closed := refines.closed ▸ opened
      obtain ⟨after, answers⟩ := refines_onOpen refines
      rw [ran] at after answers
      refine ⟨afterStore a realm call, ⟨realm, mem, ?_⟩, after⟩
      rw [if_neg closed]
      exact ⟨rfl, answers⟩
  | batch index call =>
    obtain ⟨b, found, ran⟩ := Option.bind_eq_some_iff.mp ran
    obtain ⟨realm, mutations, mem, after, answer⟩ := refines_onBatch refines found ran
    exact ⟨_, ⟨realm, mutations, mem, rfl, answer⟩, after⟩

theorem perform_refines (refines : Refines s a)
    (done : MapDB.perform s calls = some (last, results)) :
    ∃ after, Performs a calls results after ∧ Refines last after := by
  induction calls generalizing s a results with
  | nil =>
    cases done
    exact ⟨a, .nil a, refines⟩
  | cons call calls ih =>
    obtain ⟨⟨next, result⟩, ran, remaining⟩ := Option.bind_eq_some_iff.mp done
    obtain ⟨⟨final, rest⟩, continued, same⟩ := Option.bind_eq_some_iff.mp remaining
    cases same
    obtain ⟨middle, first, kept⟩ := step_refines refines ran
    obtain ⟨after, others, reached⟩ := ih kept continued
    exact ⟨after, .cons first others, reached⟩

end SingleMap

end HiveGo
