import HiveGo.SingleMap

/-! The realms of the in-memory store are views of one key space, and two realms of which
neither is a prefix of the other are independent. -/
namespace HiveGo.MapDB
open KVMap SingleMap Prod

/-- The realm of the store or batch that is called. -/
def Call.realm (s : State) : Call → Option Bytes
  | .store index _ => s.stores[index]?
  | .batch index _ => s.batches[index]?.map BatchedMutations.realm

def Call.Closes : Call → Prop
  | .store _ .close => True
  | _ => False

/-- The calls that only look at the entries. -/
def StoreCall.Reads : StoreCall → Prop
  | .get _ | .has _ | .iterate .. | .iterateKeys .. => True
  | _ => False

/-- What a call leaves as it was: the stores that there are, and every key outside of its
realm. -/
structure Frame (realm : Bytes) (s next : State) : Prop where
  closed : next.closed = s.closed
  stores : s.stores <+: next.stores
  outside : ∀ key, ¬ realm <+: key → next.m.get key = s.m.get key

theorem Frame.refl (realm : Bytes) (s : State) : Frame realm s s :=
  ⟨rfl, List.prefix_rfl, fun _ _ => rfl⟩

variable {s : State}

/-- A call that only changes keys of its realm. -/
theorem Frame.of_get (out : ∀ key, ¬ realm <+: key → m.get key = s.m.get key) :
    Frame realm s { s with m } :=
  ⟨rfl, List.prefix_rfl, out⟩

theorem frame_onStore (keepsOpen : ¬ (Call.store index call).Closes) :
    Frame realm s (onStore s realm call).1 := by
  have inRealm : ∀ {key other : Bytes}, ¬ realm <+: key → realm ++ other ≠ key := by
    rintro _ other out rfl
    exact out ⟨other, rfl⟩
  unfold onStore
  split
  · cases call <;> exact .refl realm s
  · cases call with
    | withRealm other | withExtendedRealm other =>
      exact ⟨rfl, List.prefix_append .., fun _ _ => rfl⟩
    | iterate | iterateKeys | has | flush => exact .refl realm s
    | get key =>
      simp only [onOpen]
      split <;> exact .refl realm s
    | clear =>
      refine .of_get fun key out => ?_
      rw [get_deletePrefix, if_neg out]
    | set key value =>
      refine .of_get fun other out => ?_
      rw [get_set, if_neg (inRealm out)]
    | delete key =>
      refine .of_get fun other out => ?_
      rw [get_delete, if_neg (inRealm out)]
    | deletePrefix keyPrefix =>
      refine .of_get fun other out => ?_
      rw [get_deletePrefix, if_neg]
      exact fun mem => out ((List.prefix_append realm keyPrefix).trans mem)
    | close => exact absurd trivial keepsOpen
    | batched => exact ⟨rfl, List.prefix_rfl, fun _ _ => rfl⟩

theorem frame_onBatch (ran : onBatch s index b call = some (next, result)) :
    Frame b.realm s next := by
  cases call with
  | set key value | delete key | cancel =>
    cases ran
    exact ⟨rfl, List.prefix_rfl, fun _ _ => rfl⟩
  | commit sets deletes =>
    simp only [onBatch] at ran
    split at ran
    · cases ran
      exact .refl b.realm s
    · split at ran
      · next order =>
        cases ran
        have nodup :=
          (order.1.map fst).nodup_iff.mpr b.setOperations.distinct
        exact .of_get fun key out => get_commit_outside nodup out
      · cases ran

theorem frame_step (ran : step s call = some (next, result))
    (through : call.realm s = some realm) (keepsOpen : ¬ call.Closes) : Frame realm s next := by
  cases call with
  | store index call =>
    rw [step, show s.stores[index]? = some realm from through] at ran
    have after : next = (onStore s realm call).1 :=
      congrArg fst (Option.some.inj ran).symm
    rw [after]
    exact frame_onStore keepsOpen
  | batch index call =>
    obtain ⟨b, found, rfl⟩ := Option.map_eq_some_iff.mp through
    rw [step, found] at ran
    exact frame_onBatch ran

/-- A read through a realm depends on the keys of that realm only. -/
theorem read_congr {read : StoreCall} (reads : read.Reads)
    (closed : t.closed = s.closed) (same : ∀ key, realm <+: key → t.m.get key = s.m.get key) :
    (onStore t realm read).2 = (onStore s realm read).2 := by
  unfold onStore
  rw [closed]
  have within : ∀ keyPrefix key, realm ++ keyPrefix <+: key → t.m.get key = s.m.get key :=
    fun keyPrefix key inside => same key ((List.prefix_append realm keyPrefix).trans inside)
  split
  · cases read <;> rfl
  · cases read with
    | get key =>
      simp only [onOpen]
      rw [same _ (List.prefix_append realm key)]
      cases s.m.get (realm ++ key) <;> rfl
    | has key =>
      simp only [onOpen, has]
      rw [same _ (List.prefix_append realm key)]
    | iterate keyPrefix consumerFunc direction =>
      simp only [onOpen, iterate, sortedKeys_congr (within keyPrefix)]
      congr 2
      refine List.map_congr_left fun key mem => ?_
      have inside := (mem_sortedKeys.mp mem).1
      rw [get_filter, get_filter, within keyPrefix key inside]
    | iterateKeys keyPrefix consumerFunc direction =>
      simp [onOpen, iterateKeys, sortedKeys_congr (within keyPrefix)]
    | _ => exact absurd reads id

/-- Whatever is called on stores and batches that were made from one store, the answers are those
of one map whose keys start with the realms, and a call does not change what is read through a
realm apart from its own. -/
theorem realms_are_views {calls : List Call} {results : List Result} {last : State}
    (performed : perform newMapDB calls = some (last, results)) :
    (∃ after, SingleMap.Performs new calls results after ∧
        SingleMap.Refines last after) ∧
      ∀ {call : Call} {next : State} {result : Result} {realm other : Bytes} {reader : Nat}
        {read : StoreCall}, step last call = some (next, result) → call.realm last = some realm →
        ¬ call.Closes → last.stores[reader]? = some other → read.Reads →
        ¬ realm <+: other ∧ ¬ other <+: realm →
        (step next (.store reader read)).map snd = (step last (.store reader read)).map snd := by
  refine ⟨perform_refines refines_new performed, ?_⟩
  intro call next result realm other reader read ran through keepsOpen reading reads apart
  have frame := frame_step ran through keepsOpen
  have kept : next.stores[reader]? = some other := by
    obtain ⟨more, stores⟩ := frame.stores
    rw [← stores, List.getElem?_append_left (List.getElem?_eq_some_iff.mp reading).1, reading]
  rw [step, step, reading, kept]
  refine congrArg some (read_congr reads frame.closed fun key mem => frame.outside key ?_)
  intro alsoInside
  exact (List.prefix_or_prefix_of_prefix alsoInside mem).elim apart.1 apart.2

/-- A store with the realms `1`, `2` and `1 5`, and a batch for the realm `1`. -/
def threeRealms : List Call :=
  [.store 0 (.withRealm [1]), .store 0 (.withRealm [2]), .store 1 (.withExtendedRealm [5]),
    .store 2 (.set [7] [70]), .store 3 (.set [8] [80]), .store 1 .batched,
    .batch 0 (.set [9] [90]), .batch 0 (.set [5, 8] [81]), .batch 0 (.delete [9]),
    .batch 0 (.commit [([5, 8], [81])] [[9]]),
    .store 3 (.get [8]), .store 1 (.has [9]),
    .store 0 (.iterate [] (fun _ => true) .backward),
    .store 1 (.iterateKeys [] (fun _ => true) .forward)]

def afterThreeRealms : State × List Result :=
  (perform newMapDB threeRealms).getD (newMapDB, [])

theorem threeRealms_are_views :
    perform newMapDB threeRealms = some (afterThreeRealms.1, afterThreeRealms.2) ∧
      afterThreeRealms.2.drop 10 =
        [.value [81], .has false, .pairs [([2, 7], [70]), ([1, 5, 8], [81])], .keys [[5, 8]]] ∧
      (∃ after, SingleMap.Performs new threeRealms afterThreeRealms.2 after) ∧
      (step (onStore afterThreeRealms.1 [1] .clear).1 (.store 2 (.get [7]))).map snd =
        (step afterThreeRealms.1 (.store 2 (.get [7]))).map snd := by
  have done : perform newMapDB threeRealms = some (afterThreeRealms.1, afterThreeRealms.2) := rfl
  obtain ⟨⟨after, performs, -⟩, unchanged⟩ := realms_are_views done
  refine ⟨done, by decide, ⟨after, performs⟩, ?_⟩
  have cleared : step afterThreeRealms.1 (.store 1 .clear) =
      some ((onStore afterThreeRealms.1 [1] .clear).1, .done) := rfl
  have throughOne : Call.realm afterThreeRealms.1 (.store 1 .clear) = some [1] := rfl
  have throughTwo : afterThreeRealms.1.stores[2]? = some [2] := rfl
  exact unchanged cleared throughOne id throughTwo trivial (by decide)

end HiveGo.MapDB
