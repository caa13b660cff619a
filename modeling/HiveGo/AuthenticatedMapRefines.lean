import HiveGo.AuthenticatedMapSpec

/-! One authenticated map is a finite map: the trie, the raw keys and the counter are three
views of the same content, and every call answers as the content does. -/
namespace HiveGo.AuthenticatedMap

variable {I K V : Type} [DecidableEq K]

section

variable {trie : Trie I} {Holds : Nodes → trie.Tree → (Bytes → Option Bytes) → Prop}
  {codecs : Codecs I K V} {s : State trie} {m : ShrinkingMap K V}

/-- All three parts belong to the same content. -/
structure Represents (Holds : Nodes → trie.Tree → (Bytes → Option Bytes) → Prop)
    (codecs : Codecs I K V) (s : State trie) (m : ShrinkingMap K V) : Prop where
  tree : TreeHolds Holds codecs s m
  raw : RawHolds codecs s.store m
  count : Counts s m.size

/-- The content after a call. -/
def apply (m : ShrinkingMap K V) : Call K V → ShrinkingMap K V
  | .set key value => m.set key value
  | .delete key => m.delete key
  | .get _ | .has _ | .size | .commit | .stream _ => m

/-- The result is that of a finite map. A stream hands out the entries in some order, each
of them once, until its callback fails. -/
def Answers (m : ShrinkingMap K V) : Call K V → Result K V → Prop
  | .set _ _, result => result = .done
  | .delete key, result => result = .flag (m.has key)
  | .get key, result => result = .value (m.get key)
  | .has key, result => result = .flag (m.has key)
  | .size, result => result = .size (Int64.ofNat m.size)
  | .commit, result => result = .done
  | .stream callback, result => ∃ order text, order.Perm m.entries ∧
      result = .visited (traverse callback text [] order).1 (traverse callback text [] order).2

/-- The results of a sequence of calls are those of a finite map. -/
def Replies : ShrinkingMap K V → List (Call K V) → List (Result K V) → Prop
  | _, [], results => results = []
  | m, call :: calls, results =>
    ∃ result rest, results = result :: rest ∧ Answers m call result ∧ Replies (apply m call) calls rest

theorem RawHolds.set (raw : RawHolds codecs store m) (value : V)
    (changed : ∀ b, next.get (prefixRawKeysStorage :: b) =
      if codecs.keyBytes key = b then some [] else store.get (prefixRawKeysStorage :: b)) :
    RawHolds codecs next (m.set key value) := by
  intro b
  rw [changed b]
  split
  · rename_i same
    exact iff_of_true (by simp) ⟨key, same, by simp⟩
  · rename_i other
    rw [raw b]
    refine exists_congr fun another => and_congr_right fun spelt => ?_
    have apart : key ≠ another := by
      rintro rfl
      exact other spelt
    rw [ShrinkingMap.get_set_of_ne m apart]

theorem RawHolds.delete (faithful : codecs.Faithful) (raw : RawHolds codecs store m)
    (changed : ∀ b, next.get (prefixRawKeysStorage :: b) =
      if m.has key ∧ codecs.keyBytes key = b then none else store.get (prefixRawKeysStorage :: b)) :
    RawHolds codecs next (m.delete key) := by
  intro b
  rw [changed b]
  by_cases same : codecs.keyBytes key = b
  · subst same
    have gone : ¬ ∃ other, codecs.keyBytes other = codecs.keyBytes key ∧ (m.delete key).get other ≠ none := by
      rintro ⟨other, spelt, there⟩
      rw [faithful.keyBytes_inj] at spelt
      subst spelt
      exact there m.get_delete_self
    refine iff_of_false ?_ gone
    split
    · simp
    · rename_i absent
      rw [raw]
      rintro ⟨other, spelt, there⟩
      rw [faithful.keyBytes_inj] at spelt
      subst spelt
      exact absent ⟨Option.isSome_iff_ne_none.mpr there, rfl⟩
  · rw [if_neg fun both => same both.2, raw b]
    refine exists_congr fun other => and_congr_right fun spelt => ?_
    have apart : key ≠ other := by
      rintro rfl
      exact same spelt
    rw [m.get_delete_of_ne apart]

/-- A read changes the tree in memory only. -/
theorem Represents.withTree (represents : Represents Holds codecs s m) {tree : trie.Tree}
    (kept : TreeHolds Holds codecs { s with tree } m) : Represents Holds codecs { s with tree } m :=
  ⟨kept, represents.raw, represents.count.of_store rfl rfl⟩

variable (lawful : trie.Lawful Holds) (faithful : codecs.Faithful)
  (represents : Represents Holds codecs s m)
include lawful faithful represents

theorem Represents.set (key : K) (value : V) :
    ∃ next, AuthenticatedMap.set codecs key value s = .ok () next ∧
      Represents Holds codecs next (m.set key value) := by
  obtain ⟨next, ran, tree, count, -, changed⟩ :=
    set_spec lawful faithful represents.tree represents.count key value
  exact ⟨next, ran, tree, represents.raw.set value changed, by rwa [m.size_set]⟩

theorem Represents.delete (key : K) :
    ∃ next, AuthenticatedMap.delete codecs key s = .ok (m.has key) next ∧
      Represents Holds codecs next (m.delete key) := by
  obtain ⟨next, ran, tree, count, -, changed⟩ :=
    delete_spec lawful faithful represents.tree represents.count key
  exact ⟨next, ran, tree, represents.raw.delete faithful changed, by rwa [m.size_delete]⟩

theorem Represents.stream (callback : List (K × V) → Option KVError) :
    ∃ tree order, order.Perm m.entries ∧ Represents Holds codecs { s with tree } m ∧
      AuthenticatedMap.stream codecs callback s =
        ({ s with tree }, traverse callback (callbackText codecs) [] order) := by
  obtain ⟨order, perm, listed⟩ := represents.raw.order faithful
  have present : ∀ entry ∈ order, m.get entry.1 = some entry.2 :=
    fun entry mem => ShrinkingMap.mem_entries.mp (perm.mem_iff.mp mem)
  obtain ⟨tree, ran, kept⟩ := streamFrom_spec lawful faithful represents.tree [] present
  refine ⟨tree, order, perm, represents.withTree kept, ?_⟩
  rw [AuthenticatedMap.stream, listed, ran]

/-- One call. -/
theorem step_represents :
    Represents Holds codecs (step codecs s call).1 (apply m call) ∧
      Answers m call (step codecs s call).2 := by
  cases call with
  | set key value =>
    obtain ⟨next, ran, kept⟩ := represents.set lawful faithful key value
    rw [step, Action.result, ran]
    exact ⟨kept, rfl⟩
  | delete key =>
    obtain ⟨next, ran, kept⟩ := represents.delete lawful faithful key
    rw [step, Action.result, ran]
    exact ⟨kept, rfl⟩
  | get key =>
    obtain ⟨tree, ran, kept⟩ := get_spec lawful faithful represents.tree
    rw [step, Action.result, ran]
    exact ⟨represents.withTree kept, rfl⟩
  | has key =>
    obtain ⟨tree, ran, kept⟩ := has_spec lawful faithful represents.tree
    rw [step, Action.result, ran]
    exact ⟨represents.withTree kept, rfl⟩
  | size =>
    obtain ⟨cache, ran, counts⟩ := represents.count.size
    rw [step, ran]
    refine ⟨⟨represents.tree.of_nodes rfl rfl, represents.raw, counts⟩, ?_⟩
    exact congrArg Result.size Int64.ofInt_eq_ofNat
  | commit =>
    obtain ⟨next, writes, b, ran, tree, counts, raw, -⟩ :=
      commit_spec lawful faithful represents.tree represents.count
    rw [step, Action.result, ran]
    refine ⟨⟨tree, fun b => ?_, counts⟩, rfl⟩
    rw [raw b]
    exact represents.raw b
  | stream callback =>
    obtain ⟨tree, order, perm, kept, ran⟩ := represents.stream lawful faithful callback
    rw [step, ran]
    exact ⟨kept, order, callbackText codecs, perm, rfl⟩

theorem perform_represents :
    Represents Holds codecs (perform codecs s calls).1 (calls.foldl apply m) ∧
      Replies m calls (perform codecs s calls).2 := by
  induction calls generalizing s m with
  | nil => exact ⟨represents, rfl⟩
  | cons call calls ih =>
    obtain ⟨kept, answered⟩ := step_represents lawful faithful represents
    obtain ⟨last, replied⟩ := ih kept
    exact ⟨last, _, _, rfl, answered, replied⟩

omit represents faithful

variable [Inhabited I]

/-- A map over an empty store is empty. -/
theorem represents_new :
    Represents Holds codecs (newAuthenticatedMap trie codecs .empty) (.new : ShrinkingMap K V) := by
  refine ⟨⟨_, lawful.new, fun _ => rfl⟩, fun b => ?_, TypedValue.agrees_new, .inl ⟨rfl, rfl⟩⟩
  exact iff_of_false (fun there => there rfl) (by rintro ⟨key, -, there⟩; exact there rfl)

omit lawful

omit [DecidableEq K] [Inhabited I] in
/-- A callback that never fails is given all entries. -/
theorem traverse_all (never : ∀ visited, callback visited = none) :
    traverse callback text visited order = (visited ++ order, none) := by
  induction order generalizing visited with
  | nil => simp [traverse]
  | cons entry order ih => simp [traverse, never, ih]

/-- Every sequence of calls on a fresh map has the results of a finite map, and a stream
whose callback does not fail visits the present keys, each once and with its value. -/
theorem authenticatedMap_refines (lawful : trie.Lawful Holds) (faithful : codecs.Faithful)
    (calls : List (Call K V)) :
    Replies .new calls (perform codecs (newAuthenticatedMap trie codecs .empty) calls).2 ∧
      ∀ callback, (∀ visited, callback visited = none) →
        ∃ order, order.Perm (calls.foldl apply .new).entries ∧
          (stream codecs callback (perform codecs (newAuthenticatedMap trie codecs .empty) calls).1).2 =
            (order, none) := by
  obtain ⟨last, replied⟩ := perform_represents lawful faithful (represents_new lawful)
  refine ⟨replied, fun callback never => ?_⟩
  obtain ⟨tree, order, perm, -, ran⟩ := last.stream lawful faithful callback
  refine ⟨order, perm, ?_⟩
  rw [ran, traverse_all never]
  rfl

end

/-- A trie that keeps the changes since the last commit in memory, and the rest as it is. -/
def plainTrie : Trie Unit where
  Tree := List (Bytes × Option Bytes)
  newSparseMerkleTrie := []
  importSparseMerkleTrie _ := []
  root _ := ()
  get nodes tree key := .ok (overwrite nodes tree key, tree)
  update _ tree key value := .ok (tree ++ [(key, some value)])
  delete _ tree key := .ok (tree ++ [(key, none)])
  commit _ tree := .ok ([], tree)

/-- The content of such a trie. -/
def PlainHolds (nodes : Nodes) (tree : plainTrie.Tree) (content : Bytes → Option Bytes) : Prop :=
  content = overwrite nodes tree

theorem overwrite_concat :
    overwrite nodes (writes ++ [(key, node)]) =
      fun other => if key = other then node else overwrite nodes writes other := by
  rw [overwrite, List.foldl_concat]
  rfl

theorem plainTrie_lawful : plainTrie.Lawful PlainHolds where
  new := rfl
  get := by
    rintro nodes tree _ rfl key
    exact ⟨tree, rfl, rfl⟩
  update := by
    rintro nodes tree _ rfl key value
    exact ⟨_, rfl, overwrite_concat.symm⟩
  delete := by
    rintro nodes tree _ rfl key -
    exact ⟨_, rfl, overwrite_concat.symm⟩
  commit := by
    rintro nodes tree _ rfl
    exact ⟨_, _, rfl, rfl⟩

/-- Keys of one byte and values that are byte slices. -/
def plainCodecs : Codecs Unit UInt8 Bytes where
  identifier := { vToBytes := fun _ => .ok [], bytesToV := fun _ => .ok () }
  keyToBytes key := .ok [key]
  bytesToKey
    | key :: _ => .ok (key, 1)
    | [] => .error (.text "no key")
  valueToBytes value := .ok value
  bytesToValue bytes := .ok (bytes, bytes.length)

theorem plainCodecs_faithful : plainCodecs.Faithful where
  key key := ⟨[key], 1, rfl, rfl⟩
  value value := ⟨value, rfl, rfl⟩
  identifier _ := ⟨[], rfl, rfl⟩

/-- An empty value, an overwritten one and a deleted key. -/
def mixedCalls : List (Call UInt8 Bytes) :=
  [.set 1 [], .set 2 [7], .set 1 [5], .delete 3, .delete 2, .commit, .size, .has 2, .get 1]

theorem mixedCalls_refine :
    Replies .new mixedCalls
      (perform plainCodecs (newAuthenticatedMap plainTrie plainCodecs .empty) mixedCalls).2 :=
  (authenticatedMap_refines plainTrie_lawful plainCodecs_faithful mixedCalls).1

end HiveGo.AuthenticatedMap
