import HiveGo.AuthenticatedMapRefines
import HiveGo.Runs

/-! Reopening an authenticated map. The raw keys and the counter are written at once, the trie
with the next commit only. A map that is created again has the trie of the last commit next to the
raw keys and the count of what came after. -/
namespace HiveGo.AuthenticatedMap
open Prod

/-- A stream that ends without an error has visited all raw keys. -/
theorem streamFrom_keys (faithful : codecs.Faithful)
    (ran : streamFrom codecs callback visited (keys.map codecs.keyBytes) s = (last, order, none)) :
    order.map fst = visited.map fst ++ keys := by
  induction keys generalizing visited s with
  | nil =>
    cases ran
    simp
  | cons key keys ih =>
    obtain ⟨consumed, read⟩ := faithful.bytesToKey key
    simp only [List.map_cons, streamFrom, read, faithful.keyToBytes key] at ran
    split at ran
    · cases ran
    · split at ran
      · cases ran
      · split at ran
        · cases ran
        · have rest := ih ran
          rw [rest]
          simp

variable {I K V : Type} [DecidableEq K] [Inhabited I]

/-- A trie that is imported from the root of a commit has the content of that commit. -/
structure Trie.Persistent (trie : Trie I)
    (Holds : Nodes → trie.Tree → (Bytes → Option Bytes) → Prop) : Prop extends trie.Lawful Holds where
  reimport : ∀ {nodes tree content next writes}, Holds nodes tree content →
    trie.commit nodes tree = .ok (next, writes) →
    Holds (overwrite nodes writes) (trie.importSparseMerkleTrie (trie.root tree)) content

/-- What happens to a store and the map over it. -/
inductive Event (K V : Type) where
  | set (key : K) (value : V)
  | delete (key : K)
  | commit
  | reopen

/-- A map with its content since it was opened, and with the content of the last commit. -/
structure History (K V : Type) (trie : Trie I) where
  state : State trie
  current : ShrinkingMap K V := .new
  committed : ShrinkingMap K V := .new

variable {trie : Trie I} (codecs : Codecs I K V)

def reopen (s : State trie) : State trie := newAuthenticatedMap trie codecs s.store

def History.new (trie : Trie I) : History K V trie where
  state := newAuthenticatedMap trie codecs .empty

def History.step (h : History K V trie) : Event K V → Option (History K V trie)
  | .set key value => some { h with
      state := (AuthenticatedMap.step codecs h.state (.set key value)).1
      current := h.current.set key value }
  | .delete key => some { h with
      state := (AuthenticatedMap.step codecs h.state (.delete key)).1
      current := h.current.delete key }
  | .commit => some { h with
      state := (AuthenticatedMap.step codecs h.state (.commit : Call K V)).1
      committed := h.current }
  | .reopen => some { h with state := reopen codecs h.state, current := h.committed }

/-- The map has the content, counts its keys, and streams exactly them. -/
structure Restored (s : State trie) (content : ShrinkingMap K V) : Prop where
  get : ∀ key, ∃ next, AuthenticatedMap.get codecs key s = .ok (content.get key) next
  has : ∀ key, ∃ next, AuthenticatedMap.has codecs key s = .ok (content.has key) next
  size : (AuthenticatedMap.size s).2 = Int64.ofNat content.size
  stream : ∀ callback, (∀ visited, callback visited = none) → ∃ order : List (K × V),
    (order.map fst).Perm (content.entries.map fst) ∧
      (AuthenticatedMap.stream codecs callback s).2 = (order, none)

/-- A reopened map is that of the last commit. -/
def Event.Restores (h : History K V trie) : Event K V → Prop
  | .reopen => Restored codecs (AuthenticatedMap.reopen codecs h.state) h.committed
  | _ => True

/-- At a reopen, the keys are those of the last commit. Their values may differ. -/
def Event.KeysCommitted (h : History K V trie) : Event K V → Prop
  | .reopen => ∀ key, h.current.has key = h.committed.has key
  | _ => True

variable {codecs}

/-- The content of the last commit is what the stored root leads to. -/
def Stored (Holds : Nodes → trie.Tree → (Bytes → Option Bytes) → Prop) (codecs : Codecs I K V)
    (s : State trie) (m : ShrinkingMap K V) : Prop :=
  (s.store.get [prefixRootKey] = none ∧ s.nodes = (fun _ => none) ∧ ∀ key, m.get key = none) ∨
    ∃ b identifier, s.store.get [prefixRootKey] = some b ∧
      codecs.identifier.bytesToV b = .ok identifier ∧
      TreeHolds Holds codecs { s with tree := trie.importSparseMerkleTrie identifier } m

omit [Inhabited I] in
theorem Stored.of_frame (stored : Stored Holds codecs s m) (frame : Frame s next) :
    Stored Holds codecs next m := by
  obtain ⟨missing, empty, nothing⟩ | ⟨b, identifier, found, read, holds⟩ := stored
  · exact .inl ⟨frame.root.trans missing, frame.nodes.trans empty, nothing⟩
  · exact .inr ⟨b, identifier, frame.root.trans found, read, holds.of_nodes frame.nodes rfl⟩

omit [DecidableEq K] in
theorem reopen_store : (reopen codecs s).store = s.store := by
  unfold reopen newAuthenticatedMap
  split <;> rfl

omit [DecidableEq K] in
theorem reopen_size : (reopen codecs s).size = {} := by
  unfold reopen newAuthenticatedMap
  split <;> rfl

/-- The trie of a reopened map has the content of the last commit. -/
theorem Stored.reopen (lawful : trie.Lawful Holds) (stored : Stored Holds codecs s m) :
    TreeHolds Holds codecs (reopen codecs s) m := by
  unfold AuthenticatedMap.reopen newAuthenticatedMap
  have agrees : TypedValue.Agrees codecs.identifier {} (s.store.get [prefixRootKey]) :=
    TypedValue.agrees_new
  obtain ⟨missing, empty, nothing⟩ | ⟨b, identifier, found, decoded, holds⟩ := stored
  · rw [missing] at agrees ⊢
    obtain ⟨next, err, read, -⟩ := agrees.get_absent
    rw [read]
    refine ⟨fun _ => none, ?_, fun key => by rw [nothing key]; rfl⟩
    have nodes : State.nodes { store := s.store, tree := trie.newSparseMerkleTrie, root := next } =
        fun _ => none := empty
    rw [nodes]
    exact lawful.new
  · rw [found] at agrees ⊢
    obtain ⟨next, read, -⟩ := agrees.get_present decoded
    rw [read]
    exact holds.of_nodes rfl rfl

omit [DecidableEq K] in
theorem Counts.reopen (counts : Counts s count) : Counts (reopen codecs s) count := by
  refine ⟨?_, ?_⟩
  · rw [reopen_size]
    exact TypedValue.agrees_new
  · rw [reopen_store]
    exact counts.stored

theorem Stored.reopened (stored : Stored Holds codecs s m) :
    Stored Holds codecs (AuthenticatedMap.reopen codecs s) m := by
  have nodes : (AuthenticatedMap.reopen codecs s).nodes = s.nodes := by
    unfold State.nodes
    rw [reopen_store]
  exact stored.of_frame ⟨nodes, by rw [reopen_store]⟩

/-- What holds of every history: the trie has the current content and the store that of the
last commit, whatever the raw keys and the counter say. -/
structure Consistent (Holds : Nodes → trie.Tree → (Bytes → Option Bytes) → Prop)
    (codecs : Codecs I K V) (h : History K V trie) : Prop where
  tree : TreeHolds Holds codecs h.state h.current
  counts : ∃ count, Counts h.state count
  stored : Stored Holds codecs h.state h.committed

theorem consistent_step (persistent : trie.Persistent Holds) (faithful : codecs.Faithful)
    (sound : Consistent Holds codecs h) (stepped : h.step codecs event = some next) :
    Consistent Holds codecs next := by
  obtain ⟨tree, ⟨count, counts⟩, stored⟩ := sound
  have lawful := persistent.toLawful
  cases event with
  | set key value =>
    cases stepped
    obtain ⟨last, ran, held, counted, frame, -⟩ := set_spec lawful faithful tree counts key value
    simp only [AuthenticatedMap.step, Action.result, ran]
    exact ⟨held, ⟨_, counted⟩, stored.of_frame frame⟩
  | delete key =>
    cases stepped
    obtain ⟨last, ran, held, counted, frame, -⟩ := delete_spec lawful faithful tree counts key
    simp only [AuthenticatedMap.step, Action.result, ran]
    exact ⟨held, ⟨_, counted⟩, stored.of_frame frame⟩
  | commit =>
    cases stepped
    obtain ⟨last, writes, b, ran, held, counted, -, committed, nodes, found, read⟩ :=
      commit_spec lawful faithful tree counts
    simp only [AuthenticatedMap.step, Action.result, ran]
    refine ⟨held, ⟨_, counted⟩, .inr ⟨b, _, found, read, ?_⟩⟩
    obtain ⟨content, pre, values⟩ := tree
    refine ⟨content, ?_, values⟩
    have imported := persistent.reimport pre committed
    rw [← nodes] at imported
    exact imported
  | reopen =>
    cases stepped
    exact ⟨stored.reopen lawful, ⟨count, counts.reopen⟩, stored.reopened⟩

theorem consistent_new (lawful : trie.Lawful Holds) :
    Consistent Holds codecs (History.new codecs trie : History K V trie) := by
  have models : Represents Holds codecs (newAuthenticatedMap trie codecs .empty) .new :=
    represents_new lawful
  refine ⟨models.tree, ⟨_, models.count⟩, .inl ⟨?_, ?_, fun _ => rfl⟩⟩
  · rfl
  · rfl

omit [Inhabited I] in
/-- A map whose three parts agree on a content has it, counts it and streams it. -/
theorem Represents.restored (lawful : trie.Lawful Holds) (faithful : codecs.Faithful)
    (models : Represents Holds codecs s m) : Restored codecs s m where
  get key := by
    obtain ⟨tree, ran, -⟩ := get_spec lawful faithful models.tree
    exact ⟨_, ran⟩
  has key := by
    obtain ⟨tree, ran, -⟩ := has_spec lawful faithful models.tree
    exact ⟨_, ran⟩
  size := by
    obtain ⟨cache, ran, -⟩ := models.count.size
    rw [ran]
    exact Int64.ofInt_eq_ofNat
  stream callback never := by
    obtain ⟨tree, order, perm, -, ran⟩ := models.stream lawful faithful callback
    refine ⟨order, perm.map fst, ?_⟩
    rw [ran, traverse_all never]
    rfl

/-- Reopening a map whose parts agree gives one whose parts agree, if the keys are those of
the last commit. -/
theorem Represents.reopen (lawful : trie.Lawful Holds) (models : Represents Holds codecs s m)
    (stored : Stored Holds codecs s n) (same : ∀ key, m.has key = n.has key) :
    Represents Holds codecs (AuthenticatedMap.reopen codecs s) n where
  tree := stored.reopen lawful
  raw b := by
    rw [reopen_store, models.raw b]
    refine exists_congr fun key => and_congr_right fun _ => ?_
    rw [← Option.isSome_iff_ne_none, ← Option.isSome_iff_ne_none]
    exact Bool.eq_iff_iff.mp (same key)
  count := by
    rw [← ShrinkingMap.size_congr same]
    exact models.count.reopen

/-- Such a map is restored exactly when the keys are those of the last commit. -/
theorem Represents.restored_iff (lawful : trie.Lawful Holds) (faithful : codecs.Faithful)
    (models : Represents Holds codecs s m) (stored : Stored Holds codecs s n) :
    Restored codecs (AuthenticatedMap.reopen codecs s) n ↔ ∀ key, m.has key = n.has key := by
  constructor
  · intro again
    obtain ⟨visited, perm, ran⟩ := again.stream (fun _ => none) fun _ => rfl
    obtain ⟨order, mem, raw⟩ := models.raw.order faithful
    -- the raw keys are still those of the map before it was reopened
    rw [AuthenticatedMap.stream, reopen_store, raw, ← Function.comp_def codecs.keyBytes,
      ← List.map_map] at ran
    have keys := streamFrom_keys faithful (Prod.ext rfl ran)
    rw [keys] at perm
    exact ShrinkingMap.keys_perm_iff.mp ((mem.map fst).symm.trans perm)
  · intro same
    exact (models.reopen lawful stored same).restored lawful faithful

/-- A step whose reopen restores the last commit keeps the three parts together. -/
theorem represents_step (persistent : trie.Persistent Holds) (faithful : codecs.Faithful)
    {h next : History K V trie} {event : Event K V}
    (models : Represents Holds codecs h.state h.current)
    (stored : Stored Holds codecs h.state h.committed) (restores : event.Restores codecs h)
    (ran : h.step codecs event = some next) : Represents Holds codecs next.state next.current := by
  have lawful := persistent.toLawful
  cases event with
  | set key value =>
    cases ran
    exact (step_represents lawful faithful models).1
  | delete key =>
    cases ran
    exact (step_represents lawful faithful models).1
  | commit =>
    cases ran
    exact (step_represents lawful faithful models).1
  | reopen =>
    cases ran
    exact models.reopen lawful stored ((models.restored_iff lawful faithful stored).mp restores)

/-- A history restores the last commit with every reopen exactly when at each of them the
keys are those of the last commit. The values alone are restored always. -/
theorem reopen_restores_iff (persistent : trie.Persistent Holds) (faithful : codecs.Faithful)
    (events : List (Event K V)) :
    (Along (History.step codecs) (fun h event => event.Restores codecs h)
        (History.new codecs trie) events ↔
      Along (History.step codecs) (fun h event => event.KeysCommitted h)
        (History.new codecs trie) events) ∧
    ∀ h, run (History.step codecs) (History.new codecs trie) events = some h →
      ∀ key, ∃ next, get codecs key (reopen codecs h.state) = .ok (h.committed.get key) next := by
  have lawful := persistent.toLawful
  have start : Consistent Holds codecs (History.new codecs trie : History K V trie) :=
    consistent_new lawful
  constructor
  · refine along_congr (fun h => Represents Holds codecs h.state h.current ∧
      Stored Holds codecs h.state h.committed) ?_ ?_ ⟨represents_new lawful, start.stored⟩
    · rintro h event ⟨models, stored⟩
      cases event with
      | reopen => exact models.restored_iff lawful faithful stored
      | _ => exact .rfl
    · rintro h event next ⟨models, stored⟩ restores stepped
      refine ⟨represents_step persistent faithful models stored restores stepped, ?_⟩
      exact (consistent_step persistent faithful
        ⟨models.tree, ⟨_, models.count⟩, stored⟩ stepped).stored
  · intro h ran key
    have sound :=
      run_invariant (fun _ _ _ => consistent_step persistent faithful) start ran
    obtain ⟨tree, read, -⟩ := get_spec lawful faithful (sound.stored.reopen lawful)
    exact ⟨_, read⟩

theorem plainTrie_persistent : plainTrie.Persistent PlainHolds where
  toLawful := plainTrie_lawful
  reimport := by
    rintro nodes tree _ next writes rfl ⟨⟩
    rfl

/-- A committed key whose value changes before the map is reopened. -/
def overwrittenEvents : List (Event UInt8 Bytes) := [.set 1 [5], .commit, .set 1 [6], .reopen]

theorem overwrittenEvents_restore :
    Along (History.step plainCodecs) (fun h event => event.Restores plainCodecs h)
      (History.new plainCodecs plainTrie) overwrittenEvents := by
  refine (reopen_restores_iff plainTrie_persistent plainCodecs_faithful overwrittenEvents).1.mpr ?_
  refine ⟨trivial, ?_⟩
  rintro _ ⟨⟩
  refine ⟨trivial, ?_⟩
  rintro _ ⟨⟩
  refine ⟨trivial, ?_⟩
  rintro _ ⟨⟩
  refine ⟨fun key => ?_, ?_⟩
  · by_cases same : (1 : UInt8) = key
    · simp [ShrinkingMap.has, same]
    · simp [ShrinkingMap.has, ShrinkingMap.get_set, same]
  · rintro _ ⟨⟩
    trivial

/-- A key that is set and not committed is forgotten by the trie, but is still counted and
listed after the map was reopened. -/
theorem reopen_after_set :
    ¬ Along (History.step plainCodecs) (fun h event => event.Restores plainCodecs h)
      (History.new plainCodecs plainTrie) [.set 1 [5], .reopen] := by
  rintro ⟨-, rest⟩
  obtain ⟨again, -⟩ := rest _ rfl
  exact absurd again.size (by decide)

end HiveGo.AuthenticatedMap
