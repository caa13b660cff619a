import HiveGo.AuthenticatedMap

/-! What the actions of the authenticated map do to its three parts, for a trie that is a map and
codecs that round-trip. After a restart the parts need not have the same content. -/
namespace HiveGo.AuthenticatedMap
open KVMap LittleEndian UInt64 Option

/-- The nodes after the changes of a commit. -/
def overwrite (nodes : Nodes) (writes : List (Bytes × Option Bytes)) : Nodes :=
  writes.foldl (fun nodes write key => if write.1 = key then write.2 else nodes key) nodes

variable {I K V : Type}

/-- The trie is a map. That a tree holds a content may depend on the nodes it can read. -/
structure Trie.Lawful (trie : Trie I)
    (Holds : Nodes → trie.Tree → (Bytes → Option Bytes) → Prop) : Prop where
  new : Holds (fun _ => none) trie.newSparseMerkleTrie fun _ => none
  get : ∀ {nodes tree content}, Holds nodes tree content → ∀ key,
    ∃ next, trie.get nodes tree key = .ok (content key, next) ∧ Holds nodes next content
  update : ∀ {nodes tree content}, Holds nodes tree content → ∀ key value,
    ∃ next, trie.update nodes tree key value = .ok next ∧
      Holds nodes next fun other => if key = other then some value else content other
  delete : ∀ {nodes tree content}, Holds nodes tree content → ∀ key, content key ≠ none →
    ∃ next, trie.delete nodes tree key = .ok next ∧
      Holds nodes next fun other => if key = other then none else content other
  commit : ∀ {nodes tree content}, Holds nodes tree content →
    ∃ next writes, trie.commit nodes tree = .ok (next, writes) ∧
      Holds (overwrite nodes writes) next content

namespace Codecs

variable (codecs : Codecs I K V)

/-- The bytes of a key. -/
def keyBytes (key : K) : Bytes := (codecs.keyToBytes key).toOption.getD []

/-- The bytes of a value. -/
def valueBytes (value : V) : Bytes := (codecs.valueToBytes value).toOption.getD []

/-- None of the functions fails on what they are used for, and the decoders invert the encoders. -/
structure Faithful : Prop where
  key : ∀ key, ∃ b consumed, codecs.keyToBytes key = .ok b ∧ codecs.bytesToKey b = .ok (key, consumed)
  value : ∀ value, ∃ b, codecs.valueToBytes value = .ok b ∧
    codecs.bytesToValue b = .ok (value, b.length)
  identifier : ∀ identifier, ∃ b, codecs.identifier.vToBytes identifier = .ok b ∧
    codecs.identifier.bytesToV b = .ok identifier

namespace Faithful

variable {codecs}

variable (faithful : codecs.Faithful)
include faithful

theorem keyToBytes (key : K) : codecs.keyToBytes key = .ok (codecs.keyBytes key) := by
  obtain ⟨b, -, encoded, -⟩ := faithful.key key
  rw [keyBytes, encoded]
  rfl

theorem bytesToKey (key : K) :
    ∃ consumed, codecs.bytesToKey (codecs.keyBytes key) = .ok (key, consumed) := by
  obtain ⟨b, consumed, encoded, read⟩ := faithful.key key
  rw [keyBytes, encoded]
  exact ⟨consumed, read⟩

theorem keyBytes_inj {key other : K} :
    codecs.keyBytes key = codecs.keyBytes other ↔ key = other := by
  constructor
  · intro same
    obtain ⟨consumed, read⟩ := faithful.bytesToKey key
    obtain ⟨also, decodedOther⟩ := faithful.bytesToKey other
    rw [same, decodedOther] at read
    cases read
    rfl
  · exact congrArg _

theorem valueToBytes (value : V) : codecs.valueToBytes value = .ok (codecs.valueBytes value) := by
  obtain ⟨b, encoded, -⟩ := faithful.value value
  rw [valueBytes, encoded]
  rfl

theorem bytesToValue (value : V) : codecs.bytesToValue (codecs.valueBytes value) =
      .ok (value, (codecs.valueBytes value).length) := by
  obtain ⟨b, encoded, read⟩ := faithful.value value
  rw [valueBytes, encoded]
  exact read

end Faithful

end Codecs

section Actions

variable {α β : Type}

theorem bind_of_ok {f : α → Action trie β} {value : α}
    (ran : action s = .ok value next) : (action >>= f) s = f value next := by
  simp [bind, EStateM.bind, ran]

theorem failing_of_ok (ran : action s = .ok value next) :
    failing message action s = .ok value next := by
  simp [failing, ran]

theorem lift_ok (ok : result = .ok value) : failing message (lift result) s = .ok value s := by
  rw [ok]
  rfl

end Actions

/-! The realm of the trie. -/

theorem get_writeNodes :
    (writes.foldl writeNode store).get (prefixTreeStorage :: key) =
      overwrite (fun key => store.get (prefixTreeStorage :: key)) writes key := by
  induction writes generalizing store with
  | nil => rfl
  | cons write writes ih =>
    obtain ⟨wrote, node⟩ := write
    have here : (fun key => (writeNode store (wrote, node)).get (prefixTreeStorage :: key)) =
        fun key => if wrote = key then node else store.get (prefixTreeStorage :: key) := by
      cases node with
      | some node => simp [writeNode, get_set]
      | none => simp [writeNode, get_delete]
    rw [List.foldl_cons, ih, here]
    rfl

theorem get_writeNodes_of_ne (writes : List (Bytes × Option Bytes))
    (other : prefixTreeStorage ≠ realm) :
    (writes.foldl writeNode store).get (realm :: key) = store.get (realm :: key) := by
  induction writes generalizing store with
  | nil => rfl
  | cons write writes ih =>
    obtain ⟨wrote, node⟩ := write
    rw [List.foldl_cons, ih]
    cases node with
    | some node => simp [writeNode, get_set, other]
    | none => simp [writeNode, get_delete, other]

/-! The counter. -/

/-- The counter holds the number, or is missing and the number is zero. -/
structure Counts {trie : Trie I} (s : State trie) (count : Int) : Prop where
  agrees : TypedValue.Agrees uint64Codec s.size (s.store.get [prefixSizeKey])
  stored : (s.store.get [prefixSizeKey] = none ∧ count = 0) ∨
    s.store.get [prefixSizeKey] = some (put 8 (ofInt count).toNat)

theorem uint64Codec_decodes : uint64Codec.bytesToV (put 8 u.toNat) = .ok u := by
  have length := length_put 8 u.toNat
  simp only [uint64Codec]
  rw [if_neg (by omega), List.take_of_length_le (by omega), get_put_of_lt (by exact u.toNat_lt)]
  simp

theorem toUInt64_ofInt : (Int64.ofInt number).toUInt64 = UInt64.ofInt number := by
  apply UInt64.toBitVec_inj.mp
  apply BitVec.eq_of_toNat_eq
  have small : (number % 18446744073709551616).toNat < 18446744073709551616 := by omega
  simp [ofInt, Nat.mod_eq_of_lt small]

theorem toInt64_ofInt : (ofInt number).toInt64 = Int64.ofInt number := by
  rw [← toUInt64_ofInt]
  simp

section Counter

/-- Only the cache of the counter changes when it is read. -/
theorem Counts.sizeGet (counts : Counts s count) :
    ∃ size err, sizeGet s = ({ s with size }, ofInt count, err) ∧
      (∀ error, err = some error → error.root = .errKeyNotFound ∧ count = 0) ∧
      Counts { s with size } count := by
  obtain ⟨agrees, stored⟩ := counts
  obtain ⟨missing, rfl⟩ | present := stored
  · rw [missing] at agrees
    obtain ⟨next, err, read, isMissing, kept⟩ := agrees.get_absent
    refine ⟨next, some err, ?_, ?_, ⟨by rwa [missing], .inl ⟨missing, rfl⟩⟩⟩
    · simp only [AuthenticatedMap.sizeGet, missing, read]
      rfl
    · rintro _ ⟨⟩
      exact ⟨isMissing, rfl⟩
  · rw [present] at agrees
    obtain ⟨next, read, kept⟩ := agrees.get_present uint64Codec_decodes
    refine ⟨next, none, ?_, ?_, ⟨by rwa [present], .inr present⟩⟩
    · simp [AuthenticatedMap.sizeGet, present, read]
    · rintro _ ⟨⟩

theorem Counts.of_store (counts : Counts s count) (size : next.size = s.size)
    (stored : next.store.get [prefixSizeKey] = s.store.get [prefixSizeKey]) : Counts next count :=
  ⟨by rw [size, stored]; exact counts.agrees, by rw [stored]; exact counts.stored⟩

/-- The state with another counter. -/
def State.counted (s : State trie) (u : UInt64) : State trie :=
  { s with
    store := s.store.set [prefixSizeKey] (put 8 u.toNat)
    size := { valueCached := some u, hasCached := some true } }

theorem counts_counted (s : State trie) (count : Int) : Counts (s.counted (ofInt count)) count := by
  have found : (s.counted (ofInt count)).store.get [prefixSizeKey] =
      some (put 8 (ofInt count).toNat) := by
    simp [State.counted, get_set]
  refine ⟨?_, .inr found⟩
  rw [found]
  exact TypedValue.agrees_stored uint64Codec_decodes

/-- Everything else is where it was. -/
theorem get_counted (s : State trie) (u : UInt64) (other : key ≠ [prefixSizeKey]) :
    (s.counted u).store.get key = s.store.get key := by
  rw [State.counted, get_set, if_neg other.symm]

theorem Counts.addSize (counts : Counts s count) (delta : Int) :
    addSize delta s = .ok () (s.counted (ofInt (count + delta))) := by
  obtain ⟨size, err, read, missing, -⟩ := counts.sizeGet
  have fine : ¬ ∃ error, err = some error ∧ error.root ≠ .errKeyNotFound := by
    rintro ⟨error, same, other⟩
    exact other (missing error same).1
  have sum : ((ofInt count).toInt64 + Int64.ofInt delta).toUInt64 = ofInt (count + delta) := by
    simp [ofInt_add, toUInt64_ofInt]
  simp only [AuthenticatedMap.addSize, read, if_neg fine, sum]
  rfl

theorem Counts.size (counts : Counts s count) :
    ∃ size, AuthenticatedMap.size s = ({ s with size }, Int64.ofInt count) ∧
      Counts { s with size } count := by
  obtain ⟨cache, err, read, missing, kept⟩ := counts.sizeGet
  refine ⟨cache, ?_, kept⟩
  unfold AuthenticatedMap.size
  rw [read]
  cases err with
  | none => rw [← toInt64_ofInt]
  | some error =>
    rw [(missing error rfl).2]
    rfl

end Counter

/-! The trie. -/

section Tree

theorem rawKeysSet_eq (faithful : codecs.Faithful) : rawKeysSet codecs key s = .ok ()
      { s with store := s.store.set (prefixRawKeysStorage :: codecs.keyBytes key) [] } := by
  rw [rawKeysSet, bind_of_ok (lift_ok (faithful.keyToBytes key))]
  rfl

theorem rawKeysDelete_eq (faithful : codecs.Faithful) : rawKeysDelete codecs key s = .ok ()
      { s with store := s.store.delete (prefixRawKeysStorage :: codecs.keyBytes key) } := by
  rw [rawKeysDelete, bind_of_ok (lift_ok (faithful.keyToBytes key))]
  rfl

theorem exists_map_eq {f : β → γ} {P : β → Prop} {images : List γ}
    (each : ∀ image ∈ images, ∃ item, f item = image ∧ P item) :
    ∃ items : List β, items.map f = images ∧ ∀ item ∈ items, P item := by
  induction images with
  | nil => exact ⟨[], rfl, by simp⟩
  | cons image images ih =>
    obtain ⟨item, same, holds⟩ := each image List.mem_cons_self
    obtain ⟨items, rest, all⟩ := ih fun other mem => each other (List.mem_cons_of_mem _ mem)
    exact ⟨item :: items, by rw [List.map_cons, same, rest], List.forall_mem_cons.mpr ⟨holds, all⟩⟩

variable [DecidableEq K] {trie : Trie I} {Holds : Nodes → trie.Tree → (Bytes → Option Bytes) → Prop}
  {codecs : Codecs I K V} {s : State trie} {m : ShrinkingMap K V}

/-- The trie holds the bytes of the values under the bytes of the keys. -/
def TreeHolds (Holds : Nodes → trie.Tree → (Bytes → Option Bytes) → Prop) (codecs : Codecs I K V)
    (s : State trie) (m : ShrinkingMap K V) : Prop :=
  ∃ content, Holds s.nodes s.tree content ∧
    ∀ key, content (codecs.keyBytes key) = (m.get key).map codecs.valueBytes

theorem TreeHolds.congr (holds : TreeHolds Holds codecs s m) (same : ∀ key, m.get key = n.get key) :
    TreeHolds Holds codecs s n := by
  obtain ⟨content, held, values⟩ := holds
  exact ⟨content, held, fun key => by rw [values key, same key]⟩

theorem TreeHolds.of_nodes (holds : TreeHolds Holds codecs s m) (nodes : next.nodes = s.nodes)
    (tree : next.tree = s.tree) : TreeHolds Holds codecs next m := by
  obtain ⟨content, held, values⟩ := holds
  exact ⟨content, by rwa [nodes, tree], values⟩

section

variable (lawful : trie.Lawful Holds) (holds : TreeHolds Holds codecs s m) (key : K)
include lawful holds key

theorem TreeHolds.treeGet :
    ∃ tree, treeGet (codecs.keyBytes key) s = .ok ((m.get key).map codecs.valueBytes) { s with tree } ∧
      TreeHolds Holds codecs { s with tree } m := by
  obtain ⟨content, held, values⟩ := holds
  obtain ⟨tree, read, kept⟩ := lawful.get held (codecs.keyBytes key)
  refine ⟨tree, ?_, content, kept, values⟩
  rw [AuthenticatedMap.treeGet, read, values key]

theorem TreeHolds.hasBytes :
    ∃ tree, hasBytes (codecs.keyBytes key) s = .ok (m.has key) { s with tree } ∧
      TreeHolds Holds codecs { s with tree } m := by
  obtain ⟨tree, read, kept⟩ := holds.treeGet lawful key
  refine ⟨tree, ?_, kept⟩
  rw [AuthenticatedMap.hasBytes, bind_of_ok (failing_of_ok read), isSome_map]
  rfl

end

section

variable (lawful : trie.Lawful Holds) (faithful : codecs.Faithful) (holds : TreeHolds Holds codecs s m)
include lawful faithful holds

theorem TreeHolds.treeUpdate (key : K) (value : V) :
    ∃ tree, treeUpdate (codecs.keyBytes key) (codecs.valueBytes value) s = .ok () { s with tree } ∧
      TreeHolds Holds codecs { s with tree } (m.set key value) := by
  obtain ⟨content, held, values⟩ := holds
  obtain ⟨tree, updated, kept⟩ := lawful.update held (codecs.keyBytes key) (codecs.valueBytes value)
  refine ⟨tree, by rw [AuthenticatedMap.treeUpdate, updated], _, kept, fun other => ?_⟩
  rw [ShrinkingMap.get_set]
  by_cases same : key = other
  · rw [if_pos (congrArg _ same), if_pos same, map_some]
  · rw [if_neg (mt faithful.keyBytes_inj.mp same), if_neg same, values other]

theorem TreeHolds.treeDelete {key : K} (present : m.has key = true) :
    ∃ tree, treeDelete (codecs.keyBytes key) s = .ok () { s with tree } ∧
      TreeHolds Holds codecs { s with tree } (m.delete key) := by
  obtain ⟨content, held, values⟩ := holds
  have there : content (codecs.keyBytes key) ≠ none := by
    obtain ⟨value, found⟩ := isSome_iff_exists.mp present
    rw [values key, found]
    simp
  obtain ⟨tree, deleted, kept⟩ := lawful.delete held (codecs.keyBytes key) there
  refine ⟨tree, by rw [AuthenticatedMap.treeDelete, deleted], _, kept, fun other => ?_⟩
  rw [ShrinkingMap.get_delete]
  by_cases same : key = other
  · rw [if_pos (congrArg _ same), if_pos same, map_none]
  · rw [if_neg (mt faithful.keyBytes_inj.mp same), if_neg same, values other]

end

/-! The actions. -/

/-- What only a commit changes. -/
structure Frame (s next : State trie) : Prop where
  nodes : next.nodes = s.nodes
  root : next.store.get [prefixRootKey] = s.store.get [prefixRootKey]

/-- A change among the raw keys, and then one of the counter unless it is to stay. -/
theorem recount (counts : Counts s count) (holds : TreeHolds Holds codecs { s with tree } m)
    (store : KVMap) (elsewhere : ∀ {realm : UInt8} (rest : Bytes), prefixRawKeysStorage ≠ realm →
      store.get (realm :: rest) = s.store.get (realm :: rest))
    (message : String) (delta : Int) (skip : Bool) :
    ∃ last, (if !skip then failing message (AuthenticatedMap.addSize delta) else pure ())
        { s with tree, store } = .ok () last ∧
      TreeHolds Holds codecs last m ∧ Counts last (count + if skip then 0 else delta) ∧
      Frame s last ∧
      ∀ b, last.store.get (prefixRawKeysStorage :: b) = store.get (prefixRawKeysStorage :: b) := by
  let next : State trie := { s with tree, store }
  have nodes : next.nodes = s.nodes := funext fun key => elsewhere key (by decide)
  have counts : Counts next count := counts.of_store rfl (elsewhere [] (by decide))
  have root : next.store.get [prefixRootKey] = s.store.get [prefixRootKey] :=
    elsewhere [] (by decide)
  cases skip with
  | true =>
    refine ⟨next, rfl, holds.of_nodes nodes rfl, ?_, ⟨nodes, root⟩, fun _ => rfl⟩
    rwa [if_pos rfl, Int.add_zero]
  | false =>
    have counted : (next.counted (ofInt (count + delta))).nodes = next.nodes := by
      funext key
      exact get_counted next _ (by simp [prefixTreeStorage, prefixSizeKey])
    refine ⟨_, failing_of_ok (counts.addSize delta), holds.of_nodes (counted.trans nodes) rfl,
      counts_counted next _, ⟨counted.trans nodes, .trans ?_ root⟩, fun b => ?_⟩
    · exact get_counted next _ (by simp [prefixRootKey, prefixSizeKey])
    · exact get_counted next _ (by simp [prefixRawKeysStorage, prefixSizeKey])

variable (lawful : trie.Lawful Holds) (faithful : codecs.Faithful)
  (holds : TreeHolds Holds codecs s m)
include lawful faithful holds

theorem set_spec (counts : Counts s count) (key : K) (value : V) :
    ∃ next, set codecs key value s = .ok () next ∧ TreeHolds Holds codecs next (m.set key value) ∧
      Counts next (count + if m.has key then 0 else 1) ∧ Frame s next ∧
      ∀ b, next.store.get (prefixRawKeysStorage :: b) =
        if codecs.keyBytes key = b then some [] else s.store.get (prefixRawKeysStorage :: b) := by
  obtain ⟨tree, asked, kept⟩ := holds.hasBytes lawful key
  obtain ⟨updatedTree, updated, held⟩ := kept.treeUpdate lawful faithful key value
  obtain ⟨last, counted, treeHeld, total, frame, raw⟩ :=
    recount counts held (s.store.set (prefixRawKeysStorage :: codecs.keyBytes key) [])
      (fun rest other => by simp [get_set, other]) "failed to increase size" 1 (m.has key)
  refine ⟨last, ?_, treeHeld, total, frame, fun b => ?_⟩
  · rw [set, bind_of_ok (lift_ok (faithful.valueToBytes value)),
      bind_of_ok (lift_ok (faithful.keyToBytes key)), bind_of_ok (failing_of_ok asked),
      bind_of_ok (failing_of_ok updated), bind_of_ok (failing_of_ok (rawKeysSet_eq faithful))]
    exact counted
  · rw [raw b]
    simp [get_set]

theorem delete_spec (counts : Counts s count) (key : K) :
    ∃ next, delete codecs key s = .ok (m.has key) next ∧
      TreeHolds Holds codecs next (m.delete key) ∧
      Counts next (count - if m.has key then 1 else 0) ∧ Frame s next ∧
      ∀ b, next.store.get (prefixRawKeysStorage :: b) =
        if m.has key ∧ codecs.keyBytes key = b then none
        else s.store.get (prefixRawKeysStorage :: b) := by
  obtain ⟨tree, asked, kept⟩ := holds.hasBytes lawful key
  rw [delete, bind_of_ok (lift_ok (faithful.keyToBytes key)), bind_of_ok (failing_of_ok asked)]
  cases present : m.has key with
  | false =>
    have absent : m.get key = none := by
      simpa [ShrinkingMap.has] using present
    refine ⟨{ s with tree }, rfl, kept.congr fun other => ?_, ?_, ⟨rfl, rfl⟩, ?_⟩
    · rw [ShrinkingMap.get_delete]
      split
      · rename_i same
        rw [← same, absent]
      · rfl
    · have same : Counts { s with tree } count := counts.of_store rfl rfl
      simpa using same
    · simp
  | true =>
    obtain ⟨deletedTree, deleted, held⟩ := kept.treeDelete lawful faithful present
    obtain ⟨last, counted, treeHeld, total, frame, raw⟩ :=
      recount counts held (s.store.delete (prefixRawKeysStorage :: codecs.keyBytes key))
        (fun rest other => by simp [get_delete, other]) "failed to decrease size" (-1) false
    refine ⟨last, ?_, treeHeld, total, frame, fun b => ?_⟩
    · change ((failing _ (AuthenticatedMap.treeDelete _) >>= fun _ => _) : Action trie Bool) _ = _
      rw [bind_of_ok (failing_of_ok deleted), bind_of_ok (failing_of_ok (rawKeysDelete_eq faithful))]
      exact bind_of_ok counted
    · rw [raw b]
      simp [get_delete]

theorem has_spec : ∃ tree, has codecs key s = .ok (m.has key) { s with tree } ∧
      TreeHolds Holds codecs { s with tree } m := by
  rw [has, bind_of_ok (lift_ok (faithful.keyToBytes key))]
  exact holds.hasBytes lawful key

theorem get_spec : ∃ tree, get codecs key s = .ok (m.get key) { s with tree } ∧
      TreeHolds Holds codecs { s with tree } m := by
  obtain ⟨tree, read, kept⟩ := holds.treeGet lawful key
  refine ⟨tree, ?_, kept⟩
  rw [get, bind_of_ok (lift_ok (faithful.keyToBytes key)), bind_of_ok (failing_of_ok read)]
  cases found : m.get key with
  | none => rfl
  | some value =>
    rw [map_some]
    dsimp only
    rw [bind_of_ok (lift_ok (faithful.bytesToValue value))]
    simp only [ne_eq, not_true_eq_false, if_false]
    rfl

/-- A commit writes the root of the tree and then the changes of the trie. -/
theorem commit_spec (counts : Counts s count) :
    ∃ next writes b, commit codecs s = .ok () next ∧ TreeHolds Holds codecs next m ∧
      Counts next count ∧
      (∀ b, next.store.get (prefixRawKeysStorage :: b) = s.store.get (prefixRawKeysStorage :: b)) ∧
      trie.commit s.nodes s.tree = .ok (next.tree, writes) ∧ next.nodes = overwrite s.nodes writes ∧
      next.store.get [prefixRootKey] = some b ∧
      codecs.identifier.bytesToV b = .ok (trie.root s.tree) := by
  obtain ⟨content, held, values⟩ := holds
  obtain ⟨tree, writes, committed, kept⟩ := lawful.commit held
  obtain ⟨b, encoded, read⟩ := faithful.identifier (trie.root s.tree)
  let middle : State trie := { s with
    store := s.store.set [prefixRootKey] b
    root := { valueCached := some (trie.root s.tree), hasCached := some true } }
  have rooted : rootSet codecs (trie.root s.tree) s = .ok () middle := by
    simp only [rootSet, TypedValue.set, encoded, StoreKey.set]
    rfl
  have elsewhere : ∀ {realm : UInt8} rest, prefixRootKey ≠ realm →
      middle.store.get (realm :: rest) = s.store.get (realm :: rest) := by
    intro realm rest other
    simp [middle, get_set, other]
  have nodes : middle.nodes = s.nodes := funext fun key => elsewhere key (by decide)
  let last : State trie := { middle with tree, store := writes.foldl writeNode middle.store }
  have wrote : treeCommit middle = .ok () last := by
    have same : trie.commit middle.nodes middle.tree = .ok (tree, writes) := by
      rw [nodes]
      exact committed
    rw [treeCommit, same]
  have out : ∀ {realm : UInt8} rest, prefixTreeStorage ≠ realm → prefixRootKey ≠ realm →
      last.store.get (realm :: rest) = s.store.get (realm :: rest) := by
    intro realm rest tree root
    exact (get_writeNodes_of_ne writes tree).trans (elsewhere rest root)
  have written : last.nodes = overwrite s.nodes writes := by
    rw [← nodes]
    exact funext fun key => get_writeNodes
  refine ⟨last, writes, b, ?_, ⟨content, written ▸ kept, values⟩, ?_, ?_, committed, written, ?_, read⟩
  · exact (bind_of_ok (failing_of_ok rooted)).trans wrote
  · exact counts.of_store rfl (out [] (by decide) (by decide))
  · exact fun b => out b (by decide) (by decide)
  · refine (get_writeNodes_of_ne writes (by decide)).trans ?_
    simp [middle, get_set]

/-- What a callback is given, until it fails. -/
def traverse (callback : List (K × V) → Option KVError) (text : K → String) (visited : List (K × V)) :
    List (K × V) → List (K × V) × Option KVError
  | [] => (visited, none)
  | entry :: entries =>
    match callback (visited ++ [entry]) with
    | some err => (visited ++ [entry], some (.wrap err (text entry.1)))
    | none => traverse callback text (visited ++ [entry]) entries

/-- The text around the error of a callback. -/
def callbackText (codecs : Codecs I K V) (key : K) : String :=
  let name := spell (codecs.keyBytes key)
  s!"failed to execute callback for key {name}"

theorem streamFrom_spec (visited : List (K × V))
    (present : ∀ entry ∈ order, m.get entry.1 = some entry.2) :
    ∃ tree, streamFrom codecs callback visited (order.map fun entry => codecs.keyBytes entry.1) s =
        ({ s with tree }, traverse callback (callbackText codecs) visited order) ∧
      TreeHolds Holds codecs { s with tree } m := by
  induction order generalizing visited s with
  | nil => exact ⟨s.tree, rfl, holds⟩
  | cons entry order ih =>
    obtain ⟨key, value⟩ := entry
    obtain ⟨consumed, decoded⟩ := faithful.bytesToKey key
    obtain ⟨tree, read, kept⟩ := holds.treeGet lawful key
    have found := present (key, value) List.mem_cons_self
    rw [found, map_some] at read
    simp only [List.map_cons, streamFrom, decoded, faithful.keyToBytes key, read, getD_some,
      faithful.bytesToValue value, traverse]
    cases callback (visited ++ [(key, value)]) with
    | some err => exact ⟨tree, rfl, kept⟩
    | none => exact ih kept _ fun other mem => present other (List.mem_cons_of_mem _ mem)

omit holds faithful lawful

/-- The raw keys are those of the map. -/
def RawHolds (codecs : Codecs I K V) (store : KVMap) (m : ShrinkingMap K V) : Prop :=
  ∀ b, store.get (prefixRawKeysStorage :: b) ≠ none ↔
    ∃ key, codecs.keyBytes key = b ∧ m.get key ≠ none

theorem mem_rawKeys : b ∈ rawKeys store ↔ store.get (prefixRawKeysStorage :: b) ≠ none := by
  unfold rawKeys
  rw [List.mem_map]
  constructor
  · rintro ⟨key, mem, rfl⟩
    obtain ⟨⟨rest, rfl⟩, there⟩ := mem_sortedKeys.mp mem
    exact there
  · intro there
    exact ⟨prefixRawKeysStorage :: b, mem_sortedKeys.mpr ⟨⟨b, rfl⟩, there⟩, rfl⟩

theorem nodup_rawKeys : (rawKeys store).Nodup := by
  have ordered := store.ordered_sortedKeys [prefixRawKeysStorage] .forward
  refine List.pairwise_map.mpr (ordered.imp_of_mem ?_)
  intro left right mem also pre same
  obtain ⟨⟨rest, rfl⟩, -⟩ := mem_sortedKeys.mp mem
  obtain ⟨⟨others, rfl⟩, -⟩ := mem_sortedKeys.mp also
  change rest = others at same
  rw [same] at pre
  exact IterDirection.before_irrefl _ _ pre

/-- The listed raw keys are the keys of the entries in some order. -/
theorem RawHolds.order (faithful : codecs.Faithful) (raw : RawHolds codecs store m) :
    ∃ order : List (K × V), order.Perm m.entries ∧
      rawKeys store = order.map fun entry => codecs.keyBytes entry.1 := by
  have each : ∀ b ∈ rawKeys store, ∃ entry : K × V,
      codecs.keyBytes entry.1 = b ∧ m.get entry.1 = some entry.2 := by
    intro b listed
    obtain ⟨key, same, there⟩ := (raw b).mp (mem_rawKeys.mp listed)
    obtain ⟨value, found⟩ := ne_none_iff_exists'.mp there
    exact ⟨(key, value), same, found⟩
  obtain ⟨order, listed, found⟩ := exists_map_eq each
  have nodup := List.Nodup.of_map _ (listed ▸ nodup_rawKeys)
  have distinct := List.Nodup.of_map _ m.distinct
  refine ⟨order, (List.perm_ext_iff_of_nodup nodup distinct).mpr fun entry => ?_, listed.symm⟩
  rw [← Prod.mk.eta (p := entry), ShrinkingMap.mem_entries]
  refine ⟨found entry, fun there => ?_⟩
  have inside : codecs.keyBytes entry.1 ∈ order.map fun entry => codecs.keyBytes entry.1 := by
    rw [listed]
    exact mem_rawKeys.mpr ((raw _).mpr ⟨entry.1, rfl, by simp [there]⟩)
  obtain ⟨other, mem, same⟩ := List.mem_map.mp inside
  have key := faithful.keyBytes_inj.mp same
  have value := found other mem
  rw [key, there] at value
  have whole := Prod.ext key (some.inj value.symm)
  exact whole ▸ mem

end Tree

end HiveGo.AuthenticatedMap
