import HiveGo.Stream

/-! Collections in a stream. Writing a tree of collections appends the bytes of the tree, count
before elements at every level, although each count is written after its elements; reading
these bytes back gives the tree and stops behind them. -/
namespace HiveGo.Stream
open List NumKind SafeMath LittleEndian
open Op (bind_of_ok wrap_of_ok)

variable {α β γ : Type}
variable {n : Nat}

/-- Started at the end of a buffer, the operation returns the value, appends the bytes and
leaves the position at the new end. -/
def Appends (op : Op ByteBuffer α) (value : α) (body : Bytes) : Prop :=
  ∀ buf, op ⟨buf, buf.length⟩ = (.ok value, ⟨buf ++ body, (buf ++ body).length⟩)

theorem Appends.pure (value : α) : Appends (pure value) value [] := by
  intro buf
  rw [append_nil]
  rfl

theorem Appends.bind {next : α → Op ByteBuffer β} {result : β} {first second : Bytes}
    (head : Appends op value first) (tail : Appends (next value) result second) :
    Appends (op >>= next) result (first ++ second) := by
  intro buf
  rw [bind_of_ok (head buf), tail, append_assoc]

theorem Appends.discard (plain : Appends op value body) : Appends (do let _ ← op) () body := by
  intro buf
  rw [bind_of_ok (plain buf)]
  rfl

theorem Appends.wrap (plain : Appends op value body) : Appends (op.wrap message) value body :=
  fun buf => wrap_of_ok (plain buf)

/-- Started anywhere in front of the bytes, the operation returns the value and stops right
behind the bytes, whatever follows them. -/
def Reads (op : Op ByteReader α) (value : α) (body : Bytes) : Prop :=
  ∀ before rest, op ⟨before ++ body ++ rest, before.length⟩ =
    (.ok value, ⟨before ++ body ++ rest, (before ++ body).length⟩)

theorem Reads.pure (value : α) : Reads (pure value) value [] := by
  intro pre rest
  rw [append_nil]
  rfl

theorem Reads.bind {op : Op ByteReader α} {next : α → Op ByteReader β} {result : β}
    {first second : Bytes} (head : Reads op value first) (tail : Reads (next value) result second) :
    Reads (op >>= next) result (first ++ second) := by
  intro pre rest
  have start := head pre (second ++ rest)
  have finish := tail (pre ++ first) rest
  simp only [append_assoc] at start finish ⊢
  rw [bind_of_ok start, finish]

theorem Reads.wrap (plain : Reads op value body) : Reads (op.wrap message) value body :=
  fun pre rest => wrap_of_ok (plain pre rest)

namespace ByteBuffer

/-- Bytes that are all there already are replaced. -/
theorem write_over (same : p.length = old.length) : write ⟨front ++ old ++ back, front.length⟩ p =
      (p.length, ⟨front ++ p ++ back, (front ++ p).length⟩) := by
  by_cases empty : p = []
  · have gone := eq_nil_of_length_eq_zero (by rw [← same, empty]; rfl)
    simp [write, empty, gone]
  · have more := length_pos_iff.mpr empty
    simp [write, ← same, more]

theorem write_end (buf p : Bytes) :
    write ⟨buf, buf.length⟩ p = (p.length, ⟨buf ++ p, (buf ++ p).length⟩) := by
  simp [write]

end ByteBuffer

/-- The type in which a length is written. -/
def kindOf : SeriLengthPrefixType → NumKind
  | .asByte => .uint8
  | .asUint16 => .uint16
  | .asUint32 => .uint32
  | .asUint64 => .uint64

/-- The bytes of a length. -/
def lengthPrefix (lenType : SeriLengthPrefixType) (n : Nat) : Bytes :=
  put (kindOf lenType).size n

/-- The length can be written. Lengths are `int`s, so that not every 64-bit word is one. -/
def Fits (lenType : SeriLengthPrefixType) (n : Nat) : Prop :=
  (kindOf lenType).Holds n ∧ int64.Holds n

instance (lenType : SeriLengthPrefixType) (n : Nat) : Decidable (Fits lenType n) :=
  inferInstanceAs (Decidable (_ ∧ _))

theorem fits_zero : Fits lenType 0 := by
  cases lenType <;> decide

theorem writeFixedSize_eq [Writer σ] (fits : Fits lenType n) :
    (writeFixedSize n lenType : Op σ Unit) =
      (write (.num (kindOf lenType)) (ofInt _ n)).wrap "unable to write length" := by
  cases lenType with
  | asByte =>
    have bound : (0 : Int) ≤ n ∧ (n : Int) < 256 ^ 1 := fits.1
    exact if_neg (by omega)
  | asUint16 =>
    have bound : (0 : Int) ≤ n ∧ (n : Int) < 256 ^ 2 := fits.1
    exact if_neg (by omega)
  | asUint32 =>
    have bound : (0 : Int) ≤ n ∧ (n : Int) < 256 ^ 4 := fits.1
    exact if_neg (by omega)
  | asUint64 => rfl

theorem readFixedSize_eq [Reader σ] :
    (readFixedSize lenType : Op σ Int) = readLength (kindOf lenType) := by
  cases lenType <;> rfl

theorem toWord_natCast {kind : NumKind} (small : n < 256 ^ kind.size) : kind.toWord n = n := by
  cases kind <;> simp [toWord, size] at small ⊢ <;> omega

/-- A number of the type is spelled as its word. -/
theorem put_ofInt (held : kind.Holds n) :
    BasicType.put (.num kind) (ofInt kind n) = put kind.size n := by
  have small : n < 256 ^ kind.size := by
    cases kind <;> simp [NumKind.Holds, size, signed] at held ⊢ <;> omega
  change put kind.size (kind.toWord (kind.wrap n)) = _
  rw [wrap_of_holds held, toWord_natCast small]

theorem length_put (τ : BasicType) (value : τ.Value) : (τ.put value).length = τ.size := by
  cases τ with
  | bool => cases value <;> rfl
  | num kind => exact LittleEndian.length_put _ _
  | array length => exact length_ofFn

theorem getD_ofFn (value : Fin n → UInt8) (i : Fin n) : (List.ofFn value).getD i 0 = value i := by
  simp

theorem get_put (τ : BasicType) (value : τ.Value) : τ.get (τ.put value) = value := by
  cases τ with
  | bool => cases value <;> rfl
  | num kind =>
    apply Subtype.ext
    change kind.wrap (get (put kind.size (kind.toWord value.1))) = value.1
    rw [get_put_of_lt kind.toWord_lt]
    rw [wrap, toWord_natCast kind.toWord_lt, ofWord_toWord value.2]
  | array length =>
    funext i
    exact getD_ofFn value i

theorem appends_raw : Appends (Writer.write p) p.length p := by
  intro buf
  change (Outcome.ok (ByteBuffer.write _ _).1, (ByteBuffer.write _ _).2) = _
  rw [ByteBuffer.write_end]

theorem appends_write : Appends (write τ value) () (τ.put value) :=
  appends_raw.discard

theorem appends_writeFixedSize (fits : Fits lenType n) :
    Appends (writeFixedSize n lenType) () (lengthPrefix lenType n) := by
  rw [writeFixedSize_eq fits, lengthPrefix, ← put_ofInt fits.1]
  exact appends_write.wrap

theorem appends_writeBytesWithSize (fits : Fits lenType bytes.length) :
    Appends (writeBytesWithSize bytes lenType) () (lengthPrefix lenType bytes.length ++ bytes) :=
  (appends_writeFixedSize fits).wrap.bind appends_raw.wrap.discard

/-- Going back to a length and writing another one replaces it. -/
theorem rewrite_length (fits : Fits lenType n) (front back : Bytes) (old : Nat) :
    writeFixedSize n lenType
        (⟨front ++ lengthPrefix lenType old ++ back, front.length⟩ : ByteBuffer) =
      (.ok (), ⟨front ++ lengthPrefix lenType n ++ back,
        (front ++ lengthPrefix lenType n).length⟩) := by
  have same : (lengthPrefix lenType n).length = (lengthPrefix lenType old).length := by
    simp [lengthPrefix]
  rw [writeFixedSize_eq fits]
  unfold write
  rw [put_ofInt fits.1]
  change (Outcome.ok (), (ByteBuffer.write _ (lengthPrefix lenType n)).2) = _
  rw [ByteBuffer.write_over same]

theorem offset_eq (w : ByteBuffer) : offset w = (.ok (w.pos : Int), w) := by
  change w.seek 0 .seekCurrent = _
  simp [ByteBuffer.seek, ByteBuffer.moved, show ¬ (w.pos : Int) < 0 by omega]

theorem goTo_eq (w : ByteBuffer) (pos : Nat) : goTo pos w = (.ok (pos : Int), { w with pos }) := by
  change w.seek pos .seekStart = _
  simp [ByteBuffer.seek, show ¬ (pos : Int) < 0 by omega]

/-- A collection whose elements append their bytes appends its count and then these bytes. -/
theorem appends_writeCollection {callback : Op ByteBuffer Int} (fits : Fits lenType n)
    (elements : Appends callback n body) :
    Appends (writeCollection lenType callback) () (lengthPrefix lenType n ++ body) := by
  intro buf
  have skipped : writeFixedSize 0 lenType (⟨buf, buf.length⟩ : ByteBuffer) = _ :=
    appends_writeFixedSize fits_zero buf
  have wrote := elements (buf ++ lengthPrefix lenType 0)
  have counted := rewrite_length fits buf body 0
  unfold writeCollection
  rw [bind_of_ok (wrap_of_ok (offset_eq _)), bind_of_ok (wrap_of_ok skipped),
    bind_of_ok (wrap_of_ok wrote), bind_of_ok (wrap_of_ok (offset_eq _)),
    bind_of_ok (wrap_of_ok (goTo_eq _ _)), bind_of_ok (wrap_of_ok counted),
    bind_of_ok (wrap_of_ok (goTo_eq _ _))]
  simp [lengthPrefix, Op.pure_eq]

/-- A reader in front of enough bytes gets them in one call. It gets none without an error only
when it is not at the end. -/
theorem read_bytes (pre rest : Bytes) (follows : body ≠ [] ∨ rest ≠ []) :
    Reader.read body.length (⟨pre ++ body ++ rest, pre.length⟩ : ByteReader) =
      ((body, none), ⟨pre ++ body ++ rest, (pre ++ body).length⟩) := by
  change ByteReader.read _ _ = _
  have more : ¬ (pre ++ body ++ rest).length ≤ pre.length := by
    have : 0 < body.length ∨ 0 < rest.length := follows.imp length_pos_iff.mpr length_pos_iff.mpr
    simp only [length_append]
    omega
  rw [ByteReader.read, if_neg more]
  simp

theorem reads_readFull (filled : body ≠ []) : Reads (readFull body.length) body body := by
  intro pre rest
  have got := read_bytes pre rest (.inl filled)
  generalize size : body.length = length at got
  cases length with
  | zero => exact absurd (eq_nil_of_length_eq_zero size) filled
  | succ missing =>
    unfold readFull readAtLeast
    rw [got]
    dsimp only
    rw [size, Nat.sub_self, nil_append]
    cases missing <;> rfl

theorem readBytes_eq (pre rest : Bytes) (follows : body ≠ [] ∨ rest ≠ []) :
    readBytes body.length (⟨pre ++ body ++ rest, pre.length⟩ : ByteReader) =
      (.ok body, ⟨pre ++ body ++ rest, (pre ++ body).length⟩) := by
  unfold readBytes
  rw [if_neg (by omega), Int.toNat_natCast, read_bytes pre rest follows]
  simp

/-- At the end even no bytes are read with an error. -/
theorem readBytes_end (b : Bytes) : readBytes ([] : Bytes).length (⟨b, b.length⟩ : ByteReader) =
    (.err (.wrap eof "failed to read serialized bytes"), ⟨b, b.length⟩) := by
  simp [readBytes, Reader.read, ByteReader.read]

theorem put_ne_nil (τ : BasicType) (value : τ.Value) : τ.put value ≠ [] := by
  have pos : 0 < τ.size := by
    cases τ with
    | bool => decide
    | num kind => cases kind <;> decide
    | array length => cases length <;> decide
  rw [← length_put τ value] at pos
  exact length_pos_iff.mp pos

theorem reads_read (τ : BasicType) (value : τ.Value) : Reads (read τ) value (τ.put value) := by
  have bytes := reads_readFull (put_ne_nil τ value)
  rw [length_put] at bytes
  intro pre rest
  unfold read
  rw [bind_of_ok (bytes pre rest), get_put]
  rfl

theorem reads_readFixedSize (fits : Fits lenType n) :
    Reads (readFixedSize lenType) n (lengthPrefix lenType n) := by
  have num := reads_read (.num (kindOf lenType)) (ofInt _ n)
  have same : (ofInt (kindOf lenType) n).1 = n := wrap_of_holds fits.1
  rw [put_ofInt fits.1] at num
  intro pre rest
  rw [readFixedSize_eq]
  unfold readLength
  rw [lengthPrefix, bind_of_ok (wrap_of_ok (num pre rest)), same]
  change (Outcome.ok (int64.wrap n), _) = _
  rw [wrap_of_holds fits.2]

theorem reads_readBytesWithSize (fits : Fits lenType bytes.length) :
    Reads (readBytesWithSize lenType) bytes (lengthPrefix lenType bytes.length ++ bytes) := by
  apply Reads.bind (reads_readFixedSize fits).wrap
  by_cases empty : bytes = []
  · rw [empty]
    exact Reads.pure []
  · have size : ¬ (bytes.length : Int) = 0 := by
      have := length_pos_iff.mpr empty
      omega
    rw [if_neg size]
    exact fun pre rest => readBytes_eq pre rest (.inl empty)

/-- Reading the elements one after the other gives them in order. -/
theorem reads_readElements (readOne : Nat → Op ByteReader Element)
    (encoded : Element → Bytes) (elems : List Element) (first : Nat) (kept : List Element)
    (each : ∀ i (below : i < elems.length),
      Reads (readOne (first + i)) elems[i] (encoded elems[i])) :
    Reads (readElements (fun i kept => do return kept ++ [← readOne i]) elems.length first kept)
      (kept ++ elems) (elems.flatMap encoded) := by
  induction elems generalizing first kept with
  | nil =>
    rw [append_nil]
    exact Reads.pure kept
  | cons elem elems ih =>
    have head : Reads (readOne first) elem (encoded elem) := each 0 (Nat.zero_lt_succ _)
    have one : Reads (do return kept ++ [← readOne first]) (kept ++ [elem]) (encoded elem) := by
      intro pre rest
      rw [bind_of_ok (head pre rest)]
      rfl
    have later := ih (first + 1) (kept ++ [elem]) fun i below => by
      have at_ := each (i + 1) (Nat.succ_lt_succ below)
      rw [show first + (i + 1) = first + 1 + i by omega] at at_
      exact at_
    rw [append_assoc] at later
    exact one.wrap.bind later

theorem reads_readCollection (readOne : Nat → Op ByteReader Element)
    (encoded : Element → Bytes) {elems : List Element} (fits : Fits lenType elems.length)
    (each : ∀ i (below : i < elems.length), Reads (readOne i) elems[i] (encoded elems[i])) :
    Reads (readCollection lenType (fun i kept => do return kept ++ [← readOne i]) []) elems
      (lengthPrefix lenType elems.length ++ elems.flatMap encoded) := by
  apply Reads.bind (reads_readFixedSize fits).wrap
  apply reads_readElements readOne encoded elems 0 []
  intro i below
  rw [Nat.zero_add]
  exact each i below

/-- A tree of collections: its leaves are basic values and byte strings with their size. -/
inductive Tree where
  | fixed (τ : BasicType) (value : τ.Value)
  | bytes (lenType : SeriLengthPrefixType) (data : Bytes)
  | collection (lenType : SeriLengthPrefixType) (elems : List Tree)

namespace Tree

/-- The bytes of a tree: at every collection its count and then its elements. -/
def encoding : Tree → Bytes
  | fixed τ value => τ.put value
  | bytes lenType data => lengthPrefix lenType data.length ++ data
  | collection lenType elems => lengthPrefix lenType elems.length ++ elems.flatMap encoding

/-- Every length in the tree can be written. -/
def LengthsFit : Tree → Prop
  | fixed _ _ => True
  | bytes lenType data => Fits lenType data.length
  | collection lenType elems => Fits lenType elems.length ∧ ∀ elem ∈ elems, LengthsFit elem

/-- Write the elements and return their number. -/
def writeAll {σ : Type} [Writer σ] : List (Op σ Unit) → Op σ Int
  | [] => return 0
  | elem :: elems => do
    elem
    let later ← writeAll elems
    return later + 1

def write {σ : Type} [Writer σ] [Seeker σ] : Tree → Op σ Unit
  | fixed τ value => Stream.write τ value
  | bytes lenType data => writeBytesWithSize data lenType
  | collection lenType elems => writeCollection lenType (writeAll (elems.map write))

end Tree

/-- What is read, and how: a basic value, a byte string, or a collection whose elements are read
as their index says. How many there are is not known before. -/
inductive Schema where
  | fixed (τ : BasicType)
  | bytes (lenType : SeriLengthPrefixType)
  | collection (lenType : SeriLengthPrefixType) (elems : Nat → Schema)

def Schema.read {σ : Type} [Reader σ] : Schema → Op σ Tree
  | fixed τ => do return .fixed τ (← Stream.read τ)
  | bytes lenType => do return .bytes lenType (← readBytesWithSize lenType)
  | collection lenType elems => do
    let kept ← readCollection lenType (fun i kept => do return kept ++ [← (elems i).read]) []
    return .collection lenType kept

/-- The tree is one that is read with the schema. -/
inductive Tree.Follows : Tree → Schema → Prop
  | fixed (τ : BasicType) (value : τ.Value) : Follows (.fixed τ value) (.fixed τ)
  | bytes (lenType : SeriLengthPrefixType) (data : Bytes) :
    Follows (.bytes lenType data) (.bytes lenType)
  | collection (lenType : SeriLengthPrefixType) (elems : List Tree) (schemas : Nat → Schema)
    (each : ∀ i (below : i < elems.length), Follows elems[i] (schemas i)) :
    Follows (.collection lenType elems) (.collection lenType schemas)

namespace Tree

/-- The schema of a tree, element by element. -/
def schema : Tree → Schema
  | fixed τ _ => .fixed τ
  | bytes lenType _ => .bytes lenType
  | collection lenType elems =>
    let schemas := elems.map schema
    .collection lenType fun i => schemas.getD i (.fixed .bool)

theorem follows_schema (tree : Tree) : tree.Follows tree.schema := by
  induction tree using schema.induct with
  | case1 τ value =>
    rw [schema]
    exact .fixed τ value
  | case2 lenType data =>
    rw [schema]
    exact .bytes lenType data
  | case3 lenType elems ih =>
    rw [schema]
    refine .collection lenType elems _ fun i below => ?_
    have schemaAt : (elems.map schema).getD i (.fixed .bool) = elems[i].schema := by
      simp [below]
    rw [schemaAt]
    exact ih elems[i] (getElem_mem below)

theorem appends_writeAll (elems : List Tree)
    (each : ∀ elem ∈ elems, Appends (write elem) () (encoded elem)) :
    Appends (writeAll (elems.map write)) elems.length (elems.flatMap encoded) := by
  induction elems with
  | nil => exact Appends.pure 0
  | cons elem elems ih =>
    have head := each elem mem_cons_self
    have later := ih fun other mem => each other (mem_cons_of_mem elem mem)
    intro buf
    rw [map_cons, writeAll, bind_of_ok (head buf), bind_of_ok (later _)]
    simp [Op.pure_eq]

/-- Writing a tree appends its bytes. -/
theorem appends_tree (tree : Tree) (fit : tree.LengthsFit) : Appends tree.write () tree.encoding := by
  induction tree using encoding.induct with
  | case1 τ value =>
    rw [write, encoding]
    exact appends_write
  | case2 lenType data =>
    rw [LengthsFit] at fit
    rw [write, encoding]
    exact appends_writeBytesWithSize fit
  | case3 lenType elems ih =>
    rw [LengthsFit] at fit
    rw [write, encoding]
    exact appends_writeCollection fit.1
      (appends_writeAll elems fun elem mem => ih elem mem (fit.2 elem mem))

/-- Reading the bytes of a tree with a schema that it follows gives the tree. -/
theorem reads_tree {schema : Schema} (follows : tree.Follows schema)
    (fit : tree.LengthsFit) : Reads schema.read tree tree.encoding := by
  induction follows with
  | fixed τ value =>
    intro pre rest
    rw [encoding, Schema.read, bind_of_ok (reads_read τ value pre rest)]
    rfl
  | bytes lenType data =>
    rw [LengthsFit] at fit
    intro pre rest
    rw [encoding, Schema.read, bind_of_ok (reads_readBytesWithSize fit pre rest)]
    rfl
  | collection lenType elems schemas each ih =>
    rw [LengthsFit] at fit
    have elements := reads_readCollection (fun i => (schemas i).read) encoding fit.1
      fun i below => ih i below (fit.2 _ (getElem_mem below))
    intro pre rest
    rw [encoding, Schema.read, bind_of_ok (elements pre rest)]
    rfl

/-- Written at the end of a buffer, a tree of collections becomes its bytes, and the position is
the new end; read from these bytes, whatever follows them, it is the same tree again, and
the reader stops behind them. -/
theorem collections_round_trip (tree : Tree) (fit : tree.LengthsFit) :
    (∀ w : ByteBuffer, w.pos = w.buf.length →
      tree.write w = (.ok (), ⟨w.buf ++ tree.encoding, (w.buf ++ tree.encoding).length⟩)) ∧
    tree.Follows tree.schema ∧
    ∀ schema, tree.Follows schema → ∀ rest,
      schema.read (ByteReader.newByteReader (tree.encoding ++ rest)) =
        (.ok tree, ⟨tree.encoding ++ rest, tree.encoding.length⟩) := by
  refine ⟨fun w atEnd => ?_, tree.follows_schema, fun schema follows rest => ?_⟩
  · obtain ⟨buf, pos⟩ := w
    change pos = buf.length at atEnd
    subst atEnd
    exact tree.appends_tree fit buf
  · exact reads_tree follows fit [] rest

/-- A collection of a collection with one number, a byte string and an empty collection. -/
def nested : Tree :=
  .collection .asByte [.collection .asUint16 [.fixed (.num .uint16) (ofInt .uint16 5)],
      .bytes .asByte [1, 2], .collection .asByte []]

theorem nested_encoding : nested.encoding = [3, 1, 0, 5, 0, 2, 1, 2, 0] := by
  simp only [nested, encoding, flatMap_cons, flatMap_nil]
  decide

theorem nested_lengthsFit : nested.LengthsFit := by
  simp only [nested, LengthsFit, forall_mem_cons]
  exact ⟨by decide, ⟨by decide, trivial, forall_mem_nil _⟩, by decide,
    ⟨by decide, forall_mem_nil _⟩, forall_mem_nil _⟩

/-- The counts of the nested collections stand in front of their elements. -/
theorem nested_round_trip :
    nested.write (⟨[7], 1⟩ : ByteBuffer) =
      (.ok (), ⟨[7, 3, 1, 0, 5, 0, 2, 1, 2, 0], 10⟩) ∧
    nested.schema.read (ByteReader.newByteReader [3, 1, 0, 5, 0, 2, 1, 2, 0, 9]) =
      (.ok nested, ⟨[3, 1, 0, 5, 0, 2, 1, 2, 0, 9], 9⟩) := by
  have both := collections_round_trip nested nested_lengthsFit
  rw [nested_encoding] at both
  exact ⟨both.1 ⟨[7], 1⟩ rfl, both.2.2 _ both.2.1 [9]⟩

end Tree

end HiveGo.Stream
