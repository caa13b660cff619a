import HiveGo.Runs
import HiveGo.Serializable
import HiveGo.ShrinkingMap
import Mathlib.Data.List.DropRight

/-! The filter of the last identifiers. An undefined result stands for a panic of the source, the
first entry of an empty slice. -/
namespace HiveGo
open ShrinkingMap

structure BytesFilter (I : Type) where
  knownIdentifiers : ShrinkingMap I Unit := .new
  identifiers : List I := []
  newIdentifierFunc : Bytes → I
  size : Nat

namespace BytesFilter
open List

variable {I : Type} [DecidableEq I] {b : BytesFilter I}

def containsIdentifier (b : BytesFilter I) (identifier : I) : Bool :=
  b.knownIdentifiers.has identifier

def contains (b : BytesFilter I) (bytes : Bytes) : Bool :=
  b.containsIdentifier (b.newIdentifierFunc bytes)

def addIdentifier (b : BytesFilter I) (identifier : I) : Option (Bool × BytesFilter I) := do
  if b.containsIdentifier identifier then return (false, b)
  let b ←
    if b.identifiers.length = b.size then do
      let oldest ← b.identifiers.head?
      pure { b with
        knownIdentifiers := b.knownIdentifiers.delete oldest
        identifiers := b.identifiers.tail ++ [identifier] }
    else pure { b with identifiers := b.identifiers ++ [identifier] }
  return (true, { b with knownIdentifiers := b.knownIdentifiers.set identifier () })

inductive Call (I : Type) where
  | add (bytes : Bytes)
  | addIdentifier (identifier : I)

def Call.identifier (b : BytesFilter I) : Call I → I
  | add bytes => b.newIdentifierFunc bytes
  | addIdentifier identifier => identifier

/-- A call, and the identifiers that were added so far. -/
def step (s : BytesFilter I × List I) (call : Call I) : Option (BytesFilter I × List I) := do
  let (added, b) ← s.1.addIdentifier (call.identifier s.1)
  return (b, if added then s.2 ++ [call.identifier s.1] else s.2)

/-- The slice and the map hold the last `n` of the identifiers. -/
structure Remembers (f : Bytes → I) (n : Nat) (s : BytesFilter I × List I) : Prop where
  same : s.1.newIdentifierFunc = f
  size : s.1.size = n
  last : s.1.identifiers = s.2.rtake n
  nodup : s.1.identifiers.Nodup
  known : ∀ identifier, s.1.containsIdentifier identifier = true ↔ identifier ∈ s.1.identifiers

theorem remembers_new (f : Bytes → I) (n : Nat) :
    Remembers f n (({ newIdentifierFunc := f, size := n } : BytesFilter I), []) :=
  ⟨rfl, rfl, (rtake_nil n).symm, nodup_nil, fun _ => ⟨nofun, nofun⟩⟩

theorem remembers_concat {kept : List I} {m : ShrinkingMap I Unit} (same : b.newIdentifierFunc = f)
    (size : b.size = n + 1) (last : kept = rtake added n) (nodup : kept.Nodup)
    (fresh : identifier ∉ kept) (known : ∀ other, m.has other = true ↔ other ∈ kept) :
    Remembers f (n + 1) ({ b with
      knownIdentifiers := m.set identifier ()
      identifiers := kept ++ [identifier] }, added ++ [identifier]) := by
  refine ⟨same, size, ?_, ?_, fun other => ?_⟩
  · rw [rtake_concat_succ, ← last]
  · simpa using nodup.concat fresh
  · change ((m.set identifier ()).get other).isSome = true ↔ _
    rw [m.get_set, mem_append, mem_singleton, ← known other]
    by_cases same : identifier = other
    · simp [same]
    · simp [same, Ne.symm same, has]

/-- A new identifier comes last, and the oldest goes if there would be too many. -/
theorem addIdentifier_spec {added : List I} (remembers : Remembers f (n + 1) (b, added)) :
    ∃ after, b.addIdentifier identifier = some (!b.containsIdentifier identifier, after) ∧
      Remembers f (n + 1)
        (after, if b.containsIdentifier identifier then added else added ++ [identifier]) := by
  obtain ⟨same, size, last, nodup, known⟩ := remembers
  dsimp only at same size last nodup known
  unfold addIdentifier
  by_cases contained : b.containsIdentifier identifier = true
  · exact ⟨b, by simp [contained], by simpa [contained] using ⟨same, size, last, nodup, known⟩⟩
  have fresh : identifier ∉ b.identifiers := fun mem => contained ((known identifier).mpr mem)
  simp only [contained, if_false, Bool.not_false, Bool.false_eq_true]
  split
  · rename_i full
    cases listed : b.identifiers with
    | nil => simp [listed, size] at full
    | cons oldest rest =>
      rw [listed] at last nodup fresh known full
      refine ⟨_, rfl, remembers_concat same size ?_ nodup.of_cons (fun mem => fresh (.tail _ mem)) ?_⟩
      · rw [rtake] at last ⊢
        have length := congrArg List.length last
        rw [full, size, length_drop] at length
        have behind : added.length - n = added.length - (n + 1) + 1 := by omega
        rw [behind, ← tail_drop, ← last]
      · intro other
        have listed := known other
        rw [containsIdentifier, has, mem_cons] at listed
        rw [has, get_delete]
        by_cases same : oldest = other
        · simpa [same] using same ▸ (nodup_cons.mp nodup).1
        · simpa [same, Ne.symm same] using listed
  · refine ⟨_, rfl, remembers_concat same size ?_ nodup fresh known⟩
    have length := congrArg List.length last
    rw [rtake, length_drop] at length
    have few : added.length - (n + 1) = added.length - n := by omega
    rw [last, rtake, few, rtake]

theorem step_remembers (s : BytesFilter I × List I) (call : Call I)
    (remembers : Remembers f (n + 1) s) : ∃ next, step s call = some next ∧ Remembers f (n + 1) next := by
  obtain ⟨after, added, kept⟩ := addIdentifier_spec remembers
  refine ⟨_, by rw [step, added]; rfl, ?_⟩
  cases contained : s.1.containsIdentifier (call.identifier s.1) <;> simpa [contained] using kept

/-- After any calls the filter knows the last identifiers that were added, and no more of them than
its size; a call adds exactly what is not known. -/
theorem filter_knows_last (f : Bytes → I) (pos : 0 < n) (calls : List (Call I)) :
    ∃ b added, run step (({ newIdentifierFunc := f, size := n } : BytesFilter I), []) calls =
        some (b, added) ∧
      (∀ identifier, b.containsIdentifier identifier = true ↔ identifier ∈ added.rtake n) ∧
      (∀ bytes, b.contains bytes = true ↔ f bytes ∈ added.rtake n) ∧
      (∀ identifier, ∃ after,
        b.addIdentifier identifier = some (!b.containsIdentifier identifier, after)) ∧
      b.knownIdentifiers.size ≤ n := by
  obtain ⟨n, rfl⟩ := Nat.exists_eq_succ_of_ne_zero (Nat.ne_of_gt pos)
  obtain ⟨⟨b, added⟩, ran, remembers⟩ := run_total
    (fun s call kept (_ : True) => step_remembers s call kept) (remembers_new f (n + 1)) fun _ _ => trivial
  have known := remembers.last ▸ remembers.known
  refine ⟨b, added, ran, known, fun bytes => ?_, fun identifier => ?_, ?_⟩
  · rw [contains, known, remembers.same]
  · obtain ⟨after, called, -⟩ := addIdentifier_spec remembers
    exact ⟨after, called⟩
  · have mem :=
      (perm_ext_iff_of_nodup b.knownIdentifiers.distinct remembers.nodup).mpr fun identifier =>
        ShrinkingMap.mem_keys.trans (remembers.known identifier)
    have length := mem.length_eq
    rw [length_map, remembers.last, rtake, length_drop] at length
    rw [ShrinkingMap.size, length]
    omega

/-- The third identifier drives the first one out, which may come back then. -/
theorem two_known : ∃ b added, run step (({ newIdentifierFunc := id, size := 2 } : BytesFilter Bytes), [])
      [.add [1], .add [1], .addIdentifier [2], .add [3], .add [1]] = some (b, added) ∧
    ∀ identifier, b.containsIdentifier identifier = true ↔ identifier ∈ added.rtake 2 := by
  obtain ⟨b, added, ran, known, -⟩ := filter_knows_last id Nat.two_pos
    [.add [1], .add [1], .addIdentifier [2], .add [3], .add [1]]
  exact ⟨b, added, ran, known⟩

end BytesFilter
end HiveGo
