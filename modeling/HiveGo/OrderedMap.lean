import Mathlib.Data.List.Nodup
import Mathlib.Logic.Relation

/-! Maps that remember the order in which their keys were set, as lists of entries. -/
namespace HiveGo
open List Prod

theorem getElem?_concat {items : List α} :
    (items ++ [item])[k]? = if k = items.length then some item else items[k]? := by
  grind

theorem getElem?_concat_eq_some {items : List α} : (items ++ [item])[k]? = some found ↔
    items[k]? = some found ∨ k = items.length ∧ item = found := by
  rw [getElem?_concat]
  split <;> simp_all

namespace OrderedMap

variable {α β γ : Type} [DecidableEq α]
variable {entries : List (α × β)}
variable {back : List (α × β)}

def get (key : α) : List (α × β) → Option β
  | [] => none
  | entry :: entries => if entry.1 = key then some entry.2 else get key entries

/-- A key that is set already keeps its place. -/
def set (key : α) (value : β) : List (α × β) → List (α × β)
  | [] => [(key, value)]
  | entry :: entries =>
    if entry.1 = key then (key, value) :: entries else entry :: set key value entries

/-- Set every entry of the other map. -/
def setAll (entries others : List (α × β)) : List (α × β) :=
  others.foldl (fun entries entry => set entry.1 entry.2 entries) entries

omit [DecidableEq α] in
/-- Call a consumer on the entries in their order until it returns false. -/
def forEach (consumer : α → β → γ → Bool × γ) : List (α × β) → γ → Bool × γ
  | [], kept => (true, kept)
  | (key, value) :: entries, kept =>
    let (goOn, kept) := consumer key value kept
    if !goOn then (false, kept) else forEach consumer entries kept

/-- Every key has one entry. -/
def Distinct (entries : List (α × β)) : Prop := (entries.map fst).Nodup

omit [DecidableEq α] in
theorem distinct_nil : Distinct ([] : List (α × β)) := nodup_nil

theorem get_set (key other : α) (value : β) (entries : List (α × β)) :
    get other (set key value entries) = if key = other then some value else get other entries := by
  induction entries with
  | nil => rfl
  | cons entry entries ih =>
    unfold set
    split
    · rename_i same
      rw [get, get, same]
      split <;> rfl
    · rename_i same
      rw [get, get, ih]
      by_cases here : entry.1 = other
      · rw [if_pos here, if_pos here, if_neg (fun also => same (here.trans also.symm))]
      · rw [if_neg here, if_neg here]

private theorem mem_keys_set (mem : other ∈ (set key value entries).map fst) :
    other = key ∨ other ∈ entries.map fst := by
  induction entries with
  | nil => simpa [set] using mem
  | cons entry entries ih =>
    unfold set at mem
    split at mem
    · rename_i same
      rw [map_cons, same]
      simpa using mem
    · rw [map_cons, mem_cons] at mem ⊢
      rcases mem with here | later
      · exact .inr (.inl here)
      · exact (ih later).imp_right Or.inr

theorem Distinct.set (nodup : Distinct entries) (key : α) (value : β) :
    Distinct (set key value entries) := by
  induction entries with
  | nil => simp [Distinct, OrderedMap.set]
  | cons entry entries ih =>
    obtain ⟨fresh, nodup⟩ := nodup_cons.mp nodup
    unfold OrderedMap.set
    split
    · rename_i same
      exact nodup_cons.mpr ⟨same ▸ fresh, nodup⟩
    · rename_i other
      refine nodup_cons.mpr ⟨fun again => ?_, ih nodup⟩
      rcases mem_keys_set again with same | inside
      · exact other same
      · exact fresh inside

theorem get_eq_none : get key entries = none ↔ key ∉ entries.map fst := by
  induction entries with
  | nil => simp [get]
  | cons entry entries ih =>
    unfold get
    by_cases same : entry.1 = key
    · simp [same]
    · simp [same, ih, Ne.symm same]

theorem mem_of_get (found : get key entries = some value) : (key, value) ∈ entries := by
  induction entries with
  | nil => cases found
  | cons entry entries ih =>
    unfold get at found
    split at found
    · next same =>
      cases found
      cases same
      exact mem_cons_self ..
    · exact mem_cons_of_mem _ (ih found)

theorem get_eq_some (nodup : Distinct entries) :
    get key entries = some value ↔ (key, value) ∈ entries := by
  induction entries with
  | nil => simp [get]
  | cons entry entries ih =>
    obtain ⟨first, second⟩ := entry
    obtain ⟨fresh, nodup⟩ := nodup_cons.mp nodup
    unfold get
    by_cases same : first = key
    · subst same
      have absent : (first, value) ∉ entries := fun mem =>
        fresh (mem_map.mpr ⟨_, mem, rfl⟩)
      simp [absent, eq_comm]
    · simp [same, ih nodup, Ne.symm same]

/-- Looking up in the entries whose keys pass a test. -/
theorem get_filter (keep : α → Bool) (key : α) (entries : List (α × β)) :
    get key (entries.filter fun entry => keep entry.1) =
      if keep key then get key entries else none := by
  induction entries with
  | nil => simp [get]
  | cons entry entries ih =>
    by_cases same : entry.1 = key
    · cases kept : keep key <;> simp [get, same, kept, ih]
    · cases kept : keep entry.1 <;> simp [get, same, kept, ih]

/-- Setting all entries of another map: its entries hide the ones before. -/
theorem get_setAll (entries : List (α × β)) (nodup : Distinct others) :
    get key (setAll entries others) = (get key others).or (get key entries) := by
  induction others generalizing entries with
  | nil => rfl
  | cons other others ih =>
    obtain ⟨fresh, nodup⟩ := nodup_cons.mp nodup
    have step := ih (set other.1 other.2 entries) nodup
    unfold setAll at step ⊢
    rw [foldl_cons, step, get_set, get]
    by_cases same : other.1 = key
    · rw [same] at fresh
      rw [get_eq_none.mpr fresh, if_pos same, if_pos same]
      rfl
    · rw [if_neg same, if_neg same]

theorem set_of_fresh (fresh : key ∉ entries.map fst) :
    set key value entries = entries ++ [(key, value)] := by
  induction entries with
  | nil => rfl
  | cons entry entries ih =>
    rw [map_cons, mem_cons, not_or] at fresh
    rw [set, if_neg (Ne.symm fresh.1), ih fresh.2, cons_append]

theorem length_set_of_mem (known : key ∈ entries.map fst) :
    (set key value entries).length = entries.length := by
  induction entries with
  | nil => cases known
  | cons entry entries ih =>
    rw [set]
    split
    · rfl
    · next other => exact congrArg (· + 1) (ih ((mem_cons.mp known).resolve_left (Ne.symm other)))

theorem get_append_cons (fresh : key ∉ front.map fst) :
    get key (front ++ (key, value) :: back) = some value := by
  induction front with
  | nil => exact if_pos rfl
  | cons entry front ih =>
    rw [map_cons, mem_cons, not_or] at fresh
    rw [cons_append, get, if_neg (Ne.symm fresh.1), ih fresh.2]

theorem set_append_cons (fresh : key ∉ front.map fst) :
    set key value (front ++ (key, old) :: back) = front ++ (key, value) :: back := by
  induction front with
  | nil => exact if_pos rfl
  | cons entry front ih =>
    rw [map_cons, mem_cons, not_or] at fresh
    rw [cons_append, set, if_neg (Ne.symm fresh.1), ih fresh.2, cons_append]

/-- The entries without that of a key. -/
def erase (key : α) (entries : List (α × β)) : List (α × β) :=
  entries.filter fun entry => decide (entry.1 ≠ key)

theorem get_erase :
    get other (erase key entries) = if other = key then none else get other entries := by
  rw [erase, get_filter fun kept => decide (kept ≠ key)]
  by_cases same : other = key <;> simp [same]

theorem Distinct.erase (nodup : Distinct entries) (key : α) : Distinct (erase key entries) :=
  nodup.sublist (filter_sublist.map fst)

theorem erase_of_fresh (fresh : key ∉ entries.map fst) : erase key entries = entries := by
  refine filter_eq_self.mpr fun entry mem => decide_eq_true ?_
  rintro rfl
  exact fresh (mem_map.mpr ⟨entry, mem, rfl⟩)

theorem erase_append_cons (pre : key ∉ front.map fst) (after : key ∉ back.map fst) :
    erase key (front ++ (key, value) :: back) = front ++ back := by
  have first := erase_of_fresh pre
  have second := erase_of_fresh after
  unfold erase at first second ⊢
  rw [filter_append, filter_cons_of_neg (by simp), first, second]

/-- Keys that are all new are set in their order. -/
theorem setAll_of_distinct (nodup : Distinct (entries ++ others)) :
    OrderedMap.setAll entries others = entries ++ others := by
  induction others generalizing entries with
  | nil => simp [setAll]
  | cons other others ih =>
    have fresh : other.1 ∉ entries.map fst := by
      unfold Distinct at nodup
      rw [map_append, map_cons] at nodup
      exact fun mem => (nodup_append.mp nodup).2.2 _ mem _ (mem_cons_self ..) rfl
    have step : setAll entries (other :: others) = setAll (entries ++ [other]) others :=
      congrArg (fun entries => setAll entries others) (set_of_fresh fresh)
    rw [step, ih (by simpa using nodup), append_assoc, singleton_append]

/-- What looking up in a map with distinct keys gives does not depend on the order. -/
theorem get_perm (perm : entries.Perm others) (nodup : Distinct entries) :
    get key entries = get key others := by
  have also := (perm.map fst).nodup_iff.mp nodup
  cases found : get key others with
  | none =>
    rw [get_eq_none] at found ⊢
    exact fun mem => found ((perm.map fst).mem_iff.mp mem)
  | some value =>
    rw [get_eq_some also] at found
    rw [get_eq_some nodup]
    exact perm.mem_iff.mpr found

omit [DecidableEq α] in
theorem keys_forall₂ {R : β → γ → Prop}
    (rel : List.Forall₂ (fun entry other => entry.1 = other.1 ∧ R entry.2 other.2) entries others) :
    others.map fst = entries.map fst := by
  induction rel with
  | nil => rfl
  | cons first _ ih => rw [map_cons, map_cons, ih, first.1]

/-- Maps that are related entry by entry are related at every key. -/
theorem get_forall₂ {R : β → γ → Prop}
    (rel : List.Forall₂ (fun entry other => entry.1 = other.1 ∧ R entry.2 other.2) entries others) :
    Option.Rel R (get key entries) (get key others) := by
  induction rel with
  | nil => exact .none
  | cons first _ ih =>
    unfold get
    rw [← first.1]
    split
    · exact .some first.2
    · exact ih

/-- Maps that come from another one by setting some of the keys. -/
inductive Grown (keys : α → Prop) : List (α × β) → List (α × β) → Prop
  | refl (entries : List (α × β)) : Grown keys entries entries
  | set {entries later : List (α × β)} {key : α} {value : β} (inside : keys key)
      (rest : Grown keys (set key value entries) later) : Grown keys entries later

namespace Grown

variable {keys others : α → Prop} {entries later : List (α × β)}

theorem trans (first : Grown keys entries middle) (second : Grown keys middle later) :
    Grown keys entries later := by
  induction first with
  | refl => exact second
  | set mem _ ih => exact .set mem (ih second)

theorem mono (included : ∀ key, keys key → others key) (grown : Grown keys entries later) :
    Grown others entries later := by
  induction grown with
  | refl => exact .refl _
  | set mem _ ih => exact .set (included _ mem) ih

/-- The other keys are as they were. -/
theorem get_eq (grown : Grown keys entries later) (out : ¬ keys key) :
    get key later = get key entries := by
  induction grown with
  | refl => rfl
  | set mem _ ih =>
    rw [ih, get_set, if_neg]
    rintro rfl
    exact out mem

theorem distinct (grown : Grown keys entries later) (start : Distinct entries) : Distinct later := by
  induction grown with
  | refl => exact start
  | set _ _ ih => exact ih (start.set _ _)

/-- A map that was empty at first has only keys that were set. -/
theorem mem_keys (grown : Grown keys [] later) : ∀ key ∈ later.map fst, keys key := by
  intro key mem
  by_contra outside
  have free := grown.get_eq outside
  exact get_eq_none.mp free mem

theorem setAll (mem : ∀ key ∈ middle.map fst, keys key) :
    Grown keys entries (OrderedMap.setAll entries middle) := by
  induction middle generalizing entries with
  | nil => exact .refl _
  | cons entry middle ih =>
    rw [map_cons, forall_mem_cons] at mem
    exact .set mem.1 (ih mem.2)

end Grown

end OrderedMap

end HiveGo
