import HiveGo.Events

/-! The tables of the events after any sequence of operations. Returned hooks and links are told
apart by their ids, so that the tables always say who is hooked and who is linked. -/
namespace HiveGo.Events
open List OrderedMap Function Option State

variable {E C : Type}

/-- What a hook calls, if it is registered. -/
def State.lookup (s : State E C) (h : E × Nat) : Option (TriggerFunc E C) :=
  (get h.2 (s h.1).hooks).map Hook.trigger

/-- The tables of the events agree with the registry. -/
structure Consistent (s : Session E C) (r : Registry E C) : Prop where
  distinct : ∀ e, OrderedMap.Distinct (s.events e).hooks
  counted : ∀ h, (s.events.lookup h).isSome → h.2 ≤ (s.events h.1).hooksCounter
  returned : ∀ h ∈ s.hooks, h.2 ≤ (s.events h.1).hooksCounter
  nodup : s.hooks.Nodup
  length : s.hooks.length = r.hooked.length
  callback : ∀ h f, s.events.lookup h = some (.callback f) ↔
    ∃ call : Nat, s.hooks[call]? = some h ∧ r.hooked[call]? = some (h.1, f, true)
  linked : ∀ h e, s.events.lookup h = some (.trigger e) ↔ (s.events e).link = some h
  notReturned : ∀ h e, (s.events e).link = some h → h ∉ s.hooks
  link : ∀ e, r.link e = (s.events e).link.map Prod.fst

section operations

variable [DecidableEq E] {s : State E C}

theorem hook_snd (other : E) :
    (s.hook e triggerFunc preTriggerFunc).2 other = if other = e then { s e with
      hooksCounter := (s e).hooksCounter + 1
      hooks := set ((s e).hooksCounter + 1) ⟨triggerFunc, preTriggerFunc⟩ (s e).hooks }
    else s other := by
  simp [hook, update_apply]

theorem lookup_hook (h : E × Nat) :
    (s.hook e triggerFunc preTriggerFunc).2.lookup h =
      if h = (e, (s e).hooksCounter + 1) then some triggerFunc else s.lookup h := by
  obtain ⟨other, id⟩ := h
  simp only [State.lookup, hook_snd, Prod.mk.injEq]
  by_cases same : other = e
  · subst same
    simp only [if_true, true_and, get_set]
    by_cases new : id = (s other).hooksCounter + 1
    · simp [new]
    · rw [if_neg new, if_neg (Ne.symm new)]
  · simp [same]

theorem link_hook (other : E) :
    ((s.hook e triggerFunc preTriggerFunc).2 other).link = (s other).link := by
  rw [hook_snd]
  split
  · rename_i same
    rw [same]
  · rfl

theorem le_counter_hook (other : E) :
    (s other).hooksCounter ≤ ((s.hook e triggerFunc preTriggerFunc).2 other).hooksCounter := by
  rw [hook_snd]
  split
  · rename_i same
    rw [same]
    exact Nat.le_succ _
  · exact le_rfl

theorem distinct_hook (nodup : ∀ e, OrderedMap.Distinct (s e).hooks) (preTriggerFunc : Option C)
    (other : E) : OrderedMap.Distinct ((s.hook e triggerFunc preTriggerFunc).2 other).hooks := by
  rw [hook_snd]
  split
  · exact (nodup e).set _ _
  · exact nodup other

theorem unhook_apply :
    s.unhook h other = if other = h.1 then { s h.1 with hooks := erase h.2 (s h.1).hooks }
      else s other := by
  simp [unhook, update_apply]

theorem lookup_unhook : (s.unhook h).lookup other = if other = h then none else s.lookup other := by
  obtain ⟨e, id⟩ := h
  obtain ⟨f, key⟩ := other
  simp only [State.lookup, unhook_apply, Prod.mk.injEq]
  by_cases same : f = e
  · subst same
    simp only [if_true, true_and, get_erase]
    split <;> rfl
  · simp [same]

theorem link_unhook : (s.unhook h other).link = (s other).link := by
  rw [unhook_apply]
  split
  · rename_i same
    rw [same]
  · rfl

theorem counter_unhook : (s.unhook h other).hooksCounter = (s other).hooksCounter := by
  rw [unhook_apply]
  split
  · rename_i same
    rw [same]
  · rfl

theorem distinct_unhook (nodup : ∀ e, OrderedMap.Distinct (s e).hooks) (other : E) :
    OrderedMap.Distinct (s.unhook h other).hooks := by
  rw [unhook_apply]
  split
  · exact (nodup h.1).erase h.2
  · exact nodup other

theorem setLink_apply :
    s.setLink e link other = { s other with
      link := if other = e then link else (s other).link } := by
  rw [setLink, update_apply]
  split
  · rename_i same
    rw [same]
  · rfl

theorem lookup_setLink : (s.setLink e link).lookup h = s.lookup h := by
  simp [State.lookup, setLink_apply]

/-- Linking to an event is unlinking first. -/
theorem linkTo_some :
    s.linkTo e (some target) =
      ((s.linkTo e none).hook target (.trigger e) none).2.setLink e
        (some (target, ((s.linkTo e none).hook target (.trigger e) none).1)) := by
  simp only [linkTo]
  funext other
  rw [setLink_apply, setLink_apply, hook_snd, hook_snd]
  simp only [hook, setLink_apply]
  by_cases here : other = e
  · subst here
    by_cases there : other = target <;> simp [there]
  · by_cases there : other = target
    · subst there
      simp [here]
    · simp [here, there]

end operations

section consistency

variable {r : Registry E C}

theorem Consistent.fresh (sound : Consistent s r) (e : E) :
    s.events.lookup (e, (s.events e).hooksCounter + 1) = none := by
  cases found : s.events.lookup (e, (s.events e).hooksCounter + 1) with
  | none => rfl
  | some triggerFunc =>
    have bound := sound.counted (e, (s.events e).hooksCounter + 1) (by rw [found]; rfl)
    exact absurd bound (Nat.not_succ_le_self _)

theorem Consistent.fresh_link (sound : Consistent s r) :
    (s.events other).link ≠ some (e, (s.events e).hooksCounter + 1) := by
  intro linked
  have found := (sound.linked _ other).mpr linked
  rw [sound.fresh e] at found
  cases found

theorem consistent_new (preTriggerFuncs : E → Option C) :
    Consistent (newSession preTriggerFuncs) {} where
  distinct _ := distinct_nil
  counted _ found := by cases found
  returned _ absurd := by cases absurd
  nodup := .nil
  length := rfl
  callback _ _ := by simp [newSession, State.lookup, OrderedMap.get]
  linked _ _ := by simp [newSession, State.lookup, OrderedMap.get]
  notReturned _ _ absurd := by cases absurd
  link _ := rfl

variable [DecidableEq E]

theorem Consistent.counted_hook (sound : Consistent s r) (e : E) (preTriggerFunc : Option C)
    (h : E × Nat) (found : ((s.events.hook e triggerFunc preTriggerFunc).2.lookup h).isSome) :
    h.2 ≤ ((s.events.hook e triggerFunc preTriggerFunc).2 h.1).hooksCounter := by
  rw [lookup_hook] at found
  split at found
  · rename_i new
    rw [hook_snd, new, if_pos rfl]
  · exact (sound.counted h found).trans (le_counter_hook ..)

theorem Consistent.hook (sound : Consistent s r) (e : E) (f : C)
    (preTriggerFunc : Option C) :
    Consistent
      { events := (s.events.hook e (.callback f) preTriggerFunc).2
        hooks := s.hooks ++ [(e, (s.events e).hooksCounter + 1)] }
      { r with hooked := r.hooked ++ [(e, f, true)] } := by
  have absent : (e, (s.events e).hooksCounter + 1) ∉ s.hooks := fun mem =>
    Nat.not_succ_le_self _ (sound.returned _ mem)
  refine ⟨distinct_hook sound.distinct _, sound.counted_hook e _, ?_, ?_, ?_, ?_, ?_, ?_, ?_⟩
  · intro h mem
    rcases mem_append.mp mem with older | new
    · exact (sound.returned h older).trans (le_counter_hook ..)
    · cases mem_singleton.mp new
      change _ ≤ ((s.events.hook e _ _).2 e).hooksCounter
      rw [hook_snd, if_pos rfl]
  · rw [nodup_append]
    refine ⟨sound.nodup, nodup_singleton _, fun h older other new same => ?_⟩
    rw [same, mem_singleton.mp new] at older
    exact absent older
  · simp [sound.length]
  · intro h g
    simp only [getElem?_concat_eq_some]
    rw [lookup_hook]
    split
    · rename_i new
      subst new
      constructor
      · intro same
        cases same
        exact ⟨s.hooks.length, .inr ⟨rfl, rfl⟩, .inr ⟨sound.length, rfl⟩⟩
      · rintro ⟨call, older | ⟨last, -⟩, entry⟩
        · exact absurd (mem_of_getElem? older) absent
        · rcases entry with older | ⟨-, same⟩
          · have bound := (List.getElem?_eq_some_iff.mp older).1
            have length := sound.length
            omega
          · cases same
            rfl
    · rename_i other
      rw [sound.callback h g]
      constructor
      · rintro ⟨call, found, entry⟩
        exact ⟨call, .inl found, .inl entry⟩
      · rintro ⟨call, found | ⟨-, same⟩, entry⟩
        · rcases entry with entry | ⟨last, -⟩
          · exact ⟨call, found, entry⟩
          · have bound := (List.getElem?_eq_some_iff.mp found).1
            have length := sound.length
            omega
        · exact absurd same.symm other
  · intro h other
    rw [lookup_hook, link_hook]
    split
    · rename_i new
      rw [new]
      simp [sound.fresh_link]
    · exact sound.linked h other
  · intro h other linked
    rw [link_hook] at linked
    rw [mem_append, mem_singleton, not_or]
    refine ⟨sound.notReturned h other linked, ?_⟩
    rintro rfl
    exact sound.fresh_link linked
  · intro other
    rw [link_hook]
    exact sound.link other

theorem Consistent.unhook (sound : Consistent s r) (done : s.hooks[call]? = some h) :
    Consistent { s with events := s.events.unhook h } (r.step (.unhook call)) := by
  have mem := mem_of_getElem? done
  have bound := (List.getElem?_eq_some_iff.mp done).1
  refine ⟨distinct_unhook sound.distinct, ?_, ?_, sound.nodup, ?_, ?_, ?_, ?_, ?_⟩
  · intro other found
    rw [lookup_unhook] at found
    rw [counter_unhook]
    split at found
    · cases found
    · exact sound.counted other found
  · intro other inside
    rw [counter_unhook]
    exact sound.returned other inside
  · exact sound.length.trans (length_modify ..).symm
  · intro other f
    have entry : ∀ k, (r.step (.unhook call)).hooked[k]? = (r.hooked[k]?).map fun entry =>
        if call = k then (entry.1, entry.2.1, false) else entry := fun k => getElem?_modify ..
    simp only [entry, map_eq_some_iff]
    rw [lookup_unhook]
    split
    · rename_i same
      subst same
      simp only [reduceCtorEq, false_iff]
      rintro ⟨k, found, ⟨e, g, hooked⟩, -, removed⟩
      have position :=
        (getElem?_inj bound sound.nodup).mp (done.trans found.symm)
      simp [position] at removed
    · rename_i apart
      rw [sound.callback other f]
      have elsewhere : ∀ k, s.hooks[k]? = some other → call ≠ k := by
        rintro k found rfl
        exact apart (some.inj (found.symm.trans done))
      constructor
      · rintro ⟨k, found, active⟩
        exact ⟨k, found, _, active, if_neg (elsewhere k found)⟩
      · rintro ⟨k, found, entry, active, kept⟩
        rw [if_neg (elsewhere k found)] at kept
        exact ⟨k, found, kept ▸ active⟩
  · intro other e
    rw [lookup_unhook, link_unhook]
    split
    · rename_i same
      subst same
      simp only [reduceCtorEq, false_iff]
      exact fun linked => sound.notReturned _ e linked mem
    · exact sound.linked other e
  · intro other e linked
    rw [link_unhook] at linked
    exact sound.notReturned other e linked
  · intro e
    rw [link_unhook]
    exact sound.link e

/-- The events after the previous hook of one of them was unhooked and forgotten. -/
theorem lookup_unlink (s : State E C) (e : E) :
    (s.linkTo e none).lookup h = if (s e).link = some h then none else s.lookup h := by
  simp only [linkTo, lookup_setLink, unhookLink]
  cases (s e).link with
  | none => rfl
  | some link =>
    rw [lookup_unhook]
    simp [eq_comm]

theorem unlink_apply (s : State E C) :
    (s.linkTo e none other).link = (if other = e then none else (s other).link) ∧
      (s.linkTo e none other).hooksCounter = (s other).hooksCounter := by
  simp only [linkTo, setLink_apply, unhookLink]
  cases (s e).link with
  | none => exact ⟨rfl, rfl⟩
  | some link => simp [link_unhook, counter_unhook]

theorem Consistent.unlink (sound : Consistent s r) (e : E) :
    Consistent { s with events := s.events.linkTo e none } (r.step (.linkTo e none)) := by
  refine ⟨?_, ?_, ?_, sound.nodup, sound.length, ?_, ?_, ?_, ?_⟩
  · intro other
    simp only [linkTo, setLink_apply, unhookLink]
    cases (s.events e).link with
    | none => exact sound.distinct other
    | some link => exact distinct_unhook sound.distinct other
  · intro h found
    rw [lookup_unlink] at found
    rw [(unlink_apply ..).2]
    split at found
    · cases found
    · exact sound.counted h found
  · intro h mem
    rw [(unlink_apply ..).2]
    exact sound.returned h mem
  · intro h f
    rw [lookup_unlink]
    split
    · rename_i own
      simp only [reduceCtorEq, false_iff]
      rintro ⟨call, found, -⟩
      exact sound.notReturned h e own (mem_of_getElem? found)
    · exact sound.callback h f
  · intro h other
    rw [lookup_unlink, (unlink_apply ..).1]
    split
    · rename_i own
      simp only [reduceCtorEq, false_iff]
      intro linked
      split at linked
      · cases linked
      · rename_i apart
        have same := ((sound.linked h e).mpr own).symm.trans ((sound.linked h other).mpr linked)
        cases same
        exact apart rfl
    · rename_i own
      rw [sound.linked h other]
      split
      · rename_i same
        simp [same, own]
      · rfl
  · intro h other linked
    rw [(unlink_apply ..).1] at linked
    split at linked
    · cases linked
    · exact sound.notReturned h other linked
  · intro other
    rw [(unlink_apply ..).1]
    change update r.link e none other = _
    rw [update_apply]
    split
    · rfl
    · exact sound.link other

theorem Consistent.relink (sound : Consistent s r) (unlinked : (s.events e).link = none)
    (target : E) : Consistent
      { s with
        events := (s.events.hook target (.trigger e) none).2.setLink e
          (some (target, (s.events target).hooksCounter + 1)) }
      (r.step (.linkTo e (some target))) := by
  have absent : (target, (s.events target).hooksCounter + 1) ∉ s.hooks := fun mem =>
    Nat.not_succ_le_self _ (sound.returned _ mem)
  refine ⟨?_, ?_, ?_, sound.nodup, sound.length, ?_, ?_, ?_, ?_⟩
  · intro other
    simp only [setLink_apply]
    exact distinct_hook sound.distinct _ other
  · intro h found
    rw [lookup_setLink] at found
    simp only [setLink_apply]
    exact sound.counted_hook target _ h found
  · intro h inside
    simp only [setLink_apply]
    exact (sound.returned h inside).trans (le_counter_hook ..)
  · intro h f
    rw [lookup_setLink, lookup_hook]
    split
    · rename_i new
      subst new
      simp only [some.injEq, reduceCtorEq, false_iff]
      rintro ⟨call, found, -⟩
      exact absent (mem_of_getElem? found)
    · exact sound.callback h f
  · intro h other
    rw [lookup_setLink, lookup_hook]
    simp only [setLink_apply, link_hook]
    by_cases new : h = (target, (s.events target).hooksCounter + 1)
    · subst new
      by_cases same : other = e
      · simp [same]
      · simp [same, Ne.symm same, sound.fresh_link]
    · rw [if_neg new, sound.linked h other]
      by_cases same : other = e
      · simp [same, unlinked, Ne.symm new]
      · simp [same]
  · intro h other linked
    simp only [setLink_apply, link_hook] at linked
    split at linked
    · cases linked
      exact absent
    · exact sound.notReturned h other linked
  · intro other
    change update r.link e (some target) other = _
    simp only [update_apply, setLink_apply, link_hook]
    split
    · rfl
    · exact sound.link other

theorem Consistent.step {next : Session E C} (sound : Consistent s r)
    (ran : Events.step s operation = some next) : Consistent next (r.step operation) := by
  cases operation with
  | hook e f preTriggerFunc =>
    cases ran
    exact sound.hook e f preTriggerFunc
  | unhook call =>
    obtain ⟨h, done, same⟩ := bind_eq_some_iff.mp ran
    cases same
    exact sound.unhook done
  | linkTo e target =>
    cases ran
    cases target with
    | none => exact sound.unlink e
    | some target =>
      have unlinked := sound.unlink e
      have relinked := unlinked.relink (e := e) (by rw [(unlink_apply ..).1, if_pos rfl]) target
      rw [linkTo_some]
      have same : (r.step (.linkTo e none)).step (.linkTo e (some target)) =
          r.step (.linkTo e (some target)) := by
        simp [Registry.step]
      rw [← same]
      exact relinked

/-- After any sequence of operations the tables agree with the registry. -/
theorem consistent_run (sound : Consistent s r)
    (ran : run Events.step s operations = some last) :
    Consistent last (operations.foldl Registry.step r) := by
  induction operations generalizing s r with
  | nil =>
    cases ran
    exact sound
  | cons operation operations ih =>
    obtain ⟨next, stepped, rest⟩ := bind_eq_some_iff.mp ran
    exact ih (sound.step stepped) rest

end consistency

end HiveGo.Events
