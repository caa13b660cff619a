import HiveGo.EventConsistency

/-! What a trigger delivers. It calls the callbacks of the event and those of every event that
leads to it, and because the links are a forest it comes to each of them once. -/
namespace HiveGo.Events

open LinkForest List OrderedMap Prod

variable {E C A : Type}

section iteration

variable (s : State E C) (e : E) (a : A) (logOf : E → List (Invocation E C A))

/-- The calls for one hook, when those of the linked events are given. -/
def hookLog (entry : Nat × Hook E C) : List (Invocation E C A) :=
  State.preTrigger (s e).preTriggerFunc a ++ State.preTrigger entry.2.preTriggerFunc a ++
    match entry.2.trigger with
    | .callback f => [.callback (e, entry.1) f a]
    | .trigger linked => logOf linked

variable {s e a logOf}

theorem forEach_eq
    (defined : ∀ entry ∈ hooks, ∀ linked, entry.2.trigger = .trigger linked →
        other linked = some (logOf linked))
    (log : List (Invocation E C A)) :
    (forEach (s.triggerHook e a other) hooks (some log)).2 =
      some (log ++ hooks.flatMap (hookLog s e a logOf)) := by
  induction hooks generalizing log with
  | nil => simp [forEach]
  | cons entry hooks ih =>
    obtain ⟨id, hook⟩ := entry
    obtain ⟨here, rest⟩ := forall_mem_cons.mp defined
    have ran : (s.triggerHook e a other id hook (some log)).2 =
        some (log ++ hookLog s e a logOf (id, hook)) := by
      unfold State.triggerHook hookLog
      cases ran : hook.trigger with
      | callback f => simp
      | trigger linked => simp [here linked ran]
    change (forEach _ hooks (s.triggerHook e a other id hook (some log)).2).2 = _
    rw [ran, ih rest, flatMap_cons, append_assoc]

theorem callbacks_append :
    callbacks (first ++ second) = callbacks first ++ callbacks second := filterMap_append

theorem callbacks_preTrigger :
    callbacks (State.preTrigger preTriggerFunc a : List (Invocation E C A)) = [] := by
  cases preTriggerFunc <;> rfl

theorem callbacks_flatMap (hooks : List (Nat × Hook E C)) :
    callbacks (hooks.flatMap (hookLog s e a logOf)) =
      hooks.flatMap fun entry => callbacks (hookLog s e a logOf entry) := by
  induction hooks with
  | nil => rfl
  | cons entry hooks ih => rw [flatMap_cons, flatMap_cons, callbacks_append, ih]

theorem callbacks_hookLog :
    callbacks (hookLog s e a logOf entry) =
      match entry.2.trigger with
      | .callback f => [((e, entry.1), f, a)]
      | .trigger linked => callbacks (logOf linked) := by
  unfold hookLog
  rw [callbacks_append, callbacks_append, callbacks_preTrigger, callbacks_preTrigger]
  cases entry.2.trigger <;> rfl

end iteration

/-- The calls are those of the hooks of all events that lead to the event, each made once. -/
structure Delivers (s : State E C) (link : E → Option E) (e : E) (a : A)
    (calls : List ((E × Nat) × C × A)) : Prop where
  once : (calls.map fst).Nodup
  exactly : ∀ h f b, (h, f, b) ∈ calls ↔ b = a ∧ s.lookup h = some (.callback f) ∧ Leads link h.1 e

section delivery

variable {s : Session E C} {r : Registry E C} (sound : Consistent s r)
include sound

/-- The hooks in the table of an event. -/
theorem mem_hooks_iff {id : Nat} :
    (∃ entry ∈ (s.events e).hooks, entry.1 = id ∧ entry.2.trigger = triggerFunc) ↔
      s.events.lookup (e, id) = some triggerFunc := by
  rw [State.lookup, Option.map_eq_some_iff]
  constructor
  · rintro ⟨⟨_, hook⟩, mem, rfl, ran⟩
    exact ⟨hook, (get_eq_some (sound.distinct e)).mpr mem, ran⟩
  · rintro ⟨hook, found, ran⟩
    exact ⟨(id, hook), mem_of_get found, rfl, ran⟩

theorem linked_of_hook (mem : entry ∈ (s.events e).hooks)
    (ran : entry.2.trigger = .trigger linked) :
    (s.events linked).link = some (e, entry.1) ∧ Linked r.link linked e := by
  have found := (mem_hooks_iff sound).mp ⟨entry, mem, rfl, ran⟩
  have link := (sound.linked _ linked).mp found
  exact ⟨link, by rw [Linked, sound.link, link]; rfl⟩

variable {e : E} {a : A} {logOf : E → List (Invocation E C A)}
  (children : ∀ child, Linked r.link child e →
    Delivers s.events r.link child a (callbacks (logOf child)))
include children

/-- A call for a hook is a callback of the event, or of an event that leads to a linked one. -/
theorem hookLog_cases (mem : entry ∈ (s.events e).hooks)
    (ran : h ∈ (callbacks (hookLog s.events e a logOf entry)).map fst) :
    h = (e, entry.1) ∨ ∃ linked, (s.events linked).link = some (e, entry.1) ∧
      Linked r.link linked e ∧ Leads r.link h.1 linked := by
  rw [callbacks_hookLog] at ran
  cases kind : entry.2.trigger with
  | callback f =>
    rw [kind] at ran
    exact .inl (mem_singleton.mp ran)
  | trigger linked =>
    rw [kind] at ran
    obtain ⟨⟨_, f, b⟩, inside, rfl⟩ := mem_map.mp ran
    obtain ⟨kept, child⟩ := linked_of_hook sound mem kind
    exact .inr ⟨linked, kept, child, (((children linked child).exactly _ f b).mp inside).2.2⟩

/-- No hook is called for two entries of the table. -/
theorem hooks_apart (acyclic : Acyclic r.link) (left : first ∈ (s.events e).hooks)
    (right : second ∈ (s.events e).hooks)
    (inFirst : h ∈ (callbacks (hookLog s.events e a logOf first)).map fst)
    (inSecond : h ∈ (callbacks (hookLog s.events e a logOf second)).map fst) :
    first.1 = second.1 := by
  rcases hookLog_cases sound children left inFirst with rfl | ⟨one, kept, toE, below⟩
  · rcases hookLog_cases sound children right inSecond with same | ⟨other, -, toE, below⟩
    · exact congrArg snd same
    · exact absurd below (acyclic.not_leads toE)
  · rcases hookLog_cases sound children right inSecond with rfl | ⟨other, also, alsoE, under⟩
    · exact absurd below (acyclic.not_leads toE)
    · obtain rfl := acyclic.child_unique toE alsoE below under
      exact congrArg snd (Option.some.inj (kept.symm.trans also))

/-- One level of the forest: what the linked events deliver together with the own callbacks. -/
theorem delivers_of_children (acyclic : Acyclic r.link) :
    Delivers s.events r.link e a
      (callbacks ((s.events e).hooks.flatMap (hookLog s.events e a logOf))) := by
  rw [callbacks_flatMap]
  constructor
  · rw [map_flatMap, nodup_flatMap]
    refine ⟨fun entry mem => ?_, ?_⟩
    · rw [callbacks_hookLog]
      cases kind : entry.2.trigger with
      | callback f => exact nodup_singleton _
      | trigger linked => exact (children linked (linked_of_hook sound mem kind).2).once
    · have nodup := pairwise_map.mp (sound.distinct e)
      refine nodup.imp_of_mem fun {first second} left right apart h inFirst inSecond => ?_
      exact apart (hooks_apart sound children acyclic left right inFirst inSecond)
  · intro h f b
    rw [mem_flatMap]
    constructor
    · rintro ⟨entry, mem, ran⟩
      rw [callbacks_hookLog] at ran
      cases kind : entry.2.trigger with
      | callback g =>
        rw [kind] at ran
        cases mem_singleton.mp ran
        exact ⟨rfl, (mem_hooks_iff sound).mp ⟨entry, mem, rfl, kind⟩, .refl⟩
      | trigger linked =>
        rw [kind] at ran
        have child := (linked_of_hook sound mem kind).2
        obtain ⟨same, known, leads⟩ := ((children linked child).exactly h f b).mp ran
        exact ⟨same, known, leads.tail child⟩
    · rintro ⟨rfl, known, leads⟩
      rcases leads_iff.mp leads with here | ⟨child, linked, below⟩
      · obtain ⟨event, id⟩ := h
        obtain rfl : event = e := here
        obtain ⟨entry, mem, rfl, ran⟩ := (mem_hooks_iff sound).mpr known
        refine ⟨entry, mem, ?_⟩
        rw [callbacks_hookLog, ran]
        exact mem_singleton_self _
      · have link := sound.link child
        rw [linked] at link
        obtain ⟨⟨target, id⟩, kept, same⟩ := Option.map_eq_some_iff.mp link.symm
        obtain rfl : target = e := same
        obtain ⟨entry, mem, rfl, ran⟩ :=
          (mem_hooks_iff sound).mpr ((sound.linked _ child).mpr kept)
        refine ⟨entry, mem, ?_⟩
        rw [callbacks_hookLog, ran]
        exact ((children child linked).exactly h f b).mpr ⟨rfl, known, below⟩

end delivery

theorem exists_bound (items : List α) (size : α → Nat) :
    ∃ bound, ∀ item ∈ items, size item ≤ bound := by
  exact ⟨(items.map size).max?.getD 0, fun _ mem => le_max?_getD_of_mem (mem_map_of_mem mem)⟩

/-- A trigger ends, and delivers to all events that lead to the event. -/
theorem trigger_delivers [Finite E] (sound : Consistent s r) (acyclic : Acyclic r.link)
    (e : E) (a : A) :
    ∃ enough log, (∀ depth, enough ≤ depth → s.events.trigger depth e a = some log) ∧
      Delivers s.events r.link e a (callbacks log) := by
  induction e using acyclic.wellFounded.induction with
  | _ e ih =>
    choose! enough logOf triggered sent using ih
    obtain ⟨bound, all⟩ := exists_bound (s.events e).hooks fun entry =>
      match entry.2.trigger with
      | .callback _ => 0
      | .trigger linked => enough linked
    refine ⟨bound + 1, (s.events e).hooks.flatMap (hookLog s.events e a logOf), ?_,
      delivers_of_children sound sent acyclic⟩
    intro depth deep
    obtain ⟨depth, rfl⟩ := Nat.exists_eq_add_of_le' (Nat.zero_lt_of_lt deep)
    refine (forEach_eq (fun entry mem linked ran => ?_) []).trans (by rw [nil_append])
    have small : enough linked ≤ bound := by simpa [ran] using all entry mem
    exact triggered linked (linked_of_hook sound mem ran).2 depth (by omega)

/-- After any sequence of operations, a trigger calls exactly the callbacks that are hooked to the
event and to the events whose links lead to it, each once and with the given arguments. -/
theorem trigger_exactly_once [DecidableEq E] [Finite E] (preTriggerFuncs : E → Option C)
    (operations : List (Operation E C)) {s : Session E C}
    (ran : run step (newSession preTriggerFuncs) operations = some s)
    (acyclic : Acyclic (registry operations).link) (e : E) (a : A) :
    ∃ enough log, (∀ depth, enough ≤ depth → s.events.trigger depth e a = some log) ∧
      ((callbacks log).map fst).Nodup ∧
      ∀ h f b, (h, f, b) ∈ callbacks log ↔ b = a ∧ ∃ call : Nat, s.hooks[call]? = some h ∧
        (registry operations).hooked[call]? = some (h.1, f, true) ∧
        Leads (registry operations).link h.1 e := by
  have sound := consistent_run (consistent_new preTriggerFuncs) ran
  obtain ⟨enough, log, ended, delivers⟩ := trigger_delivers sound acyclic e a
  refine ⟨enough, log, ended, delivers.once, fun h f b => ?_⟩
  rw [delivers.exactly, sound.callback]
  constructor
  · rintro ⟨same, ⟨call, done, hooked⟩, leads⟩
    exact ⟨same, call, done, hooked, leads⟩
  · rintro ⟨same, call, done, hooked, leads⟩
    exact ⟨same, ⟨call, done, hooked⟩, leads⟩

/-- Event 1 is linked to event 0, then to event 2: its former target no longer triggers it. -/
theorem trigger_exactly_once_after_relinking : let operations : List (Operation (Fin 3) Nat) :=
      [.hook 1 7 none, .linkTo 1 (some 0), .hook 0 8 none, .linkTo 1 (some 2)]
    ∃ s, run step (newSession fun _ => none) operations = some s ∧
      ∃ enough log, (∀ depth, enough ≤ depth → s.events.trigger depth 0 "a" = some log) ∧
        ((callbacks log).map fst).Nodup ∧
        ∀ h f b, (h, f, b) ∈ callbacks log ↔ b = "a" ∧ ∃ call : Nat, s.hooks[call]? = some h ∧
          (registry operations).hooked[call]? = some (h.1, f, true) ∧
          Leads (registry operations).link h.1 0 := by
  refine ⟨_, rfl, trigger_exactly_once _ _ rfl ?_ 0 "a"⟩
  refine acyclic_of_rank Fin.val ?_
  unfold Linked
  decide

end HiveGo.Events
