import LiveQuery.Proofs.Live.Settling

/-! # Clearing

A removal undoes the subscriptions of those who leave: listeners who were added for them leave no trace, not even an
empty list (`Audience.remove_subscribe`), and where none of them listens nothing changes (`Audience.remove_of_free`),
since no list of a reachable database is empty (`Reachable.full`).

While one task is left and no notice is under way, the listeners that a table will have once the task is done are
settled (`Database.hereafter`); a step keeps them (`Database.Alone.step`).
-/
namespace LiveQuery

/-! ## Listeners without empty lists -/

namespace Keyed

variable {κ α β : Type}

theorem mapValues_eq_self {m : List (κ × α)} {f : α → α} (h : ∀ e ∈ m, f e.2 = e.2) : mapValues f m = m := by
  have hsame : ∀ e ∈ m, (e.1, f e.2) = id e := fun e he => by rw [h e he]; rfl
  rw [mapValues, List.map_congr_left hsame, List.map_id]

variable [DecidableEq κ] [LT κ] [DecidableLT κ] [Std.Irrefl (fun a b : κ => a < b)]
  [Trans (fun a b : κ => a < b) (fun a b : κ => a < b) (fun a b : κ => a < b)]

/-- A value that is stored does not matter if it comes to what was there, or if there was nothing and it is dropped. -/
theorem Ordered.filter_mapValues_insert {m : List (κ × α)} (h : Ordered m) (f : α → β) (p : β → Bool) {k : κ} {v : α}
    (hold : ∀ v', find? m k = some v' → f v = f v') (hnew : find? m k = none → p (f v) = false) :
    (Keyed.mapValues f (Keyed.insert m k v)).filter (p ·.2) = (Keyed.mapValues f m).filter (p ·.2) := by
  induction m with
  | nil => simp [Keyed.insert, Keyed.mapValues, hnew rfl]
  | cons e m ih =>
    obtain ⟨he, hm⟩ := List.pairwise_cons.mp h
    simp only [Keyed.insert]
    split
    next hlt =>
      have hnone : find? (e :: m) k = none := find?_eq_none.mpr fun hk => by
        rcases List.mem_cons.mp hk with rfl | hk
        · exact ne_of_irrefl hlt rfl
        · obtain ⟨d, hd, rfl⟩ := List.mem_map.mp hk
          exact ne_of_irrefl (Trans.trans (r := (· < ·)) (s := (· < ·)) hlt (he d hd)) rfl
      simp [Keyed.mapValues, hnew hnone]
    next =>
      split
      next heq =>
        subst heq
        have hv := hold e.2 (by rw [find?_cons, if_pos rfl])
        simp only [Keyed.mapValues, List.map_cons, hv]
      next hne =>
        have hfind : find? (e :: m) k = find? m k := by rw [find?_cons, if_neg fun heq => hne heq.symm]
        rw [hfind] at hold hnew
        simp only [Keyed.mapValues, List.map_cons, List.filter_cons] at ih ⊢
        rw [ih hm hold hnew]

end Keyed

namespace Listeners

theorem without_add (ls : List Listener) {l : Listener} {d : Leaving} (h : d.covers l = true) :
    without (add ls l) d = without ls d := by
  induction ls with
  | nil => simp [add, without, h]
  | cons k ls ih =>
    rw [add]
    split
    next => simp [without, h]
    next => simp only [without, List.filter_cons] at ih ⊢; rw [ih]

theorem add_ne_nil (ls : List Listener) (l : Listener) : add ls l ≠ [] :=
  fun h => List.not_mem_nil (h ▸ (add_perm ls l).mem_iff.mpr List.mem_cons_self)

theorem without_of_free {ls : List Listener} {d : Leaving} (h : ∀ l ∈ ls, d.covers l = false) : without ls d = ls :=
  List.filter_eq_self.mpr fun l hl => by rw [h l hl]; rfl

end Listeners

namespace Audience

variable {t : Audience} {d : Leaving}

/-- No list is empty. -/
structure Full (t : Audience) : Prop where
  columns : ∀ c ∈ t.byValue, c.2 ≠ []
  values : ∀ c ∈ t.byValue, ∀ e ∈ c.2, e.2 ≠ []
  rows : ∀ e ∈ t.byRow, e.2 ≠ []

theorem full_empty : Full {} := ⟨by simp, by simp, by simp⟩

theorem mem_alter {lists : List (Bytes × List Listener)} {k : Bytes} {l : Listener} {e : Bytes × List Listener}
    (h : e ∈ Keyed.alter lists k fun ls => Listeners.add (ls.getD []) l) (hfull : ∀ e ∈ lists, e.2 ≠ []) :
    e.2 ≠ [] := by
  rcases Keyed.mem_of_mem_insert h with rfl | h
  · exact Listeners.add_ne_nil _ l
  · exact hfull e h

theorem Full.subscribe (h : t.Full) (x : Subscription) : (t.subscribe x).Full := by
  cases x with
  | table _ filter l =>
    cases filter with
    | none => exact ⟨h.columns, h.values, h.rows⟩
    | some filter =>
      have hvalues : ∀ e ∈ t.valuesOf filter.1, e.2 ≠ [] := by
        unfold valuesOf
        cases hfind : Keyed.find? t.byValue filter.1 with
        | none => simp
        | some values => exact h.values _ (Keyed.mem_of_find? hfind)
      refine ⟨fun c hc => ?_, fun c hc e he => ?_, h.rows⟩
      · rcases Keyed.mem_of_mem_insert hc with rfl | hc
        · exact List.ne_nil_of_mem (Keyed.mem_insert_self _ _ _)
        · exact h.columns c hc
      · rcases Keyed.mem_of_mem_insert hc with rfl | hc
        · exact mem_alter he hvalues
        · exact h.values c hc e he
  | record _ key l => exact ⟨h.columns, h.values, fun e he => mem_alter he h.rows⟩

theorem ne_nil_of_sweepLists {lists : List (Bytes × List Listener)} : ∀ e ∈ sweepLists lists d, e.2 ≠ [] := by
  intro e he
  simpa using (List.mem_filter.mp he).2

theorem full_remove (t : Audience) (d : Leaving) : (t.remove d).Full := by
  refine ⟨fun c hc => ?_, fun c hc => ?_, ne_nil_of_sweepLists⟩
  · simpa using (List.mem_filter.mp hc).2
  · obtain ⟨c', -, rfl⟩ := List.mem_map.mp (List.mem_of_mem_filter hc)
    exact ne_nil_of_sweepLists

theorem Full.handle (h : t.Full) (p : Post) : (Actor.handle t p).1.Full := by
  cases p with
  | subscribe x => exact h.subscribe x
  | remove d => exact full_remove t d
  | event e => exact h

/-! ## Adding and removing -/

theorem sweepLists_alter {lists : List (Bytes × List Listener)} (h : Keyed.Ordered lists) (k : Bytes) {l : Listener}
    (hl : d.covers l = true) :
    sweepLists (Keyed.alter lists k fun ls => Listeners.add (ls.getD []) l) d = sweepLists lists d := by
  refine h.filter_mapValues_insert (Listeners.without · d) (fun ls => !ls.isEmpty) (fun ls hls => ?_) fun hnone => ?_
  · rw [Listeners.without_add _ hl, hls]
    rfl
  · rw [Listeners.without_add _ hl, hnone]
    rfl

/-- Who is added and then leaves was never there. -/
theorem remove_subscribe (h : t.Ordered) {x : Subscription} (hx : d.covers x.listener = true) :
    (t.subscribe x).remove d = t.remove d := by
  cases x with
  | table _ filter l =>
    have hl : d.covers l = true := hx
    cases filter with
    | none => simp only [subscribe, addWhole, remove, Listeners.without_add _ hl]
    | some filter =>
      have hsweep := sweepLists_alter (h.valuesOf filter.1) filter.2 hl
      have hcolumns := h.columns.filter_mapValues_insert (sweepLists · d) (fun lists => !lists.isEmpty)
        (k := filter.1) (v := Keyed.alter (t.valuesOf filter.1) filter.2 fun ls => Listeners.add (ls.getD []) l)
        (fun values hvalues => by rw [hsweep, valuesOf, hvalues]; rfl)
        (fun hnone => by rw [hsweep, valuesOf, hnone]; rfl)
      simp only [subscribe, addValue, remove]
      rw [hcolumns]
  | record _ key l =>
    have hl : d.covers l = true := hx
    simp only [subscribe, addRow, remove, sweepLists_alter h.rows key hl]

theorem sweepLists_of_free {lists : List (Bytes × List Listener)} (hfull : ∀ e ∈ lists, e.2 ≠ [])
    (hfree : ∀ e ∈ lists, ∀ l ∈ e.2, d.covers l = false) : sweepLists lists d = lists := by
  have hsame : Keyed.mapValues (Listeners.without · d) lists = lists :=
    Keyed.mapValues_eq_self fun e he => Listeners.without_of_free (hfree e he)
  rw [sweepLists, hsame]
  exact List.filter_eq_self.mpr fun e he => by simpa using hfull e he

/-- Where none of those who leave listens nothing changes. -/
theorem remove_of_free (h : t.Full) {name : String} (hfree : ∀ x ∈ t.subscriptions name, d.covers x.listener = false) :
    t.remove d = t := by
  have hwhole : ∀ l ∈ t.whole, d.covers l = false := fun l hl =>
    hfree (.table name none l) (List.mem_append_left _ (List.mem_append_left _ (List.mem_map_of_mem hl)))
  have hvalues : ∀ c ∈ t.byValue, ∀ e ∈ c.2, ∀ l ∈ e.2, d.covers l = false := fun c hc e he l hl =>
    hfree (.table name (some (c.1, e.1)) l) (List.mem_append_left _ (List.mem_append_right _
      (List.mem_flatMap.mpr ⟨c, hc, List.mem_flatMap.mpr ⟨e, he, List.mem_map_of_mem hl⟩⟩)))
  have hrows : ∀ e ∈ t.byRow, ∀ l ∈ e.2, d.covers l = false := fun e he l hl =>
    hfree (.record name e.1 l) (List.mem_append_right _ (List.mem_flatMap.mpr ⟨e, he, List.mem_map_of_mem hl⟩))
  have hcolumns : Keyed.mapValues (sweepLists · d) t.byValue = t.byValue :=
    Keyed.mapValues_eq_self fun c hc => sweepLists_of_free (h.values c hc) (hvalues c hc)
  have hkept : t.byValue.filter (fun c => !c.2.isEmpty) = t.byValue :=
    List.filter_eq_self.mpr fun c hc => by simpa using h.columns c hc
  rw [remove, Listeners.without_of_free hwhole, hcolumns, hkept, sweepLists_of_free h.rows hrows]

/-- A removal clears away the subscriptions of those who leave, and nothing else if none of them listened before. -/
theorem remove_foldl_subscribe (ht : t.Ordered) (hfull : t.Full) {name : String}
    (hfree : ∀ x ∈ t.subscriptions name, d.covers x.listener = false) {sent : List Subscription}
    (hsent : ∀ x ∈ sent, d.covers x.listener = true) : (sent.foldl subscribe t).remove d = t := by
  suffices hremove : (sent.foldl subscribe t).remove d = t.remove d by rw [hremove, remove_of_free hfull hfree]
  clear hfull hfree
  induction sent generalizing t with
  | nil => rfl
  | cons x sent ih =>
    obtain ⟨hx, hsent⟩ := List.forall_mem_cons.mp hsent
    rw [List.foldl_cons, ih (ht.subscribe x) hsent, remove_subscribe ht hx]

end Audience

/-! ## In every database -/

namespace Database

variable {s t : Database}

/-- No list of listeners is empty. -/
def Full (s : Database) : Prop := ∀ table, (s.engine.actor table).listeners.Full

theorem Full.act (h : s.Full) (a : Action) : (s.act a).Full := by
  intro table
  rcases s.engine_act a with ⟨-, heq⟩ | ⟨name, p, -, heq⟩
  · rw [heq]
    exact h table
  · rw [heq, Engine.actor_post]
    split <;> exact h table

theorem Full.step (h : s.Full) (hstep : Step s t) : t.Full := by
  cases hstep with
  | task fuel order i hstep =>
    obtain ⟨task, others, s', next, -, hturn, -, ht⟩ := stepTask_split hstep
    suffices hs' : s'.Full by rw [ht]; exact hs'
    cases hturn with
    | idle | done => exact h
    | starts hstarts => rw [hstarts.frame]; exact h
    | acts => exact h.act _
  | actor name hstep =>
    obtain ⟨p, rest, -, rfl⟩ := stepActor_eq hstep
    intro table
    rw [foldl_notice_frame, Engine.actor_setActor]
    split
    next => exact (h name).handle p
    next => exact h table

end Database

theorem Reachable.full {s : Database} (h : Reachable s) : s.Full := by
  induction h with
  | @opened store s ordered h =>
    obtain ⟨schema, -, rfl⟩ := Database.eq_of_ofStore h
    exact fun _ => Audience.full_empty
  | move _ h ih =>
    rcases h.step_or_asks with hstep | ⟨hengine, -⟩
    · exact ih.step hstep
    · intro table
      rw [hengine]
      exact ih table

/-! ## One task alone -/

/-- The posts that an action sends to a table. -/
def Action.posts (table : String) : Action → List Post
  | .post name p => if name = table then [p] else []
  | .broadcast p => [p]
  | .deliver .. | .answer .. | .hangUp _ => []

/-- The listeners that a table has after some posts. -/
def Audience.after (t : Audience) (posts : List Post) : Audience := posts.foldl (fun t p => (Actor.handle t p).1) t

theorem Audience.after_append (t : Audience) (posts more : List Post) :
    t.after (posts ++ more) = (t.after posts).after more :=
  List.foldl_append

/-- The listeners that are subscribed one after the other. -/
theorem Audience.after_subscribes (t : Audience) (sent : List Subscription) :
    t.after (sent.map .subscribe) = sent.foldl subscribe t := by
  rw [after, List.foldl_map]
  rfl

namespace Database

variable {s t : Database} {table : String}

/-- The listeners that a table will have once the actions that wait are done. -/
def hereafter (s : Database) (table : String) : Audience :=
  (s.engine.audience table).after (s.pending.flatMap (Action.posts table))

/-- A table without an actor has no listeners, before and after a removal. -/
theorem audience_of_not_mem (h : table ∉ Keyed.keys s.engine.actors) : s.engine.audience table = {} := by
  rw [Engine.audience, Engine.actor_of_not_mem h]
  rfl

theorem posts_of_names {names : List String} (hn : names.Nodup) (p : Post) :
    (names.map (Action.post · p)).flatMap (Action.posts table) = if table ∈ names then [p] else [] := by
  induction names with
  | nil => rfl
  | cons name names ih =>
    obtain ⟨hnew, hn⟩ := List.nodup_cons.mp hn
    rw [List.map_cons, List.flatMap_cons, ih hn, Action.posts]
    by_cases hname : name = table
    · subst hname
      simp [hnew]
    · simp [hname, Ne.symm hname]

/-- What an action does and what it leaves to do bring its posts to the listeners. -/
theorem after_act (hs : s.engine.Ordered) {a : Action} (hremoval : ∀ p, a = .broadcast p → ∃ d, p = .remove d)
    (order : Traversal) : ((s.act a).engine.audience table).after ((s.fanOut order a).flatMap (Action.posts table)) =
      (s.engine.audience table).after (a.posts table) := by
  cases a with
  | post name p =>
    rw [act, Engine.audience_post, Action.posts]
    split <;> rfl
  | broadcast p =>
    obtain ⟨d, rfl⟩ := hremoval p rfl
    rw [act, fanOut, posts_of_names (hs.nodup_tables order), Action.posts]
    by_cases htable : table ∈ s.engine.tables order
    · rw [if_pos htable]
    · rw [if_neg htable, audience_of_not_mem (mt Engine.mem_tables.mpr htable)]
      rfl
  | deliver whom m =>
    rw [act, deliver_frame]
    rfl
  | answer | hangUp => rfl

/-- At most one task is left, which has actions to do and publishes nothing, and no notice is under way. -/
structure Alone (s : Database) : Prop where
  settling : s.Settling
  notices : s.notices = []
  tasks : s.tasks.length ≤ 1

namespace Alone

/-- A step of the task that is left. -/
theorem step_task (hs : s.Alone) (hwired : s.Wired) {fuel i : Nat} {order : Traversal}
    (h : s.stepTask fuel order i = some t) :
    t.tasks.length ≤ 1 ∧ ∀ table, t.hereafter table = s.hereafter table := by
  obtain ⟨task, others, s', next, htasks, hturn, htasks', ht⟩ := stepTask_split h
  have halone : others = [] := by
    have hlength := htasks.length_eq ▸ hs.tasks
    rw [List.length_cons] at hlength
    exact List.length_eq_zero_iff.mp (by omega)
  subst halone
  have hmem : task ∈ s.tasks := htasks.mem_iff.mpr List.mem_cons_self
  have hpending : s.pending = task.pending := by
    rw [pending, List.perm_singleton.mp htasks, List.flatMap_singleton]
  rw [List.append_nil] at htasks'
  have hpending' : t.pending = next.toList.flatMap Task.pending := by
    have hnext : t.tasks = next.toList := by
      cases next with
      | none => exact List.perm_nil.mp htasks'
      | some task' => exact List.perm_singleton.mp htasks'
    rw [pending, hnext]
  refine ⟨by rw [htasks'.length_eq]; cases next <;> simp, fun table => ?_⟩
  rw [hereafter, hereafter, hpending, hpending', show t.engine = s'.engine by rw [ht]]
  have horderly := hwired.tasks task hmem
  -- no query is left to be run again, and the task is no statement
  have hactions : ∀ {l : Listener} {key : Literal}, task ≠ .rerun l key := by
    rintro l key rfl
    have hrerun : .rerun l key ∈ s.notices := List.mem_append_left _ (List.mem_filterMap.mpr ⟨_, hmem, rfl⟩)
    rw [hs.notices] at hrerun
    cases hrerun
  cases hturn with
  | idle => exact absurd rfl hactions
  | starts hstarts =>
    cases hstarts with
    | write | ended | selected | refused | committed => exact (hs.settling _ hmem).elim
    | resumed => exact absurd rfl hactions
  | done => rfl
  | @acts rest a order =>
    have hremoval : ∀ p, a = .broadcast p → ∃ d, p = .remove d := fun p hp =>
      horderly.removals p (hp ▸ List.mem_cons_self)
    rw [pending_restTask, Task.pending, List.flatMap_append, Audience.after_append, after_act hwired.engine hremoval,
      List.flatMap_cons, Audience.after_append]

/-- What a step leaves of a task that is alone, and that it keeps the listeners that the tables will have. -/
theorem step (hs : s.Alone) (hwired : s.Wired) (h : Step s t) :
    t.Alone ∧ ∀ table, t.hereafter table = s.hereafter table := by
  have hnotices : t.notices = [] := by
    have hsubset := hs.settling.notices_subset hwired h
    rw [hs.notices] at hsubset
    exact List.subset_nil.mp hsubset
  suffices hkeeps : t.tasks.length ≤ 1 ∧ ∀ table, t.hereafter table = s.hereafter table from
    ⟨⟨(hs.settling.step h).1, hnotices, hkeeps.1⟩, hkeeps.2⟩
  cases h with
  | task fuel order i h => exact hs.step_task hwired h
  | actor name h =>
    obtain ⟨haudience, hpending, -⟩ := stepActor_accounts hwired.engine h
    refine ⟨?_, fun table => by rw [hereafter, hereafter, haudience, hpending]⟩
    obtain ⟨p, rest, -, rfl⟩ := stepActor_eq h
    rw [foldl_notice_frame] at hnotices ⊢
    -- a task that the actor adds would be a query to be run again
    have hnone : (Actor.handle (s.engine.actor name).listeners p).2.filterMap Notice.task? = [] := by
      refine List.filterMap_eq_nil_iff.mpr fun n hn => ?_
      cases n with
      | deliver => rfl
      | rerun l key =>
        have hrerun : Task.rerun l key ∈ s.tasks ++
            (Actor.handle (s.engine.actor name).listeners p).2.filterMap Notice.task? :=
          List.mem_append_right _ (List.mem_filterMap.mpr ⟨_, hn, rfl⟩)
        have hnotice := List.append_eq_nil_iff.mp hnotices
        exact absurd hnotice.1 (List.ne_nil_of_mem (List.mem_filterMap.mpr ⟨_, hrerun, rfl⟩))
    rw [hnone, List.append_nil]
    exact hs.tasks

/-- Once all is quiet the tables have the listeners that they were to have. -/
theorem listeners_eq (hs : s.Alone) (hwired : s.Wired) (h : Relation.ReflTransGen Step s t) (quiet : t.isQuiet = true)
    (table : String) : (t.engine.actor table).listeners = s.hereafter table := by
  have hkeeps : t.Wired ∧ t.hereafter table = s.hereafter table := by
    induction h using Relation.ReflTransGen.head_induction_on with
    | refl => exact ⟨hwired, rfl⟩
    | head hstep _ ih =>
      obtain ⟨halone, hsame⟩ := hs.step hwired hstep
      obtain ⟨hwired', hsame'⟩ := ih halone (hwired.step hstep)
      exact ⟨hwired', hsame'.trans (hsame table)⟩
  obtain ⟨-, hpending, -, hactors⟩ := quiet_accounts hkeeps.1 quiet
  rw [← hkeeps.2, hereafter, hpending, (hactors table).2]
  rfl

end Alone

end Database

end LiveQuery
