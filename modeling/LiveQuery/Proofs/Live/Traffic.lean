import LiveQuery.Proofs.Database.Reachable
import LiveQuery.Proofs.Live.Audience

/-! # Posts on their way

What a step does to the actors and to the actions that wait. A step is one of a task (`Database.stepTask_eq`)
or of an actor (`Database.stepActor_eq`).

* `Engine.audience` are the listeners that a table has once its inbox is empty. An actor that takes a post
  does not change them, and a post changes those of its table only.
* `Database.pending` are the actions that wait. One that is done leaves the list; a broadcast leaves posts to the
  tables that have an actor (`Database.fanOut_cases`).
-/
namespace LiveQuery

/-! ## Actors -/

namespace Engine

variable {e : Engine} {table : String}

@[simp] theorem actor_setActor (e : Engine) (table : String) (a : Actor) (other : String) :
    (e.setActor table a).actor other = if table = other then a else e.actor other := by
  simp only [actor, setActor, Keyed.find?_insert]
  split <;> rfl

theorem actor_post (e : Engine) (table : String) (p : Post) (other : String) :
    (e.post table p).actor other =
      if table = other then { e.actor other with inbox := (e.actor other).inbox ++ [p] }
      else e.actor other := by
  rw [post, actor_setActor]
  split
  next h => rw [h]
  next => rfl

/-- The listeners of a table once its inbox is empty. -/
def audience (e : Engine) (table : String) : Audience := (e.actor table).audience

theorem audience_post (e : Engine) (table : String) (p : Post) (other : String) :
    (e.post table p).audience other =
      if table = other then (Actor.handle (e.audience other) p).1 else e.audience other := by
  rw [audience, actor_post]
  split
  next => exact Actor.audience_post _ p
  next => rfl

theorem mem_tables {order : Traversal} : table ∈ e.tables order ↔ table ∈ Keyed.keys e.actors :=
  (order.perm _).mem_iff

/-- An actor that was not started has no listeners. -/
theorem actor_of_not_mem (h : table ∉ Keyed.keys e.actors) : e.actor table = {} := by
  rw [actor, Keyed.find?_eq_none.mpr h]
  rfl

theorem inbox_of_busy?_none (h : e.busy? = none) (table : String) : (e.actor table).inbox = [] := by
  unfold actor
  cases hfind : Keyed.find? e.actors table with
  | none => rfl
  | some a =>
    rw [busy?, Option.map_eq_none_iff] at h
    simpa using List.find?_eq_none.mp h _ (Keyed.mem_of_find? hfind)

/-- The actors are found by increasing names, and the listeners of every table are in order. -/
structure Ordered (e : Engine) : Prop where
  actors : Keyed.Ordered e.actors
  listeners : ∀ table, (e.actor table).listeners.Ordered

namespace Ordered

theorem setActor (h : e.Ordered) {a : Actor} (ha : a.listeners.Ordered) : (e.setActor table a).Ordered := by
  refine ⟨Keyed.Ordered.insert h.actors _ _, fun other => ?_⟩
  rw [actor_setActor]
  split
  next => exact ha
  next => exact h.listeners other

theorem post (h : e.Ordered) (p : Post) : (e.post table p).Ordered := h.setActor (h.listeners table)

theorem nodup_tables (h : e.Ordered) (order : Traversal) : (e.tables order).Nodup :=
  (order.perm _).nodup_iff.mpr (Keyed.Ordered.nodup h.actors)

theorem audience (h : e.Ordered) (table : String) : (e.audience table).Ordered :=
  Actor.ordered_audience (h.listeners table)

end Ordered

end Engine

/-! ## Steps -/

/-- The task that a notice starts. -/
def Notice.task? : Notice → Option Task
  | .rerun l key => some (.rerun l key)
  | .deliver .. => none

namespace Database

variable {s t : Database}

theorem deliver_frame (s : Database) (whom : Subscriber) (m : Message) :
    s.deliver whom m = { s with connections := (s.deliver whom m).connections } := by
  unfold deliver
  split <;> rfl

theorem foldl_notice_frame (notices : List Notice) (s : Database) :
    notices.foldl notice s = { s with
      tasks := s.tasks ++ notices.filterMap Notice.task?
      connections := (notices.foldl notice s).connections } := by
  induction notices generalizing s with
  | nil => simp
  | cons n notices ih =>
    rw [List.foldl_cons, ih]
    cases n with
    | rerun l key => simp [notice, Notice.task?]
    | deliver whom m =>
      rw [notice, s.deliver_frame whom m]
      rfl

/-- The task at a position that takes a step is replaced by what is left of it. -/
theorem stepTask_at {fuel i : Nat} {order : Traversal} (h : s.stepTask fuel order i = some t) : ∃ task s' next,
    s.tasks[i]? = some task ∧ s.advance fuel order task = some (s', next) ∧
      t = { s' with tasks := s.tasks.take i ++ next.toList ++ s.tasks.drop (i + 1) } := by
  unfold stepTask at h
  split at h
  next => cases h
  next task htask =>
    obtain ⟨hi, -⟩ := List.getElem?_eq_some_iff.mp htask
    split at h
    next => cases h
    next s' next hadv =>
      cases h
      refine ⟨task, s', some next, htask, hadv, ?_⟩
      rw [(advance_spec hadv).2.2, List.set_eq_take_append_cons_drop, if_pos hi]
      simp
    next s' hadv =>
      cases h
      refine ⟨task, s', none, htask, hadv, ?_⟩
      rw [(advance_spec hadv).2.2, List.eraseIdx_eq_take_drop_succ]
      simp

theorem stepTask_eq {fuel i : Nat} {order : Traversal} (h : s.stepTask fuel order i = some t) :
    ∃ before task after s' next, s.tasks = before ++ task :: after ∧ s.advance fuel order task = some (s', next) ∧
      t = { s' with tasks := before ++ next.toList ++ after } := by
  obtain ⟨task, s', next, htask, hadv, ht⟩ := stepTask_at h
  obtain ⟨hi, hget⟩ := List.getElem?_eq_some_iff.mp htask
  refine ⟨_, task, _, s', next, ?_, hadv, ht⟩
  rw [← hget, List.getElem_cons_drop, List.take_append_drop]

/-- An actor that takes a step handles the first post of its inbox. -/
theorem stepActor_eq {table : String} (h : s.stepActor table = some t) : ∃ p rest,
    (s.engine.actor table).inbox = p :: rest ∧
      t = (Actor.handle (s.engine.actor table).listeners p).2.foldl notice
        { s with engine :=
            s.engine.setActor table ⟨(Actor.handle (s.engine.actor table).listeners p).1, rest⟩ } := by
  unfold stepActor Engine.step Actor.step at h
  cases hinbox : (s.engine.actor table).inbox with
  | nil =>
    rw [hinbox] at h
    cases h
  | cons p rest =>
    rw [hinbox] at h
    exact ⟨p, rest, rfl, (Option.some.inj h).symm⟩

/-- The listeners that a table will have do not change when its actor takes a post. -/
theorem audience_stepActor {table : String} (h : s.stepActor table = some t) (other : String) :
    t.engine.audience other = s.engine.audience other := by
  obtain ⟨p, rest, hinbox, rfl⟩ := stepActor_eq h
  rw [foldl_notice_frame]
  simp only [Engine.audience, Engine.actor_setActor]
  split
  next heq =>
    subst heq
    rw [Actor.audience, Actor.audience, hinbox]
    rfl
  next => rfl

end Database

/-! ## Places of results -/

/-- A query that has a place for its result is live, and the place is the channel that it was sent on. -/
theorem anchorFor_eq_some {live : Bool} {o : Origin} {a : Anchor} (h : anchorFor live o = .ok (some a)) :
    live = true ∧ ∃ u, o = .channel u ∧ a = { subscriber := u } := by
  unfold anchorFor at h
  split at h
  next => cases h
  next u hu =>
    cases h
    cases o with
    | caller ticket => cases hu
    | channel v => exact ⟨rfl, u, congrArg _ (Option.some.inj hu), rfl⟩
  next => cases h

theorem subscriber?_of_unanchored {live : Bool} {o : Origin} {f : Fault} (h : anchorFor live o = .error f) :
    o.subscriber? = none := by
  unfold anchorFor at h
  split at h
  next => cases h
  next => cases h
  next hnone => exact hnone

/-! ## Actions -/

/-- The actions of a task that wait. -/
def Task.pending : Task → List Action
  | .actions rest => rest
  | .statement .. | .write .. | .rerun .. => []

namespace Database

variable {s t : Database}

/-- The actions that wait. -/
def pending (s : Database) : List Action := s.tasks.flatMap Task.pending

/-- Only a broadcast leaves something to do: a post to every table that has an actor. -/
theorem fanOut_cases (s : Database) (order : Traversal) (a : Action) :
    (s.fanOut order a = [] ∧ ∀ p, a ≠ .broadcast p) ∨
      ∃ p, a = .broadcast p ∧ s.fanOut order a = (s.engine.tables order).map (Action.post · p) := by
  cases a with
  | broadcast p => exact .inr ⟨p, rfl, rfl⟩
  | post | deliver | answer | hangUp => exact .inl ⟨rfl, by simp⟩

theorem mem_fanOut {order : Traversal} {a b : Action} (h : b ∈ s.fanOut order a) :
    ∃ table ∈ Keyed.keys s.engine.actors, ∃ p, a = .broadcast p ∧ b = .post table p := by
  rcases s.fanOut_cases order a with ⟨heq, -⟩ | ⟨p, rfl, heq⟩
  · rw [heq] at h
    cases h
  · rw [heq] at h
    obtain ⟨table, htable, rfl⟩ := List.mem_map.mp h
    exact ⟨table, Engine.mem_tables.mp htable, p, rfl, rfl⟩

/-- The actors after an action, which changes them only if it is a post. -/
theorem engine_act (s : Database) (a : Action) : ((∀ table p, a ≠ .post table p) ∧ (s.act a).engine = s.engine) ∨
    ∃ table p, a = .post table p ∧ (s.act a).engine = s.engine.post table p := by
  cases a with
  | post table p => exact .inr ⟨table, p, rfl, rfl⟩
  | deliver whom m =>
    rw [act, deliver_frame]
    exact .inl ⟨by simp, rfl⟩
  | broadcast | answer | hangUp => exact .inl ⟨by simp, rfl⟩

/-- What becomes of a task that is no list of actions: the database and the next task after its step. -/
inductive Starts (s : Database) : Task → Database → Task → Prop
  | write {o : Origin} {text : String} (w : Write) (prepared : Continues s (.statement o text) (.write o w)) :
      Starts s (.statement o text) s (.write o w)
  /-- A statement that made a table, evaluated an expression or failed; it was no live query with a channel. -/
  | ended {o : Origin} {text : String} (store : Store) (schema : Schema) (r : Except Fault Json)
      (changes : Changes s (.statement o text) { s with store, schema })
      (unanchored : ∀ q, Statement.read text = .ok (.select true q) → o.subscriber? = none) :
      Starts s (.statement o text) { s with store, schema } (.actions (o.finish r))
  | selected {o : Origin} {text : String} {live : Bool} {q : Query} {anchor : Option Anchor}
      {r : Evaluation Json} (read : Statement.read text = .ok (.select live q))
      (anchored : anchorFor live o = .ok anchor) (fuel : Nat)
      (run : select fuel s.schema s.store q anchor = some r) :
      Starts s (.statement o text) s
        (.actions (subscribeActions r.sent ++ o.finish (r.outcome.bind q.answer)))
  | refused {o : Origin} {w : Write} (f : Fault) (failed : w.commit s.store = .error f) :
      Starts s (.write o w) s (.actions (o.finish (.error f)))
  | committed {o : Origin} {w : Write} {c : Committed} (made : w.commit s.store = .ok c) :
      Starts s (.write o w) { s with store := c.store }
        (.actions ((c.event.map fun (table, e) => .post table (.event e)).toList ++ o.finish (.ok c.answer)))
  | resumed {l : Listener} {key : Literal} {q : Query} {r : Evaluation Json} (query : l.query = some q)
      (fuel : Nat) (run : LiveQuery.rerun fuel s.schema s.store l q key = some r) :
      Starts s (.rerun l key) s (.actions (subscribeActions r.sent ++ updateActions l r.outcome))

theorem starts_writeTask {o : Origin} {text : String} {st : Statement} (read : Statement.read text = .ok st)
    (hst : ∀ q, st ≠ .select true q) (r : Except Fault Write)
    (prepared : ∀ w, r = .ok w → Continues s (.statement o text) (.write o w)) :
    Starts s (.statement o text) s (writeTask o r) := by
  cases r with
  | ok w => exact .write w (prepared w rfl)
  | error f =>
    refine .ended s.store s.schema _ (.none rfl rfl) fun q hq => ?_
    rw [read] at hq
    exact absurd (Except.ok.inj hq) (hst q)

theorem starts_of_begin {fuel : Nat} {o : Origin} {st : Statement} {text : String} {task : Task}
    (read : Statement.read text = .ok st) (h : s.begin fuel o st = some (t, task)) :
    Starts s (.statement o text) t task := by
  have hunanchored : (∀ q, st ≠ .select true q) → ∀ q, Statement.read text = .ok (.select true q) →
      o.subscriber? = none := by
    intro hst q hq
    rw [read] at hq
    exact absurd (Except.ok.inj hq) (hst q)
  cases st with
  | create d =>
    have hcreate := Option.some.inj h
    cases hadmitted : Catalog.admitted s.schema d with
    | error f =>
      cases (createTable_of_refused hadmitted o (.ok ())).symm.trans hcreate
      exact .ended s.store s.schema _ (.none rfl rfl) (hunanchored (by simp))
    | ok table =>
      cases (createTable_of_admitted hadmitted o).symm.trans hcreate
      exact .ended _ _ _ (.create read hadmitted rfl rfl) (hunanchored (by simp))
  | insert table row =>
    obtain ⟨r, hr, h⟩ := Option.map_eq_some_iff.mp h
    cases h
    exact starts_writeTask read (by simp) r fun w hw => .insert fuel read (hw ▸ hr)
  | update =>
    cases h
    exact starts_writeTask read (by simp) _ fun w hw => .update read hw
  | delete =>
    cases h
    exact starts_writeTask read (by simp) _ fun w hw => .delete read hw
  | eval e =>
    obtain ⟨r, -, h⟩ := Option.map_eq_some_iff.mp h
    cases h
    exact .ended s.store s.schema _ (.none rfl rfl) (hunanchored (by simp))
  | select live q =>
    simp only [begin] at h
    split at h
    next f hanchor =>
      cases h
      exact .ended s.store s.schema _ (.none rfl rfl) fun _ _ => subscriber?_of_unanchored hanchor
    next anchor hanchor =>
      obtain ⟨r, hr, h⟩ := Option.map_eq_some_iff.mp h
      cases h
      exact .selected read hanchor fuel hr

theorem starts_of_commit (o : Origin) (w : Write) : Starts s (.write o w) (s.commit o w).1 (s.commit o w).2 := by
  unfold commit
  split
  next f failed => exact .refused f failed
  next c made => exact .committed made

/-- A task that is no list of actions touches tables and rows only. -/
theorem Starts.frame {task task' : Task} (h : Starts s task t task') :
    t = { s with store := t.store, schema := t.schema } := by
  cases h <;> rfl

theorem Starts.pending {task task' : Task} (h : Starts s task t task') : task.pending = [] := by
  cases h <;> rfl

theorem pending_restTask (left : List Action) : (restTask left).toList.flatMap Task.pending = left := by
  cases left <;> simp [restTask, Task.pending]

/-- One step of a task: the database after it, and what is left of the task. -/
inductive Turn (s : Database) : Task → Database → Option Task → Prop
  /-- A listener without a query has nothing to run again. -/
  | idle {l : Listener} {key : Literal} (query : l.query = none) : Turn s (.rerun l key) s none
  | starts {task task' : Task} {t : Database} (h : Starts s task t task') : Turn s task t (some task')
  | done : Turn s (.actions []) s none
  | acts {rest : List Action} {a : Action} (order : Traversal) :
      Turn s (.actions (a :: rest)) (s.act a) (restTask (s.fanOut order a ++ rest))

/-- What is left of a task has a property if the tasks have it that it may start, and the actions that are left when
it does one. -/
theorem Turn.all {P : Task → Prop} {task : Task} {next : Option Task} (h : Turn s task t next)
    (starts : ∀ task', Starts s task t task' → P task')
    (acts : ∀ a rest order, task = .actions (a :: rest) → P (.actions (s.fanOut order a ++ rest))) :
    ∀ task' ∈ next, P task' := by
  intro task' hnext
  cases h with
  | idle | done => cases hnext
  | starts h => exact Option.some.inj hnext ▸ starts _ h
  | @acts rest a order => exact eq_of_mem_restTask hnext ▸ acts a rest order rfl

theorem turn_of_advance {fuel : Nat} {order : Traversal} {task : Task} {next : Option Task}
    (h : s.advance fuel order task = some (t, next)) : Turn s task t next := by
  cases task with
  | statement o text =>
    simp only [advance] at h
    split at h
    next f hread =>
      cases h
      refine .starts (.ended s.store s.schema _ (.none rfl rfl) fun q hq => ?_)
      rw [hread] at hq
      cases hq
    next st read =>
      obtain ⟨⟨t', task⟩, hb, h⟩ := Option.map_eq_some_iff.mp h
      cases h
      exact .starts (starts_of_begin read hb)
  | write o w =>
    cases h
    exact .starts (starts_of_commit o w)
  | rerun l key =>
    simp only [advance] at h
    split at h
    next hnone => cases h; exact .idle hnone
    next q hq =>
      obtain ⟨r, hr, h⟩ := Option.map_eq_some_iff.mp h
      cases h
      exact .starts (.resumed hq fuel hr)
  | actions rest =>
    cases rest with
    | nil => cases h; exact .done
    | cons a rest => cases h; exact .acts order

end Database

/-! ## The actions of a task -/

/-- No subscription follows a broadcast. -/
def Action.Allows : Action → Action → Prop
  | .broadcast _, .post _ (.subscribe _) => False
  | _, _ => True

/-- A statement ends with an answer to its caller, or on its channel with a message, before which the listeners of
the channel are removed if it failed. -/
theorem Origin.mem_finish {o : Origin} {r : Except Fault Json} {a : Action} (h : a ∈ o.finish r) :
    (∃ ticket, a = .answer ticket r) ∨ ∃ u, o.subscriber? = some u ∧
      (a = .broadcast (.remove (.channel u)) ∨ ∃ m : Message, a = .deliver u m ∧ m.channel = u.channel) := by
  cases o with
  | caller ticket => cases r <;> exact .inl ⟨ticket, List.mem_singleton.mp h⟩
  | channel u =>
    refine .inr ⟨u, rfl, ?_⟩
    cases r with
    | ok data => exact .inr ⟨_, List.mem_singleton.mp h, rfl⟩
    | error f =>
      rcases List.mem_cons.mp h with rfl | h
      · exact .inl rfl
      · exact .inr ⟨_, List.mem_singleton.mp h, rfl⟩

/-- The messages with the rows of a query that was run again go to the channel of its listener. -/
theorem mem_updateActions {l : Listener} {r : Except Fault Json} {a : Action} (h : a ∈ updateActions l r) :
    ∃ m : Message, a = .deliver l.subscriber m ∧ m.channel = l.subscriber.channel := by
  unfold updateActions at h
  split at h
  next =>
    obtain ⟨row, -, rfl⟩ := List.mem_map.mp h
    exact ⟨_, rfl, rfl⟩
  next => exact ⟨_, List.mem_singleton.mp h, rfl⟩
  next => exact ⟨_, List.mem_singleton.mp h, rfl⟩

/-- What is broadcast are removals, a task sends its subscriptions before them, and messages go to the channel
that they name. -/
structure Task.Orderly (task : Task) : Prop where
  removals : ∀ p, .broadcast p ∈ task.pending → ∃ d, p = .remove d
  order : task.pending.Pairwise Action.Allows
  addressed : ∀ whom m, .deliver whom m ∈ task.pending → m.channel = whom.channel

namespace Task.Orderly

theorem of_pending_nil {task : Task} (h : task.pending = []) : task.Orderly :=
  ⟨by simp [h], by simp [h], by simp [h]⟩

theorem finish (o : Origin) (r : Except Fault Json) : Task.Orderly (.actions (o.finish r)) := by
  cases o <;> cases r <;> constructor <;> simp [Task.pending, Origin.finish, Action.Allows, Message.channel]

/-- Posts to tables may stand before any actions. -/
theorem posts {rest : List Action} (h : Task.Orderly (.actions rest)) (posts : List (String × Post)) :
    Task.Orderly (.actions (posts.map (fun e => .post e.1 e.2) ++ rest)) := by
  have hmem : ∀ a ∈ posts.map (fun e => Action.post e.1 e.2), ∃ table p, a = .post table p := by
    intro a ha
    obtain ⟨e, -, rfl⟩ := List.mem_map.mp ha
    exact ⟨_, _, rfl⟩
  refine ⟨fun p hp => ?_, List.pairwise_append.mpr ⟨?_, h.order, fun a ha b _ => ?_⟩, fun whom m hm => ?_⟩
  · rcases List.mem_append.mp hp with hp | hp
    · obtain ⟨_, _, he⟩ := hmem _ hp
      cases he
    · exact h.removals p hp
  · exact List.pairwise_map.mpr (List.pairwise_of_forall fun _ _ => trivial)
  · obtain ⟨_, _, rfl⟩ := hmem a ha
    trivial
  · rcases List.mem_append.mp hm with hm | hm
    · obtain ⟨_, _, he⟩ := hmem _ hm
      cases he
    · exact h.addressed whom m hm

theorem subscribeActions {rest : List Action} (h : Task.Orderly (.actions rest)) (sent : List Subscription) :
    Task.Orderly (.actions (LiveQuery.subscribeActions sent ++ rest)) := by
  have hposts := h.posts (sent.map fun s => (s.tableName, .subscribe s))
  rwa [List.map_map] at hposts

theorem updateActions (l : Listener) (r : Except Fault Json) :
    Task.Orderly (.actions (LiveQuery.updateActions l r)) := by
  refine ⟨fun p hp => ?_, List.Pairwise.imp_of_mem (fun ha _ _ => ?_) (List.pairwise_of_forall
    (R := fun _ _ => True) fun _ _ => trivial), fun whom m hm => ?_⟩
  · obtain ⟨_, h, -⟩ := mem_updateActions hp
    cases h
  · obtain ⟨_, rfl, -⟩ := mem_updateActions ha
    trivial
  · obtain ⟨_, h, hchannel⟩ := mem_updateActions hm
    cases h
    exact hchannel

/-- What is left when the first actions are done. -/
theorem suffix (before : List Action) {rest : List Action} (h : Task.Orderly (.actions (before ++ rest))) :
    Task.Orderly (.actions rest) :=
  ⟨fun p hp => h.removals p (List.mem_append_right _ hp), (List.pairwise_append.mp h.order).2.1,
    fun whom m hm => h.addressed whom m (List.mem_append_right _ hm)⟩

/-- What is left when the first action is done. -/
theorem fanOut {a : Action} {rest : List Action} (h : Task.Orderly (.actions (a :: rest))) (s : Database)
    (order : Traversal) : Task.Orderly (.actions (s.fanOut order a ++ rest)) := by
  have hrest : Task.Orderly (.actions rest) := suffix [a] h
  rcases s.fanOut_cases order a with ⟨heq, -⟩ | ⟨p, -, heq⟩
  · rwa [heq]
  · have hposts := hrest.posts ((s.engine.tables order).map fun table => (table, p))
    rw [List.map_map] at hposts
    rwa [heq]

theorem starts {s t : Database} {task task' : Task} (h : Database.Starts s task t task') : task'.Orderly := by
  cases h with
  | write => exact of_pending_nil rfl
  | ended | refused => exact finish _ _
  | selected => exact (finish _ _).subscribeActions _
  | @committed o _ c =>
    have hposts := (finish o (.ok c.answer)).posts (c.event.map fun (table, e) => (table, .event e)).toList
    rwa [← Option.toList_map, Option.map_map] at hposts
  | resumed => exact (updateActions _ _).subscribeActions _

/-- What is left of a task after a step. -/
theorem turn {s t : Database} {task : Task} {next : Option Task} (hs : task.Orderly)
    (h : Database.Turn s task t next) : ∀ task' ∈ next, task'.Orderly := by
  refine h.all (fun _ hstarts => starts hstarts) fun a rest order hactions => ?_
  subst hactions
  exact hs.fanOut s order

end Task.Orderly

/-! ## What every database keeps -/

theorem Database.ordered_act {s : Database} (h : s.engine.Ordered) (a : Action) :
    (s.act a).engine.Ordered := by
  cases a with
  | post table p => exact h.post p
  | deliver whom m => rw [act, deliver_frame]; exact h
  | broadcast | answer | hangUp => exact h

/-- The listeners of every table are in order, and so are the actions of every task. -/
structure Database.Wired (s : Database) : Prop where
  engine : s.engine.Ordered
  tasks : ∀ task ∈ s.tasks, task.Orderly

/-- What a client does leaves the actors alone, and adds at most a task that is in order. -/
theorem Move.step_or_asks {texts : String → Prop} {s t : Database} (h : Move texts s t) :
    Step s t ∨ (t.engine = s.engine ∧ ∃ asked, t.tasks = s.tasks ++ asked ∧ ∀ task ∈ asked,
      task.Orderly) := by
  cases h with
  | step h => exact .inl h
  | connect => exact .inr ⟨rfl, [], (List.append_nil _).symm, by simp⟩
  | call =>
    refine .inr ⟨rfl, _, rfl, ?_⟩
    rintro task (_ | ⟨_, ⟨⟩⟩)
    exact .of_pending_nil rfl
  | run sent h =>
    obtain ⟨c, -, rfl, rfl⟩ := Database.run_eq h
    refine .inr ⟨rfl, _, rfl, ?_⟩
    rintro task (_ | ⟨_, ⟨⟩⟩)
    exact .of_pending_nil rfl
  | closeChannel | disconnect =>
    refine .inr ⟨rfl, _, rfl, ?_⟩
    rintro task (_ | ⟨_, ⟨⟩⟩)
    constructor <;> simp [Task.pending, Action.Allows]
  | takeMessages connection =>
    rcases s.takeMessages_cases connection with ⟨c, -, heq⟩ | heq <;> rw [heq] <;>
      exact .inr ⟨rfl, [], (List.append_nil _).symm, by simp⟩

namespace Database.Wired

variable {s t : Database}

theorem step (hs : s.Wired) (h : Step s t) : t.Wired := by
  cases h with
  | task fuel order i h =>
    obtain ⟨before, task, after, s', next, htasks, hadv, rfl⟩ := stepTask_eq h
    have hturn := turn_of_advance hadv
    have hin : ∀ {task'}, task' ∈ before ∨ task' = task ∨ task' ∈ after → task'.Orderly := fun hmem =>
      hs.tasks _ (by simpa [htasks] using hmem)
    refine ⟨?_, fun task' hmem => ?_⟩
    · cases hturn with
      | idle | done => exact hs.engine
      | starts hstarts => exact hstarts.frame ▸ hs.engine
      | acts => exact ordered_act hs.engine _
    · rcases List.mem_append.mp hmem with hmem | hmem
      · rcases List.mem_append.mp hmem with hmem | hmem
        · exact hin (.inl hmem)
        · exact (hin (.inr (.inl rfl))).turn hturn task' (Option.mem_toList.mp hmem)
      · exact hin (.inr (.inr hmem))
  | actor table h =>
    obtain ⟨p, rest, -, rfl⟩ := stepActor_eq h
    rw [foldl_notice_frame]
    refine ⟨hs.engine.setActor (Actor.ordered_handle (hs.engine.listeners table) p), fun task hmem => ?_⟩
    rcases List.mem_append.mp hmem with hmem | hmem
    · exact hs.tasks task hmem
    · obtain ⟨n, -, hn⟩ := List.mem_filterMap.mp hmem
      cases n with
      | rerun l key => cases hn; exact .of_pending_nil rfl
      | deliver => cases hn

theorem move {texts : String → Prop} (hs : s.Wired) (h : Move texts s t) : t.Wired := by
  rcases h.step_or_asks with h | ⟨hengine, asked, htasks, horderly⟩
  · exact hs.step h
  · refine ⟨hengine ▸ hs.engine, fun task hmem => ?_⟩
    rw [htasks] at hmem
    rcases List.mem_append.mp hmem with hmem | hmem
    · exact hs.tasks task hmem
    · exact horderly task hmem

end Database.Wired

theorem Reachable.wired {s : Database} (h : Reachable s) : s.Wired := by
  induction h with
  | @opened store s ordered h =>
    obtain ⟨schema, -, rfl⟩ := Database.eq_of_ofStore h
    exact ⟨⟨List.Pairwise.nil, fun _ => Audience.ordered_empty⟩, by simp⟩
  | move _ h ih => exact ih.move h

end LiveQuery
