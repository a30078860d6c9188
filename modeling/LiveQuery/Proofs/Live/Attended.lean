import LiveQuery.Proofs.Live.Announced

/-! # A query that is attended to

While rows are inserted, a channel whose query is to be kept up to date listens with one subscription to the table of
the query and with others to single rows (`Database.Attended`). Every step keeps that (`Attended.step`), and its effect
on the accounts of the channel is always of one kind (`Database.Proceeds`): some rows are announced, and each listener
of the channel on the table is to tell it of those among them that the query yields.
-/
namespace LiveQuery

/-- Whether a subscription tells a channel of new rows. -/
def Subscription.tells (u : Subscriber) (x : Subscription) : Bool :=
  !x.isRecord && decide (x.listener.subscriber = u)

/-- The event tells of a row that was inserted into a table and is stored. -/
def Event.Inserted (schema : Schema) (store : Store) (table : String) (e : Event) : Prop :=
  ∃ t bytes r, Keyed.find? schema table = some t ∧ e = ⟨r.key t, none, some bytes⟩ ∧
    Row.ofBytes? bytes = some r ∧ r ∈ store.rows table

/-- The action announces stored rows only, takes no listener of the channel away and does not close its connection. -/
structure Action.Attends (schema : Schema) (store : Store) (u : Subscriber) (a : Action) : Prop where
  keeps : a.dismisses u = false
  stays : a.hangsUp u.connection = false
  inserted : ∀ table e, a = .post table (.event e) → e.Inserted schema store table

/-- The task is another one than the channel's, and inserts a row if it is a statement or a write. -/
def Task.Attends (u : Subscriber) : Task → Prop
  | .statement o text => o.subscriber? ≠ some u ∧ ∃ table row, Statement.read text = .ok (.insert table row)
  | .write o w => o.subscriber? ≠ some u ∧ ∃ table key bytes, w = .insert table key bytes
  | .rerun .. | .actions _ => True

namespace Database

/-- What every run over well-typed rows keeps. -/
structure Grounded (s : Database) : Prop where
  inOrder : s.InOrder
  typed : s.WellTyped
  keyed : RowsKeyed s.schema s.store
  wired : s.Wired
  writes : s.KeepsKeys

/-- A channel hears of the rows of a query, and what is under way are insertions and what they call for. -/
structure Attended (q : Query) (u : Subscriber) (s : Database) : Prop where
  planned : q.Planned s.schema
  isOpen : s.IsOpen u.connection
  tasks : ∀ task ∈ s.tasks, task.Attends u
  actions : ∀ a ∈ s.pending, a.Attends s.schema s.store u
  once : (s.unannounced q.table).Nodup
  watches : ∀ table, ∀ x ∈ s.watches table, x.listener.subscriber = u →
    x = q.subscription u none Path.root ∨ x.isRecord = true
  reruns : ∀ l key, .rerun l key ∈ s.notices → l.subscriber = u → l = ⟨u, some q, Path.root⟩ ∧
    ∃ t, Keyed.find? s.schema q.table = some t ∧ ∃ r ∈ s.store.rows q.table, key = r.key t

/-- How often a channel is to be told of a new row of a table that is announced now. -/
def hearing (s : Database) (u : Subscriber) (table : String) : Nat :=
  ((s.engine.audience table).subscriptions table).countP (Subscription.tells u)

/-- How many subscriptions of a channel to new rows of a table have yet to be sent. -/
def opening (s : Database) (u : Subscriber) (table : String) : Nat :=
  (s.pending.flatMap (Action.subscriptions table)).countP (Subscription.tells u)

/-- The messages that a channel has received and those that are due. -/
def mail (s : Database) (u : Subscriber) : List Message := s.received u ++ s.due u

/-- What a step does to the accounts of a channel: it announces some rows of the table of the query, and each of the
channel's listeners on the table is to tell it of those that the query yields. -/
structure Proceeds (q : Query) (u : Subscriber) (s t : Database) (rows : List Row) : Prop where
  announced : (t.announced q.table).Perm (rows ++ s.announced q.table)
  listeners : t.hearing u q.table + t.opening u q.table = s.hearing u q.table + s.opening u q.table
  opening : t.opening u q.table ≤ s.opening u q.table
  mail : (t.mail u).Perm (s.mail u ++ (List.replicate (s.hearing u q.table) (q.told u rows)).flatten)

variable {texts : String → Prop} {q : Query} {u : Subscriber} {s t : Database}

namespace Grounded

theorem of_run (h : Run texts WellTyped s) : s.Grounded :=
  ⟨(Reachable.of_run h).inOrder, h.wellTyped, h.fitting.rowsKeyed, (Reachable.of_run h).wired, h.fitting.keepsKeys⟩

/-- Some of the tasks may be left out. -/
theorem tasks_of (h : s.Grounded) (tasks : List Task) (hsub : ∀ task ∈ tasks, task ∈ s.tasks) :
    Grounded { s with tasks } :=
  ⟨⟨h.inOrder.schema, h.inOrder.store⟩, ⟨h.typed.rows, h.typed.fits⟩, h.keyed,
    ⟨h.wired.engine, fun task hmem => h.wired.tasks task (hsub task hmem)⟩,
    ⟨h.writes.schema, h.writes.rows, h.writes.unused, fun o w hmem => h.writes.writes o w (hsub _ hmem)⟩⟩

/-- The rows of a table differ from each other. -/
theorem nodup_rows (h : s.Grounded) {table : String} {t : Table} (ht : Keyed.find? s.schema table = some t) :
    (s.store.rows table).Nodup := by
  obtain rfl := (h.inOrder.schema.find? ht).2
  exact (h.keyed.nodup_keys h.inOrder.store ht).of_map _

end Grounded

end Database

/-! ## What is stored stays stored -/

theorem Event.Inserted.mono {schema : Schema} {store store' : Store} {table : String} {e : Event}
    (hrows : ∀ table, store.rows table ⊆ store'.rows table) (h : e.Inserted schema store table) :
    e.Inserted schema store' table := by
  obtain ⟨t, bytes, r, ht, he, hbytes, hr⟩ := h
  exact ⟨t, bytes, r, ht, he, hbytes, hrows table hr⟩

theorem Action.Attends.mono {schema : Schema} {store store' : Store} {u : Subscriber} {a : Action}
    (hrows : ∀ table, store.rows table ⊆ store'.rows table) (h : a.Attends schema store u) :
    a.Attends schema store' u :=
  ⟨h.keeps, h.stays, fun table e ha => (h.inserted table e ha).mono hrows⟩

theorem Origin.finish_attends {schema : Schema} {store : Store} {o : Origin} {u : Subscriber}
    (ho : o.subscriber? ≠ some u) (r : Except Fault Json) : ∀ a ∈ o.finish r, a.Attends schema store u := by
  intro a ha
  refine ⟨(Database.finish_elsewhere ho a ha).2, ?_, ?_⟩
  · rcases Origin.mem_finish ha with ⟨ticket, rfl⟩ | ⟨u', -, rfl | ⟨m, rfl, -⟩⟩ <;> rfl
  · rintro table e rfl
    rcases Origin.mem_finish ha with ⟨ticket, heq⟩ | ⟨u', -, heq | ⟨m, heq, -⟩⟩ <;> cases heq

theorem Event.Inserted.inserted? {schema : Schema} {store : Store} {table : String} {e : Event}
    (h : e.Inserted schema store table) : ∃ r ∈ store.rows table, e.inserted? = some r := by
  obtain ⟨t, bytes, r, -, rfl, hbytes, hr⟩ := h
  exact ⟨r, hr, hbytes⟩

namespace Database

variable {q : Query} {u : Subscriber} {s t : Database} {n : Nat}

/-- A statement that has not begun has nothing to do yet. -/
theorem pending_of_statement {o : Origin} {text : String} (htasks : t.tasks = s.tasks ++ [.statement o text]) :
    t.pending = s.pending := by
  rw [pending, htasks, List.flatMap_append, List.flatMap_singleton, Task.pending, List.append_nil]
  rfl

/-! ## Actions of any kind -/

theorem attends_fanOut {schema : Schema} {store : Store} {a : Action} {order : Traversal}
    (hremoval : ∀ p, a = .broadcast p → ∃ d, p = .remove d) (h : a.Attends schema store u) :
    ∀ b ∈ s.fanOut order a, b.Attends schema store u := by
  intro b hb
  obtain ⟨name, -, p, rfl, rfl⟩ := mem_fanOut hb
  obtain ⟨d, rfl⟩ := hremoval p rfl
  exact ⟨h.keeps, rfl, by rintro name e ⟨⟩⟩

/-- A channel listens with what an action sends and with what is there, if the action takes nothing of it away. -/
theorem hearing_of_acts (hs : s.engine.Ordered) {a : Action} (hengine : t.engine = (s.act a).engine)
    (ha : a.dismisses u = false) (table : String) :
    t.hearing u table = (a.subscriptions table).countP (Subscription.tells u) + s.hearing u table := by
  have hkept : ∀ x : Subscription, x.tells u = true → a.takes table x = false := by
    intro x hx
    refine Bool.eq_false_iff.mpr fun htakes => ?_
    rw [dismisses_of_takes htakes (of_decide_eq_true (Bool.and_eq_true_iff.mp hx).2)] at ha
    cases ha
  rw [hearing, hengine, (subscriptions_act hs a table).countP_eq, List.countP_filter, hearing, ← List.countP_append]
  refine List.countP_congr fun x _ => ?_
  cases htells : x.tells u with
  | false => rfl
  | true => rw [hkept x htells]; rfl

namespace Attended

theorem unannounced_subset (h : s.Attended q u) : s.unannounced q.table ⊆ s.store.rows q.table := by
  intro r hr
  obtain ⟨a, ha, hinserted⟩ := List.mem_filterMap.mp hr
  unfold Action.inserted? at hinserted
  split at hinserted
  next name e =>
    split at hinserted
    next hname =>
      obtain ⟨r', hr', heq⟩ := ((h.actions _ ha).inserted name e rfl).inserted?
      cases heq.symm.trans hinserted
      exact hname ▸ hr'
    next => cases hinserted
  all_goals cases hinserted

/-- What the channel is told when its query is run again for a stored row. -/
theorem renewed (h : s.Attended q u) (hs : s.Grounded) (hflat : q.isFlat = true) {l : Listener} {key : Literal}
    (hmem : .rerun l key ∈ s.notices) (hu : l.subscriber = u) : ∃ r ∈ s.store.rows q.table,
      (∀ store : Store, store.Ordered → RowsTyped s.schema store → RowsKeyed s.schema store → r ∈ store.rows q.table →
        l.messages s.schema store key = q.told u [r]) ∧
      ∀ x ∈ l.sent s.schema s.store key, x.isRecord = true := by
  obtain ⟨rfl, t, ht, r, hr, rfl⟩ := h.reruns l key hmem hu
  refine ⟨r, hr, fun store hstore hrows hkeys hr => ?_, ?_⟩
  · exact (Query.renewed_of_isFlat hflat hs.inOrder.schema hstore hrows hkeys h.planned ht hr).1
  · exact (Query.renewed_of_isFlat (u := u) hflat hs.inOrder.schema hs.inOrder.store hs.typed.rows hs.keyed h.planned ht
      hr).2

theorem foreseen (h : s.Attended q u) (hs : s.Grounded) (hflat : q.isFlat = true) : s.Foreseen u := by
  intro l key q' fuel r hmem hu hq hr
  obtain ⟨rfl, -⟩ := h.reruns l key hmem hu
  cases hq
  exact rerun_eq hs.inOrder.schema hs.inOrder.store hs.typed.rows rfl (Query.levels_of_isFlat hflat) hr

/-- Rows that are stored later change nothing about what is due. -/
theorem dueAt_eq (h : s.Attended q u) (hs : s.Grounded) (ht : t.Grounded) (hflat : q.isFlat = true)
    (hschema : t.schema = s.schema) (hrows : s.store.rows q.table ⊆ t.store.rows q.table) :
    s.dueAt t.schema t.store u = s.due u := by
  have hsame : s.notices.flatMap (Notice.messages t.schema t.store u) =
      s.notices.flatMap (Notice.messages s.schema s.store u) := by
    refine List.flatMap_congr fun n hn => ?_
    cases n with
    | deliver => rfl
    | rerun l key =>
      rw [Notice.messages, Notice.messages]
      split
      next hu =>
        obtain ⟨r, hr, hmessages, -⟩ := h.renewed hs hflat hn hu
        rw [hmessages s.store hs.inOrder.store hs.typed.rows hs.keyed hr, hschema]
        exact hmessages t.store ht.inOrder.store (hschema ▸ ht.typed.rows) (hschema ▸ ht.keyed) (hrows hr)
      next => rfl
  rw [dueAt, due, hsame]

/-- What a task turns into with a step. -/
theorem attends_of_continues (hs : s.schema.Valid) {task task' : Task} (h : Continues s task task')
    (htask : task.Attends u) : task'.Attends u := by
  cases h with
  | actions => trivial
  | @insert o text table row w fuel read prepared =>
    obtain ⟨t', key, bytes, rfl, -⟩ := Opening.insert_of_continues hs read (.insert (o := o) fuel read prepared)
    exact ⟨htask.1, _, _, _, rfl⟩
  | update read | delete read =>
    obtain ⟨-, table, row, hread⟩ := htask
    rw [read] at hread
    cases hread

/-- The tasks after a step are such as before. -/
theorem tasks_step (h : s.Attended q u) (hs : s.schema.Valid) (hstep : Step s t) :
    ∀ task ∈ t.tasks, task.Attends u := by
  intro task hmem
  rcases hstep.spec with ⟨task', hmem', -, htasks⟩ | ⟨-, -, htasks⟩
  · rcases htasks task hmem with hmem | hcontinues
    · exact h.tasks task hmem
    · exact attends_of_continues hs hcontinues (h.tasks task' hmem')
  · rcases htasks task hmem with hmem | ⟨l, key, rfl⟩
    · exact h.tasks task hmem
    · trivial

/-- A channel is attended to still if no row is gone, and what is new under way is such as it was. -/
theorem next (h : s.Attended q u) (hschema : t.schema = s.schema)
    (hrows : ∀ table, s.store.rows table ⊆ t.store.rows table) (hopen : t.IsOpen u.connection)
    (htasks : ∀ task ∈ t.tasks, task.Attends u)
    (hactions : ∀ a ∈ t.pending, a ∈ s.pending ∨ a.Attends t.schema t.store u)
    (honce : (t.unannounced q.table).Nodup)
    (hwatches : ∀ table, ∀ x ∈ t.watches table, x ∈ s.watches table ∨
      (x.listener.subscriber = u → x = q.subscription u none Path.root ∨ x.isRecord = true))
    (hreruns : ∀ l key, .rerun l key ∈ t.notices → .rerun l key ∈ s.notices ∨ (l.subscriber = u →
      l = ⟨u, some q, Path.root⟩ ∧ ∃ t', Keyed.find? t.schema q.table = some t' ∧
        ∃ r ∈ t.store.rows q.table, key = r.key t')) : t.Attended q u := by
  refine ⟨hschema ▸ h.planned, hopen, htasks, fun a ha => ?_, honce, fun table x hx hu => ?_,
    fun l key hmem hu => ?_⟩
  · rcases hactions a ha with hold | hnew
    · exact hschema ▸ (h.actions a hold).mono hrows
    · exact hnew
  · rcases hwatches table x hx with hold | hnew
    · exact h.watches table x hold hu
    · exact hnew hu
  · rcases hreruns l key hmem with hold | hnew
    · obtain ⟨hl, t', ht', r, hr, hkey⟩ := h.reruns l key hold hu
      exact ⟨hl, t', hschema ▸ ht', r, hrows _ hr, hkey⟩
    · exact hnew hu

/-! ## Tasks that begin -/

theorem told_none : (List.replicate n (q.told u [])).flatten = [] := by
  simp [Query.told, Query.shown]

theorem inserted?_finish (o : Origin) (r : Except Fault Json) (table : String) :
    (o.finish r).filterMap (Action.inserted? table) = [] := by
  cases o <;> cases r <;> rfl

/-- A task that is no list of actions may commit rows that wait to be announced, and sends no subscription of the
channel to new rows. -/
theorem begins (h : s.Attended q u) (hs : s.Grounded) (ht : t.Grounded) (hflat : q.isFlat = true) (hstep : Step s t)
    (task task' : Task) (rows : List Row) (hengine : t.engine = s.engine) (hconnections : t.connections = s.connections)
    (hschema : t.schema = s.schema) (hrows : ∀ table, s.store.rows table ⊆ t.store.rows table)
    (pending : t.pending.Perm (task'.pending ++ s.pending))
    (notices : s.notices.Perm (task.notice?.toList ++ t.notices))
    (hactions : ∀ a ∈ task'.pending, a.Attends t.schema t.store u)
    (hsent : ∀ table, ∀ x ∈ task'.pending.flatMap (Action.subscriptions table), x.listener.subscriber = u →
      x.isRecord = true)
    (hmessages : task'.pending.filterMap (Action.message? u) =
      task.notice?.toList.flatMap (Notice.messages t.schema t.store u))
    (hwaiting : task'.pending.filterMap (Action.inserted? q.table) = rows)
    (hgained : (t.store.rows q.table).Perm (rows ++ s.store.rows q.table)) :
    t.Attended q u ∧ Proceeds q u s t [] := by
  obtain ⟨table, htable⟩ := h.planned.table
  have hnodup : (t.store.rows q.table).Nodup := ht.nodup_rows (hschema ▸ htable)
  have hun : (t.unannounced q.table).Perm (rows ++ s.unannounced q.table) := by
    have hposts := pending.filterMap (Action.inserted? q.table)
    rw [List.filterMap_append, hwaiting] at hposts
    exact hposts
  have honce : (t.unannounced q.table).Nodup := by
    obtain ⟨hrows, -, hnew⟩ := List.nodup_append.mp (hgained.nodup_iff.mp hnodup)
    refine hun.nodup_iff.mpr (List.nodup_append.mpr ⟨hrows, h.once, fun r hr r' hr' => ?_⟩)
    exact hnew r hr r' (h.unannounced_subset hr')
  have hhearing : t.hearing u q.table = s.hearing u q.table := by rw [hearing, hearing, hengine]
  have hopening : t.opening u q.table = s.opening u q.table := by
    have hposts := (pending.flatMap_right (Action.subscriptions q.table)).countP_eq (Subscription.tells u)
    have hnone : (task'.pending.flatMap (Action.subscriptions q.table)).countP (Subscription.tells u) = 0 := by
      refine List.countP_eq_zero.mpr fun x hx htells => ?_
      obtain ⟨hrecord, hu⟩ := Bool.and_eq_true_iff.mp htells
      rw [hsent _ x hx (of_decide_eq_true hu)] at hrecord
      cases hrecord
    rw [List.flatMap_append, List.countP_append, hnone, Nat.zero_add] at hposts
    exact hposts
  refine ⟨h.next hschema hrows ((isOpen_congr hconnections).mpr h.isOpen) (h.tasks_step hs.inOrder.schema hstep)
    (fun a ha => ?_) honce (fun name x hx => ?_) (fun l key hmem => ?_), announced_of_commit hgained hun hnodup,
    by rw [hhearing, hopening], Nat.le_of_eq hopening, ?_⟩
  · rcases List.mem_append.mp (pending.mem_iff.mp ha) with ha | ha
    · exact .inr (hactions a ha)
    · exact .inl ha
  · rcases List.mem_append.mp hx with hx | hx
    · exact .inl (List.mem_append_left _ (hengine ▸ hx))
    · have hposts := (pending.flatMap_right (Action.subscriptions name)).mem_iff.mp hx
      rw [List.flatMap_append] at hposts
      rcases List.mem_append.mp hposts with hx | hx
      · exact .inr fun hu => .inr (hsent name x hx hu)
      · exact .inl (List.mem_append_right _ hx)
  · exact .inl (notices.mem_iff.mpr (List.mem_append_right _ hmem))
  · have hdue := dueAt_of_begins t.schema t.store u pending notices
    rw [hmessages] at hdue
    have hdue := (List.perm_append_left_iff _).mp hdue
    rw [h.dueAt_eq hs ht hflat hschema (hrows _)] at hdue
    rw [mail, mail, received_congr hconnections]
    rw [told_none, List.append_nil]
    exact hdue.symm.append_left _

/-- A statement of another channel that is done leaves all as it was. -/
theorem finishes (h : s.Attended q u) (hs : s.Grounded) (ht : t.Grounded) (hflat : q.isFlat = true) (hstep : Step s t)
    {task : Task} {o : Origin} {r : Except Fault Json} (ho : o.subscriber? ≠ some u) (hengine : t.engine = s.engine)
    (hconnections : t.connections = s.connections) (hschema : t.schema = s.schema) (hstore : t.store = s.store)
    (pending : t.pending.Perm (o.finish r ++ s.pending)) (notices : s.notices.Perm (task.notice?.toList ++ t.notices))
    (hnotice : task.notice? = none) : t.Attended q u ∧ Proceeds q u s t [] := by
  refine h.begins hs ht hflat hstep task (.actions (o.finish r)) [] hengine hconnections hschema
    (fun _ => hstore ▸ List.Subset.refl _) pending notices (Origin.finish_attends ho r) (fun table x hx => ?_) ?_
    (inserted?_finish o r _) (hstore ▸ List.Perm.refl _)
  · rw [Task.pending, Opening.subscriptions_finish] at hx
    cases hx
  · rw [hnotice]
    exact List.filterMap_eq_nil_iff.mpr fun a ha => (finish_elsewhere ho a ha).1

/-- A row that is committed waits to be announced. -/
theorem commits (h : s.Attended q u) (hs : s.Grounded) (ht : t.Grounded) (hflat : q.isFlat = true) (hstep : Step s t)
    {o : Origin} {name : String} {key : Literal} {bytes : Bytes} {c : Committed}
    (mem : .write o (.insert name key bytes) ∈ s.tasks) (made : (Write.insert name key bytes).commit s.store = .ok c)
    (hengine : t.engine = s.engine) (hconnections : t.connections = s.connections) (hschema : t.schema = s.schema)
    (hstore : t.store = c.store)
    (pending : t.pending.Perm ((c.event.map fun (table, e) => .post table (.event e)).toList ++
      o.finish (.ok c.answer) ++ s.pending)) (notices : s.notices.Perm t.notices) :
    t.Attended q u ∧ Proceeds q u s t [] := by
  have ho : o.subscriber? ≠ some u := (h.tasks _ mem).1
  obtain ⟨table, htable, hkeyed⟩ := hs.writes.writes o _ mem
  obtain rfl := (hs.inOrder.schema.find? htable).2
  simp only [Write.commit] at made
  split at made
  next => cases made
  next hnew =>
    cases made
    dsimp only at hstore pending
    obtain ⟨r, hbytes, rfl, hgains⟩ := Opening.gains_of_put htable hs.inOrder.store
      (hstore ▸ hschema ▸ ht.typed.rows) (hstore ▸ ht.typed.fits) hnew hkeyed
    rw [← hstore] at hgains
    have hrows : ∀ name, s.store.rows name ⊆ t.store.rows name := by
      intro name
      by_cases hname : name = table.name
      · exact hname ▸ fun r' hr' => hgains.rows.mem_iff.mpr (List.mem_cons_of_mem _ hr')
      · rw [hgains.others name hname]
        exact List.Subset.refl _
    have hinserted : Event.Inserted t.schema t.store table.name ⟨r.key table, none, some bytes⟩ :=
      ⟨table, bytes, r, hschema ▸ htable, rfl, hbytes, hgains.rows.mem_iff.mpr List.mem_cons_self⟩
    refine h.begins hs ht hflat hstep (.actions [])
      (.actions (.post table.name (.event ⟨r.key table, none, some bytes⟩) :: o.finish _))
      (if table.name = q.table then [r] else []) hengine hconnections
      hschema hrows pending notices (List.forall_mem_cons.mpr ⟨⟨rfl, rfl, ?_⟩, Origin.finish_attends ho _⟩)
      (fun name x hx => ?_) ?_ ?_ ?_
    · rintro name e ⟨⟩
      exact hinserted
    · rw [Task.pending, List.flatMap_cons, Opening.subscriptions_finish] at hx
      cases hx
    · exact List.filterMap_eq_nil_iff.mpr (List.forall_mem_cons.mpr ⟨rfl, fun a ha => (finish_elsewhere ho a ha).1⟩)
    · rw [Task.pending, List.filterMap_cons, inserted?_finish, Action.inserted?]
      split <;> simp_all [Event.inserted?]
    · split
      next hname => exact hname ▸ hgains.rows
      next hname => rw [hgains.others _ (Ne.symm hname), List.nil_append]

/-- A query that is run again tells of its row, and subscribes to rows only. -/
theorem resumes (h : s.Attended q u) (hs : s.Grounded) (ht : t.Grounded) (hflat : q.isFlat = true) (hstep : Step s t)
    {l : Listener} {key : Literal} {q' : Query} {r : Evaluation Json} {fuel : Nat} (query : l.query = some q')
    (run : LiveQuery.rerun fuel s.schema s.store l q' key = some r) (frame : t = { s with tasks := t.tasks })
    (pending : t.pending.Perm ((subscribeActions r.sent ++ updateActions l r.outcome) ++ s.pending))
    (notices : s.notices.Perm (.rerun l key :: t.notices)) : t.Attended q u ∧ Proceeds q u s t [] := by
  have hforeseen : s.Foreseen u := h.foreseen hs hflat
  have hrerun : .rerun l key ∈ s.notices := notices.mem_iff.mpr List.mem_cons_self
  have hstore : t.store = s.store := by rw [frame]
  have hschema : t.schema = s.schema := by rw [frame]
  refine h.begins hs ht hflat hstep (.rerun l key) (.actions (subscribeActions r.sent ++ updateActions l r.outcome)) []
    (by rw [frame]) (by rw [frame]) hschema
    (fun _ => hstore ▸ List.Subset.refl _) pending notices (fun a ha => ?_) (fun table x hx hu => ?_) ?_ ?_
    (hstore ▸ List.Perm.refl _)
  · rcases List.mem_append.mp ha with ha | ha
    · obtain ⟨x, -, rfl⟩ := List.mem_map.mp ha
      exact ⟨rfl, rfl, by simp⟩
    · obtain ⟨m, rfl, -⟩ := mem_updateActions ha
      exact ⟨rfl, rfl, by simp⟩
  · rw [Task.pending, List.flatMap_append, watches_of_posts, watches_of_deliveries, List.append_nil] at hx
    have hmem := List.mem_of_mem_filter hx
    have hl : l.subscriber = u := (rerun_sent run x hmem).symm.trans hu
    obtain ⟨r', -, -, hrecords⟩ := h.renewed hs hflat hrerun hl
    exact hrecords x ((hforeseen hrerun hl query run).1 ▸ hmem)
  · rw [hschema, hstore, Task.notice?, Option.toList_some, List.flatMap_singleton]
    exact hforeseen.incoming hrerun query run
  · refine List.filterMap_eq_nil_iff.mpr fun a ha => ?_
    rcases List.mem_append.mp ha with ha | ha
    · obtain ⟨x, -, rfl⟩ := List.mem_map.mp ha
      rfl
    · obtain ⟨m, rfl, -⟩ := mem_updateActions ha
      rfl

theorem starts (h : s.Attended q u) (hs : s.Grounded) (ht : t.Grounded) (hflat : q.isFlat = true) (hstep : Step s t)
    {task task' : Task} {s' : Database} (mem : task ∈ s.tasks) (starts : Starts s task s' task')
    (frame : t = { s' with tasks := t.tasks }) (pending : t.pending.Perm (task'.pending ++ s.pending))
    (notices : s.notices.Perm (task.notice?.toList ++ t.notices)) : t.Attended q u ∧ Proceeds q u s t [] := by
  have hengine : t.engine = s.engine := by rw [frame, starts.frame]
  have hconnections : t.connections = s.connections := by rw [frame, starts.frame]
  have hbefore := h.tasks _ mem
  cases starts with
  | write w =>
    have hstore : t.store = s.store := by rw [frame]
    exact h.begins hs ht hflat hstep _ _ [] hengine hconnections (by rw [frame])
      (fun _ => hstore ▸ List.Subset.refl _) pending notices (by simp [Task.pending]) (by simp [Task.pending]) rfl rfl
      (hstore ▸ List.Perm.refl _)
  | ended store schema r changes =>
    obtain ⟨ho, table, row, read⟩ := hbefore
    obtain ⟨hstore, hschema⟩ : store = s.store ∧ schema = s.schema := by
      cases changes with
      | none hstore hschema => exact ⟨hstore, hschema⟩
      | create read' =>
        rw [read] at read'
        cases read'
    exact h.finishes hs ht hflat hstep ho hengine hconnections (by rw [frame]; exact hschema)
      (by rw [frame]; exact hstore) pending notices rfl
  | selected read =>
    obtain ⟨-, table, row, read'⟩ := hbefore
    rw [read] at read'
    cases read'
  | refused f =>
    exact h.finishes hs ht hflat hstep hbefore.1 hengine hconnections (by rw [frame]) (by rw [frame]) pending notices
      rfl
  | committed made =>
    obtain ⟨-, name, key, bytes, rfl⟩ := hbefore
    exact h.commits hs ht hflat hstep mem made hengine hconnections (by rw [frame]) (by rw [frame]) pending notices
  | resumed query fuel run => exact h.resumes hs ht hflat hstep query run frame pending notices

/-! ## Actions -/

/-- A step that stores nothing goes on with what was due, or it announces rows, or it sends subscriptions. -/
theorem proceeds (h : s.Attended q u) (hs : s.Grounded) (hstep : Step s t) (rows : List Row) (n : Nat)
    {ms : List Message} (hstore : t.store = s.store) (hschema : t.schema = s.schema) (hopen : t.IsOpen u.connection)
    (hactions : ∀ a ∈ t.pending, a ∈ s.pending ∨ a.Attends s.schema s.store u)
    (hun : (s.unannounced q.table).Perm (rows ++ t.unannounced q.table))
    (hhearing : t.hearing u q.table = n + s.hearing u q.table)
    (hopening : s.opening u q.table = n + t.opening u q.table) (hwatches : ∀ table, t.watches table ⊆ s.watches table)
    (hreruns : ∀ l key, .rerun l key ∈ t.notices → .rerun l key ∈ s.notices ∨ (l.subscriber = u →
      l = ⟨u, some q, Path.root⟩ ∧ ∃ t', Keyed.find? s.schema q.table = some t' ∧
        ∃ r ∈ s.store.rows q.table, key = r.key t'))
    (hreceived : t.received u = s.received u ++ ms)
    (hdue : (s.due u ++ (List.replicate (s.hearing u q.table) (q.told u rows)).flatten).Perm
      (ms ++ t.dueAt s.schema s.store u)) : t.Attended q u ∧ Proceeds q u s t rows := by
  obtain ⟨table, htable⟩ := h.planned.table
  refine ⟨h.next hschema (fun _ => hstore ▸ List.Subset.refl _) hopen (h.tasks_step hs.inOrder.schema hstep)
    (fun a ha => ?_) (List.nodup_append.mp (hun.nodup_iff.mp h.once)).2.1
    (fun name x hx => .inl (hwatches name hx)) (fun l key hmem => ?_), ?_, by omega, by omega, ?_⟩
  · rw [hschema, hstore]
    exact hactions a ha
  · rw [hschema, hstore]
    exact hreruns l key hmem
  · exact announced_of_post (by rw [hstore]) hun (hs.nodup_rows htable) h.once h.unannounced_subset
  · have hsame : t.due u = t.dueAt s.schema s.store u := by rw [due, dueAt, hstore, hschema]
    rw [mail, mail, hreceived, hsame, List.append_assoc, List.append_assoc]
    exact hdue.symm.append_left _

/-- A task that is over, or a query that is not there, changes nothing but what waits. -/
theorem lapses (h : s.Attended q u) (hs : s.Grounded) (hstep : Step s t) (frame : t = { s with tasks := t.tasks })
    (hactions : ∀ a ∈ t.pending, a ∈ s.pending) (hun : (s.unannounced q.table).Perm (t.unannounced q.table))
    (hsubscriptions : ∀ table, (s.pending.flatMap (Action.subscriptions table)).Perm
      (t.pending.flatMap (Action.subscriptions table)))
    (hnotices : t.notices ⊆ s.notices) (hdue : (s.dueAt s.schema s.store u).Perm (t.dueAt s.schema s.store u)) :
    t.Attended q u ∧ Proceeds q u s t [] := by
  have hengine : t.engine = s.engine := by rw [frame]
  have hconnections : t.connections = s.connections := by rw [frame]
  refine h.proceeds hs hstep [] 0 (by rw [frame]) (by rw [frame]) ((isOpen_congr hconnections).mpr h.isOpen)
    (fun a ha => .inl (hactions a ha)) hun (by rw [hearing, hearing, hengine, Nat.zero_add])
    (by rw [opening, opening, (hsubscriptions q.table).countP_eq, Nat.zero_add]) (fun name x hx => ?_)
    (fun l key hmem => .inl (hnotices hmem)) ((received_congr hconnections u).trans (List.append_nil _).symm) ?_
  · rcases List.mem_append.mp hx with hx | hx
    · exact List.mem_append_left _ (hengine ▸ hx)
    · exact List.mem_append_right _ ((hsubscriptions name).mem_iff.mpr hx)
  · rw [told_none, List.append_nil]
    exact hdue

/-- A listener of the channel that a new row calls for is the one of the query. -/
theorem eq_of_awaits (h : s.Attended q u) {table : String} {x : Subscription} {row : Value} (hx : x ∈ s.watches table)
    (hu : x.listener.subscriber = u) (hawaits : x.awaits row = true) : x = q.subscription u none Path.root := by
  refine (h.watches table x hx hu).resolve_right fun hrecord => ?_
  rw [Subscription.isRecord_of_awaits hawaits] at hrecord
  cases hrecord

/-- What the listeners of the channel are asked for that a row calls for. -/
theorem flatMap_called {x : Subscription} {xs : List Subscription} (hx : x.tells u = true) {row : Value}
    (hxs : ∀ y ∈ xs, y.listener.subscriber = u → y = x ∨ y.isRecord = true) (g : Subscription → List Message) :
    ((xs.filter (Subscription.awaits row)).filter (·.listener.subscriber = u)).flatMap g =
      (List.replicate (xs.countP (Subscription.tells u)) (if x.awaits row then g x else [])).flatten := by
  induction xs with
  | nil => rfl
  | cons y xs ih =>
    obtain ⟨hy, hxs⟩ := List.forall_mem_cons.mp hxs
    have ih := ih hxs
    by_cases hu : y.listener.subscriber = u
    · rcases hy hu with rfl | hrecord
      · rw [List.countP_cons_of_pos hx, List.replicate_succ, List.flatten_cons, ← ih, List.filter_cons]
        split
        next => rw [List.filter_cons, if_pos (decide_eq_true hu), List.flatMap_cons]
        next => rfl
      · have hnone : ¬y.awaits row = true := fun hawaits => by
          rw [Subscription.isRecord_of_awaits hawaits] at hrecord
          cases hrecord
        rw [List.countP_cons_of_neg (by simp [Subscription.tells, hrecord]), List.filter_cons_of_neg hnone, ih]
    · rw [List.countP_cons_of_neg (by simp [Subscription.tells, hu]), List.filter_filter,
        List.filter_cons_of_neg (by simp [hu]), ← List.filter_filter, ih]

/-- The messages that an announced row leads to on the channel. -/
theorem messages_calls (h : s.Attended q u) (hs : s.Grounded) (hflat : q.isFlat = true) {a : Action}
    (ha : a.Attends s.schema s.store u) : (s.calls a).flatMap (Notice.messages s.schema s.store u) =
      (List.replicate (s.hearing u q.table) (q.told u (a.inserted? q.table).toList)).flatten := by
  cases a with
  | broadcast | deliver | answer | hangUp => exact told_none.symm
  | post name p =>
    cases p with
    | subscribe | remove => exact told_none.symm
    | event e =>
      obtain ⟨table, bytes, r, htable, rfl, hbytes, hr⟩ := ha.inserted name e rfl
      have hlisteners : ∀ x ∈ (s.engine.audience name).subscriptions name, x.listener.subscriber = u →
          x = q.subscription u none Path.root ∨ x.isRecord = true :=
        fun x hx => h.watches name x (List.mem_append_left _ hx)
      have htells : (q.subscription u none Path.root).tells u = true := decide_eq_true rfl
      have hcalls : s.calls (.post name (.event ⟨r.key table, none, some bytes⟩)) =
          (((s.engine.audience name).subscriptions name).filter (Subscription.awaits r.value)).map
            fun x => .rerun x.listener (r.key table) := by
        simp only [calls, Event.notices, Row.decode_of_ofBytes? hbytes]
        rw [Audience.forNewRow_of_keys (hs.wired.engine.audience name) name
          fun column v hv => Row.toKey_of_member hv, List.map_map]
        rfl
      rw [hcalls, messages_reruns, flatMap_called htells hlisteners]
      by_cases hname : name = q.table
      · subst hname
        have hinserted :
            Action.inserted? q.table (.post q.table (.event ⟨r.key table, none, some bytes⟩)) = some r := by
          rw [Action.inserted?, if_pos rfl]
          exact hbytes
        rw [hinserted, hearing]
        refine congrArg (fun ms => (List.replicate _ ms).flatten) ?_
        split
        next =>
          exact (Query.renewed_of_isFlat hflat hs.inOrder.schema hs.inOrder.store hs.typed.rows hs.keyed h.planned
            htable hr).1
        next hawaits =>
          exact (Query.told_of_not_awaits hs.inOrder.schema hs.typed.rows h.planned htable hr hawaits).symm
      · have hinserted : Action.inserted? q.table (.post name (.event ⟨r.key table, none, some bytes⟩)) = none :=
          if_neg hname
        have hnobody : ((s.engine.audience name).subscriptions name).countP (Subscription.tells u) = 0 := by
          refine List.countP_eq_zero.mpr fun x hx hx' => hname ?_
          obtain ⟨hrecord, hu⟩ := Bool.and_eq_true_iff.mp hx'
          rcases hlisteners x hx (of_decide_eq_true hu) with rfl | hrecord'
          · exact (Audience.tableName_of_mem hx).symm
          · rw [hrecord'] at hrecord
            cases hrecord
        rw [hinserted, hnobody, Option.toList_none, told_none]
        rfl

/-- The queries of the channel that an announced row calls for are those of its listener, for that row. -/
theorem reruns_calls (h : s.Attended q u) (hs : s.Grounded) {a : Action} (ha : a.Attends s.schema s.store u)
    {l : Listener} {key : Literal} (hmem : .rerun l key ∈ s.calls a) (hu : l.subscriber = u) :
    l = ⟨u, some q, Path.root⟩ ∧ ∃ t', Keyed.find? s.schema q.table = some t' ∧ ∃ r ∈ s.store.rows q.table,
      key = r.key t' := by
  cases a with
  | broadcast | deliver | answer | hangUp => cases hmem
  | post name p =>
    cases p with
    | subscribe | remove => cases hmem
    | event e =>
      obtain ⟨table, bytes, r, htable, rfl, hbytes, hr⟩ := ha.inserted name e rfl
      simp only [calls, Event.notices, Row.decode_of_ofBytes? hbytes] at hmem
      rw [Audience.forNewRow_of_keys (hs.wired.engine.audience name) name
        fun column v hv => Row.toKey_of_member hv] at hmem
      obtain ⟨l', hl', heq⟩ := List.mem_map.mp hmem
      obtain ⟨x, hx, rfl⟩ := List.mem_map.mp hl'
      cases heq
      obtain ⟨hx, hawaits⟩ := List.mem_filter.mp hx
      obtain rfl := h.eq_of_awaits (List.mem_append_left _ hx) hu hawaits
      obtain rfl : q.table = name := Audience.tableName_of_mem hx
      exact ⟨rfl, table, htable, r, hr, rfl⟩

/-- An action announces a row, sends a subscription or hands over a message. -/
theorem acts (h : s.Attended q u) (hs : s.Grounded) (hflat : q.isFlat = true) (hstep : Step s t)
    {rest others : List Action} {a : Action} {order : Traversal} (mem : .actions (a :: rest) ∈ s.tasks)
    (frame : t = { s.act a with tasks := t.tasks }) (before : s.pending.Perm (a :: rest ++ others))
    (after : t.pending.Perm (s.fanOut order a ++ rest ++ others)) (notices : t.notices.Perm (s.notices ++ s.calls a)) :
    t.Attended q u ∧ Proceeds q u s t (a.inserted? q.table).toList := by
  have horderly := hs.wired.tasks _ mem
  have ha : a.Attends s.schema s.store u := h.actions a (before.mem_iff.mpr List.mem_cons_self)
  have hremoval : ∀ p, a = .broadcast p → ∃ d, p = .remove d := fun p hp =>
    horderly.removals p (hp ▸ List.mem_cons_self)
  have hhang : a ≠ .hangUp u.connection := by
    rintro rfl
    have hstays := ha.stays
    simp [Action.hangsUp] at hstays
  have hconnections : t.connections = (s.act a).connections := by rw [frame]
  have hengine : t.engine = (s.act a).engine := by rw [frame]
  obtain ⟨hstore, hschema, -⟩ := s.act_rest a
  have hsubscriptions : ∀ table, (s.pending.flatMap (Action.subscriptions table)).Perm
      (a.subscriptions table ++ t.pending.flatMap (Action.subscriptions table)) :=
    fun table => flatMap_acts horderly before after fun _ _ => rfl
  have hwatches : ∀ table, t.watches table ⊆ s.watches table := by
    intro table x hx
    obtain ⟨gone, hsplit, -⟩ := watches_of_acts hs.wired.engine hengine (hsubscriptions table)
    exact hsplit.mem_iff.mpr (List.mem_append_right _ hx)
  refine h.proceeds hs hstep _ ((a.subscriptions q.table).countP (Subscription.tells u))
    (by rw [frame]; exact hstore) (by rw [frame]; exact hschema)
    ((isOpen_congr hconnections).mpr ((isOpen_act hhang).mpr h.isOpen)) (fun b hb => ?_) ?_ ?_ ?_
    hwatches (fun l key hmem => ?_)
    ((received_congr hconnections u).trans (received_act h.isOpen hhang fun whom m heq => ?_)) ?_
  · rw [List.append_assoc] at after
    rcases List.mem_append.mp (after.mem_iff.mp hb) with hb | hb
    · exact .inr (attends_fanOut hremoval ha b hb)
    · exact .inl (before.mem_iff.mpr (List.mem_cons_of_mem _ hb))
  · exact filterMap_acts horderly before after fun _ _ => rfl
  · exact hearing_of_acts hs.wired.engine hengine ha.keeps q.table
  · rw [opening, (hsubscriptions q.table).countP_eq, List.countP_append]
    rfl
  · rcases List.mem_append.mp (notices.mem_iff.mp hmem) with hmem | hmem
    · exact .inl hmem
    · exact .inr (h.reruns_calls hs ha hmem)
  · exact horderly.addressed whom m (heq ▸ List.mem_cons_self)
  · rw [← h.messages_calls hs hflat ha]
    exact dueAt_of_acts _ _ _ horderly before after notices

/-- Whatever step is taken, the channel is attended to, and its accounts proceed. -/
theorem step (h : s.Attended q u) (hs : s.Grounded) (ht : t.Grounded) (hflat : q.isFlat = true) (hstep : Step s t) :
    t.Attended q u ∧ ∃ rows, Proceeds q u s t rows := by
  cases progress hs.wired hstep with
  | begins mem starts frame pending notices =>
    obtain ⟨hattended, hproceeds⟩ := h.starts hs ht hflat hstep mem starts frame pending notices
    exact ⟨hattended, [], hproceeds⟩
  | lapses query frame pending notices =>
    obtain ⟨hattended, hproceeds⟩ := h.lapses hs hstep frame (fun a ha => pending.mem_iff.mp ha)
      (pending.symm.filterMap _) (fun table => pending.symm.flatMap_right _)
      (fun n hn => notices.mem_iff.mpr (List.mem_cons_of_mem _ hn)) (dueAt_of_lapses _ _ _ query pending notices)
    exact ⟨hattended, [], hproceeds⟩
  | ends mem frame pending notices =>
    obtain ⟨hattended, hproceeds⟩ := h.lapses hs hstep frame (fun a ha => pending.mem_iff.mp ha)
      (pending.symm.filterMap _) (fun table => pending.symm.flatMap_right _) (fun n hn => notices.mem_iff.mp hn)
      (dueAt_of_ends _ _ _ pending notices)
    exact ⟨hattended, [], hproceeds⟩
  | acts order mem frame before after notices =>
    obtain ⟨hattended, hproceeds⟩ := h.acts hs hflat hstep mem frame before after notices
    exact ⟨hattended, _, hproceeds⟩
  | handles store schema audience pending open_iff messages notices received =>
    obtain ⟨hattended, hproceeds⟩ := h.proceeds hs hstep [] 0 store schema
      ((open_iff _).mpr h.isOpen) (fun a ha => .inl (pending ▸ ha)) (by rw [unannounced, unannounced, pending]; rfl)
      (by rw [hearing, hearing, audience, Nat.zero_add]) (by rw [opening, opening, pending, Nat.zero_add])
      (fun table => by rw [Database.watches, Database.watches, audience, pending]; exact List.Subset.refl _)
      (fun l key hmem => .inl (notices.mem_iff.mpr (List.mem_append_right _ hmem))) (received u h.isOpen)
      (by rw [told_none, List.append_nil]; exact dueAt_of_handles _ _ _ pending messages notices)
    exact ⟨hattended, [], hproceeds⟩

/-! ## Clients -/

/-- An insertion that another channel or a caller sends leaves the accounts as they are. -/
theorem ask (h : s.Attended q u) {o : Origin} {text table : String} {row : Expr} (ho : o.subscriber? ≠ some u)
    (read : Statement.read text = .ok (.insert table row)) (htasks : t.tasks = s.tasks ++ [.statement o text])
    (hstore : t.store = s.store) (hschema : t.schema = s.schema) (hengine : t.engine = s.engine)
    (hopen : t.IsOpen u.connection) (hreceived : t.received u = s.received u) :
    t.Attended q u ∧ Proceeds q u s t [] := by
  have hpending := pending_of_statement htasks
  have hnotices : t.notices = s.notices := by
    rw [notices, htasks, hengine, List.filterMap_append]
    simp [Task.notice?, notices]
  have hun : t.unannounced q.table = s.unannounced q.table := by rw [unannounced, unannounced, hpending]
  have hlisteners : t.hearing u q.table = s.hearing u q.table := by rw [hearing, hearing, hengine]
  have hopening : t.opening u q.table = s.opening u q.table := by rw [opening, opening, hpending]
  refine ⟨h.next hschema (fun _ => hstore ▸ List.Subset.refl _) hopen (fun task hmem => ?_)
    (fun a ha => .inl (hpending ▸ ha)) (hun ▸ h.once) (fun name x hx => .inl ?_)
    (fun l key hmem => .inl (hnotices ▸ hmem)), ?_, by rw [hlisteners, hopening], Nat.le_of_eq hopening, ?_⟩
  · rw [htasks] at hmem
    rcases List.mem_append.mp hmem with hmem | hmem
    · exact h.tasks task hmem
    · cases List.mem_singleton.mp hmem
      exact ⟨ho, table, row, read⟩
  · rw [Database.watches, hengine, hpending] at hx
    exact hx
  · rw [announced, announced, hun, hstore]
    exact List.Perm.refl _
  · rw [told_none, List.append_nil, mail, mail, hreceived, due, due, incoming, hpending, hnotices, hschema, hstore]
    exact List.Perm.refl _

end Attended

end Database

end LiveQuery
