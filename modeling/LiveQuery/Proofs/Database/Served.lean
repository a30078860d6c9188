import LiveQuery.Proofs.Live.Settling

/-! # Serving a statement

What a statement that is served alone comes to (`Database.Serves`): the tables and rows after it, the subscriptions
that it sends, the write that it publishes and its reply. With no other task and no post under way a database has one
way to go: it checks the statement, commits, publishes, and from then on it settles (`Service.opens`), whatever moves
next. `Database.course_of_alone` follows this way once.

Steps are taken here together with the writes that they publish (`Emits`, `Publishes`).
-/
namespace LiveQuery

/-! ## Published writes -/

/-- The write that an action publishes. -/
def Action.event? : Action → Option (String × Event)
  | .post table (.event e) => some (table, e)
  | .post .. | .broadcast _ | .deliver .. | .answer .. | .hangUp _ => none

/-- The write that a task publishes with its next step. -/
def Task.announces : Task → Option (String × Event)
  | .actions rest => rest.head?.bind Action.event?
  | .statement .. | .write .. | .rerun .. => none

/-- A step with the write that it publishes. -/
inductive Emits (s t : Database) : Option (String × Event) → Prop
  | task (fuel : Nat) (order : Traversal) (i : Nat) (h : s.stepTask fuel order i = some t) :
      Emits s t (s.tasks[i]?.bind Task.announces)
  | actor (table : String) (h : s.stepActor table = some t) : Emits s t none

/-- Steps with the writes that they publish, in order. -/
inductive Publishes : Database → List (String × Event) → Database → Prop
  | rest (s : Database) : Publishes s [] s
  | step {s t u : Database} {e : Option (String × Event)} {es : List (String × Event)} (first : Emits s t e)
      (later : Publishes t es u) : Publishes s (e.toList ++ es) u

theorem Emits.step {s t : Database} {e : Option (String × Event)} (h : Emits s t e) : Step s t := by
  cases h with
  | task fuel order i h => exact .task fuel order i h
  | actor table h => exact .actor table h

theorem Step.emits {s t : Database} (h : Step s t) : ∃ e, Emits s t e := by
  cases h with
  | task fuel order i h => exact ⟨_, .task fuel order i h⟩
  | actor table h => exact ⟨_, .actor table h⟩

namespace Publishes

variable {s t : Database} {es : List (String × Event)}

theorem steps (h : Publishes s es t) : Relation.ReflTransGen Step s t := by
  induction h with
  | rest => exact .refl
  | step first _ ih => exact .head first.step ih

/-- Whatever steps are taken publish some writes. -/
theorem of_steps (h : Relation.ReflTransGen Step s t) : ∃ es, Publishes s es t := by
  induction h using Relation.ReflTransGen.head_induction_on with
  | refl => exact ⟨[], .rest t⟩
  | head hstep _ ih =>
    obtain ⟨e, he⟩ := hstep.emits
    obtain ⟨es, hes⟩ := ih
    exact ⟨_, .step he hes⟩

end Publishes

namespace Database

variable {s t u : Database} {es : List (String × Event)}

theorem Settling.emits (hs : s.Settling) {e : Option (String × Event)} (h : Emits s t e) : e = none := by
  cases h with
  | actor => rfl
  | task fuel order i h =>
    cases htask : s.tasks[i]? with
    | none => rfl
    | some task =>
      have hsettling := hs task (List.mem_of_getElem? htask)
      cases task with
      | statement | write | rerun => rfl
      | actions rest =>
        rw [Option.bind_some, Task.announces]
        refine Option.bind_eq_none_iff.mpr fun a ha => ?_
        have hsilent := hsettling a (List.mem_of_mem_head? ha)
        unfold Action.event?
        split
        next => cases hsilent
        all_goals rfl

/-- While a database settles no write is published. -/
theorem Settling.publishes (hs : s.Settling) (h : Publishes s es t) : es = [] := by
  induction h with
  | rest => rfl
  | step first _ ih => rw [hs.emits first, ih (hs.step first.step).1]; rfl

/-- While no post waits and there is one task, a step is one of that task. -/
theorem advance_of_alone {task : Task} (htasks : s.tasks = [task]) (hidle : ∀ table, (s.engine.actor table).inbox = [])
    {e : Option (String × Event)} (h : Emits s t e) : e = task.announces ∧
      ∃ fuel order s' next, s.advance fuel order task = some (s', next) ∧ t = { s' with tasks := next.toList } := by
  cases h with
  | task fuel order i h =>
    have hi : i = 0 := by
      unfold stepTask at h
      rw [htasks] at h
      cases i with
      | zero => rfl
      | succ i => cases h
    subst hi
    obtain ⟨before, task', after, s', next, hsplit, hadv, ht⟩ := stepTask_eq h
    rw [htasks] at hsplit
    obtain ⟨rfl, rfl, rfl⟩ : before = [] ∧ task' = task ∧ after = [] := by
      cases before with
      | nil => cases hsplit; exact ⟨rfl, rfl, rfl⟩
      | cons _ before => cases before <;> cases hsplit
    exact ⟨by rw [htasks]; rfl, fuel, order, s', next, hadv, by rw [ht, List.append_nil, List.nil_append]⟩
  | actor table h =>
    obtain ⟨p, rest, hinbox, -⟩ := stepActor_eq h
    rw [hidle table] at hinbox
    cases hinbox

end Database

/-! ## Scripts -/

namespace Database

variable {s t : Database} {es : List (String × Event)} {fuel : Nat}

/-- Takes steps until nothing is under way, and collects the writes that they publish. -/
def settleNoting (fuel : Nat) : (steps : Nat) → Database → Option (List (String × Event) × Database)
  | 0, _ => none
  | steps + 1, s =>
    if s.isQuiet then some ([], s)
    else
      match s.stepFirst fuel with
      | none => none
      | some t => (settleNoting fuel steps t).map fun (es, u) => ((s.tasks.head?.bind Task.announces).toList ++ es, u)

theorem emits_of_stepFirst (h : s.stepFirst fuel = some t) : Emits s t (s.tasks.head?.bind Task.announces) := by
  unfold stepFirst at h
  split at h
  next hempty =>
    split at h
    next => cases h
    next table _ =>
      rw [List.isEmpty_iff.mp hempty]
      exact .actor table h
  next =>
    rw [List.head?_eq_getElem?]
    exact .task fuel default 0 h

theorem publishes_of_settleNoting {steps : Nat} (h : s.settleNoting fuel steps = some (es, t)) :
    Publishes s es t ∧ t.isQuiet = true := by
  induction steps generalizing s es with
  | zero => cases h
  | succ steps ih =>
    rw [settleNoting] at h
    split at h
    next hquiet => cases h; exact ⟨.rest _, hquiet⟩
    next =>
      split at h
      next => cases h
      next v hv =>
        obtain ⟨⟨later, u⟩, hlater, h⟩ := Option.map_eq_some_iff.mp h
        cases h
        obtain ⟨hpublishes, hquiet⟩ := ih hlater
        exact ⟨.step (emits_of_stepFirst hv) hpublishes, hquiet⟩

end Database

/-! ## What a statement comes to -/

/-- What a statement leaves: tables and rows, the subscriptions to send, the write to publish, and the reply. -/
structure Service where
  store : Store
  schema : Schema
  sent : List Subscription := []
  event : Option (String × Event) := none
  reply : Except Fault Json

namespace Database

/-- What checking a statement that writes comes to. -/
inductive Prepares (s : Database) : Statement → Except Fault Write → Prop
  | insert {table : String} {row : Expr} {r : Except Fault Write} (fuel : Nat)
      (h : prepareInsert fuel s.schema s.store table row = some r) : Prepares s (.insert table row) r
  | update (table : String) (assignments : List (String × Literal)) (filters : List Filter) :
      Prepares s (.update table assignments filters) (prepareUpdate s.schema table assignments filters)
  | delete (table : String) (filters : List Filter) :
      Prepares s (.delete table filters) (prepareDelete s.schema table filters)

/-- A statement that changes nothing and gets a reply. -/
def replies (s : Database) (reply : Except Fault Json) : Service := { store := s.store, schema := s.schema, reply }

/-- What a statement comes to. -/
inductive Serves (s : Database) (o : Origin) (text : String) : Service → Prop
  | unread {f : ReadFault} (read : Statement.read text = .error f) : Serves s o text (s.replies (.error (.read f)))
  | created {d : TableDef} {table : Table} (read : Statement.read text = .ok (.create d))
      (admitted : Catalog.admitted s.schema d = .ok table) :
      Serves s o text {
        store := Catalog.persist s.store table
        schema := Catalog.add s.schema table
        reply := .ok (Write.answerOf "created" (.str table.name)) }
  | unmade {d : TableDef} {f : SchemaFault} (read : Statement.read text = .ok (.create d))
      (failed : Catalog.admitted s.schema d = .error f) : Serves s o text (s.replies (.error (.schema f)))
  | unprepared {st : Statement} {f : Fault} (read : Statement.read text = .ok st)
      (prepares : s.Prepares st (.error f)) : Serves s o text (s.replies (.error f))
  | refused {st : Statement} {w : Write} {f : Fault} (read : Statement.read text = .ok st)
      (prepares : s.Prepares st (.ok w)) (failed : w.commit s.store = .error f) :
      Serves s o text (s.replies (.error f))
  | committed {st : Statement} {w : Write} {c : Committed} (read : Statement.read text = .ok st)
      (prepares : s.Prepares st (.ok w)) (made : w.commit s.store = .ok c) :
      Serves s o text { store := c.store, schema := s.schema, event := c.event, reply := .ok c.answer }
  | evaluated {e : Expr} {r : Evaluation Json} (read : Statement.read text = .ok (.eval e)) (fuel : Nat)
      (run : evaluate fuel s.schema s.store e = some r) : Serves s o text (s.replies r.outcome)
  | unanchored {live : Bool} {q : Query} {f : Fault} (read : Statement.read text = .ok (.select live q))
      (failed : anchorFor live o = .error f) : Serves s o text (s.replies (.error f))
  | selected {live : Bool} {q : Query} {anchor : Option Anchor} {r : Evaluation Json}
      (read : Statement.read text = .ok (.select live q)) (anchored : anchorFor live o = .ok anchor) (fuel : Nat)
      (run : select fuel s.schema s.store q anchor = some r) :
      Serves s o text { s.replies (r.outcome.bind q.answer) with sent := r.sent }

end Database

/-- The database once tables and rows are changed and the write is published. -/
def Service.changes (x : Service) (s : Database) : Database :=
  { s with
    store := x.store
    schema := x.schema
    engine := x.event.elim s.engine fun e => s.engine.post e.1 (.event e.2) }

/-- What is left to do then: the subscriptions and the reply are yet to be sent. -/
def Service.rest (x : Service) (o : Origin) : List Action := subscribeActions x.sent ++ o.finish x.reply

/-- The database once this is all that is left to do. -/
def Service.opens (x : Service) (s : Database) (o : Origin) : Database :=
  { x.changes s with tasks := [.actions (x.rest o)] }

namespace Database

variable {s t u : Database} {o : Origin} {text : String} {es : List (String × Event)}

theorem settling_rest (x : Service) (o : Origin) : Task.Settling (.actions (x.rest o)) := by
  refine List.forall_mem_append.mpr ⟨fun a ha => ?_, fun a ha => ?_⟩
  · obtain ⟨y, -, rfl⟩ := List.mem_map.mp ha
    rfl
  · rcases Origin.mem_finish ha with ⟨ticket, rfl⟩ | ⟨u, -, rfl | ⟨m, rfl, -⟩⟩ <;> rfl

theorem settling_opens (x : Service) (s : Database) (o : Origin) : (x.opens s o).Settling := by
  intro task htask
  cases List.mem_singleton.mp htask
  exact settling_rest x o

theorem Prepares.congr {st : Statement} {r : Except Fault Write} (hstore : t.store = s.store)
    (hschema : t.schema = s.schema) (h : t.Prepares st r) : s.Prepares st r := by
  cases h with
  | insert fuel h => exact .insert fuel (hstore ▸ hschema ▸ h)
  | update table assignments filters => rw [hschema]; exact .update table assignments filters
  | delete table filters => rw [hschema]; exact .delete table filters

/-- What a statement comes to depends on tables and rows only. -/
theorem Serves.congr {x : Service} (hstore : t.store = s.store) (hschema : t.schema = s.schema)
    (h : t.Serves o text x) : s.Serves o text x := by
  have hreplies : ∀ r, t.replies r = s.replies r := fun r => by rw [replies, replies, hstore, hschema]
  cases h with
  | unread read => exact hreplies _ ▸ .unread read
  | created read admitted => rw [hstore, hschema]; exact .created read (hschema ▸ admitted)
  | unmade read failed => exact hreplies _ ▸ .unmade read (hschema ▸ failed)
  | unprepared read prepares => exact hreplies _ ▸ .unprepared read (prepares.congr hstore hschema)
  | refused read prepares failed =>
    exact hreplies _ ▸ .refused read (prepares.congr hstore hschema) (hstore ▸ failed)
  | committed read prepares made =>
    rw [hschema]
    exact .committed read (prepares.congr hstore hschema) (hstore ▸ made)
  | evaluated read fuel run => exact hreplies _ ▸ .evaluated read fuel (hstore ▸ hschema ▸ run)
  | unanchored read failed => exact hreplies _ ▸ .unanchored read failed
  | selected read anchored fuel run =>
    rw [hreplies]
    exact .selected read anchored fuel (hstore ▸ hschema ▸ run)

/-- A statement that fails changes nothing and publishes nothing. -/
theorem Serves.unchanged {x : Service} (h : s.Serves o text x) {f : Fault} (hf : x.reply = .error f) :
    x.store = s.store ∧ x.schema = s.schema ∧ x.event = none := by
  cases h with
  | created | committed => cases hf
  | unread | unmade | unprepared | refused | evaluated | unanchored | selected => exact ⟨rfl, rfl, rfl⟩

/-- A statement subscribes for its own channel. -/
theorem Serves.sender {x : Service} (h : s.Serves o text x) :
    ∀ y ∈ x.sent, o.subscriber? = some y.listener.subscriber := by
  intro y hy
  cases h with
  | unread | created | unmade | unprepared | refused | committed | evaluated | unanchored => cases hy
  | selected read anchored fuel run =>
    obtain ⟨a, rfl, hsubscriber⟩ := select_sent run y hy
    obtain ⟨-, u, rfl, rfl⟩ := anchorFor_eq_some anchored
    exact congrArg some hsubscriber.symm

theorem Serves.subscriber {x : Service} {u : Subscriber} (h : s.Serves (.channel u) text x) :
    ∀ y ∈ x.sent, y.listener.subscriber = u :=
  fun y hy => (Option.some.inj (h.sender y hy)).symm

/-- The first step of a statement prepares a write, or it is all that the statement does to tables and rows. -/
theorem serves_of_begin {fuel : Nat} {st : Statement} {task : Task} (read : Statement.read text = .ok st)
    (h : s.begin fuel o st = some (t, task)) : (∃ w, s.Prepares st (.ok w) ∧ t = s ∧ task = .write o w) ∨
      ∃ x, s.Serves o text x ∧ x.event = none ∧ t = x.changes s ∧ task = .actions (x.rest o) := by
  have hprepared : ∀ {r : Except Fault Write}, s.Prepares st r → t = s → task = writeTask o r →
      (∃ w, s.Prepares st (.ok w) ∧ t = s ∧ task = .write o w) ∨
        ∃ x, s.Serves o text x ∧ x.event = none ∧ t = x.changes s ∧ task = .actions (x.rest o) := by
    rintro (f | w) prepares rfl rfl
    · exact .inr ⟨_, .unprepared read prepares, rfl, rfl, rfl⟩
    · exact .inl ⟨w, prepares, rfl, rfl⟩
  cases st with
  | create d =>
    have hcreate := Option.some.inj h
    cases hadmitted : Catalog.admitted s.schema d with
    | error f =>
      cases (createTable_of_refused hadmitted o (.ok ())).symm.trans hcreate
      exact .inr ⟨_, .unmade read hadmitted, rfl, rfl, rfl⟩
    | ok table =>
      cases (createTable_of_admitted hadmitted o).symm.trans hcreate
      exact .inr ⟨_, .created read hadmitted, rfl, rfl, rfl⟩
  | insert table row =>
    obtain ⟨r, hr, h⟩ := Option.map_eq_some_iff.mp h
    cases h
    exact hprepared (.insert fuel hr) rfl rfl
  | update table assignments filters => cases h; exact hprepared (.update table assignments filters) rfl rfl
  | delete table filters => cases h; exact hprepared (.delete table filters) rfl rfl
  | eval e =>
    obtain ⟨r, hr, h⟩ := Option.map_eq_some_iff.mp h
    cases h
    exact .inr ⟨_, .evaluated read fuel hr, rfl, rfl, rfl⟩
  | select live q =>
    simp only [begin] at h
    split at h
    next f failed => cases h; exact .inr ⟨_, .unanchored read failed, rfl, rfl, rfl⟩
    next anchor anchored =>
      obtain ⟨r, hr, h⟩ := Option.map_eq_some_iff.mp h
      cases h
      exact .inr ⟨_, .selected read anchored fuel hr, rfl, rfl, rfl⟩

/-! ## The way there -/

/-- What a statement is to do while it has not come that far, and the store meanwhile. -/
inductive Underway (s : Database) (o : Origin) (text : String) : Task → Store → Prop
  | sent : Underway s o text (.statement o text) s.store
  | prepared {st : Statement} {w : Write} (read : Statement.read text = .ok st) (prepares : s.Prepares st (.ok w)) :
      Underway s o text (.write o w) s.store
  | committed {st : Statement} {w : Write} {c : Committed} {table : String} {e : Event}
      (read : Statement.read text = .ok st) (prepares : s.Prepares st (.ok w)) (made : w.commit s.store = .ok c)
      (event : c.event = some (table, e)) :
      Underway s o text (.actions (.post table (.event e) :: o.finish (.ok c.answer))) c.store

theorem commit_of_error {w : Write} {f : Fault} (h : w.commit s.store = .error f) :
    s.commit o w = (s, .actions (o.finish (.error f))) := by
  rw [commit, h]

theorem commit_of_ok {w : Write} {c : Committed} (h : w.commit s.store = .ok c) :
    s.commit o w = ({ s with store := c.store }, .actions ((c.event.map fun (table, e) =>
      .post table (.event e)).toList ++ o.finish (.ok c.answer))) := by
  rw [commit, h]

/-- A statement that takes a step goes on, or all that is left to do is to subscribe and to reply. -/
theorem Underway.advance {v v' : Database} {task : Task} {next : Option Task} {fuel : Nat} {order : Traversal}
    (h : s.Underway o text task v.store) (hschema : v.schema = s.schema)
    (hadv : v.advance fuel order task = some (v', next)) :
    (task.announces = none ∧ ∃ task', next = some task' ∧ s.Underway o text task' v'.store ∧
      v' = { v with store := v'.store }) ∨
    ∃ x, s.Serves o text x ∧ task.announces = x.event ∧ next = some (.actions (x.rest o)) ∧ v' = x.changes v := by
  generalize hstore : v.store = store at h
  cases h with
  | sent =>
    simp only [Database.advance] at hadv
    split at hadv
    next f read => cases hadv; exact .inr ⟨_, .congr hstore hschema (.unread read), rfl, rfl, rfl⟩
    next st read =>
      obtain ⟨⟨v', task⟩, hbegin, hadv⟩ := Option.map_eq_some_iff.mp hadv
      cases hadv
      rcases serves_of_begin (o := o) read hbegin with ⟨w, prepares, rfl, rfl⟩ | ⟨x, serves, hsilent, hchanges, rfl⟩
      · exact .inl ⟨rfl, _, rfl, hstore ▸ .prepared read (prepares.congr hstore hschema), rfl⟩
      · exact .inr ⟨x, serves.congr hstore hschema, hsilent.symm, rfl, hchanges⟩
  | @prepared st w read prepares =>
    have hadv : some ((v.commit o w).1, some (v.commit o w).2) = some (v', next) := hadv
    cases made : w.commit s.store with
    | error f =>
      rw [commit_of_error (hstore ▸ made)] at hadv
      cases hadv
      refine .inr ⟨_, .refused read prepares made, rfl, rfl, ?_⟩
      rw [Service.changes, replies, ← hstore, ← hschema]
      rfl
    | ok c =>
      rw [commit_of_ok (hstore ▸ made)] at hadv
      cases hadv
      cases hevent : c.event with
      | none =>
        refine .inr ⟨_, .committed read prepares made, hevent.symm, rfl, ?_⟩
        rw [Service.changes, hevent, ← hschema]
        rfl
      | some publication => exact .inl ⟨rfl, _, rfl, .committed read prepares made hevent, rfl⟩
  | @committed st w c table e read prepares made event =>
    refine .inr ⟨_, .committed read prepares made, event.symm, ?_⟩
    cases o <;> cases hadv <;> refine ⟨rfl, ?_⟩ <;> rw [Service.changes, event, ← hstore, ← hschema] <;> rfl

/-- Where a database stands that serves one statement and nothing else, after some steps from `s`. -/
inductive Course (s : Database) (o : Origin) (text : String) (es : List (String × Event)) (u : Database) : Prop
  /-- No actor or connection has heard of it. -/
  | waiting (silent : es = []) (engine : u.engine = s.engine) (connections : u.connections = s.connections)
      {task : Task} (tasks : u.tasks = [task])
  | opened {x : Service} (serves : s.Serves o text x) (before : Relation.ReflTransGen Step s (x.opens s o))
      (published : es = x.event.toList) (runs : Relation.ReflTransGen Step (x.opens s o) u)

theorem course_of_underway {v : Database} {task : Task} (hidle : ∀ table, (s.engine.actor table).inbox = [])
    (h : s.Underway o text task v.store) (hv : v = { s with store := v.store, tasks := [task] })
    (before : Relation.ReflTransGen Step s v) (later : Publishes v es u) : Course s o text es u := by
  induction later generalizing task with
  | rest => rw [hv]; exact .waiting rfl rfl rfl rfl
  | @step v v' u e es first later ih =>
    obtain ⟨rfl, fuel, order, v'', next, hadv, hv'⟩ := advance_of_alone (by rw [hv]) (by rw [hv]; exact hidle) first
    have hbefore := before.tail first.step
    rcases h.advance (by rw [hv]) hadv with ⟨hsilent, task', rfl, hunderway, hv''⟩ | ⟨x, serves, hemits, rfl, rfl⟩
    · rw [hsilent]
      refine ih (by rw [hv']; exact hunderway) ?_ hbefore
      rw [hv', hv'', hv]
      rfl
    · -- from here on nothing more is published
      have hopens : v' = x.opens s o := by rw [hv', hv]; rfl
      rw [hopens] at hbefore later
      rw [hemits, (settling_opens x s o).publishes later, List.append_nil]
      exact .opened serves hbefore rfl later.steps

/-- The course of a statement that is served alone. -/
theorem course_of_alone (htasks : s.tasks = [.statement o text]) (hidle : ∀ table, (s.engine.actor table).inbox = [])
    (h : Publishes s es u) : Course s o text es u :=
  course_of_underway hidle .sent (by rw [← htasks]) .refl h

end Database

end LiveQuery
