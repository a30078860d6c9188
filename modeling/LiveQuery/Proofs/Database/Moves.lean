import LiveQuery.Database
import LiveQuery.Proofs.Outcome
import LiveQuery.Proofs.Schema

/-! # Moves

What can happen to a database: a step of its own, or something that a client does (`Move`). A `Run` is a
sequence of moves from the empty database in which clients only send certain texts and every state passes
a test.

The lemmas say once what a step does to the parts of a state: tables and rows change in two ways only
(`Step.store_cases`), and a checked write that waits was prepared by a statement (`Step.write_cases`).
-/
namespace LiveQuery

/-- A step of a database, or what a client does to it. -/
inductive Move (texts : String → Prop) : Database → Database → Prop
  | step {s t : Database} (h : Step s t) : Move texts s t
  | connect (s : Database) : Move texts s s.connect.2
  | call (s : Database) (ticket : Nat) {text : String} (sent : texts text) :
      Move texts s (s.call ticket text)
  | run {s t : Database} {connection channel : Nat} {text : String} (sent : texts text)
      (h : s.run connection text = some (channel, t)) : Move texts s t
  | closeChannel (s : Database) (subscriber : Subscriber) : Move texts s (s.closeChannel subscriber)
  | disconnect (s : Database) (connection : Nat) : Move texts s (s.disconnect connection)
  | takeMessages (s : Database) (connection : Nat) : Move texts s (s.takeMessages connection).2

/-- The states that are reached from the empty database, each of which satisfies `P`. -/
inductive Run (texts : String → Prop) (P : Database → Prop) : Database → Prop
  | start : Run texts P {}
  | move {s t : Database} (before : Run texts P s) (h : Move texts s t) (test : P t) : Run texts P t

/-! ## Parts of a step -/

namespace Database

variable {s t : Database}

theorem deliver_rest (s : Database) (whom : Subscriber) (m : Message) :
    (s.deliver whom m).store = s.store ∧ (s.deliver whom m).schema = s.schema ∧
      (s.deliver whom m).tasks = s.tasks := by
  unfold deliver
  split
  next => exact ⟨rfl, rfl, rfl⟩
  next => exact ⟨rfl, rfl, rfl⟩

/-- An action leaves tables, rows and tasks alone. -/
theorem act_rest (s : Database) (a : Action) :
    (s.act a).store = s.store ∧ (s.act a).schema = s.schema ∧ (s.act a).tasks = s.tasks := by
  cases a with
  | deliver whom m => exact s.deliver_rest whom m
  | post | broadcast | answer | hangUp => exact ⟨rfl, rfl, rfl⟩

/-- A notice leaves tables and rows alone, and adds at most a query to run again. -/
theorem notice_rest (s : Database) (n : Notice) :
    (s.notice n).store = s.store ∧ (s.notice n).schema = s.schema ∧
      ∀ task ∈ (s.notice n).tasks, task ∈ s.tasks ∨ ∃ l key, task = .rerun l key := by
  cases n with
  | rerun l key =>
    refine ⟨rfl, rfl, fun task htask => ?_⟩
    rcases List.mem_append.mp htask with htask | htask
    · exact Or.inl htask
    · exact Or.inr ⟨l, key, List.mem_singleton.mp htask⟩
  | deliver whom m =>
    obtain ⟨hstore, hschema, htasks⟩ := s.deliver_rest whom m
    exact ⟨hstore, hschema, fun task htask => Or.inl (htasks ▸ htask)⟩

theorem foldl_notice_rest (notices : List Notice) (s : Database) :
    (notices.foldl notice s).store = s.store ∧ (notices.foldl notice s).schema = s.schema ∧
      ∀ task ∈ (notices.foldl notice s).tasks, task ∈ s.tasks ∨ ∃ l key, task = .rerun l key := by
  induction notices generalizing s with
  | nil => exact ⟨rfl, rfl, fun _ h => Or.inl h⟩
  | cons n notices ih =>
    obtain ⟨hstore, hschema, htasks⟩ := ih (s.notice n)
    obtain ⟨hstore', hschema', htasks'⟩ := s.notice_rest n
    refine ⟨hstore.trans hstore', hschema.trans hschema', fun task htask => ?_⟩
    rcases htasks task htask with h | h
    · exact htasks' task h
    · exact Or.inr h

theorem stepActor_rest {table : String} (h : s.stepActor table = some t) :
    t.store = s.store ∧ t.schema = s.schema ∧
      ∀ task ∈ t.tasks, task ∈ s.tasks ∨ ∃ l key, task = .rerun l key := by
  unfold stepActor at h
  split at h
  next => cases h
  next engine notices _ =>
    cases h
    exact foldl_notice_rest notices { s with engine }

/-- What a task turns into: a write that was prepared from a statement, or a list of actions. -/
inductive Continues (s : Database) : Task → Task → Prop
  | actions {task : Task} (rest : List Action) : Continues s task (.actions rest)
  | insert {o : Origin} {text table : String} {row : Expr} {w : Write} (fuel : Nat)
      (read : Statement.read text = .ok (.insert table row))
      (prepared : prepareInsert fuel s.schema s.store table row = some (.ok w)) :
      Continues s (.statement o text) (.write o w)
  | update {o : Origin} {text table : String} {assignments : List (String × Literal)}
      {filters : List Filter} {w : Write}
      (read : Statement.read text = .ok (.update table assignments filters))
      (prepared : prepareUpdate s.schema table assignments filters = .ok w) :
      Continues s (.statement o text) (.write o w)
  | delete {o : Origin} {text table : String} {filters : List Filter} {w : Write}
      (read : Statement.read text = .ok (.delete table filters))
      (prepared : prepareDelete s.schema table filters = .ok w) :
      Continues s (.statement o text) (.write o w)

/-- What a step of a task does to tables and rows. -/
inductive Changes (s : Database) : Task → Database → Prop
  | none {task : Task} {t : Database} (store : t.store = s.store) (schema : t.schema = s.schema) :
      Changes s task t
  | create {o : Origin} {text : String} {d : TableDef} {table : Table} {t : Database}
      (read : Statement.read text = .ok (.create d))
      (admitted : Catalog.admitted s.schema d = .ok table)
      (store : t.store = Catalog.persist s.store table)
      (schema : t.schema = Catalog.add s.schema table) : Changes s (.statement o text) t
  | commit {o : Origin} {w : Write} {c : Committed} {t : Database} (made : w.commit s.store = .ok c)
      (store : t.store = c.store) (schema : t.schema = s.schema) : Changes s (.write o w) t

theorem Changes.congr {task : Task} {t t' : Database} (h : Changes s task t) (hstore : t'.store = t.store)
    (hschema : t'.schema = t.schema) : Changes s task t' := by
  cases h with
  | none store schema => exact .none (hstore.trans store) (hschema.trans schema)
  | create read admitted store schema =>
    exact .create read admitted (hstore.trans store) (hschema.trans schema)
  | commit made store schema => exact .commit made (hstore.trans store) (hschema.trans schema)

/-- The tables stay as they are, or one is added that the catalog has admitted. -/
theorem Changes.schema_cases {task : Task} {t : Database} (h : Changes s task t) : t.schema = s.schema ∨
    ∃ d table, Catalog.admitted s.schema d = .ok table ∧ t.schema = Catalog.add s.schema table := by
  cases h with
  | none _ schema => exact .inl schema
  | create _ admitted _ schema => exact .inr ⟨_, _, admitted, schema⟩
  | commit _ _ schema => exact .inl schema

theorem continues_writeTask {task : Task} {o : Origin} {r : Except Fault Write}
    (h : ∀ w, r = .ok w → Continues s task (.write o w)) : Continues s task (writeTask o r) := by
  cases r with
  | ok w => exact h w rfl
  | error f => exact .actions _

/-- A table that is not admitted is not made, and the statement fails with the fault. -/
theorem createTable_of_refused {d : TableDef} {f : SchemaFault} (h : Catalog.admitted s.schema d = .error f)
    (o : Origin) (committing : Except String Unit) :
    s.createTable o d committing = (s, .actions (o.finish (.error (.schema f)))) := by
  rw [createTable, Catalog.create_of_refused h]

/-- A table that is admitted is made, and the statement answers with its name. -/
theorem createTable_of_admitted {d : TableDef} {table : Table} (h : Catalog.admitted s.schema d = .ok table)
    (o : Origin) : s.createTable o d (.ok ()) =
      ({ s with store := Catalog.persist s.store table, schema := Catalog.add s.schema table },
        .actions (o.finish (.ok (Write.answerOf "created" (.str table.name))))) := by
  rw [createTable, Catalog.create_of_admitted h]

/-- A table that the storage does not commit is not made, and the statement fails with what the storage says. -/
theorem createTable_of_uncommitted {d : TableDef} {table : Table} (h : Catalog.admitted s.schema d = .ok table)
    (o : Origin) (message : String) : s.createTable o d (.error message) =
      (s, .actions (o.finish (.error (.schema (.storage message))))) := by
  rw [createTable, Catalog.create_of_uncommitted h]

theorem createTable_spec {o : Origin} {d : TableDef} {committing : Except String Unit} {text : String} {task : Task}
    (read : Statement.read text = .ok (.create d)) (h : s.createTable o d committing = (t, task)) :
    Changes s (.statement o text) t ∧ Continues s (.statement o text) task ∧ t.tasks = s.tasks := by
  cases hadmitted : Catalog.admitted s.schema d with
  | error f =>
    cases (createTable_of_refused hadmitted o committing).symm.trans h
    exact ⟨.none rfl rfl, .actions _, rfl⟩
  | ok table =>
    cases committing with
    | error message =>
      cases (createTable_of_uncommitted hadmitted o message).symm.trans h
      exact ⟨.none rfl rfl, .actions _, rfl⟩
    | ok =>
      cases (createTable_of_admitted hadmitted o).symm.trans h
      exact ⟨.create read hadmitted rfl rfl, .actions _, rfl⟩

theorem begin_spec {fuel : Nat} {o : Origin} {st : Statement} {text : String} {task : Task}
    (read : Statement.read text = .ok st) (h : s.begin fuel o st = some (t, task)) :
    Changes s (.statement o text) t ∧ Continues s (.statement o text) task ∧ t.tasks = s.tasks := by
  cases st with
  | create d => exact createTable_spec read (Option.some.inj h)
  | insert table row =>
    obtain ⟨r, hr, h⟩ := Option.map_eq_some_iff.mp h
    cases h
    exact ⟨.none rfl rfl, continues_writeTask fun w hw => .insert fuel read (hw ▸ hr), rfl⟩
  | update table assignments filters =>
    cases h
    exact ⟨.none rfl rfl, continues_writeTask fun w hw => .update read hw, rfl⟩
  | delete table filters =>
    cases h
    exact ⟨.none rfl rfl, continues_writeTask fun w hw => .delete read hw, rfl⟩
  | eval e =>
    obtain ⟨r, -, h⟩ := Option.map_eq_some_iff.mp h
    cases h
    exact ⟨.none rfl rfl, .actions _, rfl⟩
  | select live q =>
    simp only [begin] at h
    split at h
    next => cases h; exact ⟨.none rfl rfl, .actions _, rfl⟩
    next =>
      obtain ⟨r, -, h⟩ := Option.map_eq_some_iff.mp h
      cases h
      exact ⟨.none rfl rfl, .actions _, rfl⟩

theorem commit_spec {o : Origin} {w : Write} {task : Task} (h : s.commit o w = (t, task)) :
    Changes s (.write o w) t ∧ Continues s (.write o w) task ∧ t.tasks = s.tasks := by
  unfold commit at h
  split at h
  next => cases h; exact ⟨.none rfl rfl, .actions _, rfl⟩
  next c made => cases h; exact ⟨.commit made rfl rfl, .actions _, rfl⟩

theorem eq_of_mem_restTask {left : List Action} {task : Task} (h : task ∈ restTask left) : task = .actions left := by
  rw [restTask, Option.mem_def, Option.ite_none_left_eq_some] at h
  exact (Option.some.inj h.2).symm

theorem advance_spec {fuel : Nat} {order : Traversal} {task : Task} {r : Option Task}
    (h : s.advance fuel order task = some (t, r)) :
    Changes s task t ∧ (∀ task', r = some task' → Continues s task task') ∧ t.tasks = s.tasks := by
  cases task with
  | statement o text =>
    simp only [advance] at h
    split at h
    next =>
      cases h
      exact ⟨.none rfl rfl, fun _ hr => Option.some.inj hr ▸ .actions _, rfl⟩
    next st read =>
      obtain ⟨⟨t', task⟩, hb, h⟩ := Option.map_eq_some_iff.mp h
      cases h
      obtain ⟨hchanges, hcontinues, htasks⟩ := begin_spec read hb
      exact ⟨hchanges, fun _ hr => Option.some.inj hr ▸ hcontinues, htasks⟩
  | write o w =>
    cases h
    obtain ⟨hchanges, hcontinues, htasks⟩ := commit_spec (s := s) (o := o) (w := w) rfl
    exact ⟨hchanges, fun _ hr => Option.some.inj hr ▸ hcontinues, htasks⟩
  | rerun l key =>
    simp only [advance] at h
    split at h
    next => cases h; exact ⟨.none rfl rfl, by simp, rfl⟩
    next =>
      obtain ⟨r, -, h⟩ := Option.map_eq_some_iff.mp h
      cases h
      exact ⟨.none rfl rfl, fun _ hr => Option.some.inj hr ▸ .actions _, rfl⟩
  | actions rest =>
    cases rest with
    | nil => cases h; exact ⟨.none rfl rfl, by simp, rfl⟩
    | cons a rest =>
      cases h
      obtain ⟨hstore, hschema, htasks⟩ := s.act_rest a
      refine ⟨.none hstore hschema, fun task' hr => ?_, htasks⟩
      rw [eq_of_mem_restTask hr]
      exact .actions _

theorem stepTask_spec {fuel i : Nat} {order : Traversal} (h : s.stepTask fuel order i = some t) :
    ∃ task ∈ s.tasks, Changes s task t ∧
      ∀ task' ∈ t.tasks, task' ∈ s.tasks ∨ Continues s task task' := by
  unfold stepTask at h
  split at h
  next => cases h
  next task htask =>
    have hmem : task ∈ s.tasks := List.mem_of_getElem? htask
    split at h
    next => cases h
    next t' task' hadv =>
      cases h
      obtain ⟨hchanges, hcontinues, htasks⟩ := advance_spec hadv
      refine ⟨task, hmem, hchanges.congr rfl rfl, fun u hu => ?_⟩
      rcases List.mem_or_eq_of_mem_set hu with hu | rfl
      · exact Or.inl (htasks ▸ hu)
      · exact Or.inr (hcontinues _ rfl)
    next t' hadv =>
      cases h
      obtain ⟨hchanges, -, htasks⟩ := advance_spec hadv
      exact ⟨task, hmem, hchanges.congr rfl rfl,
        fun u hu => Or.inl (htasks ▸ List.mem_of_mem_eraseIdx hu)⟩

/-- An attempt to make a table changes tables and rows as a step does, or it leaves them alone. -/
theorem attempt_spec {i : Nat} {committing : Except String Unit} (h : s.attempt i committing = some t) :
    ∃ task ∈ s.tasks, Changes s task t ∧ ∀ task' ∈ t.tasks, task' ∈ s.tasks ∨ Continues s task task' := by
  unfold attempt at h
  split at h
  next o text htask =>
    split at h
    next d read =>
      generalize hmade : s.createTable o d committing = made at h
      obtain ⟨hchanges, hcontinues, -⟩ := createTable_spec read hmade
      obtain rfl := Option.some.inj h
      refine ⟨_, List.mem_of_getElem? htask, hchanges.congr rfl rfl, fun task' hmem => ?_⟩
      rcases List.mem_or_eq_of_mem_set hmem with hmem | rfl
      · exact .inl hmem
      · exact .inr hcontinues
    next => cases h
  next => cases h

end Database

/-! ## Steps and moves -/

/-- A step is one of a task that was there, or changes neither tables nor rows. -/
theorem Step.spec {s t : Database} (h : Step s t) :
    (∃ task ∈ s.tasks, Database.Changes s task t ∧
      ∀ task' ∈ t.tasks, task' ∈ s.tasks ∨ Database.Continues s task task') ∨
    (t.store = s.store ∧ t.schema = s.schema ∧
      ∀ task ∈ t.tasks, task ∈ s.tasks ∨ ∃ l key, task = .rerun l key) := by
  cases h with
  | task fuel order i h => exact Or.inl (Database.stepTask_spec h)
  | actor table h => exact Or.inr (Database.stepActor_rest h)

/-- Where a statement is sent on a connection the connection is open, and its next channel is given out. -/
theorem Database.run_eq {s t : Database} {connection channel : Nat} {text : String}
    (h : s.run connection text = some (channel, t)) :
    ∃ c, Keyed.find? s.connections connection = some c ∧ channel = c.nextChannel ∧
      t = { s with
        connections := Keyed.insert s.connections connection { c with nextChannel := c.nextChannel + 1 }
        tasks := s.tasks ++ [.statement (.channel ⟨connection, c.nextChannel⟩) text] } := by
  unfold Database.run at h
  split at h
  next => cases h
  next c hc =>
    cases h
    exact ⟨c, hc, rfl, rfl⟩

theorem Database.takeMessages_cases (s : Database) (connection : Nat) :
    (∃ c, Keyed.find? s.connections connection = some c ∧ (s.takeMessages connection).2 =
      { s with connections := Keyed.insert s.connections connection { c with received := [] } }) ∨
    (s.takeMessages connection).2 = s := by
  unfold Database.takeMessages
  split
  next => exact .inr rfl
  next c hc => exact .inl ⟨c, hc, rfl⟩

/-- What a client does changes neither tables nor rows; it adds at most a statement or actions. -/
theorem Move.spec {texts : String → Prop} {s t : Database} (h : Move texts s t) :
    Step s t ∨ (t.store = s.store ∧ t.schema = s.schema ∧ ∀ task ∈ t.tasks, task ∈ s.tasks ∨
      (∃ o text, task = .statement o text ∧ texts text) ∨ ∃ rest, task = .actions rest) := by
  cases h with
  | step h => exact Or.inl h
  | connect => exact Or.inr ⟨rfl, rfl, fun _ h => Or.inl h⟩
  | @call ticket text sent =>
    refine Or.inr ⟨rfl, rfl, fun task h => ?_⟩
    rcases List.mem_append.mp h with h | h
    · exact Or.inl h
    · exact Or.inr (Or.inl ⟨_, text, List.mem_singleton.mp h, sent⟩)
  | @run _ connection channel text sent h =>
    obtain ⟨c, -, rfl, rfl⟩ := Database.run_eq h
    refine Or.inr ⟨rfl, rfl, fun task h => ?_⟩
    rcases List.mem_append.mp h with h | h
    · exact Or.inl h
    · exact Or.inr (Or.inl ⟨_, text, List.mem_singleton.mp h, sent⟩)
  | closeChannel | disconnect =>
    refine Or.inr ⟨rfl, rfl, fun task h => ?_⟩
    rcases List.mem_append.mp h with h | h
    · exact Or.inl h
    · exact Or.inr (Or.inr ⟨_, List.mem_singleton.mp h⟩)
  | takeMessages connection =>
    rcases s.takeMessages_cases connection with ⟨c, -, heq⟩ | heq <;> rw [heq] <;>
      exact Or.inr ⟨rfl, rfl, fun _ h => Or.inl h⟩

theorem Move.schema_cases {texts : String → Prop} {s t : Database} (h : Move texts s t) : t.schema = s.schema ∨
    ∃ d table, Catalog.admitted s.schema d = .ok table ∧ t.schema = Catalog.add s.schema table := by
  rcases h.spec with hstep | ⟨-, hschema, -⟩
  · rcases hstep.spec with ⟨task, -, hchanges, -⟩ | ⟨-, hschema, -⟩
    · exact hchanges.schema_cases
    · exact .inl hschema
  · exact .inl hschema

/-- A database that was opened on a store has the tables that are loaded from it, and nothing is under way. -/
theorem Database.eq_of_ofStore {store : Store} {s : Database} (h : ofStore store = .ok s) :
    ∃ schema, Catalog.load store = .ok schema ∧ s = { store, schema } := by
  unfold ofStore at h
  split at h
  next schema hload => cases h; exact ⟨schema, hload, rfl⟩
  next => cases h

/-! ## Scripts -/

theorem Move.mono {texts texts' : String → Prop} {s t : Database} (h : Move texts s t)
    (ht : ∀ text, texts text → texts' text) : Move texts' s t := by
  cases h with
  | step h => exact .step h
  | connect => exact .connect _
  | call ticket sent => exact .call _ ticket (ht _ sent)
  | run sent h => exact .run (ht _ sent) h
  | closeChannel => exact .closeChannel _ _
  | disconnect => exact .disconnect _ _
  | takeMessages => exact .takeMessages _ _

theorem Run.mono {texts texts' : String → Prop} {P P' : Database → Prop} {s : Database}
    (h : Run texts P s) (ht : ∀ text, texts text → texts' text) (hp : ∀ s, P s → P' s) :
    Run texts' P' s := by
  induction h with
  | start => exact .start
  | move _ h test ih => exact ih.move (h.mono ht) (hp _ test)

/-- Plays a script in which a caller sends texts and tasks take steps, as long as the texts and the states
pass the tests. -/
def Database.play (texts : String → Bool) (test : Database → Bool) (fuel : Nat) :
    List (String ⊕ Nat) → Database → Option Database
  | [], s => some s
  | .inl text :: rest, s =>
    if texts text ∧ test (s.call 0 text) then play texts test fuel rest (s.call 0 text) else none
  | .inr i :: rest, s =>
    match s.stepTask fuel default i with
    | some t => if test t then play texts test fuel rest t else none
    | none => none

/-- A script that can be played is a run. -/
theorem Run.play {texts : String → Bool} {test : Database → Bool} {fuel : Nat}
    {script : List (String ⊕ Nat)} {s t : Database} (h : Run (texts · = true) (test · = true) s)
    (hp : s.play texts test fuel script = some t) : Run (texts · = true) (test · = true) t := by
  induction script generalizing s with
  | nil => cases hp; exact h
  | cons move script ih =>
    cases move with
    | inl text =>
      simp only [Database.play] at hp
      split at hp
      next hok => exact ih (h.move (.call s 0 hok.1) hok.2) hp
      next => cases hp
    | inr i =>
      simp only [Database.play] at hp
      split at hp
      next u hu =>
        split at hp
        next hok => exact ih (h.move (.step (.task fuel default i hu)) hok) hp
        next => cases hp
      next => cases hp

end LiveQuery
