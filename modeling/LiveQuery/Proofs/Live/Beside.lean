import LiveQuery.Proofs.Database.Served
import LiveQuery.Proofs.Live.Channels

/-! # Beside other tasks

A statement need not be alone: while it is served removals may be under way, and queries may be run again. Such tasks
change no tables and rows, publish nothing and answer nobody (`Beside`), so the statement comes to what it would come
to alone (`Database.Amid.served`).

Where the tasks are split into one and the others, a step is one of the task, or one of the database without it
(`Emits.beside`): no task looks at the others.
-/
namespace LiveQuery

/-! ## A task and the others -/

namespace Database

variable {s t : Database} {own : Task} {others : List Task}

theorem deliver_tasks (s : Database) (others : List Task) (whom : Subscriber) (m : Message) :
    { s with tasks := others }.deliver whom m = { s.deliver whom m with tasks := others } := by
  unfold deliver
  cases Keyed.find? s.connections whom.connection <;> rfl

theorem act_tasks (s : Database) (others : List Task) (a : Action) :
    { s with tasks := others }.act a = { s.act a with tasks := others } := by
  cases a with
  | deliver whom m => exact s.deliver_tasks others whom m
  | post | broadcast | answer | hangUp => rfl

theorem begin_tasks (s : Database) (others : List Task) (fuel : Nat) (o : Origin) (st : Statement) :
    { s with tasks := others }.begin fuel o st =
      (s.begin fuel o st).map fun (t, task) => ({ t with tasks := others }, task) := by
  cases st with
  | create d =>
    simp only [begin, createTable]
    cases Catalog.create s.schema s.store d (.ok ()) <;> rfl
  | insert table row => simp only [begin, Option.map_map]; rfl
  | update | delete => rfl
  | eval e => simp only [begin, Option.map_map]; rfl
  | select live q =>
    simp only [begin]
    cases anchorFor live o with
    | error f => rfl
    | ok anchor => simp only [Option.map_map]; rfl

/-- What a task does with its next step does not depend on the others. -/
theorem advance_tasks (s : Database) (others : List Task) (fuel : Nat) (order : Traversal) (task : Task) :
    { s with tasks := others }.advance fuel order task =
      (s.advance fuel order task).map fun (t, next) => ({ t with tasks := others }, next) := by
  cases task with
  | statement o text =>
    simp only [advance]
    cases Statement.read text with
    | error f => rfl
    | ok st => simp only [begin_tasks, Option.map_map]; rfl
  | write o w =>
    simp only [advance, commit]
    cases w.commit s.store <;> rfl
  | rerun l key =>
    simp only [advance]
    cases l.query with
    | none => rfl
    | some q => simp only [Option.map_map]; rfl
  | actions rest =>
    cases rest with
    | nil => rfl
    | cons a rest =>
      have hposts : { s with tasks := others }.fanOut order a = s.fanOut order a := by cases a <;> rfl
      simp only [advance, hposts, act_tasks, Option.map_some]

/-- The task at a position takes a step. -/
theorem stepTask_of_advance {fuel : Nat} {order : Traversal} {before after : List Task} {task : Task}
    {next : Option Task} (htasks : s.tasks = before ++ task :: after) (h : s.advance fuel order task = some (t, next)) :
    s.stepTask fuel order before.length = some { t with tasks := before ++ next.toList ++ after } := by
  have hkept : t.tasks = s.tasks := (advance_spec h).2.2
  unfold stepTask
  rw [htasks, List.getElem?_append_right (Nat.le_refl _), Nat.sub_self, List.getElem?_cons_zero]
  dsimp only
  rw [h]
  cases next with
  | none => simp [hkept, htasks, List.eraseIdx_append_of_length_le]
  | some task' => simp [hkept, htasks, List.set_append_right]

theorem connections_foldl_notice (notices : List Notice) (s : Database) (others : List Task) :
    (notices.foldl notice { s with tasks := others }).connections = (notices.foldl notice s).connections := by
  induction notices generalizing s others with
  | nil => rfl
  | cons n notices ih =>
    rw [List.foldl_cons, List.foldl_cons]
    cases n with
    | rerun l key => exact (ih s _).trans (ih s _).symm
    | deliver whom m => rw [notice, deliver_tasks, ih]; rfl

/-- A step of an actor does not depend on the tasks, and adds some. -/
theorem stepActor_tasks {table : String} (h : s.stepActor table = some t) : ∃ asked, t.tasks = s.tasks ++ asked ∧
    ∀ others, { s with tasks := others }.stepActor table = some { t with tasks := others ++ asked } := by
  unfold stepActor at h ⊢
  split at h
  next => cases h
  next engine notices heq =>
    cases h
    refine ⟨notices.filterMap Notice.task?, by rw [foldl_notice_frame], fun others => ?_⟩
    dsimp only
    rw [heq]
    dsimp only
    have hconnections := connections_foldl_notice notices { s with engine } others
    rw [foldl_notice_frame notices { s with engine := engine, tasks := others },
      foldl_notice_frame notices { s with engine := engine }]
    rw [hconnections]

end Database

open Database in
/-- A step is one of a task, or one of the database without the task. -/
theorem Emits.beside {s t : Database} {e : Option (String × Event)} {own : Task} {others : List Task}
    (h : Emits s t e) (htasks : s.tasks.Perm (own :: others)) :
    (e = own.announces ∧ ∃ fuel order s' next, s.advance fuel order own = some (s', next) ∧
      t.tasks.Perm (next.toList ++ others) ∧ t = { s' with tasks := t.tasks }) ∨
    ∃ others', Emits { s with tasks := others } { t with tasks := others' } e ∧ t.tasks.Perm (own :: others') := by
  cases h with
  | task fuel order i h =>
    obtain ⟨task, s', next, htask, hadv, ht⟩ := stepTask_at h
    have hsplit : s.tasks.Perm (task :: (s.tasks.take i ++ s.tasks.drop (i + 1))) := by
      obtain ⟨hi, hget⟩ := List.getElem?_eq_some_iff.mp htask
      have heq : s.tasks = s.tasks.take i ++ task :: s.tasks.drop (i + 1) := by
        rw [← hget, List.getElem_cons_drop, List.take_append_drop]
      exact (List.Perm.of_eq heq).trans List.perm_middle
    have hleft : t.tasks.Perm (next.toList ++ (s.tasks.take i ++ s.tasks.drop (i + 1))) := by
      rw [ht, ← List.append_assoc]
      exact List.perm_append_comm.append_right _
    have hrest := hsplit.symm.trans htasks
    rw [htask, Option.bind_some]
    by_cases heq : task = own
    · subst heq
      exact .inl ⟨rfl, fuel, order, s', next, hadv, hleft.trans (hrest.cons_inv.append_left _), by rw [ht]⟩
    · have hmem : task ∈ others :=
        (List.mem_cons.mp (hrest.mem_iff.mp List.mem_cons_self)).resolve_left heq
      obtain ⟨before, after, rfl⟩ := List.append_of_mem hmem
      have hown : (s.tasks.take i ++ s.tasks.drop (i + 1)).Perm (own :: (before ++ after)) :=
        (hrest.trans ((List.perm_middle.cons own).trans (List.Perm.swap ..))).cons_inv
      refine .inr ⟨before ++ next.toList ++ after, ?_, ?_⟩
      · have hstep := Emits.task (s := { s with tasks := before ++ task :: after }) fuel order before.length
          (stepTask_of_advance rfl (by rw [advance_tasks, hadv]; rfl))
        rw [List.getElem?_append_right (Nat.le_refl _), Nat.sub_self, List.getElem?_cons_zero] at hstep
        rw [ht]
        exact hstep
      · refine hleft.trans ((hown.append_left _).trans (List.perm_middle.trans (List.Perm.cons _ ?_)))
        rw [← List.append_assoc]
        exact List.perm_append_comm.append_right _
  | actor table h =>
    obtain ⟨asked, hasked, hstep⟩ := stepActor_tasks h
    refine .inr ⟨others ++ asked, .actor table (hstep others), ?_⟩
    rw [hasked]
    exact htasks.append_right asked

/-! ## What goes on beside a statement -/

/-- The answer that an action gives. -/
def Action.answer? : Action → Option (Nat × Except Fault Json)
  | .answer ticket r => some (ticket, r)
  | .post .. | .broadcast _ | .deliver .. | .hangUp _ => none

/-- The connection of the channel that a statement is run on is not being closed. -/
def Origin.Stays (o : Origin) (s : Database) : Prop :=
  ∀ u ∈ o.subscriber?, ∀ a ∈ s.pending, a.hangsUp u.connection = false

/-- What goes on in a database beside a statement: no statement is under way and no caller is to be answered, and a
channel on which the statement was run is open and new to all that is there. -/
structure Beside (o : Origin) (s : Database) : Prop where
  settling : s.Settling
  wired : s.Wired
  unanswered : ∀ a ∈ s.pending, a.answer?.isSome = false
  unconcerned : ∀ u ∈ o.subscriber?, s.Concerns (· ≠ u)
  isOpen : ∀ u ∈ o.subscriber?, s.IsOpen u.connection
  stays : o.Stays s

namespace Beside

variable {o : Origin} {s t : Database}

/-- No query of the channel is to be run again. -/
theorem foreseen (h : Beside o s) {u : Subscriber} (hu : u ∈ o.subscriber?) : s.Foreseen u :=
  Database.foreseen_of_unconcerned fun _ _ hmem => (h.unconcerned u hu).notices h.wired _ hmem

theorem step (h : Beside o s) (hstep : Step s t) : Beside o t where
  settling := (h.settling.step hstep).1
  wired := h.wired.step hstep
  unanswered :=
    h.settling.pending_all h.wired (fun _ _ => rfl) (fun _ _ => rfl) (fun _ _ => rfl) h.unanswered hstep
  unconcerned u hu := (h.unconcerned u hu).step h.wired hstep
  isOpen u hu := (h.settling.step_due h.wired (h.foreseen hu) (h.isOpen u hu) (h.stays u hu) hstep).1
  stays u hu :=
    h.settling.pending_all h.wired (fun _ _ => rfl) (fun _ _ => rfl) (fun _ _ => rfl) (h.stays u hu) hstep

/-- Tables and rows may change beside it. -/
theorem keep (h : Beside o s) (store : Store) (schema : Schema) : Beside o { s with store, schema } :=
  ⟨h.settling, ⟨h.wired.engine, h.wired.tasks⟩, h.unanswered,
    fun u hu => ⟨(h.unconcerned u hu).listeners, (h.unconcerned u hu).inboxes, (h.unconcerned u hu).tasks,
      (h.unconcerned u hu).received⟩, h.isOpen, h.stays⟩

/-- A write may be published beside it. -/
theorem changes (h : Beside o s) (x : Service) : Beside o (x.changes s) := by
  rw [Service.changes]
  refine Beside.keep (s := { s with engine := x.event.elim s.engine fun e => s.engine.post e.1 (.event e.2) }) ?_ _ _
  cases x.event with
  | none => exact h
  | some e =>
    exact ⟨h.settling, ⟨h.wired.engine.post _, h.wired.tasks⟩, h.unanswered,
      fun u hu => (h.unconcerned u hu).post trivial, h.isOpen, h.stays⟩

end Beside

namespace Database

variable {s v u : Database} {o : Origin} {text : String} {es : List (String × Event)}

/-- A statement that is under way is not done: it has a write to publish, or it has not come that far. -/
theorem Underway.not_settling {task : Task} {store : Store} (h : s.Underway o text task store) : ¬task.Settling := by
  cases h with
  | sent | prepared => exact id
  | committed => exact fun hsettling => absurd (hsettling _ List.mem_cons_self) (by simp [Action.publishes])

/-- Where a statement that is served beside other tasks has changed tables and rows, and has published its write. -/
structure Served (s : Database) (o : Origin) (text : String) (x : Service) (others : List Task) (w : Database) :
    Prop where
  serves : s.Serves o text x
  store : w.store = x.store
  schema : w.schema = x.schema
  tasks : w.tasks.Perm (.actions (x.rest o) :: others)
  beside : Beside o { w with tasks := others }

/-- From where a statement is served all settles. -/
theorem Served.settling {x : Service} {others : List Task} {w : Database} (h : s.Served o text x others w) :
    w.Settling := by
  intro task htask
  rcases List.mem_cons.mp (h.tasks.mem_iff.mp htask) with rfl | htask
  · exact settling_rest x o
  · exact h.beside.settling task htask

/-- A statement that was sent to a database and is not yet served, beside other tasks. -/
structure Amid (s : Database) (o : Origin) (text : String) (task : Task) (others : List Task) (v : Database) :
    Prop where
  underway : s.Underway o text task v.store
  schema : v.schema = s.schema
  tasks : v.tasks.Perm (task :: others)
  beside : Beside o { v with tasks := others }

/-- A step of the statement takes it further, or the statement is served with that step. -/
theorem Amid.advance {task : Task} {others : List Task} {next : Option Task} {fuel : Nat} {order : Traversal}
    {v' : Database} (h : s.Amid o text task others v) (hadv : v.advance fuel order task = some (v', next))
    (htasks : u.tasks.Perm (next.toList ++ others)) (hu : u = { v' with tasks := u.tasks }) :
    (task.announces = none ∧ ∃ task', next = some task' ∧ s.Amid o text task' others u) ∨
      ∃ x, task.announces = x.event ∧ s.Served o text x others u := by
  rcases h.underway.advance h.schema hadv with ⟨hsilent, task', rfl, hunderway, hv'⟩ | ⟨x, serves, hemits, rfl, rfl⟩
  · rw [hv'] at hunderway hu
    refine .inl ⟨hsilent, task', rfl, ?_⟩
    rw [hu]
    exact ⟨hunderway, h.schema, htasks, h.beside.keep v'.store v.schema⟩
  · refine .inr ⟨x, hemits, ?_⟩
    rw [hu]
    exact ⟨serves, rfl, rfl, htasks, h.beside.changes x⟩

/-- Whatever task takes a step, the statement is still to be served, or it is served with that step. -/
theorem Amid.step {task : Task} {others : List Task} (h : s.Amid o text task others v) {e : Option (String × Event)}
    (first : Emits v u e) : (e = none ∧ ∃ task' others', s.Amid o text task' others' u) ∨
      ∃ x, e = x.event ∧ s.Served o text x others u := by
  rcases first.beside h.tasks with ⟨rfl, fuel, order, v', next, hadv, htasks, hu⟩ | ⟨others', hother, htasks⟩
  · rcases h.advance hadv htasks hu with ⟨hsilent, task', -, hamid⟩ | hserved
    · exact .inl ⟨hsilent, task', others, hamid⟩
    · exact .inr hserved
  · obtain ⟨-, hstore, hschema⟩ := h.beside.settling.step hother.step
    refine .inl ⟨h.beside.settling.emits hother, task, others', ?_, hschema.trans h.schema, htasks,
      h.beside.step hother.step⟩
    rw [show u.store = v.store from hstore]
    exact h.underway

/-- Until it is served a statement goes on, whatever the other tasks do. -/
theorem Amid.run {task : Task} {others : List Task} (h : s.Amid o text task others v) (later : Publishes v es u) :
    (∃ task' others', s.Amid o text task' others' u) ∨
      ∃ x others' w, s.Served o text x others' w ∧ es = x.event.toList ∧ Relation.ReflTransGen Step w u := by
  induction later generalizing task others with
  | rest => exact .inl ⟨task, others, h⟩
  | @step v v' u e es first later ih =>
    rcases h.step first with ⟨rfl, task', others', hamid⟩ | ⟨x, rfl, hserved⟩
    · exact ih hamid
    · refine .inr ⟨x, others, v', hserved, ?_, later.steps⟩
      rw [hserved.settling.publishes later, List.append_nil]

/-- Once all settles a statement is served. -/
theorem Amid.served {task : Task} {others : List Task} (h : s.Amid o text task others v) (later : Publishes v es u)
    (settled : u.Settling) :
    ∃ x others' w, s.Served o text x others' w ∧ es = x.event.toList ∧ Relation.ReflTransGen Step w u := by
  rcases h.run later with ⟨task', others', hamid⟩ | hserved
  · exact absurd (settled task' (hamid.tasks.mem_iff.mpr List.mem_cons_self)) hamid.underway.not_settling
  · exact hserved

end Database

end LiveQuery
