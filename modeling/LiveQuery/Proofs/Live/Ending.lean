import LiveQuery.Proofs.Live.Replies

/-! # Coming to an end

A statement that comes to something is not held up by the tasks beside it. As long as it is not served there is a step
that takes it further (`Database.Underway.exists_advance`), and from then on whatever is left to be sent can be sent
(`Database.clears`). So wherever the steps so far have led, there are steps after which the statement is over
(`Database.Amid.exists_over`).
-/
namespace LiveQuery

/-- How many steps a task takes at most before it has but actions to do. -/
def Task.ahead : Task → Nat
  | .statement .. => 2
  | .write .. => 1
  | .rerun .. | .actions _ => 0

namespace Database

variable {s t v : Database} {o : Origin} {text : String} {x : Service}

/-! ## What is left to be sent -/

/-- There are steps after which these are the tasks. -/
def Leads (s : Database) (tasks : List Task) : Prop := ∃ t, Relation.ReflTransGen Step s t ∧ t.tasks = tasks

theorem Leads.head {tasks : List Task} (hstep : Step s t) (h : t.Leads tasks) : s.Leads tasks := by
  obtain ⟨u, hruns, htasks⟩ := h
  exact ⟨u, .head hstep hruns, htasks⟩

/-- A task that takes a step among others. -/
theorem step_of_advance {fuel : Nat} {order : Traversal} {before after : List Task} {task : Task} {next : Option Task}
    (htasks : s.tasks = before ++ task :: after) (h : s.advance fuel order task = some (t, next)) :
    Step s { t with tasks := before ++ next.toList ++ after } :=
  .task fuel order before.length (stepTask_of_advance htasks h)

/-- From every database where a task at this place has such actions to do, there are steps that end the task. -/
def Clears (before after : List Task) (rest : List Action) : Prop :=
  ∀ s : Database, s.tasks = before ++ .actions rest :: after → s.Leads (before ++ after)

section Clears

variable {before after : List Task}

/-- An action is done with if all that it leaves to do can be done, whatever the tables are then. -/
theorem Clears.cons {a : Action} {rest : List Action}
    (h : ∀ s : Database, Clears before after (s.fanOut default a ++ rest)) : Clears before after (a :: rest) := by
  intro s htasks
  have hadvance : s.advance 0 default (.actions (a :: rest)) = some (s.act a, restTask (s.fanOut default a ++ rest)) :=
    rfl
  refine .head (step_of_advance htasks hadvance) ?_
  have hleft := h s
  generalize s.fanOut default a ++ rest = left at hleft
  cases left with
  | nil => exact ⟨_, .refl, by simp [restTask]⟩
  | cons b left => exact hleft _ (by simp [restTask])

theorem Clears.posts {rest : List Action} (h : Clears before after rest) (p : Post) (tables : List String) :
    Clears before after (tables.map (Action.post · p) ++ rest) := by
  induction tables with
  | nil => exact h
  | cons table tables ih => exact .cons fun s => ih

/-- Whatever is to be done can be done: a broadcast becomes posts to the actors that there are when its turn comes. -/
theorem clears (rest : List Action) : Clears before after rest := by
  induction rest with
  | nil =>
    intro s htasks
    have hadvance : s.advance 0 default (.actions []) = some (s, none) := rfl
    exact ⟨_, .single (step_of_advance htasks hadvance), by simp⟩
  | cons a rest ih =>
    refine .cons fun s => ?_
    rcases s.fanOut_cases default a with ⟨heq, -⟩ | ⟨p, -, heq⟩
    · rw [heq]
      exact ih
    · rw [heq]
      exact ih.posts p _

end Clears

/-- All that is left to be sent while a database settles can be sent. -/
theorem leads_of_settling (before : List Task) (hbefore : ∀ task ∈ before, task.Settling ∧ task.pending = []) :
    (tasks : List Task) → (∀ task ∈ tasks, task.Settling) → ∀ s : Database, s.tasks = before ++ tasks →
      ∃ left, s.Leads left ∧ ∀ task ∈ left, task.Settling ∧ task.pending = []
  | [], _, s, htasks => ⟨before, ⟨s, .refl, by rw [htasks, List.append_nil]⟩, hbefore⟩
  | .rerun l key :: tasks, hsettling, s, htasks => by
    refine leads_of_settling (before ++ [.rerun l key]) ?_ tasks (List.forall_mem_cons.mp hsettling).2 s
      (by rw [htasks, List.append_assoc, List.singleton_append])
    exact List.forall_mem_append.mpr ⟨hbefore, by simp [Task.Settling, Task.pending]⟩
  | .actions rest :: tasks, hsettling, s, htasks => by
    obtain ⟨t, hruns, ht⟩ := clears rest s htasks
    obtain ⟨left, ⟨u, hruns', hu⟩, hleft⟩ :=
      leads_of_settling before hbefore tasks (List.forall_mem_cons.mp hsettling).2 t ht
    exact ⟨left, ⟨u, hruns.trans hruns', hu⟩, hleft⟩
  | .statement .. :: _, hsettling, _, _ | .write .. :: _, hsettling, _, _ =>
    (hsettling _ List.mem_cons_self).elim

/-- While a database settles there are steps after which every statement is over. -/
theorem Settling.exists_over (hs : s.Settling) : ∃ t, Relation.ReflTransGen Step s t ∧ ∀ o, t.IsOver o := by
  obtain ⟨left, ⟨t, hruns, ht⟩, hleft⟩ := leads_of_settling [] (by simp) s.tasks hs s rfl
  refine ⟨t, hruns, fun o => ⟨fun task htask => (hleft task (ht ▸ htask)).1, fun a ha => ?_⟩⟩
  obtain ⟨task, htask, ha⟩ := List.mem_flatMap.mp ha
  rw [(hleft task (ht ▸ htask)).2] at ha
  cases ha

/-! ## Until a statement is served -/

/-- A statement that comes to something takes its first step. -/
theorem Serves.exists_advance (h : s.Serves o text x) :
    ∃ fuel r, s.advance fuel default (.statement o text) = some r := by
  have hwrites : ∀ {st : Statement} {r : Except Fault Write}, Statement.read text = .ok st → s.Prepares st r →
      ∃ fuel r, s.advance fuel default (.statement o text) = some r := by
    intro st r read prepares
    cases prepares with
    | insert fuel h => exact ⟨fuel, _, by simp only [advance, read, begin, h, Option.map_some]; rfl⟩
    | update | delete => exact ⟨0, _, by simp only [advance, read, begin, Option.map_some]; rfl⟩
  cases h with
  | unread read => exact ⟨0, _, by simp only [advance, read]; rfl⟩
  | created read | unmade read => exact ⟨0, _, by simp only [advance, read, begin, Option.map_some]; rfl⟩
  | unprepared read prepares | refused read prepares | committed read prepares => exact hwrites read prepares
  | evaluated read fuel run => exact ⟨fuel, _, by simp only [advance, read, begin, run, Option.map_some]; rfl⟩
  | unanchored read failed => exact ⟨0, _, by simp only [advance, read, begin, failed, Option.map_some]; rfl⟩
  | selected read anchored fuel run =>
    exact ⟨fuel, _, by simp only [advance, read, begin, anchored, run, Option.map_some]; rfl⟩

/-- A statement comes closer to being served with each of its steps. -/
theorem ahead_of_advance {fuel : Nat} {order : Traversal} {task task' : Task}
    (h : s.advance fuel order task = some (t, some task')) : task'.ahead ≤ task.ahead - 1 := by
  have hturn := turn_of_advance h
  generalize hnext : some task' = next at hturn
  cases hturn with
  | idle | done => cases hnext
  | starts h => cases hnext; cases h <;> simp [Task.ahead]
  | acts order =>
    rw [eq_of_mem_restTask hnext.symm]
    exact Nat.zero_le _

/-- A statement that comes to something takes a step as long as it is not served. -/
theorem Underway.exists_advance {task : Task} (h : s.Underway o text task v.store) (hschema : v.schema = s.schema)
    (serves : s.Serves o text x) : ∃ fuel t next, v.advance fuel default task = some (t, next) := by
  generalize hstore : v.store = store at h
  cases h with
  | sent =>
    obtain ⟨fuel, ⟨t, next⟩, h⟩ := (serves.congr (t := s) (s := v) hstore.symm hschema.symm).exists_advance
    exact ⟨fuel, t, next, h⟩
  | prepared => exact ⟨0, _, _, rfl⟩
  | committed => exact ⟨0, _, _, rfl⟩

/-- All that can be left to do until a statement is served, once it has prepared and committed, is to publish. -/
theorem Underway.publishes {task : Task} {store : Store} (h : s.Underway o text task store) (hahead : task.ahead = 0) :
    task.announces ≠ none := by
  cases h with
  | sent | prepared => cases hahead
  | committed => exact Option.some_ne_none _

/-- There are steps after which a statement that comes to something is served. -/
theorem Amid.exists_served {task : Task} {others : List Task} (h : s.Amid o text task others v)
    (serves : s.Serves o text x) : ∃ x w, Relation.ReflTransGen Step v w ∧ s.Served o text x others w := by
  induction hn : task.ahead using Nat.strongRecOn generalizing task v with
  | ind n ih =>
    obtain ⟨fuel, v', next, hadv⟩ := h.underway.exists_advance h.schema serves
    obtain ⟨before, after, htasks⟩ := List.append_of_mem (h.tasks.mem_iff.mpr List.mem_cons_self)
    have hothers : (before ++ after).Perm others := by
      have hperm := List.perm_middle.symm.trans ((List.Perm.of_eq htasks.symm).trans h.tasks)
      exact hperm.cons_inv
    have hleft : (before ++ next.toList ++ after).Perm (next.toList ++ others) :=
      (List.perm_append_comm.append_right after).trans ((List.append_assoc ..).symm ▸ hothers.append_left next.toList)
    have hstep := step_of_advance htasks hadv
    rcases h.advance (u := { v' with tasks := before ++ next.toList ++ after }) hadv hleft rfl with
      ⟨hsilent, task', rfl, hamid⟩ | ⟨x, -, hserved⟩
    · have hahead := ahead_of_advance hadv
      have hpositive : task.ahead ≠ 0 := fun hzero => h.underway.publishes hzero hsilent
      obtain ⟨x, w, hruns, hserved⟩ := ih task'.ahead (by omega) hamid rfl
      exact ⟨x, w, .head hstep hruns, hserved⟩
    · exact ⟨x, _, .single hstep, hserved⟩

/-- Wherever the steps so far have led, there are steps after which a statement that comes to something is over. -/
theorem Amid.exists_over {task : Task} {others : List Task} (h : s.Amid o text task others t)
    (serves : s.Serves o text x) (runs : Relation.ReflTransGen Step t v) :
    ∃ u, Relation.ReflTransGen Step v u ∧ u.IsOver o := by
  obtain ⟨es, hpublishes⟩ := Publishes.of_steps runs
  rcases h.run hpublishes with ⟨task', others', hamid⟩ | ⟨x, others', w, hserved, -, hruns⟩
  · obtain ⟨x, w, hruns, hserved⟩ := hamid.exists_served serves
    obtain ⟨u, hruns', hover⟩ := hserved.settling.exists_over
    exact ⟨u, hruns.trans hruns', hover o⟩
  · obtain ⟨u, hruns', hover⟩ := (hserved.settling.steps hruns).exists_over
    exact ⟨u, hruns', hover o⟩

end Database

end LiveQuery
