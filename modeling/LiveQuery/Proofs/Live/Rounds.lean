import LiveQuery.Proofs.Database.Onward
import LiveQuery.Proofs.Database.Served
import LiveQuery.Proofs.Live.Channels

/-! # Rounds

A round is what a client does to a database at rest, with all that follows until it is at rest again. A session of
`Rounds` takes one after the other, while the steps of one round happen in any order.

At first a round can go one way only: the statement is checked, a write is committed and then published. Where
that ends is the round's `Opening`, a database that settles (`Database.standing`): nothing is written any more, and
what the channels have and get until the round is over is known (`Opening.watches`, `Opening.notices`).
-/
namespace LiveQuery

/-- A step to a database that satisfies `P`. -/
def StepIn (P : Database → Prop) (s t : Database) : Prop := Step s t ∧ P t

/-- Rounds from the empty database, with every state on the way in `P`. The list has the databases at rest before,
the latest one first. -/
inductive Rounds (texts : String → Prop) (P : Database → Prop) : List Database → Database → Prop
  | start : Rounds texts P [] {}
  | round {past : List Database} {s t u : Database} (before : Rounds texts P past s) (asks : Move texts s t)
      (test : P t) (runs : Relation.ReflTransGen (StepIn P) t u) (quiet : u.isQuiet = true) :
      Rounds texts P (s :: past) u

theorem StepIn.steps {P : Database → Prop} {s t : Database} (h : Relation.ReflTransGen (StepIn P) s t) :
    Relation.ReflTransGen Step s t :=
  h.lift id fun _ _ hstep => hstep.1

theorem Run.steps {texts : String → Prop} {P : Database → Prop} {s t : Database} (hs : Run texts P s)
    (h : Relation.ReflTransGen (StepIn P) s t) : Run texts P t := by
  induction h with
  | refl => exact hs
  | tail _ hstep ih => exact ih.move (.step hstep.1) hstep.2

theorem Reachable.steps {s t : Database} (hs : Reachable s) (h : Relation.ReflTransGen Step s t) : Reachable t := by
  induction h with
  | refl => exact hs
  | tail _ hstep ih => exact ih.move (.step hstep)

namespace Rounds

variable {texts : String → Prop} {P : Database → Prop} {past : List Database} {s : Database}

theorem run (h : Rounds texts P past s) : Run texts P s := by
  induction h with
  | start => exact .start
  | round _ asks test runs _ ih => exact (ih.move asks test).steps runs

theorem reachable (h : Rounds texts P past s) : Reachable s := .of_run h.run

theorem quiet (h : Rounds texts P past s) : s.isQuiet = true := by
  cases h with
  | start => rfl
  | round _ _ _ _ quiet => exact quiet

end Rounds

/-! ## Scripts -/

namespace Database

/-- Takes steps until nothing is under way, as long as the databases pass a test. -/
def settleIn (test : Database → Bool) (fuel : Nat) : (steps : Nat) → Database → Option Database
  | 0, _ => none
  | steps + 1, s =>
    if s.isQuiet then some s
    else
      match s.stepFirst fuel with
      | none => none
      | some t => if test t then settleIn test fuel steps t else none

/-- Plays rounds, each of which begins with a move of the script. -/
def playRounds (texts : String → Bool) (test : Database → Bool) (fuel : Nat) :
    List Cue → List Database × Database → Option (List Database × Database)
  | [], played => some played
  | c :: script, (past, s) =>
    match s.cue fuel c with
    | none => none
    | some t =>
      if c.reads texts && test t then
        match t.settleIn test fuel 60 with
        | none => none
        | some u => playRounds texts test fuel script (s :: past, u)
      else none

variable {test : Database → Bool} {fuel : Nat} {s t : Database}

theorem step_of_stepFirst (h : s.stepFirst fuel = some t) : Step s t := by
  unfold stepFirst at h
  split at h
  next =>
    split at h
    next => cases h
    next table _ => exact .actor table h
  next => exact .task fuel default 0 h

theorem steps_of_settleIn {steps : Nat} (h : s.settleIn test fuel steps = some t) :
    Relation.ReflTransGen (StepIn (test · = true)) s t ∧ t.isQuiet = true := by
  induction steps generalizing s with
  | zero => cases h
  | succ steps ih =>
    rw [settleIn] at h
    split at h
    next hquiet => cases h; exact ⟨.refl, hquiet⟩
    next =>
      split at h
      next => cases h
      next v hv =>
        split at h
        next htest =>
          obtain ⟨hsteps, hquiet⟩ := ih h
          exact ⟨.head ⟨step_of_stepFirst hv, htest⟩ hsteps, hquiet⟩
        next => cases h

end Database

/-- A script that can be played makes rounds. -/
theorem Rounds.play {texts : String → Bool} {test : Database → Bool} {fuel : Nat} {script : List Cue}
    {past past' : List Database} {s t : Database} (h : Rounds (texts · = true) (test · = true) past s)
    (hp : Database.playRounds texts test fuel script (past, s) = some (past', t)) :
    Rounds (texts · = true) (test · = true) past' t := by
  induction script generalizing past s with
  | nil => cases hp; exact h
  | cons c script ih =>
    rw [Database.playRounds] at hp
    split at hp
    next => cases hp
    next v hv =>
      split at hp
      next hok =>
        obtain ⟨hreads, htest⟩ := Bool.and_eq_true_iff.mp hok
        split at hp
        next => cases hp
        next u hu =>
          obtain ⟨hsteps, hquiet⟩ := Database.steps_of_settleIn hu
          exact ih (h.round (.of_cue hreads hv) htest hsteps hquiet) hp
      next => cases hp

/-- What holds after every run holds on the way of every run. -/
theorem StepIn.strengthen {texts : String → Prop} {P Q : Database → Prop} (hpq : ∀ s, Run texts P s → Q s)
    {s t : Database} (hs : Run texts P s) (h : Relation.ReflTransGen (StepIn P) s t) :
    Relation.ReflTransGen (StepIn Q) s t := by
  induction h with
  | refl => exact .refl
  | tail hsteps hstep ih =>
    exact ih.tail ⟨hstep.1, hpq _ ((hs.steps hsteps).move (.step hstep.1) hstep.2)⟩

theorem Rounds.strengthen {texts : String → Prop} {P Q : Database → Prop} (hpq : ∀ s, Run texts P s → Q s)
    {past : List Database} {s : Database} (h : Rounds texts P past s) : Rounds texts Q past s := by
  induction h with
  | start => exact .start
  | round before asks test runs quiet ih =>
    have hrun := before.run.move asks test
    exact ih.round asks (hpq _ hrun) (StepIn.strengthen hpq hrun runs) quiet

/-! ## Openings -/

/-- A statement was sent to a database. -/
inductive Asked (texts : String → Prop) (s : Database) : Origin → String → Database → Prop
  | call {text : String} (sent : texts text) (ticket : Nat) :
      Asked texts s (.caller ticket) text (s.call ticket text)
  | run {text : String} (sent : texts text) {connection channel : Nat} {t : Database}
      (h : s.run connection text = some (channel, t)) : Asked texts s (.channel ⟨connection, channel⟩) text t

/-- Where a round on `s`, which began with `t`, starts to settle: what is left of the statement are actions that
publish no write. -/
inductive Opening (texts : String → Prop) (s t : Database) : Database → Prop
  | removes {rest : List Action} (frame : t = { s with tasks := [.actions rest] })
      (removal : ∀ a ∈ rest, (∃ d, a = .broadcast (.remove d)) ∨ ∃ c, a = .hangUp c) : Opening texts s t t
  | ended {o : Origin} {text : String} {store : Store} {schema : Schema} {r : Except Fault Json}
      (asked : Asked texts s o text t) (changes : Database.Changes t (.statement o text) { t with store, schema })
      (unanchored : ∀ q, Statement.read text = .ok (.select true q) → o.subscriber? = none) :
      Opening texts s t { t with store, schema, tasks := [.actions (o.finish r)] }
  | selected {o : Origin} {text : String} {live : Bool} {q : Query} {anchor : Option Anchor}
      {r : Evaluation Json} (asked : Asked texts s o text t) (read : Statement.read text = .ok (.select live q))
      (anchored : anchorFor live o = .ok anchor) (fuel : Nat)
      (run : select fuel t.schema t.store q anchor = some r) :
      Opening texts s t
        { t with tasks := [.actions (subscribeActions r.sent ++ o.finish (r.outcome.bind q.answer))] }
  | refused {o : Origin} {text : String} {w : Write} {f : Fault} (asked : Asked texts s o text t)
      (prepared : Database.Continues t (.statement o text) (.write o w)) (failed : w.commit t.store = .error f) :
      Opening texts s t { t with tasks := [.actions (o.finish (.error f))] }
  | kept {o : Origin} {text : String} {w : Write} {c : Committed} (asked : Asked texts s o text t)
      (prepared : Database.Continues t (.statement o text) (.write o w)) (made : w.commit t.store = .ok c)
      (silent : c.event = none) :
      Opening texts s t { t with store := c.store, tasks := [.actions (o.finish (.ok c.answer))] }
  | published {o : Origin} {text : String} {w : Write} {c : Committed} {table : String} {e : Event}
      (asked : Asked texts s o text t) (prepared : Database.Continues t (.statement o text) (.write o w))
      (made : w.commit t.store = .ok c) (event : c.event = some (table, e)) :
      Opening texts s t
        ⟨c.store, t.schema, t.engine.post table (.event e), [.actions (o.finish (.ok c.answer))], t.connections,
          t.nextConnection, t.answers⟩

/-- Where a round on `s`, which began with `t`, stands. -/
inductive Standing (texts : String → Prop) (s t u : Database) : Prop
  /-- The client asked for nothing that takes a step. -/
  | rest (same : u = t) (store : t.store = s.store) (schema : t.schema = s.schema) (engine : t.engine = s.engine)
      (tasks : t.tasks = [])
  /-- The statement is under way, and no actor or connection has heard of it. -/
  | waiting (engine : u.engine = s.engine) (connections : u.connections = t.connections) {task : Task}
      (tasks : u.tasks = [task])
  | opened {w : Database} (opening : Opening texts s t w) (before : Relation.ReflTransGen Step t w)
      (runs : Relation.ReflTransGen Step w u)

namespace Asked

variable {texts : String → Prop} {s t : Database} {o : Origin} {text : String}

theorem sent (h : Asked texts s o text t) : texts text := by
  cases h with
  | call sent => exact sent
  | run sent => exact sent

theorem move (h : Asked texts s o text t) : Move texts s t := by
  cases h with
  | call sent ticket => exact .call s ticket sent
  | run sent h => exact .run sent h

theorem frame (h : Asked texts s o text t) :
    t = { s with connections := t.connections, tasks := s.tasks ++ [.statement o text] } := by
  cases h with
  | call sent ticket => rfl
  | run sent h =>
    obtain ⟨c, -, rfl, rfl⟩ := Database.run_eq h
    rfl

/-- A statement is no list of actions. -/
theorem frame_ne (h : Asked texts s o text t) (rest : List Action) : t ≠ { s with tasks := [.actions rest] } := by
  intro frame
  have htasks : s.tasks ++ [.statement o text] = [.actions rest] := congrArg Database.tasks (h.frame.symm.trans frame)
  have hmem : Task.statement o text ∈ [Task.actions rest] := htasks ▸ List.mem_append_right _ List.mem_cons_self
  cases List.mem_singleton.mp hmem

theorem store (h : Asked texts s o text t) : t.store = s.store := by rw [h.frame]

theorem schema (h : Asked texts s o text t) : t.schema = s.schema := by rw [h.frame]

theorem engine (h : Asked texts s o text t) : t.engine = s.engine := by rw [h.frame]

/-- What a channel has received is not touched, and no connection is closed. -/
theorem received (h : Asked texts s o text t) (u : Subscriber) :
    t.received u = s.received u ∧ (t.IsOpen u.connection ↔ s.IsOpen u.connection) := by
  cases h with
  | call sent ticket => exact ⟨rfl, Iff.rfl⟩
  | run sent h =>
    obtain ⟨c, hc, rfl, rfl⟩ := Database.run_eq h
    simp only [Database.received, Database.inboxOf, Database.IsOpen, Keyed.find?_insert]
    split
    next heq =>
      rw [← heq, hc]
      exact ⟨rfl, by simp⟩
    next => exact ⟨rfl, Iff.rfl⟩

end Asked

namespace Database

variable {texts : String → Prop} {s t u : Database}

/-- Nothing is under way. -/
theorem idle_of_quiet (h : s.isQuiet = true) : s.tasks = [] ∧ ∀ table, (s.engine.actor table).inbox = [] := by
  obtain ⟨htasks, hbusy⟩ := Bool.and_eq_true_iff.mp h
  exact ⟨List.isEmpty_iff.mp htasks, Engine.inbox_of_busy?_none (Option.isNone_iff_eq_none.mp hbusy)⟩

/-- While nothing is under way there is no step. -/
theorem not_step_of_quiet (htasks : s.tasks = []) (hidle : ∀ table, (s.engine.actor table).inbox = []) :
    ¬Step s t := by
  intro h
  cases h with
  | task fuel order i h =>
    obtain ⟨before, task, after, s', next, hsplit, -⟩ := stepTask_eq h
    rw [htasks] at hsplit
    exact absurd hsplit (by simp)
  | actor table h =>
    obtain ⟨p, rest, hinbox, -⟩ := stepActor_eq h
    rw [hidle table] at hinbox
    cases hinbox

/-- A write that was checked is the next task. -/
theorem Prepares.continues {st : Statement} {w : Write} {o : Origin} {text : String}
    (read : Statement.read text = .ok st) (h : s.Prepares st (.ok w)) :
    Continues s (.statement o text) (.write o w) := by
  generalize hr : Except.ok w = r at h
  cases h with
  | insert fuel prepared => exact .insert fuel read (hr ▸ prepared)
  | update => exact .update read hr.symm
  | delete => exact .delete read hr.symm

/-- What a statement comes to is where its round opens. -/
theorem Serves.opening {o : Origin} {text : String} {x : Service} (asked : Asked texts s o text t)
    (h : t.Serves o text x) : Opening texts s t (x.opens t o) := by
  -- a statement that is no live query with a channel, and what it does to tables and rows
  have hended : ∀ {st : Statement}, Statement.read text = .ok st → (∀ q, st ≠ .select true q) →
      ∀ q, Statement.read text = .ok (.select true q) → o.subscriber? = none := by
    intro st read hst q hq
    rw [read] at hq
    exact absurd (Except.ok.inj hq) (hst q)
  cases h with
  | unread read => exact .ended asked (.none rfl rfl) fun q hq => by rw [read] at hq; cases hq
  | created read admitted => exact .ended asked (.create read admitted rfl rfl) (hended read (by simp))
  | unmade read failed => exact .ended asked (.none rfl rfl) (hended read (by simp))
  | unprepared read prepares => exact .ended asked (.none rfl rfl) (hended read (by rintro q rfl; cases prepares))
  | refused read prepares failed => exact .refused asked (prepares.continues read) failed
  | @committed st w c read prepares made =>
    have hcontinues := prepares.continues (o := o) read
    cases hevent : c.event with
    | none => exact .kept asked hcontinues made hevent
    | some publication => exact .published asked hcontinues made hevent
  | evaluated read fuel run => exact .ended asked (.none rfl rfl) (hended read (by simp))
  | unanchored read failed =>
    exact .ended asked (.none rfl rfl) fun _ _ => subscriber?_of_unanchored failed
  | selected read anchored fuel run => exact .selected asked read anchored fuel run

/-- What a statement comes to that was sent to a database at rest. -/
theorem course_of_asked {o : Origin} {text : String} {es : List (String × Event)} (hquiet : s.isQuiet = true)
    (asked : Asked texts s o text t) (h : Publishes t es u) : Course t o text es u := by
  obtain ⟨htasks, hidle⟩ := idle_of_quiet hquiet
  exact course_of_alone (by rw [asked.frame, htasks]; rfl) (asked.engine ▸ hidle) h

/-- Where a round stands after a statement was sent. -/
theorem standing_of_asked {o : Origin} {text : String} (hquiet : s.isQuiet = true) (asked : Asked texts s o text t)
    (hrun : Relation.ReflTransGen Step t u) : Standing texts s t u := by
  obtain ⟨es, hes⟩ := Publishes.of_steps hrun
  cases course_of_asked hquiet asked hes with
  | waiting silent engine connections tasks => exact .waiting (engine.trans asked.engine) connections tasks
  | opened serves before published runs => exact .opened (serves.opening asked) before runs

/-- Where a round stands. -/
theorem standing (hquiet : s.isQuiet = true) (h : Move texts s t) (hrun : Relation.ReflTransGen Step t u) :
    Standing texts s t u := by
  obtain ⟨htasks, hidle⟩ := idle_of_quiet hquiet
  have hrest : ∀ {v : Database}, v.store = s.store → v.schema = s.schema → v.engine = s.engine → v.tasks = [] →
      Relation.ReflTransGen Step v u → Standing texts s v u := by
    intro v hstore hschema hengine hnone hrun
    rcases Relation.ReflTransGen.cases_head hrun with rfl | ⟨v', hstep, -⟩
    · exact .rest rfl hstore hschema hengine hnone
    · exact absurd hstep (not_step_of_quiet hnone (by rw [hengine]; exact hidle))
  cases h with
  | step h => exact absurd h (not_step_of_quiet htasks hidle)
  | connect => exact hrest rfl rfl rfl htasks hrun
  | call ticket sent => exact standing_of_asked hquiet (.call sent ticket) hrun
  | run sent h => exact standing_of_asked hquiet (.run sent h) hrun
  | closeChannel whom =>
    have hframe : s.closeChannel whom = { s with tasks := [.actions [.broadcast (.remove (.channel whom))]] } := by
      rw [closeChannel, htasks]
      rfl
    exact .opened (.removes hframe (by simp)) .refl hrun
  | disconnect connection =>
    have hframe : s.disconnect connection = { s with
        tasks := [.actions [.broadcast (.remove (.connection connection)), .hangUp connection]] } := by
      rw [disconnect, htasks]
      rfl
    exact .opened (.removes hframe (by simp)) .refl hrun
  | takeMessages connection =>
    rcases s.takeMessages_cases connection with ⟨c, -, heq⟩ | heq <;> rw [heq] at hrun ⊢ <;>
      exact hrest rfl rfl rfl htasks hrun

/-! ## What there is at an opening -/

/-- The listeners of a channel on a table. -/
def held (s : Database) (u : Subscriber) (table : String) : List Subscription :=
  ((s.engine.actor table).listeners.subscriptions table).filter (·.listener.subscriber = u)

end Database

/-- A write whose event has no old row is an insertion under a new key. -/
theorem Write.insert_of_event {store : Store} {write : Write} {c : Committed} {table : String} {e : Event}
    (made : write.commit store = .ok c) (event : c.event = some (table, e)) (hold : e.old = none) :
    ∃ key bytes, write = .insert table key bytes ∧ store.get? table key.keyBytes = none ∧
      c.store = store.put table key.keyBytes bytes ∧ e = { key, old := none, new := some bytes } := by
  cases write with
  | insert name key bytes =>
    simp only [Write.commit] at made
    split at made
    next => cases made
    next hnone =>
      cases made
      cases event
      exact ⟨key, bytes, rfl, hnone, rfl, rfl⟩
  | update name key assignments =>
    simp only [Write.commit] at made
    split at made
    next => cases made; cases event
    next =>
      obtain ⟨new, -, made⟩ := ok_of_bind made
      cases made
      cases event
      cases hold
  | delete name key =>
    simp only [Write.commit] at made
    split at made <;> cases made <;> cases event
    cases hold

namespace Opening

variable {texts : String → Prop} {s t w : Database}

/-- One task is left, and it publishes nothing. -/
theorem tasks (h : Opening texts s t w) : ∃ rest, w.tasks = [.actions rest] ∧ ∀ a ∈ rest, a.publishes = false := by
  have hfinish : ∀ (o : Origin) (r : Except Fault Json), ∀ a ∈ o.finish r, a.publishes = false := by
    intro o r a ha
    rcases Origin.mem_finish ha with ⟨ticket, rfl⟩ | ⟨u, -, rfl | ⟨m, rfl, -⟩⟩ <;> rfl
  cases h with
  | removes frame removal =>
    refine ⟨_, by rw [frame], fun a ha => ?_⟩
    rcases removal a ha with ⟨d, rfl⟩ | ⟨c, rfl⟩ <;> rfl
  | ended | refused | kept | published => exact ⟨_, rfl, hfinish _ _⟩
  | selected =>
    refine ⟨_, rfl, List.forall_mem_append.mpr ⟨fun a ha => ?_, hfinish _ _⟩⟩
    obtain ⟨x, -, rfl⟩ := List.mem_map.mp ha
    rfl

theorem settling (h : Opening texts s t w) : w.Settling := by
  obtain ⟨rest, htasks, hrest⟩ := h.tasks
  intro task hmem
  rw [htasks] at hmem
  cases List.mem_singleton.mp hmem
  exact hrest

theorem connections (h : Opening texts s t w) : w.connections = t.connections := by
  cases h <;> rfl

/-- A round opens with the messages that there were. -/
theorem received (h : Opening texts s t w) (u : Subscriber) :
    w.received u = s.received u ∧ (w.IsOpen u.connection ↔ s.IsOpen u.connection) := by
  rw [Database.received_congr h.connections, Database.isOpen_congr h.connections]
  cases h with
  | removes frame => rw [frame]; exact ⟨rfl, Iff.rfl⟩
  | ended asked => exact asked.received u
  | selected asked => exact asked.received u
  | refused asked => exact asked.received u
  | kept asked => exact asked.received u
  | published asked => exact asked.received u

/-- A statement closes no connection. -/
theorem stays {o : Origin} {text : String} (asked : Asked texts s o text t) (h : Opening texts s t w)
    (connection : Nat) :
    ∀ a ∈ w.pending, a.hangsUp connection = false := by
  have hfinish : ∀ (o : Origin) (r : Except Fault Json), ∀ a ∈ o.finish r, a.hangsUp connection = false := by
    intro o r a ha
    rcases Origin.mem_finish ha with ⟨ticket, rfl⟩ | ⟨u, -, rfl | ⟨m, rfl, -⟩⟩ <;> rfl
  have hone : ∀ {v : Database} {rest : List Action}, v.tasks = [.actions rest] →
      (∀ a ∈ rest, a.hangsUp connection = false) → ∀ a ∈ v.pending, a.hangsUp connection = false := by
    intro v rest htasks hrest
    rwa [Database.pending, htasks, List.flatMap_singleton, Task.pending]
  cases h with
  | removes frame => exact absurd frame (asked.frame_ne _)
  | ended | refused | kept | published => exact hone rfl (hfinish _ _)
  | selected =>
    refine hone rfl (List.forall_mem_append.mpr ⟨fun a ha => ?_, hfinish _ _⟩)
    obtain ⟨x, -, rfl⟩ := List.mem_map.mp ha
    rfl

/-- The actors are as they were, or one has been posted an event. -/
theorem engine (h : Opening texts s t w) :
    w.engine = s.engine ∨ ∃ table e, w.engine = s.engine.post table (.event e) := by
  cases h with
  | removes frame => exact .inl (by rw [frame])
  | ended asked | selected asked | refused asked | kept asked => exact .inl asked.engine
  | published asked => exact .inr ⟨_, _, congrArg (Engine.post · _ _) asked.engine⟩

/-- The tables have the listeners that they had. -/
theorem audience (hquiet : s.isQuiet = true) (h : Opening texts s t w) (table : String) :
    w.engine.audience table = (s.engine.actor table).listeners := by
  obtain ⟨-, hidle⟩ := Database.idle_of_quiet hquiet
  have hbefore : s.engine.audience table = (s.engine.actor table).listeners := by
    rw [Engine.audience, Actor.audience, hidle table]
    rfl
  rcases h.engine with hengine | ⟨name, e, hengine⟩
  · rw [hengine, hbefore]
  · rw [hengine, Engine.audience_post, hbefore]
    split <;> rfl

/-- No notice is under way if no event was published. -/
theorem notices_of_engine (hquiet : s.isQuiet = true) (hwired : s.Wired) (h : Opening texts s t w)
    (hengine : w.engine = s.engine) : w.notices = [] := by
  obtain ⟨-, hidle⟩ := Database.idle_of_quiet hquiet
  obtain ⟨rest, htasks, -⟩ := h.tasks
  rw [Database.notices, htasks, hengine, Engine.notices_of_idle hidle hwired.engine]
  rfl

/-- What the event of a round calls for: nothing, the queries of those who await a new row, or messages to those on
the row that changed. -/
inductive Calls (s w : Database) : Prop
  | silent (notices : w.notices = [])
  | inserted {table : String} {key : Literal} {row : Value} (new : s.store.get? table key.keyBytes = none)
      (stored : (w.store.get? table key.keyBytes).isSome = true)
      (notices : w.notices.Perm ((((s.engine.actor table).listeners.subscriptions table).filter
        (Subscription.awaits row)).map fun x => .rerun x.listener key))
  | changed {table : String} {key : Bytes} {old new : Json}
      (notices : w.notices.Perm ((((s.engine.actor table).listeners.subscriptions table).filter
        (Subscription.isOn key)).map fun x => .deliver x.listener.subscriber (x.listener.recordUpdate old new)))

/-- An event without an old row is that of an insertion under a new key. -/
theorem get?_of_event {store : Store} {write : Write} {c : Committed} {table : String} {e : Event}
    (made : write.commit store = .ok c) (event : c.event = some (table, e)) (hold : e.old = none) :
    store.get? table e.key.keyBytes = none ∧ (c.store.get? table e.key.keyBytes).isSome = true := by
  obtain ⟨key, bytes, -, hnone, hstore, rfl⟩ := Write.insert_of_event made event hold
  exact ⟨hnone, by rw [hstore, Store.get?, Store.entries_put_self, Keyed.find?_insert_self]; rfl⟩

theorem calls (hquiet : s.isQuiet = true) (hwired : s.Wired) (h : Opening texts s t w) : Calls s w := by
  have hsilent := h.notices_of_engine hquiet hwired
  obtain ⟨-, hidle⟩ := Database.idle_of_quiet hquiet
  cases h with
  | removes frame => exact .silent (hsilent (by rw [frame]))
  | ended asked | selected asked | refused asked | kept asked => exact .silent (hsilent asked.engine)
  | @published o _ _ c table e asked prepared made event =>
    have hnotices : Database.notices ⟨c.store, t.schema, t.engine.post table (.event e),
        [.actions (o.finish (.ok c.answer))], t.connections, t.nextConnection, t.answers⟩ |>.Perm
          (e.notices (s.engine.actor table).listeners) := by
      have hposted := Engine.notices_post hwired.engine table (.event e)
      rw [Engine.notices_of_idle hidle hwired.engine, Engine.audience, Actor.audience, hidle table] at hposted
      rw [Database.notices, asked.engine]
      exact hposted
    rcases e.notices_cases (hwired.engine.listeners table) table with hnil | ⟨hold, row, heq⟩ | ⟨old, new, heq⟩
    · exact .silent (List.perm_nil.mp (hnil ▸ hnotices))
    · obtain ⟨hnew, hstored⟩ := get?_of_event made event hold
      exact .inserted (asked.store ▸ hnew) hstored (heq ▸ hnotices)
    · exact .changed (heq ▸ hnotices)

/-- What is sent on a channel when a round opens: nothing, or the subscriptions of a live query, for which the channel
was made. -/
inductive Sends (texts : String → Prop) (s t w : Database) (u : Subscriber) : Prop
  | nothing (pending : ∀ table,
      (w.pending.flatMap (Action.subscriptions table)).filter (·.listener.subscriber = u) = [])
  | query {text : String} {q : Query} (asked : Asked texts s (.channel u) text t)
      (read : Statement.read text = .ok (.select true q)) (held : ∀ table, s.held u table = [])
      (notices : w.notices = [])
      (pending : ∀ table, (w.pending.flatMap (Action.subscriptions table)).filter (·.listener.subscriber = u) =
        (q.sent w.schema w.store { subscriber := u }).filter (·.tableName = table))

theorem subscriptions_finish (o : Origin) (r : Except Fault Json) (table : String) :
    (o.finish r).flatMap (Action.subscriptions table) = [] := by
  cases o <;> cases r <;> rfl

/-- A channel on which a statement was just sent has no listeners. -/
theorem held_of_asked (hs : Reachable s) {text : String} {u : Subscriber} (asked : Asked texts s (.channel u) text t)
    (table : String) : s.held u table = [] := by
  cases asked with
  | run sent hrun =>
    refine List.filter_eq_nil_iff.mpr fun x hx hu => ?_
    exact (hs.numbered.concerns_run hrun).listeners table x hx (of_decide_eq_true hu)

theorem sends (hquiet : s.isQuiet = true) (hs : Reachable s) (hw : w.InOrder) (hrows : RowsTyped w.schema w.store)
    (hlevels : ∀ text, texts text → ∀ q, Statement.read text = .ok (.select true q) → q.levels ≤ Plan.maxPoints)
    (h : Opening texts s t w) (u : Subscriber) : Sends texts s t w u := by
  have hsilent := h.notices_of_engine hquiet hs.wired
  have hfinish : ∀ {v : Database} {o : Origin} {r : Except Fault Json}, v.tasks = [.actions (o.finish r)] →
      Sends texts s t v u := by
    intro v o r htasks
    refine .nothing fun table => ?_
    rw [Database.pending, htasks, List.flatMap_singleton, Task.pending, subscriptions_finish]
    rfl
  cases h with
  | @removes rest frame removal =>
    refine .nothing fun table => ?_
    have hnone : rest.flatMap (Action.subscriptions table) = [] := by
      refine List.flatMap_eq_nil_iff.mpr fun a ha => ?_
      rcases removal a ha with ⟨d, rfl⟩ | ⟨c, rfl⟩ <;> rfl
    rw [Database.pending, frame, List.flatMap_singleton, Task.pending, hnone]
    rfl
  | ended | refused | kept | published => exact hfinish rfl
  | @selected o text live q anchor r asked read anchored fuel run =>
    have hpending : ∀ table, (Database.pending { t with
        tasks := [.actions (subscribeActions r.sent ++ o.finish (r.outcome.bind q.answer))] }).flatMap
          (Action.subscriptions table) = r.sent.filter (·.tableName = table) := by
      intro table
      rw [Database.pending, List.flatMap_singleton, Task.pending, List.flatMap_append, Database.watches_of_posts,
        subscriptions_finish, List.append_nil]
    by_cases hu : anchor = some { subscriber := u }
    · subst hu
      obtain ⟨rfl, v, rfl, hv⟩ := anchorFor_eq_some anchored
      cases hv
      cases hplan : Plan.live t.schema (Catalog.types t.schema) q with
      | error f =>
        rw [Evaluation.live_of_error hplan run] at hpending ⊢
        exact .nothing fun table => by rw [hpending table]; rfl
      | ok plan =>
        have heq := Evaluation.live_eq hw.schema hw.store hrows (hlevels text asked.sent q read) hplan run
        refine .query asked read (held_of_asked hs asked) (hsilent asked.engine) fun table => ?_
        have hsent : r.sent = q.sent t.schema t.store { subscriber := u } := by rw [heq]
        rw [hpending table, ← hsent]
        refine List.filter_eq_self.mpr fun x hx => ?_
        obtain ⟨a, ha, hx⟩ := select_sent run x (List.mem_of_mem_filter hx)
        cases ha
        exact decide_eq_true hx
    · refine .nothing fun table => ?_
      rw [hpending table]
      refine List.filter_eq_nil_iff.mpr fun x hx hxu => hu ?_
      obtain ⟨a, rfl, ha⟩ := select_sent run x (List.mem_of_mem_filter hx)
      obtain ⟨-, v, -, rfl⟩ := anchorFor_eq_some anchored
      rw [← of_decide_eq_true hxu, ha]

/-- The listeners that a channel will have are those that it has, those that are being sent, and those of the
queries to be run again. -/
theorem prospect (hquiet : s.isQuiet = true) (h : Opening texts s t w) (u : Subscriber) (table : String) :
    w.prospect u table = (s.held u table ++
      (w.pending.flatMap (Action.subscriptions table)).filter (·.listener.subscriber = u)) ++
        w.notices.flatMap (Notice.sent w.schema w.store u table) := by
  rw [Database.prospect, Database.watches, h.audience hquiet, List.filter_append]
  rfl

end Opening

end LiveQuery
