import LiveQuery.Proofs.Live.Clearing
import LiveQuery.Proofs.Live.Replies

/-! # Statements are atomic

A statement on a connection brings its channel one message, its result or its error, and one that brings an error has
left no trace (`Reachable.statement_atomic`): tables and rows are as they were, no write was published, and every table
has the listeners that it had, also after a live query that had subscribed some before it failed.
-/
namespace LiveQuery

theorem Action.posts_of_subscribeActions (sent : List Subscription) (table : String) :
    (subscribeActions sent).flatMap (Action.posts table) =
      (sent.filter (·.tableName = table)).map .subscribe := by
  induction sent with
  | nil => rfl
  | cons x sent ih =>
    rw [subscribeActions, List.map_cons, List.flatMap_cons, List.filter_cons]
    rw [subscribeActions] at ih
    rw [ih, Action.posts]
    by_cases hx : x.tableName = table <;> simp [hx]

/-- A statement that fails clears away the listeners that it has subscribed. -/
theorem Database.Serves.listeners {texts : String → Prop} {s t v : Database} {u : Subscriber} {text : String}
    {x : Service} (hs : Reachable s) (hquiet : s.isQuiet = true) (asked : Asked texts s (.channel u) text t)
    (serves : t.Serves (.channel u) text x) {f : Fault} (failed : x.reply = .error f)
    (before : Relation.ReflTransGen Step t (x.opens t (.channel u)))
    (runs : Relation.ReflTransGen Step (x.opens t (.channel u)) v) (quiet : v.isQuiet = true) (table : String) :
    (v.engine.actor table).listeners = (s.engine.actor table).listeners := by
  obtain ⟨-, -, hsilent⟩ := serves.unchanged failed
  have opening := serves.opening asked
  have hengine : (x.opens t (.channel u)).engine = s.engine := by
    rw [Service.opens, Service.changes, hsilent]
    exact asked.engine
  have halone : (x.opens t (.channel u)).Alone :=
    ⟨opening.settling, opening.notices_of_engine hquiet hs.wired hengine, Nat.le_refl 1⟩
  have hw : Reachable (x.opens t (.channel u)) := (hs.move (asked.move.mono fun _ _ => trivial)).steps before
  rw [halone.listeners_eq hw.wired runs quiet, Database.hereafter, opening.audience hquiet]
  have hposts : (x.opens t (.channel u)).pending.flatMap (Action.posts table) =
      (x.sent.filter (·.tableName = table)).map .subscribe ++ [.remove (.channel u)] := by
    rw [Database.pending, Service.opens, List.flatMap_singleton, Task.pending, Service.rest, failed,
      List.flatMap_append, Action.posts_of_subscribeActions]
    rfl
  rw [hposts, Audience.after_append, Audience.after_subscribes]
  exact Audience.remove_foldl_subscribe (d := .channel u) (hs.wired.engine.listeners table) (hs.full table)
    (fun y hy => decide_eq_false ((asked.fresh hs).2.listeners table y hy))
    fun y hy => decide_eq_true (serves.subscriber y (List.mem_of_mem_filter hy))

/-- A statement brings its channel one message, a result or an error, and after an error all is as it was before. -/
theorem Reachable.statement_atomic {s t v : Database} {connection channel : Nat} {text : String}
    {events : List (String × Event)} (hs : Reachable s) (hquiet : s.isQuiet = true)
    (hrun : s.run connection text = some (channel, t)) (runs : Publishes t events v) (quiet : v.isQuiet = true) :
    (∃ data, v.received ⟨connection, channel⟩ = [.result channel data]) ∨
      (∃ f : Fault, v.received ⟨connection, channel⟩ = [.error channel f.message]) ∧ v.store = s.store ∧
        v.schema = s.schema ∧ events = [] ∧
          ∀ table, (v.engine.actor table).listeners = (s.engine.actor table).listeners := by
  have asked : Asked (fun _ => True) s (.channel ⟨connection, channel⟩) text t := .run trivial hrun
  cases Database.course_of_asked hquiet asked runs with
  | waiting silent engine connections tasks =>
    rw [(Database.idle_of_quiet quiet).1] at tasks
    cases tasks
  | @opened x serves before published later =>
    have hears : v.received ⟨connection, channel⟩ = _ := asked.hears hquiet hs serves later quiet
    cases hreply : x.reply with
    | ok data => exact .inl ⟨data, by rw [hears, hreply]; rfl⟩
    | error f =>
      obtain ⟨hstore, hschema, hsilent⟩ := serves.unchanged hreply
      obtain ⟨hstore', hschema'⟩ := (Database.settling_opens x t _).run later
      refine .inr ⟨⟨f, by rw [hears, hreply]; rfl⟩, ?_, ?_, by rw [published, hsilent]; rfl, fun table => ?_⟩
      · exact hstore'.trans (hstore.trans asked.store)
      · exact hschema'.trans (hschema.trans asked.schema)
      · exact serves.listeners hs hquiet asked hreply before later quiet table

namespace Reachable.Sample

/-- A table without rows on which one live query listens. -/
def watched : List Cue :=
  [.connect, .call "CREATE TABLE t (id int PRIMARY KEY)", .run 1 "LIVE MANY t \x7b id \x7d"]

/-- A live query that subscribes to the table and then fails, since there is no row. -/
def missing : String := "LIVE ONE t \x7b id \x7d"

/-- The query is run on the table, until all is quiet again. -/
def runMissing : Option (Database × (Nat × Database) × List (String × Event) × Database) :=
  (Database.playRounds (fun _ => true) (fun _ => true) 30 watched ([], {})).bind fun (_, s) =>
    (s.run 1 missing).bind fun (c, t) => (t.settleNoting 30 30).map fun v => (s, (c, t), v)

/-- Whether one listener is left, and the channel of the query has got an error and nothing else. -/
def fails : Database × (Nat × Database) × List (String × Event) × Database → Bool
  | (s, (c, _), _, v) => decide (s.engine.countListeners "t" = 1) && decide (c = 2) &&
      v.received ⟨1, 2⟩ matches [.error ..]

end Reachable.Sample

open Reachable.Sample in
/-- A live query for one row fails where there is none, and only the listener of the other query is left. -/
theorem Reachable.statement_atomic_noRows : ∃ s t v events, Reachable s ∧ s.isQuiet = true ∧
    s.engine.countListeners "t" = 1 ∧ s.run 1 missing = some (2, t) ∧ Publishes t events v ∧ v.isQuiet = true ∧
    (∃ f : Fault, v.received ⟨1, 2⟩ = [.error 2 f.message]) ∧ v.store = s.store ∧ v.schema = s.schema ∧ events = [] ∧
    ∀ table, (v.engine.actor table).listeners = (s.engine.actor table).listeners := by
  have hplay : runMissing.any fails = true := by decide +kernel
  obtain ⟨⟨s, ⟨c, t⟩, events, v⟩, hrun, htest⟩ := (Option.any_eq_true _ _).mp hplay
  obtain ⟨⟨past, s'⟩, hrounds, hrun⟩ := Option.bind_eq_some_iff.mp hrun
  obtain ⟨⟨c', t'⟩, hstarts, hrun⟩ := Option.bind_eq_some_iff.mp hrun
  obtain ⟨⟨events', v'⟩, hsettles, hrun⟩ := Option.map_eq_some_iff.mp hrun
  cases hrun
  simp only [fails, Bool.and_eq_true, decide_eq_true_eq] at htest
  obtain ⟨⟨hcount, rfl⟩, herror⟩ := htest
  have hrounds : Rounds ((fun _ => true) · = true) ((fun _ => true) · = true) past s := Rounds.play .start hrounds
  obtain ⟨hpublishes, hquiet⟩ := Database.publishes_of_settleNoting hsettles
  rcases statement_atomic hrounds.reachable hrounds.quiet hstarts hpublishes hquiet with ⟨data, hdata⟩ | hatomic
  · rw [hdata] at herror
    cases herror
  · exact ⟨s, t, v, events, hrounds.reachable, hrounds.quiet, hcount, hstarts, hpublishes, hquiet, hatomic⟩

end LiveQuery
