import LiveQuery.Proofs.Database.Reachable
import LiveQuery.Proofs.Live.Scattered
import LiveQuery.Proofs.Plan.Alike

/-! # Live queries and queries that are run once

A live query reads its rows through iterators that subscribe to what they give out. That does not show in its answer:
it has the result that the query has when it is run once on the same database, or fails for the same reason
(`Reachable.live_transparent`), and evaluating its plan meets no typing fault either (`Reachable.live_meets`).

What it subscribes to are the lists of rows of its result, each narrowed to the condition that ties the list to the row
around it, and the rows in them, each at its own path (`Reachable.subscriptions_sent`). These subscriptions are what its
first step leaves to be posted, and a re-run what belongs to the rows that it reads (`Reachable.begin_live`,
`Reachable.advance_rerun`).
-/
namespace LiveQuery

/-! ## Answers -/

namespace Database.InOrder

variable {s : Database} {q : Query}

/-- A live query that has a plan sends its subscriptions and is then answered by its result. -/
theorem answers_live (hs : s.InOrder) (hrows : RowsTyped s.schema s.store) (hlevels : q.levels ≤ Plan.maxPoints)
    {plan : Expr × List Point} (hplan : Plan.live s.schema (Catalog.types s.schema) q = .ok plan) (u : Subscriber) :
    ∃ n, ∀ fuel, n ≤ fuel → s.begin fuel (.channel u) (.select true q) =
      some (s, .actions (subscribeActions (q.sent s.schema s.store { subscriber := u }) ++
        (Origin.channel u).finish (q.result s.schema s.store))) := by
  obtain ⟨e, points⟩ := plan
  have hpoints : points.length ≤ Plan.maxPoints := by
    have hlength : points.length = 0 + q.levels := Plan.length_of_level q hplan
    omega
  obtain ⟨n, hselect⟩ := select_live_eq hs.schema hs.store hrows { subscriber := u } hplan hpoints
  refine ⟨n, fun fuel hfuel => ?_⟩
  simp only [Database.begin, anchorFor, Origin.subscriber?, hselect fuel hfuel, Option.map_some,
    Query.arrange_rawRows (Plan.distinct_of_level q hplan), Except.bind, Query.answer_rows]

end Database.InOrder

/-- A live query ends as the query that is run once on the same database: with the same result, or for the same reason
without one. Before that it sends subscriptions. -/
theorem Reachable.live_transparent {s : Database} (h : Reachable s) (rows : RowsTyped s.schema s.store) {q : Query}
    (levels : q.levels ≤ Plan.maxPoints) (u : Subscriber) : ∃ (r : Except Fault Json) (n : Nat), ∀ fuel, n ≤ fuel →
      (∀ o, s.begin fuel o (.select false q) = some (s, .actions (o.finish r))) ∧
      ∃ sent, s.begin fuel (.channel u) (.select true q) =
        some (s, .actions (subscribeActions sent ++ (Origin.channel u).finish r)) := by
  have hs := h.inOrder
  rcases Plan.live_alike hs.schema q with ⟨f, hlive, honce⟩ | ⟨plan, e, hlive, honce⟩
  · refine ⟨.error (.plan f), 0, fun fuel _ => ⟨fun o => ?_, [], ?_⟩⟩
    · simp only [Database.begin, anchorFor, select, planFor, honce]
      rfl
    · simp only [Database.begin, anchorFor, Origin.subscriber?, select, planFor, hlive]
      rfl
  · obtain ⟨n, hn⟩ := hs.answers rows honce
    obtain ⟨n', hn'⟩ := hs.answers_live rows levels hlive u
    refine ⟨q.result s.schema s.store, max n n', fun fuel hfuel => ⟨hn fuel (by omega), _, hn' fuel (by omega)⟩⟩

namespace Reachable.Sample

/-- The sample database, on which the sample query sends a subscription for its list, and for each of two users one for
the row and one for the posts, of which one has a row and an author. -/
theorem exists_sent : ∃ s, Run (groundInsert · = true) (·.store.Fits) s ∧ ∃ data sent,
    select 30 s.schema s.store userPosts (some { subscriber := ⟨1, 1⟩ }) = some { outcome := .ok data, sent } ∧
      sent.length = 8 := by
  have hplay : (Database.play groundInsert (·.store.fits) 30 script {}).any (fun s =>
      (select 30 s.schema s.store userPosts (some { subscriber := ⟨1, 1⟩ })).any fun r =>
        r.outcome.toOption.isSome && decide (r.sent.length = 8)) = true := by
    decide +kernel
  obtain ⟨s, hrun, htest⟩ := Run.exists_of_play hplay
  obtain ⟨⟨outcome, sent⟩, hselect, htest⟩ := (Option.any_eq_true _ _).mp htest
  obtain ⟨hok, hlength⟩ := Bool.and_eq_true_iff.mp htest
  cases outcome with
  | error f => cases hok
  | ok data => exact ⟨s, hrun, data, sent, hselect, of_decide_eq_true hlength⟩

end Reachable.Sample

open Reachable.Sample in
/-- Users with their posts, and with each post its author. -/
theorem Reachable.live_transparent_userPosts : ∃ s, Reachable s ∧ RowsTyped s.schema s.store ∧
    userPosts.levels ≤ Plan.maxPoints ∧ ∃ (r : Except Fault Json) (n : Nat), ∀ fuel, n ≤ fuel →
      (∀ o, s.begin fuel o (.select false userPosts) = some (s, .actions (o.finish r))) ∧
      ∃ sent, s.begin fuel (.channel ⟨1, 1⟩) (.select true userPosts) =
        some (s, .actions (subscribeActions sent ++ (Origin.channel ⟨1, 1⟩).finish r)) := by
  obtain ⟨s, hrun, -⟩ := exists_sent
  have hrows : RowsTyped s.schema s.store := (Database.Typed.of_run hrun).rows
  have hlevels : userPosts.levels ≤ Plan.maxPoints := by decide
  exact ⟨s, of_run hrun, hrows, hlevels, live_transparent (of_run hrun) hrows hlevels ⟨1, 1⟩⟩

/-! ## Faults -/

/-- On a live machine the live plan of a query does not go wrong either, whoever watches: evaluated and shown as data it
meets no typing fault, and comes to the rows that the query means. -/
theorem Reachable.live_meets {s : Database} (h : Reachable s) (rows : RowsTyped s.schema s.store) {q : Query}
    (levels : q.levels ≤ Plan.maxPoints) {plan : Expr} {w : Watch}
    (planned : Plan.live s.schema (Catalog.types s.schema) q = .ok (plan, w.points)) {fuel : Nat}
    {outcome : Except EvalFault Json} {m : Machine}
    (run :
      (do Eval.toJson fuel (← Eval.eval fuel (← Eval.load (plan.inline (Catalog.scope s.schema s.store) #[])))).exec
        (Machine.startLive (Catalog.scope s.schema s.store) w) = some (outcome, m)) :
    Meets (· = q.rawRows s.schema s.store) outcome := by
  have hs := h.inOrder
  have hpoints : w.points.length ≤ Plan.maxPoints := by
    have hlength : w.points.length = 0 + q.levels := Plan.length_of_level q planned
    omega
  obtain ⟨n, hends⟩ := Plan.run_live hs.schema hs.store rows planned hpoints
  obtain ⟨m', hrows⟩ := Evaluation.exec_of_run (hends (max n fuel) (Nat.le_max_left ..))
  cases (Eval.moreFuel (Nat.le_max_right n fuel) _ _ _ run).symm.trans hrows
  exact rfl

/-! ## Subscriptions -/

mutual

/-- Each list of rows in the row, at any depth, is tied to the row around it. -/
def Node.Tied : Node → Prop
  | .mk _ fields => fieldsTied fields

def Field.Tied : Field → Prop
  | .column _ => True
  | .nested _ link rows => link.isSome = true ∧ nodesTied rows

def fieldsTied : List (String × Field) → Prop
  | [] => True
  | (_, f) :: rest => f.Tied ∧ fieldsTied rest

def nodesTied : List Node → Prop
  | [] => True
  | n :: rest => n.Tied ∧ nodesTied rest

end

theorem fieldsTied_iff {fields : List (String × Field)} : fieldsTied fields ↔ ∀ f ∈ fields, f.2.Tied := by
  induction fields with
  | nil => simp [fieldsTied]
  | cons f fields ih => rw [fieldsTied, ih, List.forall_mem_cons]

theorem nodesTied_iff {rows : List Node} : nodesTied rows ↔ ∀ n ∈ rows, n.Tied := by
  induction rows with
  | nil => simp [nodesTied]
  | cons n rows ih => rw [nodesTied, ih, List.forall_mem_cons]

section Tied

variable {schema : Schema} {store : Store}

/-- Between related tables there is a condition that ties the rows. -/
theorem Query.isSome_link {t inner : Table} {q : Query} (r : Row) (hinner : Keyed.find? schema q.table = some inner)
    (h : t.Relates inner q.cardinality) : (q.link schema t r).isSome = true := by
  cases hc : q.cardinality with
  | many =>
    rw [hc] at h
    obtain ⟨c, hc', -⟩ := h
    simp [Query.link, hinner, hc, hc']
  | one =>
    rw [hc] at h
    obtain ⟨c, hc', -⟩ := h
    simp [Query.link, hinner, hc, hc']

mutual

theorem nodes_tied : (q : Query) → q.Planned schema → (link : Option Filter) →
    nodesTied (q.nodes schema store link)
  | .mk c name filters selections, ⟨t, ht, _, _, hselections⟩, link => by
    rw [Query.nodes, ht]
    refine nodesTied_iff.mpr fun n hn => ?_
    obtain ⟨r, -, rfl⟩ := List.mem_map.mp hn
    refine fieldsTied_iff.mpr fun f hf => ?_
    exact selectedFields_tied selections hselections r f (Keyed.mem_of_mem_ofList hf)

theorem selectedFields_tied : (selections : List Selection) → {t : Table} → selectionsPlanned schema t selections →
    (r : Row) → ∀ f ∈ selectedFields schema store t r selections, f.2.Tied
  | [], _, _, _, f, hf => absurd hf List.not_mem_nil
  | .column _ :: rest, _, ⟨_, hrest⟩, r, f, hf => by
    rcases List.mem_cons.mp hf with rfl | hf
    · trivial
    · exact selectedFields_tied rest hrest r f hf
  | .nested _ q :: rest, _, ⟨⟨_, hinner, hrelates⟩, hq, hrest⟩, r, f, hf => by
    rcases List.mem_cons.mp hf with rfl | hf
    · exact ⟨Query.isSome_link r hinner hrelates, nodes_tied q hq _⟩
    · exact selectedFields_tied rest hrest r f hf

end

end Tied

/-- A live query that succeeds sends, in this order: unless it resumes, a subscription to its table at the path of its
result, narrowed by its first filter; and for each row what is subscribed to for it and all that is in it. No site of
the result gets two, as long as rows are stored under their keys. -/
theorem Reachable.subscriptions_sent {s : Database} (h : Reachable s) (rows : RowsTyped s.schema s.store) {q : Query}
    (levels : q.levels ≤ Plan.maxPoints) {fuel : Nat} {a : Anchor} {data : Json} {sent : List Subscription}
    (succeeds : select fuel s.schema s.store q (some a) = some { outcome := .ok data, sent }) :
    data = .arr ((q.nodes s.schema s.store none).map Node.json) ∧ (∀ n ∈ q.nodes s.schema s.store none, n.Tied) ∧
      sent = (if a.resumed then [] else [.table q.table (q.filters.head?.map fun f => (f.column, f.value.keyBytes))
          ⟨a.subscriber, some q, a.base⟩]) ++
        (q.nodes s.schema s.store none).flatMap (Node.subscriptions a.subscriber q.table a.base) ∧
      (RowsKeyed s.schema s.store → (sent.map Subscription.site).Nodup) := by
  obtain ⟨hschema, hstore⟩ := h.inOrder
  cases hplan : Plan.live s.schema (Catalog.types s.schema) q with
  | error f =>
    cases Evaluation.live_of_error hplan succeeds
  | ok plan =>
    cases Evaluation.live_eq hschema hstore rows levels hplan succeeds
    have hplanned : q.Planned s.schema := (Plan.live_ok_iff hschema).mp ⟨plan, hplan⟩
    refine ⟨rfl, nodesTied_iff.mp (nodes_tied q hplanned none), rfl, fun hkeys => ?_⟩
    have hscattered := Query.sent_scattered (u := a.subscriber) hschema hstore hkeys levels a.base
    have hsub : (q.sent s.schema s.store a).Sublist
        (q.sent s.schema s.store { subscriber := a.subscriber, base := a.base }) := by
      rw [Query.sent, Query.sent]
      refine List.Sublist.append ?_ (List.Sublist.refl _)
      split
      next => exact List.nil_sublist _
      next => exact List.Sublist.refl _
    exact (hsub.map Subscription.site).nodup hscattered.apart

open Reachable.Sample in
theorem Reachable.subscriptions_sent_userPosts : ∃ s fuel data sent, Reachable s ∧ RowsTyped s.schema s.store ∧
    userPosts.levels ≤ Plan.maxPoints ∧
    select fuel s.schema s.store userPosts (some { subscriber := ⟨1, 1⟩ }) = some { outcome := .ok data, sent } ∧
    sent.length = 8 ∧ (sent.map Subscription.site).Nodup := by
  obtain ⟨s, hrun, data, sent, hselect, hlength⟩ := exists_sent
  have hrows : RowsTyped s.schema s.store := (Database.Typed.of_run hrun).rows
  have hlevels : userPosts.levels ≤ Plan.maxPoints := by decide
  obtain ⟨-, -, -, hnodup⟩ := subscriptions_sent (of_run hrun) hrows hlevels hselect
  exact ⟨s, 30, data, sent, of_run hrun, hrows, hlevels, hselect, hlength, hnodup (Run.rowsKeyed hrun)⟩

/-! ## Posts -/

/-- The first step of a live query that has a plan leaves to be done, in this order: a post with the subscription to the
table of its result; for each row, a post with each subscription for it and all that is in it; and the answer. -/
theorem Reachable.begin_live {s t : Database} (h : Reachable s) (rows : RowsTyped s.schema s.store) {q : Query}
    (levels : q.levels ≤ Plan.maxPoints) {plan : Expr × List Point}
    (planned : Plan.live s.schema (Catalog.types s.schema) q = .ok plan) {u : Subscriber} {fuel : Nat} {task : Task}
    (begins : s.begin fuel (.channel u) (.select true q) = some (t, task)) :
    t = s ∧ task = .actions
      (.post q.table (.subscribe (.table q.table (q.filters.head?.map fun f => (f.column, f.value.keyBytes))
          ⟨u, some q, Path.root⟩)) ::
        ((q.nodes s.schema s.store none).flatMap (Node.subscriptions u q.table Path.root)).map
          (fun x => .post x.tableName (.subscribe x)) ++
        (Origin.channel u).finish (q.result s.schema s.store)) := by
  obtain ⟨hschema, hstore⟩ := h.inOrder
  simp only [Database.begin, anchorFor, Origin.subscriber?] at begins
  obtain ⟨r, hr, begins⟩ := Option.map_eq_some_iff.mp begins
  cases begins
  rw [Evaluation.live_eq hschema hstore rows levels planned hr]
  exact ⟨rfl, congrArg (fun r => Task.actions (_ ++ Origin.finish _ r)) (Query.answer_rows ..)⟩

/-- The step that runs a query again leaves to be done: a post with each subscription for the rows under the key and all
that is in them, none with one to the table; and a message with each of the rows. -/
theorem Reachable.advance_rerun {s t : Database} (h : Reachable s) (rows : RowsTyped s.schema s.store) {l : Listener}
    {q : Query} (query : l.query = some q) (levels : q.levels ≤ Plan.maxPoints) {key : Literal} {fuel : Nat}
    {order : Traversal} {next : Option Task} (advances : s.advance fuel order (.rerun l key) = some (t, next)) :
    t = s ∧ next = some (.actions
      ((l.sent s.schema s.store key).map (fun x => .post x.tableName (.subscribe x)) ++
        (l.messages s.schema s.store key).map (.deliver l.subscriber ·))) := by
  obtain ⟨hschema, hstore⟩ := h.inOrder
  simp only [Database.advance, query] at advances
  obtain ⟨r, hr, advances⟩ := Option.map_eq_some_iff.mp advances
  cases advances
  obtain ⟨hsent, hmessages⟩ := rerun_eq hschema hstore rows query levels hr
  rw [hsent, hmessages]
  exact ⟨rfl, rfl⟩

end LiveQuery
