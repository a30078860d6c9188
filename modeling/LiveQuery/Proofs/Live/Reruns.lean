import LiveQuery.Database
import LiveQuery.Proofs.Machine.Fuel
import LiveQuery.Proofs.Query.Arrange

/-! # Queries that are run live

What a live query and a query that is run again come to, in terms of the rows that they mean (`Evaluation.live_eq`,
`rerun_eq`). A query that is run again yields its rows under one key and subscribes to them (`Query.renewed`), or
fails without a subscription if it has no plan.

The points of a plan are as many as the levels of the query (`Plan.length_of_level`), and their numbers are whole
numbers of 64 bits, so a query may have `Plan.maxPoints` levels.
-/
namespace LiveQuery

/-! ## Levels -/

mutual

/-- The number of levels of a query, its own and those of its nested queries. -/
def Query.levels : Query → Nat
  | .mk _ _ _ selections => 1 + selectionLevels selections

def selectionLevels : List Selection → Nat
  | [] => 0
  | .column _ :: rest => selectionLevels rest
  | .nested _ q :: rest => q.levels + selectionLevels rest

end

@[simp] theorem Query.levels_restrict (q : Query) (column : String) (value : Literal) :
    (q.restrict column value).levels = q.levels := by
  obtain ⟨c, table, filters, selections⟩ := q
  rfl

namespace Plan

variable {schema : Schema}

mutual

/-- A live plan has a point for each level. -/
theorem length_of_level : (q : Query) → {place : Place} → {points points' : List Point} → {e : Expr} →
    (level schema true place q).run points = .ok (e, points') → points'.length = points.length + q.levels
  | .mk c name filters selections, place, points, points', e, h => by
    obtain ⟨t, tests, fields, result, -, -, hfields, -, -⟩ := level_ok h
    have hlength := length_of_fieldsOf selections hfields
    rw [hlength, List.length_append, if_pos rfl, List.length_singleton, Query.levels, Nat.add_assoc]

theorem length_of_fieldsOf : (selections : List Selection) → {t : Table} → {place : Place} →
    {points points' : List Point} → {fields final : List (String × Expr)} →
    (fieldsOf schema true t place fields selections).run points = .ok (final, points') →
    points'.length = points.length + selectionLevels selections
  | [], _, _, points, points', fields, final, h => by
    cases h
    rfl
  | .column name :: rest, t, place, points, points', fields, final, h => by
    obtain ⟨-, -, hrest⟩ := fieldsOf_column_ok h
    exact length_of_fieldsOf rest hrest
  | .nested name q :: rest, t, place, points, points', fields, final, h => by
    obtain ⟨-, inner, join, e, points₁, -, -, he, hrest⟩ := fieldsOf_nested_ok h
    rw [length_of_fieldsOf rest hrest, length_of_level q he, selectionLevels, Nat.add_assoc]

end

end Plan

/-! ## Evaluations -/

section Live

variable {schema : Schema} {store : Store} {q : Query} {a : Anchor} {fuel : Nat} {r : Evaluation Json}

/-- A query that has no plan fails and sends nothing. -/
theorem Evaluation.live_of_error {f : PlanFault} (hplan : Plan.live schema (Catalog.types schema) q = .error f)
    (hr : select fuel schema store q (some a) = some r) : r = .fail (.plan f) := by
  have hfor : planFor schema q (some a) = .error f := by
    rw [planFor, hplan]
    rfl
  simp only [select, hfor] at hr
  exact (Option.some.inj hr).symm

/-- A live query that has a plan yields its rows and sends its subscriptions, whatever its fuel. -/
theorem Evaluation.live_eq (hs : schema.Valid) (hstore : store.Ordered) (hrows : RowsTyped schema store)
    (hlevels : q.levels ≤ Plan.maxPoints) {plan : Expr × List Point}
    (hplan : Plan.live schema (Catalog.types schema) q = .ok plan)
    (hr : select fuel schema store q (some a) = some r) :
    r = { outcome := .ok (.arr ((q.nodes schema store none).map Node.json)), sent := q.sent schema store a } := by
  obtain ⟨e, points⟩ := plan
  have hpoints : points.length ≤ Plan.maxPoints := by
    have hlength : points.length = 0 + q.levels := Plan.length_of_level q hplan
    omega
  obtain ⟨n, hn⟩ := select_live_eq hs hstore hrows a hplan hpoints
  rw [select_unique hr (hn n (Nat.le_refl n)), Query.arrange_rawRows (Plan.distinct_of_level q hplan)]

end Live

/-! ## Queries that are run again -/

/-- The rows of a query under a key, as they are told to its listener; a query without a plan fails. -/
def Query.renewed (schema : Schema) (store : Store) (q : Query) (key : Literal) : Except Fault (List Node) :=
  match Keyed.find? schema q.table with
  | none => .error (.statement (.unknownTable q.table))
  | some t =>
    match Plan.live schema (Catalog.types schema) (q.restrict t.primaryKey.name key) with
    | .error f => .error (.plan f)
    | .ok _ => .ok ((q.restrict t.primaryKey.name key).nodes schema store none)

/-- The rows that are told are those of the query for one key. -/
theorem Query.renewed_ok {schema : Schema} {store : Store} {q : Query} {key : Literal} {rows : List Node}
    (h : q.renewed schema store key = .ok rows) : ∃ t plan, Keyed.find? schema q.table = some t ∧
      Plan.live schema (Catalog.types schema) (q.restrict t.primaryKey.name key) = .ok plan ∧
        rows = (q.restrict t.primaryKey.name key).nodes schema store none := by
  unfold renewed at h
  split at h
  next => cases h
  next t ht =>
    split at h
    next => cases h
    next plan hplan => exact ⟨t, plan, ht, hplan, (Except.ok.inj h).symm⟩

namespace Listener

/-- The message with a row of a listener's query. -/
def update (l : Listener) (n : Node) : Message := .tableUpdate l.subscriber.channel l.path n.json

/-- The subscriptions that a listener sends for a key. -/
def sent (schema : Schema) (store : Store) (l : Listener) (key : Literal) : List Subscription :=
  match l.query with
  | none => []
  | some q =>
    match q.renewed schema store key with
    | .ok rows => rows.flatMap (Node.subscriptions l.subscriber q.table l.path)
    | .error _ => []

/-- The messages that a listener's subscriber is to get for a key. -/
def messages (schema : Schema) (store : Store) (l : Listener) (key : Literal) : List Message :=
  match l.query with
  | none => []
  | some q =>
    match q.renewed schema store key with
    | .ok rows => rows.map l.update
    | .error f => [.error l.subscriber.channel f.message]

end Listener

/-- What running a query again comes to. -/
theorem rerun_eq {schema : Schema} {store : Store} {l : Listener} {q : Query} {key : Literal} {fuel : Nat}
    {r : Evaluation Json} (hs : schema.Valid) (hstore : store.Ordered) (hrows : RowsTyped schema store)
    (hq : l.query = some q) (hlevels : q.levels ≤ Plan.maxPoints)
    (hr : rerun fuel schema store l q key = some r) : r.sent = l.sent schema store key ∧
      updateActions l r.outcome = (l.messages schema store key).map (.deliver l.subscriber ·) := by
  simp only [Listener.sent, Listener.messages, hq]
  unfold rerun at hr
  cases ht : Keyed.find? schema q.table with
  | none =>
    have hrenewed : q.renewed schema store key = .error (.statement (.unknownTable q.table)) := by
      rw [Query.renewed, ht]
    rw [ht] at hr
    cases hr
    rw [hrenewed]
    exact ⟨rfl, rfl⟩
  | some t =>
    rw [ht] at hr
    dsimp only at hr
    cases hplan : Plan.live schema (Catalog.types schema) (q.restrict t.primaryKey.name key) with
    | error f =>
      have hrenewed : q.renewed schema store key = .error (.plan f) := by
        simp only [Query.renewed, ht, hplan]
      rw [Evaluation.live_of_error hplan hr, hrenewed]
      exact ⟨rfl, rfl⟩
    | ok plan =>
      have hrenewed : q.renewed schema store key =
          .ok ((q.restrict t.primaryKey.name key).nodes schema store none) := by
        simp only [Query.renewed, ht, hplan]
      have hlevels' : (q.restrict t.primaryKey.name key).levels ≤ Plan.maxPoints := by
        rwa [Query.levels_restrict]
      rw [Evaluation.live_eq hs hstore hrows hlevels' hplan hr, hrenewed]
      refine ⟨rfl, ?_⟩
      simp only [updateActions, List.map_map]
      rfl

end LiveQuery
