import LiveQuery.Database.Fault
import LiveQuery.Machine.Evaluate
import LiveQuery.Schema.Catalog

/-! # Running queries and expressions

Evaluations on one snapshot of the store. Each takes fuel, gives `none` if the fuel runs out, and tells
the subscriptions that it sends.

* `Evaluation.run` evaluates an expression to data.
* `select` plans a query, checks, inlines and evaluates the plan, and arranges the result.
* `rerun` does so for the row that a listener was told of.
-/
namespace LiveQuery

/-- The outcome of an evaluation and the subscriptions it has sent, in order. -/
structure Evaluation (α : Type) where
  outcome : Except Fault α
  sent : List Subscription := []

namespace Evaluation

/-- The evaluation that fails at once. -/
def fail {α : Type} (f : Fault) : Evaluation α := { outcome := .error f }

/-- Changes the outcome. -/
def map {α β : Type} (f : α → Except Fault β) (e : Evaluation α) : Evaluation β :=
  { outcome := e.outcome.bind f, sent := e.sent }

/-- Evaluates an expression to data on a machine. -/
def run (fuel : Nat) (m : Machine) (e : Expr) : Option (Evaluation Json) :=
  let act : Eval Json := do Eval.toJson fuel (← Eval.eval fuel (← Eval.load e))
  match act.run.run m with
  | none => none
  | some (r, m) => some { outcome := r.mapError .eval, sent := m.sent.toList }

end Evaluation

/-! ## Arranging a result -/

/-- The only row of a nested result that is to have one, else null. -/
def firstOrNull : Json → Json
  | .arr (row :: _) => row
  | _ => .null

/-- The first row of a result. -/
def firstRow? : Json → Option Json
  | .arr (row :: _) => some row
  | _ => none

/-- Changes the field of an object, if it is one that has it. -/
def updateField (name : String) (f : Json → Json) : Json → Json
  | .obj fields =>
    .obj (fields.map fun (k, v) => if k = name then (k, f v) else (k, v))
  | v => v

/-- Changes each row of a result. -/
def updateRows (f : Json → Json) : Json → Json
  | .arr rows => .arr (rows.map f)
  | v => v

mutual

/-- The rows of a query with the results of its nested queries arranged. -/
def Query.arrange : Query → Json → Json
  | .mk _ _ _ selections => updateRows (arrangeRow selections)

/-- A row with the results of nested queries arranged: the list for many, the row or null for one. -/
def arrangeRow : List Selection → Json → Json
  | [], row => row
  | .column _ :: rest, row => arrangeRow rest row
  | .nested name q :: rest, row =>
    arrangeRow rest (updateField name
      (fun v => match q.cardinality with
        | .many => q.arrange v
        | .one => firstOrNull (q.arrange v)) row)

end

/-! ## Queries -/

/-- Who runs a live query, where its result belongs, and whether it resumes. -/
structure Anchor where
  subscriber : Subscriber
  base : Path := Path.root
  resumed : Bool := false
deriving Inhabited

/-- The plan of a query and, for a live one, its watch. -/
def planFor (schema : Schema) (q : Query) : Option Anchor →
    Except PlanFault (Expr × Option Watch)
  | none => do return (← Plan.select schema (Catalog.types schema) q, none)
  | some a => do
    let (plan, points) ← Plan.live schema (Catalog.types schema) q
    return (plan, some { subscriber := a.subscriber, points, base := a.base, resumed := a.resumed })

/-- A machine for a plan on a snapshot. -/
def machineFor (scope : Scope) : Option Watch → Machine
  | none => Machine.start scope
  | some w => Machine.startLive scope w

/-- The rows of a query on a snapshot, arranged. -/
def select (fuel : Nat) (schema : Schema) (snapshot : Store) (q : Query) (anchor : Option Anchor) :
    Option (Evaluation Json) :=
  let scope := Catalog.scope schema snapshot
  match planFor schema q anchor with
  | .error f => some (.fail (.plan f))
  | .ok (plan, watch) =>
    match plan.infer (Catalog.types schema) with
    | .error f => some (.fail (.during "checking the query plan" (.eval f)))
    | .ok _ =>
      (Evaluation.run fuel (machineFor scope watch) (plan.inline scope #[])).map
        (·.map fun rows => .ok (q.arrange rows))

/-- The answer to a query from its rows: all of them, or the first one. -/
def Query.answer (q : Query) (rows : Json) : Except Fault Json :=
  match q.cardinality with
  | .many => .ok rows
  | .one =>
    match firstRow? rows with
    | some row => .ok row
    | none => .error (.statement (.noRows q.table))

/-- The rows of a listener's query for the row under a key. -/
def rerun (fuel : Nat) (schema : Schema) (snapshot : Store) (l : Listener) (q : Query)
    (key : Literal) : Option (Evaluation Json) :=
  match Keyed.find? schema q.table with
  | none => some (.fail (.statement (.unknownTable q.table)))
  | some t =>
    select fuel schema snapshot (q.restrict t.primaryKey.name key)
      (some { subscriber := l.subscriber, base := l.path, resumed := true })

/-- The value of an expression as data. -/
def evaluate (fuel : Nat) (schema : Schema) (snapshot : Store) (e : Expr) :
    Option (Evaluation Json) :=
  match e.infer (Catalog.types schema) with
  | .error f => some (.fail (.eval f))
  | .ok _ => Evaluation.run fuel (Machine.start (Catalog.scope schema snapshot)) e

end LiveQuery
