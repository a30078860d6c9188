import LiveQuery.Live.Path
import LiveQuery.Query
import LiveQuery.Text.Utf8

/-! # Subscriptions

What a live query asks to be told about.

* `Subscriber` is the connection and the channel that a live query runs on.
* `Listener` says who is told, where in the result, and which query to run again.
* `Subscription` puts a listener on a table, perhaps only for rows with a given value in a column, or
  on the row under a key.
* `Point` is a place in the plan of a live query where subscriptions are made.
-/
namespace LiveQuery

/-- The connection and the channel that a statement was run on. -/
structure Subscriber where
  connection : Nat
  channel : Nat
deriving DecidableEq, Repr, Inhabited

/-- Who is told of a write, at which place in the result, and the query to run again for a new row;
listeners on single rows have none. -/
structure Listener where
  subscriber : Subscriber
  query : Option Query
  path : Path
deriving Inhabited

/-- A place in the plan of a live query where rows of `table` are read. -/
structure Point where
  table : String
  primaryKey : String
  /-- The column by whose value a listener on the table is narrowed. -/
  filterColumn : Option String
  /-- The selection that the rows are shown under; the root has none. -/
  selection : Option String
  /-- The query to run again for a new row. -/
  query : Query
  isRoot : Bool
deriving Inhabited

inductive Subscription
  /-- Tells of new rows, narrowed to a column and the bytes of its value if a filter is given. -/
  | table (name : String) (filter : Option (String × Bytes)) (listener : Listener)
  /-- Tells of changes of the row under a key. -/
  | record (name : String) (key : Bytes) (listener : Listener)

/-- The table that a subscription is on. -/
def Subscription.tableName : Subscription → String
  | .table name .. | .record name .. => name

/-- What a live evaluation knows: who runs it, the points of its plan, where its result belongs, and
whether it resumes under a listener on the root's table that is there already. -/
structure Watch where
  subscriber : Subscriber
  points : List Point
  base : Path
  resumed : Bool
deriving Inhabited

end LiveQuery
