import LiveQuery.Schema.ColumnType
import LiveQuery.Value.Basic

/-! # Statements

What a client asks for: a new table, a new row, a change or a removal of the row under a key, the rows
of a query, once or for as long as the client listens, or the value of an expression.
-/
namespace LiveQuery

/-- The declaration of a column. -/
structure ColumnDef where
  name : String
  type : ColumnType
  primaryKey : Bool := false
  /-- The table whose primary keys the column holds. -/
  references : Option String := none
deriving DecidableEq, Repr, Inhabited

/-- The declaration as it is written. -/
def ColumnDef.text (c : ColumnDef) : String :=
  c.name ++ " " ++ c.type.text ++ (if c.primaryKey then " PRIMARY KEY" else "") ++
    (match c.references with | some t => " REFERENCES " ++ t | none => "")

/-- The declaration of a table. -/
structure TableDef where
  name : String
  columns : List ColumnDef
deriving DecidableEq, Repr, Inhabited

/-- The statement that makes the table. -/
def TableDef.text (t : TableDef) : String :=
  "CREATE TABLE " ++ t.name ++ " (" ++ ", ".intercalate (t.columns.map ColumnDef.text) ++ ")"

inductive Statement
  | create (table : TableDef)
  | insert (table : String) (row : Expr)
  | update (table : String) (assignments : List (String × Literal)) (filters : List Filter)
  | delete (table : String) (filters : List Filter)
  | select (live : Bool) (query : Query)
  | eval (e : Expr)
deriving Inhabited

end LiveQuery
