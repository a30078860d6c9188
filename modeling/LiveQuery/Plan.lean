import LiveQuery.Expr.Typing
import LiveQuery.Live.Subscription
import LiveQuery.Schema.Table

/-! # Plans

A query becomes an expression. Each of its levels reads a table through the handle on its primary key,
keeps the rows that pass the filters and belong to the row around them, and maps each one to a record
of what is selected, in which nested queries are planned in turn:

    map(filter(scan(tables.t.id), fn(row0: …): bool => …), fn(row0: …): … => …)

The plan of a live query also wraps the rows of each level in a call of `listen` or `listenWhere`,
whose number names a `Point`; points are numbered from the root down, each level before those in it.

* `Join.between` relates the rows of a nested level to the row around them.
* `Plan.select` plans a query, `Plan.live` a live one with its points.
-/
namespace LiveQuery

/-- Why a query has no plan. -/
inductive PlanFault
  | unknownTable (table : String)
  | unknownColumn (table column : String)
  | noReference (outer inner : String)
  | duplicateSelection (name : String)
  | filterType (column : String) (expected actual : Ty)
  | typing (fault : EvalFault)
deriving DecidableEq, Repr

/-- The wording of a fault. -/
def PlanFault.message : PlanFault → String
  | .unknownTable table => "no such table: " ++ table
  | .unknownColumn table column => "table " ++ table ++ " has no column " ++ column
  | .noReference outer inner => "no reference for join between " ++ outer ++ " and " ++ inner
  | .duplicateSelection name => name ++ " is selected more than once"
  | .filterType column expected actual =>
    "column " ++ column ++ " has type " ++ expected.text ++ ", but is compared to a " ++ actual.text
  | .typing fault => fault.message

/-- How the rows of a nested level relate to the row around them: `column` must hold the value of
`outer`. -/
structure Join where
  column : String
  type : ColumnType
  outer : Expr

/-- Relates the rows of `inner` to the row `outerRow` of `outer`: many rows refer to the primary key of
the outer row, one row is the one that the outer row refers to. -/
def Join.between (outer : Table) (outerRow : String) (inner : Table) (c : Cardinality) :
    Except PlanFault Join :=
  match c with
  | .many =>
    match inner.foreignKey? outer.name with
    | some r => .ok ⟨r.name, r.type, .member (.var outerRow) outer.primaryKey.name⟩
    | none => .error (.noReference outer.name inner.name)
  | .one =>
    match outer.foreignKey? inner.name with
    | some r => .ok ⟨inner.primaryKey.name, inner.primaryKey.type, .member (.var outerRow) r.name⟩
    | none => .error (.noReference outer.name inner.name)

namespace Plan

/-- The table with a name. -/
def table (schema : Schema) (name : String) : Except PlanFault Table :=
  match Keyed.find? schema name with
  | some t => .ok t
  | none => .error (.unknownTable name)

/-- The column of a table with a name. -/
def column (t : Table) (name : String) : Except PlanFault Column :=
  match t.column? name with
  | some c => .ok c
  | none => .error (.unknownColumn t.name name)

/-- The name of the row at a level. -/
def rowName (level : Nat) : String := "row" ++ toString level

/-- The test that two values of a column's type are equal. -/
def equals (type : ColumnType) (a b : Expr) : Expr := .callOf type.equality.name [a, b]

/-- The test of a filter on the row `row`. -/
def filterTest (t : Table) (row : String) (f : Filter) : Except PlanFault Expr := do
  let c ← column t f.column
  if f.value.ty ≠ c.type.ty then throw (.filterType c.name c.type.ty f.value.ty)
  return equals c.type (.member (.var row) c.name) f.value.expr

/-- The test of a join on the row `row`. -/
def joinTest (row : String) (j : Join) : Expr := equals j.type (.member (.var row) j.column) j.outer

/-- The test that all of some tests hold, from the left. -/
def allOf? : List Expr → Option Expr
  | [] => none
  | e :: rest => some (rest.foldl (fun a b => .callOf Builtin.and.name [a, b]) e)

/-- The rows of a table that pass the tests. -/
def filteredRows (t : Table) (row : String) (tests : List Expr) : Expr :=
  let index := Expr.member (.member (.var "tables") t.name) t.primaryKey.name
  let rows := Expr.callOf Builtin.scan.name [index]
  match allOf? tests with
  | some test => .callOf Builtin.filter.name [rows, .lambda [(row, t.rowType)] .bool test]
  | none => rows

/-- The column that a listener on the table of a level is narrowed by, and its value: the join's, else
the first filter's. Running the query again tests the rest. -/
def narrowing (filters : List Filter) (join : Option Join) : Option (String × Expr) :=
  match join, filters with
  | some j, _ => some (j.column, j.outer)
  | none, f :: _ => some (f.column, f.value.expr)
  | none, [] => none

/-- The call that listens at a point. -/
def listenCall (rows : Expr) (point : Nat) (value : Option Expr) : Expr :=
  let n := Expr.int (Int64.ofNat point)
  match value with
  | some v => .callOf Builtin.listenWhere.name [rows, n, v]
  | none => .callOf Builtin.listen.name [rows, n]

/-- The points so far, while planning. -/
abbrev Planner := StateT (List Point) (Except PlanFault)

/-- Where a level stands: how deep, in which types, joined to what and selected as what. -/
structure Place where
  level : Nat := 0
  types : TypeScope
  join : Option Join := none
  selection : Option String := none

/-- Adds the point of a level and listens at it. -/
def listenRows (q : Query) (t : Table) (place : Place) (rows : Expr) : Planner Expr := do
  let points ← get
  let narrowed := narrowing q.filters place.join
  set (points ++ [{
    table := t.name
    primaryKey := t.primaryKey.name
    filterColumn := narrowed.map Prod.fst
    selection := place.selection
    query := q
    isRoot := place.level = 0 : Point }])
  return listenCall rows points.length (narrowed.map Prod.snd)

mutual

/-- The expression for one level of a query and those in it. -/
def level (schema : Schema) (live : Bool) (place : Place) : Query → Planner Expr
  | .mk cardinality tableName filters selections => do
    let t ← liftM (table schema tableName)
    let row := rowName place.level
    let tests ← liftM (filters.mapM (filterTest t row))
    let rows := filteredRows t row (tests ++ (place.join.map (joinTest row)).toList)
    let rows ←
      if live then listenRows (.mk cardinality tableName filters selections) t place rows
      else pure rows
    let inner := Links.child place.types [(row, t.rowType)]
    let fields ← fieldsOf schema live t { place with types := inner } [] selections
    let body := Expr.record fields
    match body.infer inner with
    | .error f => throw (.typing f)
    | .ok result =>
      return .callOf Builtin.map.name [rows, .lambda [(row, t.rowType)] result body]

/-- The fields for selections of the rows of `t`, added to `fields`. -/
def fieldsOf (schema : Schema) (live : Bool) (t : Table) (place : Place)
    (fields : List (String × Expr)) : List Selection → Planner (List (String × Expr))
  | [] => return fields
  | .column name :: rest => do
    if Keyed.contains fields name then throw (.duplicateSelection name)
    let _ ← liftM (column t name)
    fieldsOf schema live t place
      (Keyed.insert fields name (.member (.var (rowName place.level)) name)) rest
  | .nested name query :: rest => do
    if Keyed.contains fields name then throw (.duplicateSelection name)
    let inner ← liftM (table schema query.table)
    let join ← liftM (Join.between t (rowName place.level) inner query.cardinality)
    let e ← level schema live
      { level := place.level + 1, types := place.types, join := some join, selection := some name }
      query
    fieldsOf schema live t place (Keyed.insert fields name e) rest

end

/-- The plan of a query; `types` must give the type of `tables`. -/
def select (schema : Schema) (types : TypeScope) (q : Query) : Except PlanFault Expr := do
  return (← (level schema false { types } q).run []).1

/-- The plan of a live query and its points, in the order of their numbers. -/
def live (schema : Schema) (types : TypeScope) (q : Query) :
    Except PlanFault (Expr × List Point) :=
  (level schema true { types } q).run []

end Plan

end LiveQuery
