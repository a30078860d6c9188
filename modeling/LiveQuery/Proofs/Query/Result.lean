import LiveQuery.Database.Fault
import LiveQuery.Live.Subscription
import LiveQuery.Proofs.Query.Rows

/-! # Results of queries

What a query means, without its plan: a tree of rows. The rows of a level are those of its table, in key
order, that meet the filters and belong to the row around them.

* `Query.nodes` is the tree, `Query.link` the condition that ties the rows of a nested query to a row.
* `Query.result` is the answer: all rows as data, or the first one.
* `Node.subscriptions` are what a live query subscribes to for a row and all that is in it.
-/
namespace LiveQuery

mutual

/-- A row of a result, known by its primary key, and what is shown of it by name. -/
inductive Node
  | mk (key : Literal) (fields : List (String × Field))

inductive Field
  | column (value : Literal)
  /-- The rows of a nested query that meet `link`. -/
  | nested (query : Query) (link : Option Filter) (rows : List Node)

end

instance : Inhabited Node := ⟨.mk default []⟩

/-! ## The tree -/

/-- The condition that ties the rows of a nested query to a row of `outer`: many rows refer to its primary
key, one row is the one that it refers to. -/
def Query.link (schema : Schema) (outer : Table) (r : Row) (q : Query) : Option Filter := do
  let inner ← Keyed.find? schema q.table
  match q.cardinality with
  | .many =>
    let c ← inner.foreignKey? outer.name
    return ⟨c.name, r.key outer⟩
  | .one =>
    let c ← outer.foreignKey? inner.name
    return ⟨inner.primaryKey.name, r.get c.name⟩

mutual

/-- The rows of a query that meet `link`. -/
def Query.nodes (schema : Schema) (store : Store) (link : Option Filter) : Query → List Node
  | .mk _ table filters selections =>
    match Keyed.find? schema table with
    | none => []
    | some t =>
      ((store.rows t.name).filter fun r => (filters ++ link.toList).all r.meets).map fun r =>
        .mk (r.key t) (Keyed.ofList (selectedFields schema store t r selections))

/-- What is shown of the row `r` of `t`. -/
def selectedFields (schema : Schema) (store : Store) (t : Table) (r : Row) :
    List Selection → List (String × Field)
  | [] => []
  | .column name :: rest => (name, .column (r.get name)) :: selectedFields schema store t r rest
  | .nested name q :: rest =>
    (name, .nested q (q.link schema t r) (q.nodes schema store (q.link schema t r))) ::
      selectedFields schema store t r rest

end

/-! ## Data -/

/-- The list for many rows, the row or null for one. -/
def Cardinality.shape : Cardinality → List Json → Json
  | .many, rows => .arr rows
  | .one, rows => rows.head?.getD .null

mutual

/-- A row as data; the rows of a nested query are put together by `shape`. -/
def Node.jsonWith (shape : Cardinality → List Json → Json) : Node → Json
  | .mk _ fields => .obj (fieldJsons shape fields)

def Field.jsonWith (shape : Cardinality → List Json → Json) : Field → Json
  | .column v => v.json
  | .nested q _ rows => shape q.cardinality (nodeJsons shape rows)

def fieldJsons (shape : Cardinality → List Json → Json) : List (String × Field) → List (String × Json)
  | [] => []
  | (name, f) :: rest => (name, f.jsonWith shape) :: fieldJsons shape rest

def nodeJsons (shape : Cardinality → List Json → Json) : List Node → List Json
  | [] => []
  | n :: rest => n.jsonWith shape :: nodeJsons shape rest

end

/-- A row as it is shown. -/
def Node.json (n : Node) : Json := n.jsonWith Cardinality.shape

/-- The answer to a query: all rows, or the first one. -/
def Query.result (schema : Schema) (store : Store) (q : Query) : Except Fault Json :=
  match q.cardinality, q.nodes schema store none with
  | .many, rows => .ok (.arr (rows.map Node.json))
  | .one, row :: _ => .ok row.json
  | .one, [] => .error (.statement (.noRows q.table))

/-! ## Subscriptions -/

/-- The subscription to the table of a query whose rows belong at `path`, narrowed by the condition that ties
its rows, else by its first filter. -/
def Query.subscription (s : Subscriber) (link : Option Filter) (path : Path) (q : Query) : Subscription :=
  .table q.table ((link.or q.filters.head?).map fun f => (f.column, f.value.keyBytes)) ⟨s, some q, path⟩

/-- The subscription that is made when a field of the row at `path` is evaluated. -/
def Field.opened (s : Subscriber) (path : Path) (name : String) : Field → List Subscription
  | .column _ => []
  | .nested q link _ => [q.subscription s link (path.selection name)]

mutual

/-- What is subscribed to for a row of `table` among the rows at `path`: the row, the tables of its nested
queries, and what is subscribed to for their rows. -/
def Node.subscriptions (s : Subscriber) (table : String) (path : Path) : Node → List Subscription
  | .mk key fields =>
    .record table key.keyBytes ⟨s, none, path.row key.json⟩ ::
      (fields.flatMap (fun f => f.2.opened s (path.row key.json) f.1) ++
        fieldSubscriptions s (path.row key.json) fields)

/-- What is subscribed to when a field of the row at `path` is turned into data. -/
def Field.subscriptions (s : Subscriber) (path : Path) (name : String) : Field → List Subscription
  | .column _ => []
  | .nested q _ rows => nodeSubscriptions s q.table (path.selection name) rows

def fieldSubscriptions (s : Subscriber) (path : Path) : List (String × Field) → List Subscription
  | [] => []
  | (name, f) :: rest => f.subscriptions s path name ++ fieldSubscriptions s path rest

def nodeSubscriptions (s : Subscriber) (table : String) (path : Path) : List Node → List Subscription
  | [] => []
  | n :: rest => n.subscriptions s table path ++ nodeSubscriptions s table path rest

end

/-! ## Lists of fields and rows -/

theorem fieldJsons_eq (shape : Cardinality → List Json → Json) (fields : List (String × Field)) :
    fieldJsons shape fields = Keyed.mapValues (Field.jsonWith shape) fields := by
  induction fields with
  | nil => rfl
  | cons f fields ih => rw [fieldJsons, ih]; rfl

theorem nodeJsons_eq (shape : Cardinality → List Json → Json) (rows : List Node) :
    nodeJsons shape rows = rows.map (Node.jsonWith shape) := by
  induction rows with
  | nil => rfl
  | cons n rows ih => rw [nodeJsons, ih]; rfl

theorem fieldSubscriptions_eq (s : Subscriber) (path : Path) (fields : List (String × Field)) :
    fieldSubscriptions s path fields = fields.flatMap fun f => f.2.subscriptions s path f.1 := by
  induction fields with
  | nil => rfl
  | cons f fields ih => rw [fieldSubscriptions, ih]; rfl

theorem nodeSubscriptions_eq (s : Subscriber) (table : String) (path : Path) (rows : List Node) :
    nodeSubscriptions s table path rows = rows.flatMap (Node.subscriptions s table path) := by
  induction rows with
  | nil => rfl
  | cons n rows ih => rw [nodeSubscriptions, ih]; rfl

end LiveQuery
