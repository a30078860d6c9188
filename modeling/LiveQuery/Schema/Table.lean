import LiveQuery.Statement

/-! # Tables

What is known of a table: its name, its columns in the order they were declared, and which of them is
the primary key.

* `Table.ofDef` checks a declaration on its own; references to other tables are checked when the
  table joins a catalog.
* `Table.rowType` is the type of its rows, `handlesType` the type of the handles on all tables.
-/
namespace LiveQuery

/-- The bucket that keeps the declarations of all tables, which no table may be named after. -/
def declarationBucket : String := "__schema"

/-- Why a declaration is refused, or a kept one cannot be read. -/
inductive SchemaFault
  | noPrimaryKey (table : String)
  | multiplePrimaryKeys (table : String)
  | duplicateColumn (table column : String)
  | duplicateTable (table : String)
  | unknownReference (column target : String)
  | referenceType (column : String) (type : ColumnType) (target : String) (keyType : ColumnType)
  | reserved (name : String)
  | corrupt (table reason : String)
  /-- The storage did not commit, with its own wording. -/
  | storage (message : String)
deriving DecidableEq, Repr

/-- The wording of a fault. -/
def SchemaFault.message : SchemaFault → String
  | .noPrimaryKey table => "table " ++ table ++ " has no primary key"
  | .multiplePrimaryKeys table => "table " ++ table ++ " has more than one primary key"
  | .duplicateColumn table column =>
    "table " ++ table ++ " declares column " ++ column ++ " more than once"
  | .duplicateTable table => "table " ++ table ++ " already exists"
  | .unknownReference column target =>
    "column " ++ column ++ " references unknown table " ++ target
  | .referenceType column type target keyType =>
    "column " ++ column ++ " has type " ++ type.text ++ ", but the primary key of " ++ target ++
      " has type " ++ keyType.text
  | .reserved name => name ++ " is a reserved name"
  | .corrupt table reason => "corrupt schema entry for " ++ table ++ ": " ++ reason
  | .storage message => message

/-- A column of a table. -/
structure Column where
  name : String
  type : ColumnType
  /-- The table whose primary keys the column holds. -/
  references : Option String := none
deriving DecidableEq, Repr, Inhabited

/-- The column that a declaration declares. -/
def ColumnDef.column (c : ColumnDef) : Column := ⟨c.name, c.type, c.references⟩

/-- A table: its columns with the primary key among them, and the declaration they come from. -/
structure Table where
  name : String
  columns : List Column
  primaryKey : Column
  declaration : TableDef
deriving DecidableEq, Repr, Inhabited

namespace Table

/-- Goes through the columns of a declaration after `seen`, with the primary key found so far. -/
def checkColumns (table : String) : (seen : List String) → (key : Option Column) →
    List ColumnDef → Except SchemaFault Column
  | _, some key, [] => .ok key
  | _, none, [] => .error (.noPrimaryKey table)
  | seen, key, c :: rest =>
    if seen.contains c.name then .error (.duplicateColumn table c.name)
    else if c.primaryKey then
      if key.isSome then .error (.multiplePrimaryKeys table)
      else checkColumns table (c.name :: seen) (some c.column) rest
    else checkColumns table (c.name :: seen) key rest

/-- The table that a declaration declares, unless it contradicts itself. -/
def ofDef (d : TableDef) : Except SchemaFault Table := do
  if d.name = declarationBucket then throw (.reserved d.name)
  let key ← checkColumns d.name [] none d.columns
  return ⟨d.name, d.columns.map ColumnDef.column, key, d⟩

/-- The column with a name. -/
def column? (t : Table) (name : String) : Option Column := t.columns.find? fun c => c.name = name

/-- The first column that holds primary keys of `target`. -/
def foreignKey? (t : Table) (target : String) : Option Column :=
  t.columns.find? fun c => c.references = some target

/-- The type of the table's rows. -/
def rowType (t : Table) : Ty := Ty.recordOf (t.columns.map fun c => (c.name, c.type.ty))

/-- The type of a handle on the table's rows. -/
def indexType (t : Table) : Ty := .index t.primaryKey.type.ty t.rowType

end Table

/-- The tables by name. -/
abbrev Schema := List (String × Table)

/-- The type of the handles on all tables: for each table a record with its primary key. -/
def handlesType (schema : Schema) : Ty :=
  Ty.recordOf (schema.map fun (_, t) => (t.name, .record [(t.primaryKey.name, t.indexType)]))

/-- The handles on all tables, which read one snapshot of the store. -/
def handles (schema : Schema) (snapshot : Store) : Value :=
  Value.recordOf (schema.map fun (_, t) =>
    (t.name, .record [(t.primaryKey.name,
      .index ⟨t.name, t.primaryKey.name, t.primaryKey.type.ty, t.rowType, snapshot.bucket? t.name⟩)]))

end LiveQuery
