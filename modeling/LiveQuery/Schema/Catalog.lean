import LiveQuery.Grammar.Statement
import LiveQuery.Schema.Table
import LiveQuery.Scope

/-! # The catalog

The tables of a database. Each table's declaration is kept as text in a bucket of its own, under the
table's name, and read again when the database is opened.

* `Catalog.admitted` checks a new table against those that are there, `Catalog.persist` keeps its text and makes
  its bucket, and `Catalog.add` adds it to those in memory.
* `Catalog.create` does the three in this order, and `Catalog.load` reads all texts back.
* `Catalog.scope` and `Catalog.types` bind `tables` to the handles on all tables and to their type.
-/
namespace LiveQuery

namespace Catalog

/-- The type of the primary key that a column of the new table `t` refers to, `none` if there is no
such table. -/
def targetType? (schema : Schema) (t : Table) (target : String) : Option ColumnType :=
  if target = t.name then some t.primaryKey.type
  else (Keyed.find? schema target).map fun u => u.primaryKey.type

/-- Checks the references of the columns in order. -/
def checkReferences (schema : Schema) (t : Table) : List Column → Except SchemaFault Unit
  | [] => .ok ()
  | c :: rest =>
    match c.references with
    | none => checkReferences schema t rest
    | some target =>
      match targetType? schema t target with
      | none => .error (.unknownReference c.name target)
      | some keyType =>
        if keyType = c.type then checkReferences schema t rest
        else .error (.referenceType c.name c.type target keyType)

/-- The table that a declaration adds to the schema. -/
def admitted (schema : Schema) (d : TableDef) : Except SchemaFault Table := do
  let t ← Table.ofDef d
  if Keyed.contains schema t.name then throw (.duplicateTable t.name)
  checkReferences schema t t.columns
  return t

/-- The schema with one more table. -/
def add (schema : Schema) (t : Table) : Schema := Keyed.insert schema t.name t

/-- Keeps the text of a table's declaration and makes its bucket. -/
def persist (store : Store) (t : Table) : Store :=
  ((store.touch declarationBucket).put declarationBucket (Text.utf8 t.name)
    (Text.utf8 t.declaration.text)).touch t.name

/-- A new table, with the store and the schema that have it. -/
structure Created where
  table : Table
  store : Store
  schema : Schema

/-- Makes a table. Once it is checked its text is kept, in a transaction to which the storage says `committing`, and it
is added to the tables in memory only after the storage has committed. -/
def create (schema : Schema) (store : Store) (d : TableDef) (committing : Except String Unit) :
    Except SchemaFault Created := do
  let table ← admitted schema d
  let store ← (committing.map fun () => persist store table).mapError .storage
  return { table, store, schema := add schema table }

/-- The table that an entry of the bucket of declarations keeps. -/
def ofEntry (key text : Bytes) : Except SchemaFault Table := do
  let table := Text.lossyText key
  let corrupt (reason : String) := SchemaFault.corrupt table reason
  match Text.ofUtf8? text with
  | none =>
    throw (corrupt (((Text.firstFault text).map Text.Utf8Fault.message).getD ""))
  | some text =>
    match Statement.read text with
    | .error f => throw (corrupt f.message)
    | .ok (.create d) => Table.ofDef d
    | .ok _ => throw (corrupt "not a CREATE TABLE statement")

/-- Reads entries in order into a schema. -/
def ofEntries : Bucket → Schema → Except SchemaFault Schema
  | [], schema => .ok schema
  | (key, text) :: rest, schema => do
    let t ← ofEntry key text
    ofEntries rest (add schema t)

/-- The schema that a store keeps. -/
def load (store : Store) : Except SchemaFault Schema := ofEntries (store.entries declarationBucket) []

/-- The scope that statements are evaluated in, which reads one snapshot. -/
def scope (schema : Schema) (snapshot : Store) : Scope :=
  Links.child Scope.root [("tables", handles schema snapshot)]

/-- The types of that scope. -/
def types (schema : Schema) : TypeScope :=
  Links.child TypeScope.root [("tables", handlesType schema)]

end Catalog

end LiveQuery
