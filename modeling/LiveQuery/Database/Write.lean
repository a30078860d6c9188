import LiveQuery.Database.Select
import LiveQuery.Live.Engine

/-! # Writes

A statement that writes has two parts. The first checks it against the schema, on a snapshot; what it
leaves to do is a `Write`. The second is one transaction: it reads and changes the store, and tells the
event to publish and the answer.

* `prepareInsert`, `prepareUpdate` and `prepareDelete` are the first part, `Write.commit` the second.
-/
namespace LiveQuery

/-- A checked write that has not been made. -/
inductive Write
  | insert (table : String) (key : Literal) (row : Bytes)
  | update (table : String) (key : Literal) (assignments : List (String × Literal))
  | delete (table : String) (key : Literal)
deriving Inhabited

/-! ## Checking -/

/-- The table with a name. -/
def findTable (schema : Schema) (name : String) : Except Fault Table :=
  match Keyed.find? schema name with
  | some t => .ok t
  | none => .error (.statement (.unknownTable name))

/-- The key and the bytes of a row of `t`. -/
def rowEntry (t : Table) (row : Value) : Except Fault (Literal × Bytes) := do
  let key ← (row.member t.primaryKey.name).mapError .eval
  match Literal.ofValue? key with
  | none => throw (.statement (.invalidKey key.text))
  | some literal =>
    let bytes ← row.encode.mapError .encoding
    return (literal, bytes)

/-- Evaluates the row of an insertion and checks it. -/
def prepareInsert (fuel : Nat) (schema : Schema) (snapshot : Store) (table : String) (row : Expr) :
    Option (Except Fault Write) :=
  match findTable schema table with
  | .error f => some (.error f)
  | .ok t =>
    match row.infer (Catalog.types schema) with
    | .error f => some (.error (.eval f))
    | .ok actual =>
      match t.rowType.expect actual with
      | .error f => some (.error (.during "the row does not match the table" (.eval f)))
      | .ok _ =>
        let act : Eval Value := do Eval.eval fuel (← Eval.load row)
        match act.run.run (Machine.start (Catalog.scope schema snapshot)) with
        | none => none
        | some (.error f, _) => some (.error (.eval f))
        | some (.ok v, _) => some do
          let (key, bytes) ← rowEntry t v
          return .insert t.name key bytes

/-- The key that filters select, which must be one condition on the primary key. -/
def keyOf (t : Table) : List Filter → Except Fault Literal
  | [f] =>
    if f.column = t.primaryKey.name then
      if f.value.ty = t.primaryKey.type.ty then .ok f.value
      else .error (.statement (.columnType f.column t.primaryKey.type.ty f.value.ty))
    else .error (.statement (.keyFilter t.name))
  | _ => .error (.statement (.keyFilter t.name))

/-- Checks an assignment to a column. -/
def checkAssignment (t : Table) (a : String × Literal) : Except Fault Unit := do
  match t.column? a.1 with
  | none => throw (.statement (.unknownColumn t.name a.1))
  | some c =>
    if c.name = t.primaryKey.name then throw (.statement (.primaryKeyUpdate t.name))
    if a.2.ty ≠ c.type.ty then throw (.statement (.columnType a.1 c.type.ty a.2.ty))

/-- Checks the key and the assignments of a change, in order. -/
def prepareUpdate (schema : Schema) (table : String) (assignments : List (String × Literal))
    (filters : List Filter) : Except Fault Write := do
  let t ← findTable schema table
  let key ← keyOf t filters
  assignments.forM (checkAssignment t)
  return .update t.name key assignments

/-- Checks the key of a removal. -/
def prepareDelete (schema : Schema) (table : String) (filters : List Filter) :
    Except Fault Write := do
  let t ← findTable schema table
  let key ← keyOf t filters
  return .delete t.name key

/-! ## Committing -/

/-- A row with columns set, the last assignment to a column counting. -/
def assign (fields : List (String × Value)) (assignments : List (String × Literal)) :
    List (String × Value) :=
  assignments.foldl (fun fs a => Keyed.insert fs a.1 a.2.value) fields

/-- The bytes of a kept row after a change. -/
def changedRow (table : String) (key : Literal) (assignments : List (String × Literal))
    (old : Bytes) : Except Fault Bytes := do
  match ← (Value.decode old).mapError .encoding with
  | .record fields => (Value.encode (.record (assign fields assignments))).mapError .encoding
  | v => throw (.statement (.notARecord key.text table v.text))

/-- What a transaction leaves: the store, the event to publish on a table, and the answer. -/
structure Committed where
  store : Store
  event : Option (String × Event)
  answer : Json

namespace Write

/-- An answer of one field. -/
def answerOf (name : String) (v : Json) : Json := .obj [(name, v)]

/-- Makes the write in one transaction, which changes nothing if it fails. -/
def commit (store : Store) : Write → Except Fault Committed
  | .insert table key row =>
    match store.get? table key.keyBytes with
    | some _ => .error (.statement (.duplicateKey table key.text))
    | none => .ok {
        store := store.put table key.keyBytes row
        event := some (table, { key, old := none, new := some row })
        answer := answerOf "inserted" key.json }
  | .update table key assignments =>
    match store.get? table key.keyBytes with
    | none => .ok { store, event := none, answer := answerOf "updated" (.num 0) }
    | some old => do
      let new ← changedRow table key assignments old
      return {
        store := store.put table key.keyBytes new
        event := some (table, { key, old := some old, new := some new })
        answer := answerOf "updated" (.num 1) }
  | .delete table key =>
    match store.get? table key.keyBytes with
    | none => .ok {
        store := store.delete table key.keyBytes
        event := none
        answer := answerOf "deleted" (.num 0) }
    | some old => .ok {
        store := store.delete table key.keyBytes
        event := some (table, { key, old := some old, new := none })
        answer := answerOf "deleted" (.num 1) }

end Write

end LiveQuery
