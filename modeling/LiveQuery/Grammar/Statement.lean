import LiveQuery.Grammar.Expr
import LiveQuery.Statement

/-! # Reading statements

`Statement.read` reads one statement, which a semicolon may end.
-/
namespace LiveQuery

namespace Grammar

/-! ## Conditions -/

/-- Reads a literal. -/
def literal : Reader Literal := do
  match ← peek with
  | some '"' => return .str (← string)
  | some c =>
    if c.isDigit || c == '-' then return .int (← integer)
    else
      let w ← word
      if isKeyword "true" w then return .bool true
      else if isKeyword "false" w then return .bool false
      else failure
  | none => failure

/-- Reads a column, an equals sign and a literal. -/
def condition : Reader Filter := do
  let column ← identifier
  symbol '='
  return ⟨column, ← literal⟩

/-- Reads the conditions after the first one, each behind `AND`. -/
def moreConditions : (fuel : Nat) → Reader (List Filter)
  | 0 => failure
  | fuel + 1 => do
    if isKeyword "and" (← peekWord) then
      keyword "and"
      let f ← condition
      return f :: (← moreConditions fuel)
    else return []

/-- Reads `WHERE` and its conditions. -/
def whereClause : Reader (List Filter) := do
  keyword "where"
  let f ← condition
  return f :: (← moreConditions ((← get).rest.length + 1))

/-! ## Queries -/

/-- Reads a cardinality. -/
def cardinality : Reader Cardinality := do
  let w ← word
  if isKeyword "many" w then return .many
  else if isKeyword "one" w then return .one
  else failure

/-- Reads a selection; `query` reads a nested query. -/
def selection (query : Reader Query) : Reader Selection := do
  let n ← identifier
  if ← accept ':' then return .nested n (← query)
  else return .column n

/-- Reads a query; the fuel bounds the nesting. -/
def query : (fuel : Nat) → Reader Query
  | 0 => failure
  | fuel + 1 => do
    let c ← cardinality
    let table ← identifier
    let filters ←
      if isKeyword "where" (← peekWord) then whereClause else pure []
    symbol '\x7b'
    let selections ← items (selection (query fuel))
    symbol '\x7d'
    return .mk c table filters selections

/-! ## Tables -/

/-- Reads a column type; an unknown one is a fault of meaning. -/
def columnType : Reader ColumnType := do
  skip
  let w ← takeWhile Char.isAlpha
  if w.isEmpty then failure
  let lower := String.ofList (w.map Char.toLower)
  match ColumnType.ofLowercase? lower with
  | some t => return t
  | none =>
    report (.columnType lower)
    return .int

/-- Reads the constraints of a column; of two references the later one counts. -/
def constraints (c : ColumnDef) : (fuel : Nat) → Reader ColumnDef
  | 0 => failure
  | fuel + 1 => do
    let w ← peekWord
    if isKeyword "primary" w then
      keyword "primary"
      keyword "key"
      constraints { c with primaryKey := true } fuel
    else if isKeyword "references" w then
      keyword "references"
      constraints { c with references := some (← identifier) } fuel
    else return c

/-- Reads the declaration of a column. -/
def columnDef : Reader ColumnDef := do
  let n ← identifier
  let t ← columnType
  constraints { name := n, type := t } ((← get).rest.length + 1)

/-- Reads what follows `CREATE`. -/
def createTail : Reader Statement := do
  keyword "table"
  let n ← identifier
  symbol '('
  let columns ← items columnDef
  symbol ')'
  return .create ⟨n, columns⟩

/-! ## Statements -/

/-- Reads what follows `INSERT`. -/
def insertTail (fuel : Nat) : Reader Statement := do
  keyword "into"
  let table ← identifier
  return .insert table (← expr fuel)

/-- Reads what follows `UPDATE`. -/
def updateTail : Reader Statement := do
  let table ← identifier
  keyword "set"
  let assignments ← items condition
  return .update table (assignments.map fun f => (f.column, f.value)) (← whereClause)

/-- Reads what follows `DELETE`. -/
def deleteTail : Reader Statement := do
  keyword "from"
  let table ← identifier
  return .delete table (← whereClause)

/-- Reads a statement up to the semicolon. -/
def statement (fuel : Nat) : Reader Statement := do
  let w ← peekWord
  if isKeyword "create" w then do keyword "create"; createTail
  else if isKeyword "insert" w then do keyword "insert"; insertTail fuel
  else if isKeyword "update" w then do keyword "update"; updateTail
  else if isKeyword "delete" w then do keyword "delete"; deleteTail
  else if isKeyword "eval" w then do keyword "eval"; return .eval (← expr fuel)
  else if isKeyword "live" w then do keyword "live"; return .select true (← query fuel)
  else return .select false (← query fuel)

end Grammar

/-- The statement that a text writes. -/
def Statement.read (text : String) : Except ReadFault Statement :=
  Grammar.readAll
    (do
      let s ← Grammar.statement (text.length + 1)
      let _ ← Grammar.accept ';'
      return s)
    text

end LiveQuery
