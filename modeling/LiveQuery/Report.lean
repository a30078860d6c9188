import LiveQuery.Live.Message

/-! # Reports

Results and messages as text for a reader. A list of flat objects with the same keys is a table with a
column for each key; all else is written as data.

* `Report.data` writes data and `Report.message` a message.
-/
namespace LiveQuery.Report

/-- The width that every cell of a table is filled up to. -/
def columnWidth : Nat := 15

/-- A text filled up with blanks on the right. -/
def padded (s : String) : String :=
  s ++ String.ofList (List.replicate (columnWidth - s.length) ' ')

/-- What a cell shows: a text without quotes, other data as it is written. -/
def cell : Json → String
  | .str s => s
  | v => v.compact

/-- A line of a table. -/
def line (cells : List String) : String := "| " ++ " | ".intercalate (cells.map padded) ++ " |"

/-- The cells of a row for some columns, if it has these columns and no nested values in them. -/
def cells? (columns : List String) (row : Json) : Option (List Json) := do
  let fields ← row.fields?
  guard (fields.length = columns.length)
  columns.mapM fun c => do
    let v ← Keyed.find? fields c
    guard v.isScalar
    return v

/-- The columns and the cells of data that can be shown as a table. -/
def table? (v : Json) : Option (List String × List (List Json)) := do
  let rows ← v.items?
  let first ← rows.head?
  let columns := Keyed.keys (← first.fields?)
  return (columns, ← rows.mapM (cells? columns))

/-- Data as text. -/
def data (v : Json) : String :=
  match table? v with
  | some (columns, rows) =>
    "\n".intercalate (line columns :: rows.map fun row => line (row.map cell))
  | none => v.pretty

/-- A message as text. -/
def message : Message → String
  | .result c v => "[" ++ toString c ++ "] result\n" ++ data v
  | .tableUpdate c path v =>
    "[" ++ toString c ++ "] table_update at " ++ path.text ++ "\n" ++ data v
  | .recordUpdate c path old new =>
    "[" ++ toString c ++ "] record_update at " ++ path.text ++ "\n  old: " ++ old.compact ++
      "\n  new: " ++ new.compact
  | .error c text => "[" ++ toString c ++ "] error: " ++ text

end LiveQuery.Report
