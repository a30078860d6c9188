import LiveQuery.Text.Quoted
import LiveQuery.Ty.Basic

/-! # Queries

A query is a tree: the rows of one table that pass its filters, each with selected columns and nested
queries over related tables.

* `Literal` is a written value, `Filter` a column that must hold one.
* `Query` and `Selection` form the tree; their `text` is what a reader reads back.
* `Query.restrict` adds a filter.
-/
namespace LiveQuery

/-- A value written in a statement. -/
inductive Literal
  | int (n : Int64)
  | str (s : String)
  | bool (b : Bool)
deriving DecidableEq, Repr, Inhabited

namespace Literal

/-- The type of the value. -/
def ty : Literal → Ty
  | .int _ => .int
  | .str _ => .string
  | .bool _ => .bool

/-- The value as it is written. -/
def text : Literal → String
  | .int n => toString n.toInt
  | .str s => Text.quoted s
  | .bool b => if b then "true" else "false"

end Literal

/-- The condition that a column holds a value. -/
structure Filter where
  column : String
  value : Literal
deriving DecidableEq, Repr, Inhabited

/-- The condition as it is written. -/
def Filter.text (f : Filter) : String := f.column ++ " = " ++ f.value.text

/-- Whether a query yields all its rows or the first one. -/
inductive Cardinality
  | many
  | one
deriving DecidableEq, Repr, Inhabited

/-- The keyword of a cardinality. -/
def Cardinality.text : Cardinality → String
  | .many => "MANY"
  | .one => "ONE"

mutual

inductive Query
  | mk (cardinality : Cardinality) (table : String) (filters : List Filter)
      (selections : List Selection)

inductive Selection
  | column (name : String)
  | nested (name : String) (query : Query)

end

instance : Inhabited Query := ⟨.mk .many "" [] []⟩

namespace Query

/-- Whether the query yields all its rows or the first one. -/
def cardinality : Query → Cardinality
  | .mk c _ _ _ => c

/-- The table whose rows the query yields. -/
def table : Query → String
  | .mk _ t _ _ => t

/-- The conditions that all hold of each row. -/
def filters : Query → List Filter
  | .mk _ _ fs _ => fs

/-- What is shown of each row. -/
def selections : Query → List Selection
  | .mk _ _ _ ss => ss

@[simp] theorem cardinality_mk (c : Cardinality) (t : String) (fs : List Filter)
    (ss : List Selection) : (Query.mk c t fs ss).cardinality = c := rfl

@[simp] theorem table_mk (c : Cardinality) (t : String) (fs : List Filter)
    (ss : List Selection) : (Query.mk c t fs ss).table = t := rfl

@[simp] theorem filters_mk (c : Cardinality) (t : String) (fs : List Filter)
    (ss : List Selection) : (Query.mk c t fs ss).filters = fs := rfl

@[simp] theorem selections_mk (c : Cardinality) (t : String) (fs : List Filter)
    (ss : List Selection) : (Query.mk c t fs ss).selections = ss := rfl

/-- The query for all rows that also hold `value` in `column`. -/
def restrict (q : Query) (column : String) (value : Literal) : Query :=
  .mk .many q.table (q.filters ++ [⟨column, value⟩]) q.selections

end Query

/-- The name under which a selection is shown. -/
def Selection.name : Selection → String
  | .column n => n
  | .nested n _ => n

/-- The conditions joined by `AND`. -/
def Filter.allText (fs : List Filter) : String := " AND ".intercalate (fs.map Filter.text)

mutual

/-- The query as it is written. -/
def Query.text : Query → String
  | .mk c t fs ss =>
    c.text ++ " " ++ t ++ (if fs.isEmpty then "" else " WHERE " ++ Filter.allText fs) ++
      " \x7b " ++ ", ".intercalate (selectionTexts ss) ++ " \x7d"

/-- A selection as it is written. -/
def Selection.text : Selection → String
  | .column n => n
  | .nested n q => n ++ ": " ++ q.text

def selectionTexts : List Selection → List String
  | [] => []
  | s :: rest => s.text :: selectionTexts rest

end

end LiveQuery
