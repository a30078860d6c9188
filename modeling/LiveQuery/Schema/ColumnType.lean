import LiveQuery.Builtin
import LiveQuery.Text.Lowercase

/-! # Column types

The types a column can be declared with. Each has a name that it is written with and other names that
it is read from, in capital or small letters.
-/
namespace LiveQuery

inductive ColumnType
  | int
  | string
  | bool
deriving DecidableEq, Repr, Inhabited

namespace ColumnType

/-- The name of the type. -/
def text : ColumnType → String
  | .int => "int"
  | .string => "string"
  | .bool => "bool"

/-- The type of the column's values. -/
def ty : ColumnType → Ty
  | .int => .int
  | .string => .string
  | .bool => .bool

/-- The built-in function that compares two values of the column. -/
def equality : ColumnType → Builtin
  | .int => .intEq
  | .string => .strEq
  | .bool => .boolEq

/-- The type with the given name in small letters. -/
def ofLowercase? (name : String) : Option ColumnType :=
  if name = "int" ∨ name = "integer" then some .int
  else if name = "text" ∨ name = "string" then some .string
  else if name = "bool" ∨ name = "boolean" then some .bool
  else none

/-- The type with the given name. -/
def ofName? (name : String) : Option ColumnType := ofLowercase? (Text.lowercase name)

end ColumnType

end LiveQuery
