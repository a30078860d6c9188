import LiveQuery.Json
import LiveQuery.Value.Basic

/-! # Values as data

The data that a value holds without running anything: whole numbers, booleans, texts, and records and
arrays of such. `Value.json?` gives it; functions, indexes and iterators hold none.
-/
namespace LiveQuery

/-- The data of a literal. -/
def Literal.json : Literal → Json
  | .int n => .num n.toInt
  | .str s => .str s
  | .bool b => .bool b

namespace Value

mutual

/-- The data of a value. -/
def json? : Value → Option Json
  | .int n => some (.num n.toInt)
  | .bool b => some (.bool b)
  | .str s => some (.str s)
  | .record fields => (jsonFields? fields).map .obj
  | .array elements _ => (jsonElements? elements).map .arr
  | .iterator .. | .function _ | .index _ => none

def jsonFields? : List (String × Value) → Option (List (String × Json))
  | [] => some []
  | (name, v) :: rest =>
    match v.json?, jsonFields? rest with
    | some j, some js => some ((name, j) :: js)
    | _, _ => none

def jsonElements? : List Value → Option (List Json)
  | [] => some []
  | v :: rest =>
    match v.json?, jsonElements? rest with
    | some j, some js => some (j :: js)
    | _, _ => none

end

end Value

end LiveQuery
