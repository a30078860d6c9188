import LiveQuery.Ty.Basic

/-! # Built-in functions

The functions that are in scope everywhere, with their declared parameters and results. Type variables
in a declaration stand for any type, the same one at each occurrence.

* `Builtin.params` and `Builtin.result` are the declarations, `Builtin.ty` the function type.
* `Builtin.ofName?` finds a built-in by its name.
-/
namespace LiveQuery

inductive Builtin
  | plus | minus | times
  | intEq | strEq | boolEq | intLt | intGt
  | and | or | not
  | concat
  | map | filter
  | scan | get
  | listen | listenWhere
deriving DecidableEq, Repr, Inhabited

namespace Builtin

/-- Every built-in function. -/
def all : List Builtin :=
  [.plus, .minus, .times, .intEq, .strEq, .boolEq, .intLt, .intGt, .and, .or, .not, .concat, .map,
    .filter, .scan, .get, .listen, .listenWhere]

/-- The name it is called by. -/
def name : Builtin → String
  | .plus => "plus"
  | .minus => "minus"
  | .times => "times"
  | .intEq => "intEq"
  | .strEq => "strEq"
  | .boolEq => "boolEq"
  | .intLt => "intLt"
  | .intGt => "intGt"
  | .and => "and"
  | .or => "or"
  | .not => "not"
  | .concat => "concat"
  | .map => "map"
  | .filter => "filter"
  | .scan => "scan"
  | .get => "get"
  | .listen => "listen"
  | .listenWhere => "listenWhere"

/-- The built-in of that name. -/
def ofName? (n : String) : Option Builtin := all.find? fun b => b.name = n

/-- The declared parameters, names and types. -/
def params : Builtin → List (String × Ty)
  | .plus | .minus | .times | .intEq | .intLt | .intGt => [("a", .int), ("b", .int)]
  | .strEq | .concat => [("a", .string), ("b", .string)]
  | .boolEq | .and | .or => [("a", .bool), ("b", .bool)]
  | .not => [("a", .bool)]
  | .map => [("xs", .iterator (.var "A")), ("f", .function [.var "A"] (.var "B"))]
  | .filter => [("xs", .iterator (.var "A")), ("f", .function [.var "A"] .bool)]
  | .scan => [("index", .index (.var "K") (.var "R"))]
  | .get => [("index", .index (.var "K") (.var "R")), ("key", .var "K")]
  | .listen => [("rows", .iterator (.var "R")), ("point", .int)]
  | .listenWhere => [("rows", .iterator (.var "R")), ("point", .int), ("value", .var "V")]

/-- The declared result type. -/
def result : Builtin → Ty
  | .plus | .minus | .times => .int
  | .intEq | .strEq | .boolEq | .intLt | .intGt | .and | .or | .not => .bool
  | .concat => .string
  | .map => .iterator (.var "B")
  | .filter => .iterator (.var "A")
  | .scan => .iterator (.var "R")
  | .get => .var "R"
  | .listen | .listenWhere => .iterator (.var "R")

/-- The declared function type. -/
def ty (b : Builtin) : Ty := .function (b.params.map Prod.snd) b.result

end Builtin

end LiveQuery
