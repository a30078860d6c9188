import LiveQuery.Json

/-! # Paths

Where in the nested result of a query something is: from the root down, the rows by primary key and
the selections by name.
-/
namespace LiveQuery

inductive Segment
  | selection (name : String)
  | row (key : Json)
deriving DecidableEq, Repr, Inhabited

/-- The segments from the root. -/
abbrev Path := List Segment

namespace Segment

/-- The segment as text; the text of a key stands without quotes. -/
def text : Segment → String
  | .selection name => "/" ++ name
  | .row (.str key) => "/[" ++ key ++ "]"
  | .row key => "/[" ++ key.compact ++ "]"

/-- The segment as data. -/
def json : Segment → Json
  | .selection name => .obj [("selection", .str name)]
  | .row key => .obj [("row", key)]

end Segment

namespace Path

/-- The path of the whole result. -/
def root : Path := []

/-- The path of a selection of the row at `p`. -/
def selection (p : Path) (name : String) : Path := p ++ [.selection name]

/-- The path of a row of the selection at `p`. -/
def row (p : Path) (key : Json) : Path := p ++ [.row key]

/-- The path as text. -/
def text (p : Path) : String := if p.isEmpty then "/" else String.join (p.map Segment.text)

/-- The path as data. -/
def json (p : Path) : Json := .arr (p.map Segment.json)

end Path

end LiveQuery
