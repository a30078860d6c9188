import LiveQuery.Live.Path

/-! # Messages

What a connection receives. Each message carries the channel of the statement it is about: first the
result of the statement or its error, then, for a live query, new rows and changed rows at their place
in the result.
-/
namespace LiveQuery

inductive Message
  | result (channel : Nat) (data : Json)
  | tableUpdate (channel : Nat) (path : Path) (data : Json)
  | recordUpdate (channel : Nat) (path : Path) (old new : Json)
  | error (channel : Nat) (message : String)
deriving DecidableEq, Repr, Inhabited

namespace Message

/-- The channel that the message is about. -/
def channel : Message → Nat
  | .result c _ | .tableUpdate c _ _ | .recordUpdate c _ _ _ | .error c _ => c

/-- The message as data. -/
def json : Message → Json
  | .result c data => .obj [("channel", .num c), ("data", data), ("type", .str "result")]
  | .tableUpdate c path data =>
    .obj [("channel", .num c), ("data", data), ("path", path.json), ("type", .str "table_update")]
  | .recordUpdate c path old new =>
    .obj [("channel", .num c), ("new", new), ("old", old), ("path", path.json),
      ("type", .str "record_update")]
  | .error c message =>
    .obj [("channel", .num c), ("message", .str message), ("type", .str "error")]

end Message

end LiveQuery
