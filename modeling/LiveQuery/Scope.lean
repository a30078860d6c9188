import LiveQuery.Value.Basic

/-! # Scopes

Names are looked up link by link, the innermost first, and below every link stand the built-in
functions and the two truth values.

* `Links.find?` and `Links.binds` look through the links alone.
* `Scope.lookup` gives a name's value and `TypeScope.lookup` its type; a name that is nowhere is a
  fault.
* `Links.child` adds a link.
-/
namespace LiveQuery

/-- An environment as links, the innermost first. -/
abbrev Links (α : Type) := List (List (String × α))

/-- The types of the names of a scope. -/
abbrev TypeScope := Links Ty

namespace Links

variable {α : Type}

/-- What the innermost link that knows `name` binds it to. -/
def find? : List (List (String × α)) → String → Option α
  | [], _ => none
  | link :: rest, name =>
    match Keyed.find? link name with
    | some v => some v
    | none => find? rest name

/-- Whether some link binds `name`. -/
def binds (links : List (List (String × α))) (name : String) : Bool := (find? links name).isSome

/-- The environment with one more link inside; of two entries with one name the later one counts. -/
def child (links : List (List (String × α))) (entries : List (String × α)) :
    List (List (String × α)) :=
  Keyed.ofList entries :: links

end Links

/-- The value that `name` has beneath every link. -/
def rootValue? (name : String) : Option Value :=
  if name = "true" then some (.bool true)
  else if name = "false" then some (.bool false)
  else (Builtin.ofName? name).map fun b => .function (.builtin b)

/-- The type that `name` has beneath every link. -/
def rootType? (name : String) : Option Ty :=
  if name = "true" ∨ name = "false" then some .bool
  else (Builtin.ofName? name).map Builtin.ty

namespace Scope

/-- The scope that sees nothing but what stands beneath every link. -/
def root : Scope := []

/-- The value of a name. -/
def lookup (scope : Scope) (name : String) : Except EvalFault Value :=
  match Links.find? scope name with
  | some v => .ok v
  | none =>
    match rootValue? name with
    | some v => .ok v
    | none => .error (.notInScope name)

end Scope

namespace TypeScope

/-- The type scope that sees nothing but what stands beneath every link. -/
def root : TypeScope := []

/-- The type of a name. -/
def lookup (types : TypeScope) (name : String) : Except EvalFault Ty :=
  match Links.find? types name with
  | some t => .ok t
  | none =>
    match rootType? name with
    | some t => .ok t
    | none => .error (.notInScope name)

end TypeScope

end LiveQuery
