import LiveQuery.Live.Engine

/-! # The listeners of a table, as they are stored

The lists of an `Audience` by who listens, so that all that a connection or a channel has in one of them is dropped at
once.

* A `Roster` keeps the listeners of a list by connection, then by channel. Nothing in it is compared by when it was
  added: a new listener goes to the end of its channel.
* A `Registry` holds a roster for each `Target` of a subscription. A removal goes over all of them and then drops the
  rosters and columns that have no entries left; whether a roster has entries is not seen from its listeners but from
  its connections (`Roster.isEmpty`), while `Roster.size` counts listeners.
-/
namespace LiveQuery

/-- What a subscription can be on: all new rows, the new rows with a value in a column, or the row under a key. -/
inductive Target
  | table
  | value (column : String) (value : Bytes)
  | row (key : Bytes)
deriving DecidableEq, Repr, Inhabited

/-- Listeners by connection, then by channel, those of a channel in the order in which they were added. -/
structure Roster where
  byConnection : List (Nat × List (Nat × List Listener)) := []
deriving Inhabited

namespace Roster

/-- Adds a listener as the last one of its channel. -/
def add (r : Roster) (l : Listener) : Roster where
  byConnection := Keyed.alter r.byConnection l.subscriber.connection fun channels =>
    Keyed.alter (channels.getD []) l.subscriber.channel fun ls => ls.getD [] ++ [l]

/-- Drops a connection, or a channel and with the last channel of a connection the connection. -/
def leave (r : Roster) : Leaving → Roster
  | .connection id => ⟨Keyed.erase r.byConnection id⟩
  | .channel s =>
    match Keyed.find? r.byConnection s.connection with
    | none => r
    | some channels =>
      let left := Keyed.erase channels s.channel
      if left.isEmpty then ⟨Keyed.erase r.byConnection s.connection⟩
      else ⟨Keyed.insert r.byConnection s.connection left⟩

/-- The listeners, by connection, then by channel, then by when they were added. -/
def toList (r : Roster) : List Listener := r.byConnection.flatMap fun c => c.2.flatMap fun e => e.2

/-- The number of listeners. -/
def size (r : Roster) : Nat := r.toList.length

/-- Whether no connection has an entry. -/
def isEmpty (r : Roster) : Bool := r.byConnection.isEmpty

end Roster

/-- The rosters of a table. -/
structure Registry where
  whole : Roster := {}
  /-- By column, then by the bytes of its value. -/
  byValue : List (String × List (Bytes × Roster)) := []
  /-- By the bytes of the primary key. -/
  byRow : List (Bytes × Roster) := []
deriving Inhabited

namespace Registry

/-- The rosters by value of a column, which has none if nobody asked for it. -/
def valuesOf (t : Registry) (column : String) : List (Bytes × Roster) := (Keyed.find? t.byValue column).getD []

/-- Changes the roster of a target, which is made if there is none. -/
def alter (t : Registry) (f : Roster → Roster) : Target → Registry
  | .table => { t with whole := f t.whole }
  | .value column value =>
    let values := Keyed.alter (t.valuesOf column) value fun r => f (r.getD {})
    { t with byValue := Keyed.insert t.byValue column values }
  | .row key => { t with byRow := Keyed.alter t.byRow key fun r => f (r.getD {}) }

/-- Adds the listener of a subscription. -/
def subscribe (t : Registry) : Subscription → Registry
  | .table _ none l => t.alter (·.add l) .table
  | .table _ (some (column, value)) l => t.alter (·.add l) (.value column value)
  | .record _ key l => t.alter (·.add l) (.row key)

/-- The rosters that still have entries after some listeners leave. -/
def sweepRosters (rosters : List (Bytes × Roster)) (d : Leaving) : List (Bytes × Roster) :=
  (Keyed.mapValues (·.leave d) rosters).filter fun e => !e.2.isEmpty

/-- Removes the listeners that leave, and with them the rosters and columns that have no entries left. -/
def remove (t : Registry) (d : Leaving) : Registry where
  whole := t.whole.leave d
  byValue := (Keyed.mapValues (sweepRosters · d) t.byValue).filter fun c => !c.2.isEmpty
  byRow := sweepRosters t.byRow d

/-- The number of listeners in rosters. -/
def countRosters (rosters : List (Bytes × Roster)) : Nat := rosters.foldr (fun e n => e.2.size + n) 0

/-- The number of listeners. -/
def size (t : Registry) : Nat :=
  t.whole.size + t.byValue.foldr (fun c n => countRosters c.2 + n) 0 + countRosters t.byRow

/-- Whether no roster has entries. -/
def isEmpty (t : Registry) : Bool :=
  t.whole.isEmpty && (t.byValue.all fun c => c.2.all fun e => e.2.isEmpty) && t.byRow.all fun e => e.2.isEmpty

/-- The listeners on a target, in their order. -/
def listOn (t : Registry) : Target → List Listener
  | .table => t.whole.toList
  | .value column value => ((Keyed.find? (t.valuesOf column) value).getD {}).toList
  | .row key => ((Keyed.find? t.byRow key).getD {}).toList

/-- The lists of rosters under keys. -/
def lists (rosters : List (Bytes × Roster)) : List (Bytes × List Listener) := Keyed.mapValues Roster.toList rosters

/-- The lists of all rosters. -/
def audience (t : Registry) : Audience where
  whole := t.whole.toList
  byValue := Keyed.mapValues lists t.byValue
  byRow := lists t.byRow

/-- Takes a post; a write leaves the listeners as they are. -/
def handle (t : Registry) : Post → Registry
  | .subscribe s => t.subscribe s
  | .remove d => t.remove d
  | .event _ => t

end Registry

end LiveQuery
