import LiveQuery.Live.Subscription

/-! # The listeners of a table

Who is told of the writes to one table: listeners on every new row, listeners on new rows with a given
value in a column, and listeners on single rows.

* A list of listeners is ordered by connection, then by channel, then by when each was added
  (`Listeners.add`); `Listeners.without` drops those of a connection or a channel.
* `Audience` holds the lists. After a removal no empty list is left in it.
-/
namespace LiveQuery

/-- What a removal removes: the listeners of a connection, or of one channel of it. -/
inductive Leaving
  | connection (id : Nat)
  | channel (subscriber : Subscriber)
deriving DecidableEq, Repr, Inhabited

/-- Whether a listener is among those that leave. -/
def Leaving.covers (d : Leaving) (l : Listener) : Bool :=
  match d with
  | .connection id => l.subscriber.connection == id
  | .channel s => decide (l.subscriber = s)

namespace Subscriber

/-- Whether one channel comes after another one: by connection, then by channel. -/
def after (a b : Subscriber) : Bool :=
  b.connection < a.connection || (a.connection == b.connection && b.channel < a.channel)

end Subscriber

namespace Listeners

/-- Adds a listener behind those of its own channel and before those of later ones. -/
def add : List Listener → Listener → List Listener
  | [], l => [l]
  | k :: rest, l => if k.subscriber.after l.subscriber then l :: k :: rest else k :: add rest l

/-- The listeners that stay. -/
def without (ls : List Listener) (d : Leaving) : List Listener := ls.filter fun l => !d.covers l

end Listeners

/-- The listeners of a table. -/
structure Audience where
  whole : List Listener := []
  /-- By column, then by the bytes of its value. -/
  byValue : List (String × List (Bytes × List Listener)) := []
  /-- By the bytes of the primary key. -/
  byRow : List (Bytes × List Listener) := []
deriving Inhabited

namespace Audience

/-- Adds a listener on every new row. -/
def addWhole (t : Audience) (l : Listener) : Audience :=
  { t with whole := Listeners.add t.whole l }

/-- The lists by value of a column, which has none if nobody asked for it. -/
def valuesOf (t : Audience) (column : String) : List (Bytes × List Listener) :=
  (Keyed.find? t.byValue column).getD []

/-- Adds a listener on new rows with a value in a column. -/
def addValue (t : Audience) (column : String) (value : Bytes) (l : Listener) : Audience :=
  let values := Keyed.alter (t.valuesOf column) value fun ls => Listeners.add (ls.getD []) l
  { t with byValue := Keyed.insert t.byValue column values }

/-- Adds a listener on the row under a key. -/
def addRow (t : Audience) (key : Bytes) (l : Listener) : Audience :=
  { t with byRow := Keyed.alter t.byRow key fun ls => Listeners.add (ls.getD []) l }

/-- The lists that still have listeners after some leave. -/
def sweepLists (lists : List (Bytes × List Listener)) (d : Leaving) :
    List (Bytes × List Listener) :=
  (Keyed.mapValues (Listeners.without · d) lists).filter fun e => !e.2.isEmpty

/-- Removes the listeners that leave, and with them the lists and columns that become empty. -/
def remove (t : Audience) (d : Leaving) : Audience where
  whole := Listeners.without t.whole d
  byValue := (Keyed.mapValues (sweepLists · d) t.byValue).filter fun e => !e.2.isEmpty
  byRow := sweepLists t.byRow d

/-- The number of listeners in lists. -/
def countLists (lists : List (Bytes × List Listener)) : Nat :=
  lists.foldr (fun e n => e.2.length + n) 0

/-- The number of listeners. -/
def size (t : Audience) : Nat :=
  t.whole.length + t.byValue.foldr (fun e n => countLists e.2 + n) 0 + countLists t.byRow

/-- Whether nobody listens. -/
def isEmpty (t : Audience) : Bool :=
  t.whole.isEmpty && t.byValue.all (fun e => e.2.all fun e => e.2.isEmpty) &&
    t.byRow.all fun e => e.2.isEmpty

/-- Adds the listener of a subscription. -/
def subscribe (t : Audience) : Subscription → Audience
  | .table _ none l => t.addWhole l
  | .table _ (some (column, value)) l => t.addValue column value l
  | .record _ key l => t.addRow key l

end Audience

end LiveQuery
