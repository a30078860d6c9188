import LiveQuery.Encoding.Key
import LiveQuery.Encoding.Record
import LiveQuery.Live.Listeners
import LiveQuery.Live.Message
import LiveQuery.Value.Data

/-! # The engine of live queries

Each table has an actor, which takes the posts in its inbox one at a time: subscriptions, removals of
listeners, and writes to the table. It answers a write with notices.

* `Actor.handle` takes one post. A new row notifies the listeners on the table and those whose column
  holds their value in it, each of whose queries is to be run again for the row; a changed row notifies
  the listeners on it. A removed row notifies nobody, and neither does a row that cannot be read.
* `Engine.post` puts a post into the inbox of a table, and `Engine.step` lets the actor of a table take one.
* `Engine.tables` are the tables that have an actor. They are kept in a hash map, so that they may come up in any
  order (`Traversal`).
-/
namespace LiveQuery

/-- A committed write to the row under `key`: the bytes of the row before and after. -/
structure Event where
  key : Literal
  old : Option Bytes
  new : Option Bytes
deriving DecidableEq, Inhabited

/-- What an actor is sent. -/
inductive Post
  | subscribe (subscription : Subscription)
  | event (event : Event)
  | remove (leaving : Leaving)

/-- What an actor asks for. -/
inductive Notice
  /-- Run a listener's query again for the row under a key. -/
  | rerun (listener : Listener) (key : Literal)
  /-- Send a message to a listener's connection. -/
  | deliver (subscriber : Subscriber) (message : Message)

namespace Audience

/-- The listeners on columns of a row that hold their values; `none` if the value of a column that
somebody listens on is no key. -/
def columnMatches (row : Value) : List (String × List (Bytes × List Listener)) →
    Option (List Listener)
  | [] => some []
  | (column, values) :: rest =>
    match row.member column with
    | .error _ => columnMatches row rest
    | .ok v =>
      match v.toKey with
      | .error _ => none
      | .ok bytes =>
        (columnMatches row rest).map fun more => (Keyed.find? values bytes).getD [] ++ more

/-- The listeners that a new row notifies. -/
def forNewRow (t : Audience) (row : Value) : List Listener :=
  match columnMatches row t.byValue with
  | some more => t.whole ++ more
  | none => []

/-- The listeners on the row under a key. -/
def forRow (t : Audience) (key : Bytes) : List Listener :=
  (Keyed.find? t.byRow key).getD []

end Audience

/-- The data of the row that some bytes hold. -/
def storedJson? (bytes : Bytes) : Option Json :=
  match Value.decode bytes with
  | .ok v => v.json?
  | .error _ => none

/-- The message to a listener on a row that changed. -/
def Listener.recordUpdate (l : Listener) (old new : Json) : Message :=
  .recordUpdate l.subscriber.channel l.path old new

/-- The notices that a write calls for. -/
def Event.notices (e : Event) (t : Audience) : List Notice :=
  match e.old, e.new with
  | none, some new =>
    match Value.decode new with
    | .ok row => (t.forNewRow row).map fun l => .rerun l e.key
    | .error _ => []
  | some old, some new =>
    match storedJson? old, storedJson? new with
    | some old, some new =>
      (t.forRow e.key.keyBytes).map fun l => .deliver l.subscriber (l.recordUpdate old new)
    | _, _ => []
  | _, none => []

/-- The listeners of a table and the posts that wait for it. -/
structure Actor where
  listeners : Audience := {}
  inbox : List Post := []
deriving Inhabited

namespace Actor

/-- Takes one post: the listeners after it, and the notices it calls for. -/
def handle (t : Audience) : Post → Audience × List Notice
  | .subscribe s => (t.subscribe s, [])
  | .remove d => (t.remove d, [])
  | .event e => (t, e.notices t)

/-- Takes the first post of the inbox. -/
def step (a : Actor) : Option (Actor × List Notice) :=
  match a.inbox with
  | [] => none
  | p :: rest =>
    let (listeners, notices) := handle a.listeners p
    some ({ listeners, inbox := rest }, notices)

end Actor

/-- An order to go through the keys of a hash map in, which has none of its own. -/
structure Traversal where
  visit : List String → List String
  perm (names : List String) : (visit names).Perm names

/-- The order that the keys are held in. -/
instance : Inhabited Traversal := ⟨id, List.Perm.refl⟩

/-- The actors by table; one is started by the first post to its table. -/
structure Engine where
  actors : List (String × Actor) := []
deriving Inhabited

namespace Engine

/-- The actor of a table, idle if it was never started. -/
def actor (e : Engine) (table : String) : Actor := (Keyed.find? e.actors table).getD {}

/-- Changes the actor of a table. -/
def setActor (e : Engine) (table : String) (a : Actor) : Engine :=
  { e with actors := Keyed.insert e.actors table a }

/-- Puts a post into the inbox of a table. -/
def post (e : Engine) (table : String) (p : Post) : Engine :=
  let a := e.actor table
  e.setActor table { a with inbox := a.inbox ++ [p] }

/-- The tables that have an actor, in some order. -/
def tables (e : Engine) (order : Traversal) : List String := order.visit (Keyed.keys e.actors)

/-- Lets the actor of a table take one post. -/
def step (e : Engine) (table : String) : Option (Engine × List Notice) :=
  match (e.actor table).step with
  | some (a, notices) => some (e.setActor table a, notices)
  | none => none

/-- A table whose inbox is not empty. -/
def busy? (e : Engine) : Option String :=
  (e.actors.find? fun (_, a) => !a.inbox.isEmpty).map Prod.fst

/-- The number of posts that wait. -/
def pending (e : Engine) : Nat := e.actors.foldr (fun (_, a) n => a.inbox.length + n) 0

/-- Lets the actors take up to `steps` posts. -/
def settleWithin : (steps : Nat) → Engine → Engine × List Notice
  | 0, e => (e, [])
  | steps + 1, e =>
    match e.busy? with
    | none => (e, [])
    | some table =>
      match e.step table with
      | none => (e, [])
      | some (e, notices) =>
        let (e, more) := settleWithin steps e
        (e, notices ++ more)

/-- Lets the actors take every post that waits. -/
def settle (e : Engine) : Engine × List Notice := e.settleWithin e.pending

/-- The number of listeners on a table. -/
def countListeners (e : Engine) (table : String) : Nat := (e.actor table).listeners.size

end Engine

end LiveQuery
