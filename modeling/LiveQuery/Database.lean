import LiveQuery.Database.Write

/-! # The database

The tables and rows, the connections, and everything that is under way at one time: statements between two of
their steps, posts in inboxes, and queries waiting to be run again. Any of them may move next; each move
is one atomic step.

* `Task` is something under way and `Action` one of its remaining effects. A statement first takes a
  snapshot and works out what it has to do; a write then commits, publishes its event and answers, in
  three steps; a live query sends its subscriptions one at a time and then its result.
* `Database.stepTask` moves a task and `Database.stepActor` an actor; `Step` is the relation of one move. A
  broadcast first notes down the tables that have an actor, in any order, and then posts to one after the other.
* `Database.attempt` is the step that makes a table, by a storage that may fail to commit.
* `Database.settle` moves the first task as long as there is one, then the actors, until nothing is left.

Evaluations take fuel, and a step that runs out of it is not made.
-/
namespace LiveQuery

/-- Who a statement answers: a caller that waits for it, by ticket, or a channel of a connection. -/
inductive Origin
  | caller (ticket : Nat)
  | channel (subscriber : Subscriber)
deriving DecidableEq, Repr, Inhabited

/-- The channel of a statement that was run on a connection. -/
def Origin.subscriber? : Origin → Option Subscriber
  | .caller _ => none
  | .channel s => some s

/-- A remaining effect of a task. -/
inductive Action
  | post (table : String) (post : Post)
  | broadcast (post : Post)
  | deliver (subscriber : Subscriber) (message : Message)
  | answer (ticket : Nat) (outcome : Except Fault Json)
  | hangUp (connection : Nat)

/-- Something under way. -/
inductive Task
  | statement (origin : Origin) (text : String)
  | write (origin : Origin) (write : Write)
  | rerun (listener : Listener) (key : Literal)
  | actions (rest : List Action)

/-- An open connection: the channel of its next statement, and the messages received but not taken. -/
structure Connection where
  nextChannel : Nat := 1
  received : List Message := []
deriving Inhabited

structure Database where
  store : Store := {}
  schema : Schema := []
  engine : Engine := {}
  tasks : List Task := []
  connections : List (Nat × Connection) := []
  nextConnection : Nat := 1
  /-- The outcomes for callers, by ticket. -/
  answers : List (Nat × Except Fault Json) := []
deriving Inhabited

/-! ## What a statement has to do -/

/-- The actions that end a statement. A failed one takes its channel's listeners back first. -/
def Origin.finish (o : Origin) (outcome : Except Fault Json) : List Action :=
  match o, outcome with
  | .caller ticket, r => [.answer ticket r]
  | .channel s, .ok data => [.deliver s (.result s.channel data)]
  | .channel s, .error f =>
    [.broadcast (.remove (.channel s)), .deliver s (.error s.channel f.message)]

/-- The actions that send subscriptions. -/
def subscribeActions (sent : List Subscription) : List Action :=
  sent.map fun s => .post s.tableName (.subscribe s)

/-- The messages with the rows of a query that was run again. -/
def updateActions (l : Listener) : Except Fault Json → List Action
  | .ok (.arr rows) =>
    rows.map fun row => .deliver l.subscriber (.tableUpdate l.subscriber.channel l.path row)
  | .ok data => [.deliver l.subscriber (.tableUpdate l.subscriber.channel l.path data)]
  | .error f => [.deliver l.subscriber (.error l.subscriber.channel f.message)]

/-- Where the result of a query belongs: nowhere unless it is live, which needs a connection. -/
def anchorFor (live : Bool) (o : Origin) : Except Fault (Option Anchor) :=
  match live, o.subscriber? with
  | false, _ => .ok none
  | true, some s => .ok (some { subscriber := s })
  | true, none => .error (.statement .liveWithoutConnection)

namespace Database

/-- Makes a table, if the storage commits it. -/
def createTable (s : Database) (o : Origin) (d : TableDef) (committing : Except String Unit) : Database × Task :=
  match Catalog.create s.schema s.store d committing with
  | .error f => (s, .actions (o.finish (.error (.schema f))))
  | .ok c =>
    ({ s with store := c.store, schema := c.schema },
      .actions (o.finish (.ok (Write.answerOf "created" (.str c.table.name)))))

/-- What a checked write has to do next. -/
def writeTask (o : Origin) : Except Fault Write → Task
  | .ok w => .write o w
  | .error f => .actions (o.finish (.error f))

/-- The first step of a statement; `none` if the fuel runs out. -/
def begin (fuel : Nat) (s : Database) (o : Origin) : Statement → Option (Database × Task)
  | .create d => some (s.createTable o d (.ok ()))
  | .insert table row =>
    (prepareInsert fuel s.schema s.store table row).map fun w => (s, writeTask o w)
  | .update table assignments filters =>
    some (s, writeTask o (prepareUpdate s.schema table assignments filters))
  | .delete table filters => some (s, writeTask o (prepareDelete s.schema table filters))
  | .eval e =>
    (evaluate fuel s.schema s.store e).map fun r => (s, .actions (o.finish r.outcome))
  | .select live q =>
    match anchorFor live o with
    | .error f => some (s, .actions (o.finish (.error f)))
    | .ok anchor =>
      (select fuel s.schema s.store q anchor).map fun r =>
        (s, .actions (subscribeActions r.sent ++ o.finish (r.outcome.bind q.answer)))

/-- Commits a write. What is left is to publish its event and to answer. -/
def commit (s : Database) (o : Origin) (w : Write) : Database × Task :=
  match w.commit s.store with
  | .error f => (s, .actions (o.finish (.error f)))
  | .ok c =>
    ({ s with store := c.store },
      .actions ((c.event.map fun (table, e) => .post table (.event e)).toList ++
        o.finish (.ok c.answer)))

/-- Hands a message to its connection; one that was closed receives nothing. -/
def deliver (s : Database) (whom : Subscriber) (m : Message) : Database :=
  match Keyed.find? s.connections whom.connection with
  | none => s
  | some c =>
    let c := { c with received := c.received ++ [m] }
    { s with connections := Keyed.insert s.connections whom.connection c }

/-- The effect of an action, apart from what it leaves to do. -/
def act (s : Database) : Action → Database
  | .post table p => { s with engine := s.engine.post table p }
  | .broadcast _ => s
  | .deliver whom m => s.deliver whom m
  | .answer ticket r => { s with answers := Keyed.insert s.answers ticket r }
  | .hangUp c => { s with connections := Keyed.erase s.connections c }

/-- What an action leaves to do: a broadcast becomes a post to each table that has an actor now. -/
def fanOut (order : Traversal) (s : Database) : Action → List Action
  | .broadcast p => (s.engine.tables order).map (Action.post · p)
  | .post .. | .deliver .. | .answer .. | .hangUp _ => []

/-- The task that is left with some actions. -/
def restTask (left : List Action) : Option Task := if left.isEmpty then none else some (.actions left)

/-- One step of a task, with what is left of it; `none` if the fuel runs out. -/
def advance (fuel : Nat) (order : Traversal) (s : Database) : Task → Option (Database × Option Task)
  | .statement o text =>
    match Statement.read text with
    | .error f => some (s, some (.actions (o.finish (.error (.read f)))))
    | .ok statement => (s.begin fuel o statement).map fun (s, t) => (s, some t)
  | .write o w =>
    let (s, t) := s.commit o w
    some (s, some t)
  | .rerun l key =>
    match l.query with
    | none => some (s, none)
    | some q =>
      (LiveQuery.rerun fuel s.schema s.store l q key).map fun r =>
        (s, some (.actions (subscribeActions r.sent ++ updateActions l r.outcome)))
  | .actions [] => some (s, none)
  | .actions (a :: rest) => some (s.act a, restTask (s.fanOut order a ++ rest))

/-- Moves the task at a position. -/
def stepTask (fuel : Nat) (order : Traversal) (s : Database) (i : Nat) : Option Database :=
  match s.tasks[i]? with
  | none => none
  | some t =>
    match s.advance fuel order t with
    | none => none
    | some (s, some t) => some { s with tasks := s.tasks.set i t }
    | some (s, none) => some { s with tasks := s.tasks.eraseIdx i }

/-- The step of the statement at a position that makes a table, when the storage says `committing` to it. -/
def attempt (s : Database) (i : Nat) (committing : Except String Unit) : Option Database :=
  match s.tasks[i]? with
  | some (.statement o text) =>
    match Statement.read text with
    | .ok (.create d) =>
      let made := s.createTable o d committing
      some { made.1 with tasks := s.tasks.set i made.2 }
    | _ => none
  | _ => none

/-- What an actor asks for: a message is handed over at once, a query to run again becomes a task. -/
def notice (s : Database) : Notice → Database
  | .rerun l key => { s with tasks := s.tasks ++ [.rerun l key] }
  | .deliver whom m => s.deliver whom m

/-- Lets the actor of a table take one post. -/
def stepActor (s : Database) (table : String) : Option Database :=
  match s.engine.step table with
  | none => none
  | some (engine, notices) => some (notices.foldl notice { s with engine })

end Database

/-- One move of a database: of a task, with any fuel and in any order of the actors, or of an actor. -/
inductive Step : Database → Database → Prop
  | task {s t : Database} (fuel : Nat) (order : Traversal) (i : Nat) (h : s.stepTask fuel order i = some t) : Step s t
  | actor {s t : Database} (table : String) (h : s.stepActor table = some t) : Step s t

namespace Database

/-! ## Running to the end -/

/-- Whether nothing is under way. -/
def isQuiet (s : Database) : Bool := s.tasks.isEmpty && s.engine.busy?.isNone

/-- One move of the first task, or of an actor if there is no task. -/
def stepFirst (fuel : Nat) (s : Database) : Option Database :=
  if s.tasks.isEmpty then
    match s.engine.busy? with
    | none => none
    | some table => s.stepActor table
  else s.stepTask fuel default 0

/-- Moves until nothing is under way, `none` if that takes too many steps. -/
def settle (fuel : Nat) : (steps : Nat) → Database → Option Database
  | 0, _ => none
  | steps + 1, s =>
    if s.isQuiet then some s
    else
      match s.stepFirst fuel with
      | none => none
      | some s => settle fuel steps s

/-! ## Clients -/

/-- The database on a store that was kept. -/
def ofStore (store : Store) : Except Fault Database :=
  match Catalog.load store with
  | .ok schema => .ok { store, schema }
  | .error f => .error (.during "loading the catalog" (.schema f))

/-- Opens a connection. -/
def connect (s : Database) : Nat × Database :=
  (s.nextConnection,
    { s with
      nextConnection := s.nextConnection + 1
      connections := Keyed.insert s.connections s.nextConnection {} })

/-- Starts a statement whose caller waits for it. -/
def call (s : Database) (ticket : Nat) (text : String) : Database :=
  { s with tasks := s.tasks ++ [.statement (.caller ticket) text] }

/-- Starts a statement on a connection, on a channel of its own. -/
def run (s : Database) (connection : Nat) (text : String) : Option (Nat × Database) :=
  match Keyed.find? s.connections connection with
  | none => none
  | some c =>
    let next := { c with nextChannel := c.nextChannel + 1 }
    some (c.nextChannel,
      { s with
        connections := Keyed.insert s.connections connection next
        tasks := s.tasks ++ [.statement (.channel ⟨connection, c.nextChannel⟩) text] })

/-- Starts to close a channel: its listeners are removed from every table. -/
def closeChannel (s : Database) (subscriber : Subscriber) : Database :=
  { s with tasks := s.tasks ++ [.actions [.broadcast (.remove (.channel subscriber))]] }

/-- Starts to close a connection: its listeners are removed from every table. -/
def disconnect (s : Database) (connection : Nat) : Database :=
  { s with tasks := s.tasks ++
      [.actions [.broadcast (.remove (.connection connection)), .hangUp connection]] }

/-- Takes the messages that a connection has received. -/
def takeMessages (s : Database) (connection : Nat) : List Message × Database :=
  match Keyed.find? s.connections connection with
  | none => ([], s)
  | some c =>
    (c.received,
      { s with connections := Keyed.insert s.connections connection { c with received := [] } })

end Database

end LiveQuery
