import LiveQuery.Proofs.Database.Holding
import LiveQuery.Proofs.Live.Ending

/-! # Conversations

In a `Conversation` statements are sent one after the other, by callers and on connections, and each one is over before
the next one is sent. In between and meanwhile the live queries of earlier statements may be busy; connections come and
go, and the database may be closed and opened again.

Whatever the statements are, the database does what they do to the contents of its tables: what it holds after each of
them, what it publishes and what it replies. And a command is always carried out, whatever goes on beside it
(`Conversation.holds_contents`).
-/
namespace LiveQuery

/-- A statement: the database that it was sent to and the one when it was over, and what was published in between. -/
structure Exchange where
  before : Database
  origin : Origin
  text : String
  after : Database
  events : List (String × Event)

/-- The exchanges since the database was empty, the latest one first. -/
inductive Conversation : List Exchange → Database → Prop
  | start : Conversation [] {}
  /-- A step of the database, or anything that a client does but to send a statement. -/
  | move {log : List Exchange} {s t : Database} (before : Conversation log s) (h : Move (fun _ => False) s t) :
      Conversation log t
  | reopen {log : List Exchange} {s t : Database} (before : Conversation log s) (h : Database.ofStore s.store = .ok t) :
      Conversation log t
  /-- A statement, which is not sent on a connection that is being closed. -/
  | exchange {log : List Exchange} {s t u : Database} {o : Origin} {text : String} {events : List (String × Event)}
      (before : Conversation log s) (asked : Asked (fun _ => True) s o text t) (stays : o.Stays s)
      (runs : Publishes t events u) (done : u.IsOver o) (fits : u.store.Fits) :
      Conversation (⟨s, o, text, u, events⟩ :: log) u

/-- An exchange is what a statement does to contents: the database holds the contents before and after it, who sent the
statement hears the reply, the change is published, and unless it makes a table the catalog stays as it was. -/
structure Exchange.Follows (x : Exchange) (m : Contents) (e : Effect) : Prop where
  before : x.before.Holds m
  answers : m.Answers x.before x.text e
  after : x.after.Holds e.contents
  reply : x.origin.Hears x.after e.reply
  events : List.Forall₂ (fun p c => p.2.Carries p.1 c) x.events e.change.toList
  catalog : (∀ d, Statement.read x.text ≠ .ok (.create d)) → x.after.schema = x.before.schema ∧
    x.after.store.entries declarationBucket = x.before.store.entries declarationBucket

/-- The contents after exchanges that follow one upon the other, the latest one first. -/
inductive Contents.After : List Exchange → Contents → Prop
  | start : After [] fun _ => ∅
  | exchange {log : List Exchange} {x : Exchange} {m : Contents} {e : Effect} (before : After log m)
      (follows : x.Follows m e) : After (x :: log) e.contents

/-- The next statement that asks for a command is carried out: wherever its steps have led, there are steps after which
it is over. -/
def Database.Completes (s : Database) : Prop :=
  ∀ (o : Origin) (text : String) (t : Database) (st : Statement) (cmd : Command) (v : Database),
    Asked (fun _ => True) s o text t → o.Stays s → Statement.read text = .ok st → s.Commands st cmd →
      Relation.ReflTransGen Step t v → ∃ u, Relation.ReflTransGen Step v u ∧ u.IsOver o

theorem forall₂_toList_of_rel {α β : Type} {r : α → β → Prop} {a : Option α} {b : Option β} (h : Option.Rel r a b) :
    List.Forall₂ r a.toList b.toList := by
  cases h with
  | none => exact .nil
  | some h => exact .cons h .nil

theorem Grown.steps {s t : Database} (hs : Grown s) (h : Relation.ReflTransGen Step s t) : Grown t := by
  induction h with
  | refl => exact hs
  | tail _ hstep ih => exact ih.move (.step hstep)

/-! ## Between statements -/

/-- No statement is under way. -/
structure Database.IsFree (s : Database) : Prop where
  settling : s.Settling
  unanswered : ∀ a ∈ s.pending, a.answer?.isSome = false

namespace Database.IsFree

variable {s t : Database}

theorem of_tasks (h : s.IsFree) {task : Task} (htasks : t.tasks = s.tasks ++ [task]) (settling : task.Settling)
    (unanswered : ∀ a ∈ task.pending, a.answer?.isSome = false) : t.IsFree := by
  refine ⟨fun task' hmem => ?_, fun a ha => ?_⟩
  · rw [htasks] at hmem
    rcases List.mem_append.mp hmem with hmem | hmem
    · exact h.settling task' hmem
    · exact List.mem_singleton.mp hmem ▸ settling
  · rw [pending, htasks, List.flatMap_append, List.flatMap_singleton] at ha
    rcases List.mem_append.mp ha with ha | ha
    · exact h.unanswered a ha
    · exact unanswered a ha

theorem move (hs : s.Wired) (h : s.IsFree) (hmove : Move (fun _ => False) s t) : t.IsFree := by
  cases hmove with
  | step hstep =>
    exact ⟨(h.settling.step hstep).1,
      h.settling.pending_all hs (fun _ _ => rfl) (fun _ _ => rfl) (fun _ _ => rfl) h.unanswered hstep⟩
  | connect => exact ⟨h.settling, h.unanswered⟩
  | call ticket sent => exact sent.elim
  | run sent => exact sent.elim
  | closeChannel | disconnect =>
    exact h.of_tasks rfl (by simp [Task.Settling, Action.publishes]) (by simp [Task.pending, Action.answer?])
  | takeMessages connection =>
    rcases s.takeMessages_cases connection with ⟨c, -, heq⟩ | heq <;> rw [heq] <;> exact ⟨h.settling, h.unanswered⟩

/-- While no statement is under way tables and rows stay as they are. -/
theorem same (h : s.IsFree) (hmove : Move (fun _ => False) s t) : t.store = s.store ∧ t.schema = s.schema := by
  rcases hmove.spec with hstep | ⟨hstore, hschema, -⟩
  · exact (h.settling.step hstep).2
  · exact ⟨hstore, hschema⟩

end Database.IsFree

/-! ## Statements -/

namespace Conversation

variable {log : List Exchange} {s t u : Database} {o : Origin} {text : String} {events : List (String × Event)}

theorem grown (h : Conversation log s) : Grown s := by
  induction h with
  | start => exact .start
  | move _ h ih => exact ih.move (h.mono fun _ hf => hf.elim)
  | reopen _ h ih => exact ih.reopen h
  | exchange _ asked _ runs _ _ ih => exact (ih.move asked.move).steps runs.steps

theorem reachable (h : Conversation log s) : Reachable s := by
  induction h with
  | start => exact .empty
  | move _ h ih => exact ih.move (h.mono fun _ hf => hf.elim)
  | reopen _ h ih => exact .opened ih.inOrder.store h
  | exchange _ asked _ runs _ _ ih => exact (ih.move asked.move).steps runs.steps

/-- A statement that is sent while no other one is under way is to be served. -/
theorem amid (hs : Reachable s) (free : s.IsFree) (asked : Asked (fun _ => True) s o text t) (stays : o.Stays s) :
    t.Amid o text (.statement o text) s.tasks t := by
  refine ⟨.sent, rfl, ?_, asked.beside hs free.settling free.unanswered stays⟩
  rw [asked.frame]
  exact List.perm_append_singleton _ _

theorem free (h : Conversation log s) : s.IsFree := by
  induction h with
  | start => exact ⟨by simp [Database.Settling], by simp [Database.pending]⟩
  | move before h ih => exact ih.move before.reachable.wired h
  | reopen _ h =>
    obtain ⟨schema, -, rfl⟩ := Database.eq_of_ofStore h
    exact ⟨by simp [Database.Settling], by simp [Database.pending]⟩
  | exchange before asked stays runs done fits ih =>
    obtain ⟨x, others, w, served, -, hruns⟩ := (amid before.reachable ih asked stays).served runs done.settling
    exact ⟨done.settling, (served.hears hruns done).2⟩

/-- A statement does to what the database holds what it does to the contents. -/
theorem exchange_follows (h : Conversation log s) {m : Contents} (holds : s.Holds m)
    (asked : Asked (fun _ => True) s o text t) (stays : o.Stays s) (runs : Publishes t events u) (done : u.IsOver o)
    (fits : u.store.Fits) : ∃ e, Exchange.Follows ⟨s, o, text, u, events⟩ m e := by
  obtain ⟨x, others, w, served, rfl, hruns⟩ := (amid h.reachable h.free asked stays).served runs done.settling
  obtain ⟨hstore, hschema⟩ := served.settling.run hruns
  have hstore' : u.store = x.store := hstore.trans served.store
  have hschema' : u.schema = x.schema := hschema.trans served.schema
  have serves : s.Serves o text x := served.serves.congr asked.store asked.schema
  obtain ⟨e, follows⟩ := serves.follows h.reachable.inOrder holds (hstore' ▸ fits)
  refine ⟨e, holds, follows.answers, ?_, ?_, ?_, fun hcreate => ?_⟩
  · exact Database.Holds.congr (s := { s with store := x.store, schema := x.schema }) hstore' hschema'
      ⟨follows.rows, follows.inPlace⟩
  · exact follows.reply ▸ (served.hears hruns done).1
  · exact forall₂_toList_of_rel follows.event
  · rw [hstore', hschema']
    exact follows.catalog hcreate

theorem exists_contents (h : Conversation log s) : ∃ m, Contents.After log m ∧ s.Holds m := by
  induction h with
  | start => exact ⟨_, .start, .start⟩
  | move before h ih =>
    obtain ⟨m, hafter, holds⟩ := ih
    obtain ⟨hstore, hschema⟩ := before.free.same h
    exact ⟨m, hafter, holds.congr hstore hschema⟩
  | reopen before h ih =>
    obtain ⟨m, hafter, holds⟩ := ih
    obtain rfl := before.grown.reopened h
    exact ⟨m, hafter, holds.rows, holds.inPlace⟩
  | exchange before asked stays runs done fits ih =>
    obtain ⟨m, hafter, holds⟩ := ih
    obtain ⟨e, hfollows⟩ := before.exchange_follows holds asked stays runs done fits
    exact ⟨e.contents, hafter.exchange hfollows, hfollows.after⟩

theorem completes (h : Conversation log s) : s.Completes := by
  intro o text t st cmd v asked stays read commands runs
  obtain ⟨x, serves⟩ := commands.exists_serves (o := o) read
  exact (amid h.reachable h.free asked stays).exists_over (serves.congr asked.store.symm asked.schema.symm) runs

/-- Whatever statements are sent, the database holds the contents that they lead to, every reply and every event is
theirs, and the next command can be carried out. -/
theorem holds_contents (h : Conversation log s) : (∃ m, Contents.After log m ∧ s.Holds m) ∧ s.Completes :=
  ⟨h.exists_contents, h.completes⟩

/-! ### A conversation -/

namespace Sample

/-- Sends statements one after the other, each until all is quiet. -/
def play : List String → List Exchange × Database → Option (List Exchange × Database)
  | [], played => some played
  | text :: texts, (log, s) =>
    match (s.call log.length text).settleNoting 30 30 with
    | none => none
    | some (events, u) => if u.store.fits then play texts (⟨s, .caller log.length, text, u, events⟩ :: log, u) else none

/-- A row is inserted, inserted again, changed in a column that is assigned twice, and removed; a change and a removal
find nothing. -/
def texts : List String :=
  ["CREATE TABLE t (id int PRIMARY KEY, n int, s string)", "INSERT INTO t \x7bid: 1, n: 2, s: \"a\"\x7d",
    "INSERT INTO t \x7bid: 1, n: 0, s: \"\"\x7d", "UPDATE t SET n = 3, n = 4 WHERE id = 1",
    "UPDATE t SET n = 5 WHERE id = 2", "DELETE FROM t WHERE id = 1", "DELETE FROM t WHERE id = 1"]

/-- The replies to a caller, and the row before and after each change that was published. -/
def heard (x : Exchange) : Option (Except Fault Json) × List (Option Json × Option Json) :=
  (match x.origin with
    | .caller ticket => Keyed.find? x.after.answers ticket
    | .channel _ => none,
    x.events.map fun e => (e.2.old.bind storedJson?, e.2.new.bind storedJson?))

def row (n : Int) : Json := .obj [("id", .num 1), ("n", .num n), ("s", .str "a")]

/-- What the statements bring about, one after the other. -/
def effects : List (Option (Except Fault Json) × List (Option Json × Option Json)) :=
  [(some (.ok (.obj [("created", .str "t")])), []),
    (some (.ok (.obj [("inserted", .num 1)])), [(none, some (row 2))]),
    (some (.error (.statement (.duplicateKey "t" "1"))), []),
    (some (.ok (.obj [("updated", .num 1)])), [(some (row 2), some (row 4))]),
    (some (.ok (.obj [("updated", .num 0)])), []),
    (some (.ok (.obj [("deleted", .num 1)])), [(some (row 4), none)]),
    (some (.ok (.obj [("deleted", .num 0)])), [])]

theorem of_play {texts : List String} {log log' : List Exchange} {s t : Database} (h : Conversation log s)
    (hp : play texts (log, s) = some (log', t)) : Conversation log' t := by
  induction texts generalizing log s with
  | nil => cases hp; exact h
  | cons text texts ih =>
    rw [play] at hp
    split at hp
    next => cases hp
    next events u hsettles =>
      split at hp
      next hfits =>
        obtain ⟨hpublishes, hquiet⟩ := Database.publishes_of_settleNoting hsettles
        exact ih (h.exchange (.call trivial _) (fun v hv => by cases hv) hpublishes (.of_quiet hquiet _)
          (Store.fits_iff hfits)) hp
      next => cases hp

end Sample

open Conversation.Sample in
/-- Seven statements bring about what they should, and in the end the database holds the contents that they lead to. -/
theorem holds_contents_inTurn : ∃ log s, Conversation log s ∧ log.reverse.map heard = effects ∧
    (∃ m, Contents.After log m ∧ s.Holds m) ∧ s.Completes := by
  have hplay : (play texts ([], {})).any (fun (log, _) => decide (log.reverse.map heard = effects)) = true := by
    decide +kernel
  obtain ⟨⟨log, s⟩, hplayed, hheard⟩ := (Option.any_eq_true _ _).mp hplay
  have h : Conversation log s := of_play .start hplayed
  exact ⟨log, s, h, of_decide_eq_true hheard, h.holds_contents⟩

end Conversation

end LiveQuery
