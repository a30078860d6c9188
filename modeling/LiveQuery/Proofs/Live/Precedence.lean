import LiveQuery.Proofs.Live.Hearing

/-! # The reply comes first

A live query is subscribed while it is evaluated, and its result is handed over last, so a write that is published in
between can be told on the channel before the result, or behind the error of a query that failed
(`Heard.exists_overtaken`). If no such write is published, the first message on a channel is the reply to its
statement, there is no second result, and nothing follows an error (`Heard.reply_first`).

A channel goes through phases (`Phase`). While its statement is under way one task owes the reply (`Owes`) and all
else is silent about the channel. A result leaves the channel to the updates, none of which is a result; an error comes
behind the removal of the channel's listeners from every table, so the silence lasts.
-/
namespace LiveQuery

def Message.isResult : Message → Bool
  | .result .. => true
  | .tableUpdate .. | .recordUpdate .. | .error .. => false

/-- The reply is the first message and the only result, and nothing follows if it is an error. -/
def Subscriber.Opens (u : Subscriber) (r : Except Fault Json) (ms : List Message) : Prop :=
  ∃ updates, ms = u.reply r :: updates ∧ (∀ m ∈ updates, m.isResult = false) ∧ ∀ f, r = .error f → updates = []

/-- The statement was sent to `s`, and on the way to `v` it came to a reply: it was served in one state, or it prepared
a write in one state and committed it in a later one. -/
inductive Decides (texts : String → Prop) (s : Database) (o : Origin) (text : String) (v : Database) :
    Except Fault Json → Prop
  | served {w : Database} {x : Service} (before : Relation.ReflTransGen (Move texts) s w) (serves : w.Serves o text x)
      (later : Relation.ReflTransGen (Move texts) w v) : Decides texts s o text v x.reply
  | written {w w' : Database} {st : Statement} {write : Write} (before : Relation.ReflTransGen (Move texts) s w)
      (read : Statement.read text = .ok st) (prepares : w.Prepares st (.ok write))
      (between : Relation.ReflTransGen (Move texts) w w') (later : Relation.ReflTransGen (Move texts) w' v) :
      Decides texts s o text v ((write.commit w'.store).map Committed.answer)

theorem Decides.move {texts : String → Prop} {s v w : Database} {o : Origin} {text : String} {r : Except Fault Json}
    (h : Decides texts s o text v r) (hmove : Move texts v w) : Decides texts s o text w r := by
  cases h with
  | served before serves later => exact .served before serves (later.tail hmove)
  | written before read prepares between later => exact .written before read prepares between (later.tail hmove)

/-- Until the channel has heard something no write is published that calls for a notice for it. -/
def Undisturbed (u : Subscriber) (ms : List Message) (s t : Database) : Prop :=
  ms = [] → s.IsOpen u.connection → ∀ e, Emits s t (some e) → s.Spares u e

/-! ## Behind a result -/

/-- The task is none that has a result for the channel, or may come to one. -/
def Task.Spent (u : Subscriber) : Task → Prop
  | .statement o _ | .write o _ => o.subscriber? ≠ some u
  | .rerun .. => True
  | .actions rest => ∀ m, .deliver u m ∈ rest → m.isResult = false

namespace Task.Spent

variable {u : Subscriber} {s t : Database} {task : Task}

theorem of_concerns (h : task.Concerns (· ≠ u)) : task.Spent u := by
  cases task with
  | statement o text => exact fun heq => h u heq rfl
  | write o w => exact fun heq => h u heq rfl
  | rerun => trivial
  | actions rest => exact fun m hm => absurd rfl (h _ hm)

theorem deliver_not_mem_fanOut {order : Traversal} {a : Action} {m : Message} : .deliver u m ∉ s.fanOut order a := by
  intro h
  obtain ⟨table, -, p, -, heq⟩ := Database.mem_fanOut h
  cases heq

theorem finish {o : Origin} (ho : o.subscriber? ≠ some u) (r : Except Fault Json) (m : Message) :
    .deliver u m ∉ o.finish r := by
  intro hm
  rcases Origin.mem_finish hm with ⟨ticket, heq⟩ | ⟨u', hu', heq | ⟨m', heq, -⟩⟩ <;> cases heq
  exact ho hu'

theorem starts {task' : Task} (h : Database.Starts s task t task') (hs : task.Spent u) : task'.Spent u := by
  have hposts : ∀ {xs : List Action} {m : Message}, (∀ a ∈ xs, ∃ table p, a = .post table p) →
      Action.deliver u m ∉ xs := by
    intro xs m hxs hm
    obtain ⟨table, p, h⟩ := hxs _ hm
    cases h
  have hsubscribes : ∀ sent, ∀ a ∈ subscribeActions sent, ∃ table p, a = .post table p := by
    intro sent a ha
    obtain ⟨x, -, rfl⟩ := List.mem_map.mp ha
    exact ⟨_, _, rfl⟩
  cases h with
  | write => exact hs
  | ended | refused => exact fun m hm => absurd hm (finish hs _ m)
  | selected =>
    intro m hm
    rcases List.mem_append.mp hm with hm | hm
    · exact absurd hm (hposts (hsubscribes _))
    · exact absurd hm (finish hs _ m)
  | committed =>
    intro m hm
    rcases List.mem_append.mp hm with hm | hm
    · obtain ⟨e, -, h⟩ := Option.map_eq_some_iff.mp (Option.mem_toList.mp hm)
      cases h
    · exact absurd hm (finish hs _ m)
  | @resumed l key q r query fuel run =>
    intro m hm
    rcases List.mem_append.mp hm with hm | hm
    · exact absurd hm (hposts (hsubscribes _))
    · unfold updateActions at hm
      split at hm
      next =>
        obtain ⟨row, -, h⟩ := List.mem_map.mp hm
        cases h
        rfl
      next => cases List.mem_singleton.mp hm; rfl
      next => cases List.mem_singleton.mp hm; rfl

theorem turn {next : Option Task} (hs : task.Spent u) (h : Database.Turn s task t next) :
    ∀ task' ∈ next, task'.Spent u := by
  refine h.all (fun _ hstarts => starts hstarts hs) fun a rest order hactions m hm => ?_
  subst hactions
  exact hs m (List.mem_cons_of_mem _ ((List.mem_append.mp hm).resolve_left deliver_not_mem_fanOut))

end Task.Spent

namespace Database

variable {s t : Database} {u : Subscriber}

theorem isResult_of_handle {a : Audience} (ha : a.Ordered) {p : Post} {whom : Subscriber} {m : Message}
    (h : .deliver whom m ∈ (Actor.handle a p).2) : m.isResult = false := by
  cases p with
  | subscribe | remove => cases h
  | event e =>
    obtain ⟨x, -, heq | ⟨old, new, heq⟩⟩ := Event.mem_notices ha "" h
    · cases heq
    · cases heq
      rfl

theorem spent_step (hs : s.Wired) (hn : Keyed.Ordered s.connections) (h : ∀ task ∈ s.tasks, task.Spent u)
    (hstep : Step s t) (hopen : t.IsOpen u.connection) :
    (∀ task ∈ t.tasks, task.Spent u) ∧ ∀ m ∈ s.handed t u, m.isResult = false := by
  have hopen' := isOpen_of_step hstep hopen
  cases hstep with
  | task fuel order i hstep =>
    obtain ⟨task, others, s', next, htasks, hturn, htasks', ht⟩ := stepTask_split hstep
    have htask : task ∈ s.tasks := htasks.mem_iff.mpr List.mem_cons_self
    refine ⟨all_tasks_of_next htasks htasks' h ((h task htask).turn hturn), ?_⟩
    have hsame : t.received u = s'.received u := by rw [ht]; rfl
    have hkept : s'.IsOpen u.connection := by rw [ht] at hopen; exact hopen
    cases hturn with
    | idle | done => rw [handed_of_eq hsame]; simp
    | starts hstarts =>
      rw [handed_of_eq (hsame.trans (by rw [hstarts.frame]; rfl))]
      simp
    | @acts rest a =>
      have haddressed : ∀ whom m, a = .deliver whom m → m.channel = whom.channel := fun whom m ha =>
        (hs.tasks _ htask).addressed whom m (ha ▸ List.mem_cons_self)
      have hreceived := received_act hopen' (ne_hangUp_of_isOpen hn hkept) haddressed
      rw [handed_of_append (hsame.trans hreceived)]
      intro m hm
      obtain rfl := Action.message?_eq_some.mp (Option.mem_toList.mp hm)
      exact h _ htask m List.mem_cons_self
  | actor table hstep =>
    have hadded := (stepActor_rest hstep).2.2
    refine ⟨fun task hmem => ?_, ?_⟩
    · rcases hadded task hmem with hmem | ⟨l, key, rfl⟩
      · exact h task hmem
      · trivial
    · obtain ⟨p, rest, hinbox, -⟩ := stepActor_eq hstep
      obtain ⟨called, hcalled, -, -, hreceived⟩ := stepActor_called hstep
      obtain rfl : (Actor.handle (s.engine.actor table).listeners p).2 = called := by
        rw [Actor.step, hinbox] at hcalled
        exact congrArg Prod.snd (Option.some.inj hcalled)
      rw [handed_of_append (hreceived u hopen')]
      intro m hm
      obtain ⟨n, hn, hm⟩ := List.mem_filterMap.mp hm
      obtain rfl := Notice.message?_eq_some.mp hm
      exact isResult_of_handle (hs.engine.listeners table) hn

end Database

/-! ## Phases -/

/-- What is left of a failed statement: the removal for each of some tables, then the error. -/
def Subscriber.failActions (u : Subscriber) (f : Fault) : List String → List Action
  | [] => [.deliver u (u.reply (.error f))]
  | table :: tables => .post table (.remove (.channel u)) :: failActions u f tables

theorem Subscriber.failActions_eq (u : Subscriber) (f : Fault) (tables : List String) :
    tables.map (Action.post · (.remove (.channel u))) ++ [.deliver u (u.reply (.error f))] =
      u.failActions f tables := by
  induction tables with
  | nil => rfl
  | cons table tables ih => rw [List.map_cons, List.cons_append, ih, failActions]

theorem Subscriber.restTask_failActions (u : Subscriber) (f : Fault) (tables : List String) :
    Database.restTask (u.failActions f tables) = some (.actions (u.failActions f tables)) := by
  cases tables <;> rfl

/-- What the task that owes a reply has still to do. -/
inductive Owes (texts : String → Prop) (s : Database) (u : Subscriber) (text : String) (v : Database) : Task → Prop
  | sent : Owes texts s u text v (.statement (.channel u) text)
  | prepared {w : Database} {st : Statement} {write : Write} (before : Relation.ReflTransGen (Move texts) s w)
      (read : Statement.read text = .ok st) (prepares : w.Prepares st (.ok write))
      (later : Relation.ReflTransGen (Move texts) w v) : Owes texts s u text v (.write (.channel u) write)
  | decided {posts : List Action} {r : Except Fault Json} (decides : Decides texts s (.channel u) text v r)
      (posted : ∀ a ∈ posts, ∃ table p, a = .post table p) :
      Owes texts s u text v (.actions (posts ++ Origin.finish (.channel u) r))
  /-- The removal of the listeners is yet to be sent to some tables. -/
  | failing {tables : List String} {f : Fault} (decides : Decides texts s (.channel u) text v (.error f))
      (free : ∀ table, table ∉ tables → v.FreeAt u table) :
      Owes texts s u text v (.actions (u.failActions f tables))

/-- How far the conversation on a channel has come, and the messages until then. -/
inductive Phase (texts : String → Prop) (s : Database) (u : Subscriber) (text : String) (v : Database) :
    List Message → Prop
  | awaiting {own : Task} {others : List Task} (tasks : v.tasks.Perm (own :: others))
      (owes : Owes texts s u text v own) (silent : Database.Silent u { v with tasks := others }) :
      Phase texts s u text v []
  | answered {data : Json} {updates : List Message} (decides : Decides texts s (.channel u) text v (.ok data))
      (spent : ∀ task ∈ v.tasks, task.Spent u) (plain : ∀ m ∈ updates, m.isResult = false) :
      Phase texts s u text v (u.reply (.ok data) :: updates)
  | failed {f : Fault} (decides : Decides texts s (.channel u) text v (.error f)) (silent : v.Silent u)
      (free : ∀ table, v.FreeAt u table) : Phase texts s u text v [u.reply (.error f)]
  | closed {ms : List Message} (closed : ¬v.IsOpen u.connection)
      (heard : ms = [] ∨ ∃ r, Decides texts s (.channel u) text v r ∧ u.Opens r ms) : Phase texts s u text v ms

section Phases

variable {texts : String → Prop} {s v w : Database} {u : Subscriber} {text : String} {ms : List Message}

theorem Subscriber.Opens.ok {data : Json} {updates : List Message} (h : ∀ m ∈ updates, m.isResult = false) :
    u.Opens (.ok data) (u.reply (.ok data) :: updates) :=
  ⟨updates, rfl, h, fun _ hf => nomatch hf⟩

theorem Subscriber.Opens.error {f : Fault} : u.Opens (.error f) [u.reply (.error f)] :=
  ⟨[], rfl, by simp, fun _ _ => rfl⟩

theorem Phase.heard (h : Phase texts s u text v ms) :
    ms = [] ∨ ∃ r, Decides texts s (.channel u) text v r ∧ u.Opens r ms := by
  cases h with
  | awaiting => exact .inl rfl
  | answered decides _ plain => exact .inr ⟨_, decides, .ok plain⟩
  | failed decides => exact .inr ⟨_, decides, .error⟩
  | closed _ heard => exact heard

theorem Decides.heard_move (hmove : Move texts v w)
    (h : ms = [] ∨ ∃ r, Decides texts s (.channel u) text v r ∧ u.Opens r ms) :
    ms = [] ∨ ∃ r, Decides texts s (.channel u) text w r ∧ u.Opens r ms := by
  rcases h with h | ⟨r, decides, opens⟩
  · exact .inl h
  · exact .inr ⟨r, decides.move hmove, opens⟩

theorem Owes.move {own : Task} (h : Owes texts s u text v own) (hmove : Move texts v w)
    (hfree : ∀ table, v.FreeAt u table → w.FreeAt u table) : Owes texts s u text w own := by
  cases h with
  | sent => exact .sent
  | prepared before read prepares later => exact .prepared before read prepares (later.tail hmove)
  | decided decides posted => exact .decided (decides.move hmove) posted
  | failing decides free => exact .failing (decides.move hmove) fun table htable => hfree table (free table htable)

theorem Subscriber.channel_reply (u : Subscriber) (r : Except Fault Json) : (u.reply r).channel = u.channel := by
  cases r <;> rfl

theorem Phase.goes_on {own : Task} {others : List Task} (silent : Database.Silent u { v with tasks := others })
    (tasks : w.tasks.Perm (own :: others)) (owes : Owes texts s u text w own)
    (posts : ∀ n ∈ w.engine.notices, n.subscriber ≠ u) (same : w.received u = v.received u) :
    Phase texts s u text w (v.handed w u) := by
  rw [Database.handed_of_eq same]
  exact .awaiting tasks owes ⟨silent.tasks, posts⟩

section Own

variable {others : List Task} (hv : v.Wired) (hmove : Move texts v w)
  (silent : Database.Silent u { v with tasks := others })
include hv hmove silent

/-- A failed statement sends the removal to the next table, or its error if there is none left. -/
theorem Phase.of_failing {tables : List String} {f : Fault} {left : List Action} {a : Action}
    (hopen : v.IsOpen u.connection) (decides : Decides texts s (.channel u) text v (.error f))
    (free : ∀ table, table ∉ tables → v.FreeAt u table) (hsent : u.failActions f tables = a :: left)
    (htasks : w.tasks.Perm ((Database.restTask left).toList ++ others)) (hw : w = { v.act a with tasks := w.tasks }) :
    Phase texts s u text w (v.handed w u) := by
  have hengine : w.engine = (v.act a).engine := by rw [hw]
  have hreceived : w.received u = (v.act a).received u := by rw [hw]; rfl
  cases tables with
  | nil =>
    cases hsent
    have hsame : w.engine = v.engine := by rw [hengine, Database.act, Database.deliver_frame]
    have hheard : w.received u = v.received u ++ [u.reply (.error f)] := by
      rw [hreceived, Database.act, Database.received_deliver (u.channel_reply _) hopen, if_pos rfl]
    rw [Database.handed_of_append hheard]
    refine .failed (decides.move hmove)
      ⟨fun task hmem => silent.tasks task (htasks.mem_iff.mp hmem), hsame ▸ silent.posts⟩ fun table => ?_
    rw [Database.FreeAt, hsame]
    exact free table List.not_mem_nil
  | cons name tables =>
    cases hsent
    rw [u.restTask_failActions] at htasks
    have hposts : ∀ n ∈ w.engine.notices, n.subscriber ≠ u := by
      rw [hengine]
      exact Database.Silent.posts_act hv.engine (by simp [Action.event?]) silent.posts
    refine .goes_on silent htasks (.failing (decides.move hmove) fun table htable => ?_) hposts hreceived
    rw [Database.FreeAt, hengine]
    by_cases hname : table = name
    · subst hname
      exact (Engine.free_act_of_removes default (by simp [Action.removes])).resolve_left (by simp [Database.fanOut])
    · exact Engine.free_act hv.engine rfl (free table (by simp [hname, htable]))

/-- A statement that has come to a reply does one of its posts, or hands over its result, or begins to fail. -/
theorem Phase.of_decided {posts left : List Action} {r : Except Fault Json} {a : Action} {order : Traversal}
    (hopen : v.IsOpen u.connection) (decides : Decides texts s (.channel u) text v r)
    (posted : ∀ a ∈ posts, ∃ table p, a = .post table p) (hsent : posts ++ Origin.finish (.channel u) r = a :: left)
    (hspares : ∀ e ∈ a.event?, v.Spares u e)
    (htasks : w.tasks.Perm ((Database.restTask (v.fanOut order a ++ left)).toList ++ others))
    (hw : w = { v.act a with tasks := w.tasks }) : Phase texts s u text w (v.handed w u) := by
  have hengine : w.engine = (v.act a).engine := by rw [hw]
  have hreceived : w.received u = (v.act a).received u := by rw [hw]; rfl
  have hposts : ∀ n ∈ w.engine.notices, n.subscriber ≠ u := by
    rw [hengine]
    exact Database.Silent.posts_act hv.engine hspares silent.posts
  cases posts with
  | cons p posts =>
    obtain ⟨⟨name, post, rfl⟩, hlater⟩ := List.forall_mem_cons.mp posted
    rw [List.cons_append] at hsent
    obtain ⟨rfl, rfl⟩ := List.cons.inj hsent
    have hleft : Database.restTask (posts ++ Origin.finish (.channel u) r) =
        some (.actions (posts ++ Origin.finish (.channel u) r)) := by
      cases posts <;> cases r <;> rfl
    rw [Database.fanOut, List.nil_append, hleft] at htasks
    exact .goes_on silent htasks (.decided (decides.move hmove) hlater) hposts hreceived
  | nil =>
    cases r with
    | error f =>
      -- the tables are noted down that the removal has to be sent to
      cases hsent
      have hleft : v.fanOut order (.broadcast (.remove (.channel u))) ++ [.deliver u (.error u.channel f.message)] =
          u.failActions f (v.engine.tables order) := u.failActions_eq f _
      rw [hleft, u.restTask_failActions] at htasks
      refine .goes_on silent htasks (.failing (decides.move hmove) fun table htable => ?_) hposts hreceived
      have hnone := mt Engine.mem_tables.mpr htable
      rw [Database.FreeAt, hengine, Database.act, Engine.audience, Engine.actor_of_not_mem hnone]
      simp [Actor.audience]
    | ok data =>
      cases hsent
      have hheard : w.received u = v.received u ++ [u.reply (.ok data)] := by
        rw [hreceived, Database.act, Database.received_deliver rfl hopen, if_pos rfl]
        rfl
      rw [Database.handed_of_append hheard]
      refine .answered (decides.move hmove) (fun task hmem => ?_) (by simp)
      exact .of_concerns (silent.tasks task (htasks.mem_iff.mp hmem))

theorem Owes.step {own : Task} {fuel : Nat} {order : Traversal} {v' : Database} {next : Option Task}
    (h : Owes texts s u text v own) (before : Relation.ReflTransGen (Move texts) s v) (hopen : v.IsOpen u.connection)
    (hspares : ∀ e ∈ own.announces, v.Spares u e) (hadv : v.advance fuel order own = some (v', next))
    (htasks : w.tasks.Perm (next.toList ++ others)) (hw : w = { v' with tasks := w.tasks }) :
    Phase texts s u text w (v.handed w u) := by
  have hlater : Relation.ReflTransGen (Move texts) v w := .single hmove
  -- until it comes to its actions the statement touches tables and rows only
  have hkeeps : ∀ {task : Task}, v' = { v with store := v'.store, schema := v'.schema } → next = some task →
      Owes texts s u text w task → Phase texts s u text w (v.handed w u) := by
    intro task hv' hnext howes
    rw [hnext] at htasks
    refine .goes_on silent htasks howes ?_ (by rw [hw, hv']; rfl)
    rw [hw, hv']
    exact silent.posts
  cases h with
  | sent =>
    simp only [Database.advance] at hadv
    split at hadv
    next f read =>
      cases hadv
      exact hkeeps rfl rfl (.decided (.served before (.unread read) hlater) (List.forall_mem_nil _))
    next st read =>
      obtain ⟨⟨v', task⟩, hbegin, hadv⟩ := Option.map_eq_some_iff.mp hadv
      cases hadv
      rcases Database.serves_of_begin (o := .channel u) read hbegin with
        ⟨write, prepares, rfl, rfl⟩ | ⟨x, serves, hsilent, rfl, rfl⟩
      · exact hkeeps rfl rfl (.prepared before read prepares hlater)
      · refine hkeeps (by rw [Service.changes, hsilent]; rfl) rfl (.decided (.served before serves hlater) ?_)
        intro a ha
        obtain ⟨y, -, rfl⟩ := List.mem_map.mp ha
        exact ⟨_, _, rfl⟩
  | @prepared _ st write earlier read prepares later =>
    have hdecides := Decides.written (o := .channel u) earlier read prepares later hlater
    have hadv : some ((v.commit (.channel u) write).1, some (v.commit (.channel u) write).2) = some (v', next) := hadv
    cases made : write.commit v.store with
    | error f =>
      rw [made] at hdecides
      rw [Database.commit_of_error made] at hadv
      cases hadv
      exact hkeeps rfl rfl (.decided hdecides (List.forall_mem_nil _))
    | ok c =>
      rw [made] at hdecides
      rw [Database.commit_of_ok made] at hadv
      cases hadv
      refine hkeeps rfl rfl (.decided hdecides fun a ha => ?_)
      obtain ⟨e, -, rfl⟩ := Option.map_eq_some_iff.mp (Option.mem_toList.mp ha)
      exact ⟨_, _, rfl⟩
  | @decided posts r decides posted =>
    have hsome : ∃ a left, posts ++ Origin.finish (.channel u) r = a :: left := by
      cases posts <;> cases r <;> exact ⟨_, _, rfl⟩
    obtain ⟨a, left, hsent⟩ := hsome
    rw [hsent] at hadv hspares
    cases hadv
    exact .of_decided hv hmove silent hopen decides posted hsent hspares htasks hw
  | @failing tables f decides free =>
    have hsome : ∃ a left, u.failActions f tables = a :: left ∧ v.fanOut order a = [] := by
      cases tables <;> exact ⟨_, _, rfl, rfl⟩
    obtain ⟨a, left, hsent, hnone⟩ := hsome
    rw [hsent] at hadv
    cases hadv
    rw [hnone, List.nil_append] at htasks
    exact .of_failing hv hmove silent hopen decides free hsent htasks hw

end Own

theorem Phase.close (h : Phase texts s u text v ms) (hmove : Move texts v w) (hclosed : ¬w.IsOpen u.connection) :
    Phase texts s u text w (ms ++ v.handed w u) := by
  rw [Database.handed_of_closed hclosed, List.append_nil]
  exact .closed hclosed (Decides.heard_move hmove h.heard)

theorem Phase.step (hv : v.Wired) (hn : Keyed.Ordered v.connections) (before : Relation.ReflTransGen (Move texts) s v)
    (hstep : Step v w) (undisturbed : Undisturbed u ms v w) (h : Phase texts s u text v ms) :
    Phase texts s u text w (ms ++ v.handed w u) := by
  have hmove : Move texts v w := .step hstep
  by_cases hopen : w.IsOpen u.connection
  swap
  · exact h.close hmove hopen
  have hopen' := Database.isOpen_of_step hstep hopen
  obtain ⟨e, first⟩ := hstep.emits
  cases h with
  | @awaiting own others tasks owes silent =>
    have hspares : ∀ x ∈ e, v.Spares u x := by
      rintro x ⟨⟩
      exact undisturbed rfl hopen' x first
    rw [List.nil_append]
    -- either the task that owes the reply goes on, or one that is silent does something beside it
    rcases first.beside tasks with ⟨rfl, fuel, order, v', next, hadv, htasks, hw⟩ | ⟨others', hother, htasks⟩
    · exact owes.step hv hmove silent before hopen' hspares hadv htasks hw
    · have hwired : Database.Wired { v with tasks := others } :=
        ⟨hv.engine, fun task hmem => hv.tasks task (tasks.mem_iff.mpr (List.mem_cons_of_mem _ hmem))⟩
      obtain ⟨hsilent, hhanded, hfree⟩ := silent.step hwired hn hother hspares
      have hnone : v.handed w u = [] := hhanded
      rw [hnone]
      exact .awaiting htasks (owes.move hmove hfree) hsilent
  | answered decides spent plain =>
    obtain ⟨hspent, hplain⟩ := Database.spent_step hv hn spent hstep hopen
    exact .answered (decides.move hmove) hspent (List.forall_mem_append.mpr ⟨plain, hplain⟩)
  | failed decides silent free =>
    obtain ⟨hsilent, hnone, hfree⟩ := silent.step hv hn first fun x _ => (free x.1).spares hv
    rw [hnone]
    exact .failed (decides.move hmove) hsilent fun table => hfree table (free table)
  | closed closed => exact absurd hopen' closed

theorem Phase.aside (hmove : Move texts v w) (engine : w.engine = v.engine)
    (asked : ∃ asked, w.tasks = v.tasks ++ asked ∧ ∀ task ∈ asked, task.Concerns (· ≠ u))
    (hopen : w.IsOpen u.connection ↔ v.IsOpen u.connection) (hnone : v.handed w u = [])
    (h : Phase texts s u text v ms) : Phase texts s u text w (ms ++ v.handed w u) := by
  obtain ⟨asked, htasks, hasked⟩ := asked
  have hfree : ∀ table, v.FreeAt u table → w.FreeAt u table := by
    intro table hfree
    rwa [Database.FreeAt, engine]
  rw [hnone, List.append_nil]
  cases h with
  | @awaiting own others tasks owes silent =>
    refine .awaiting (?_ : w.tasks.Perm (_ :: (others ++ asked))) (owes.move hmove hfree)
      ⟨List.forall_mem_append.mpr ⟨silent.tasks, hasked⟩, ?_⟩
    · rw [htasks]
      exact tasks.append_right asked
    · show ∀ n ∈ w.engine.notices, n.subscriber ≠ u
      rw [engine]
      exact silent.posts
  | answered decides spent plain =>
    refine .answered (decides.move hmove) ?_ plain
    rw [htasks]
    exact List.forall_mem_append.mpr ⟨spent, fun task hmem => .of_concerns (hasked task hmem)⟩
  | failed decides silent free =>
    refine .failed (decides.move hmove) ⟨?_, engine ▸ silent.posts⟩ fun table => hfree table (free table)
    rw [htasks]
    exact List.forall_mem_append.mpr ⟨silent.tasks, hasked⟩
  | closed closed heard => exact .closed (fun h => closed (hopen.mp h)) (Decides.heard_move hmove heard)

/-- At first the new statement owes the reply, and nothing else is about its channel. -/
theorem Phase.of_asked {t : Database} (hs : Reachable s) (asked : Asked texts s (.channel u) text t) :
    Phase texts t u text t [] := by
  obtain ⟨-, hconcerns⟩ := asked.fresh hs
  have hframe := asked.frame
  refine .awaiting (?_ : t.tasks.Perm (.statement (.channel u) text :: s.tasks)) .sent ⟨hconcerns.tasks, ?_⟩
  · rw [hframe]
    exact List.perm_append_comm
  · show ∀ n ∈ t.engine.notices, n.subscriber ≠ u
    rw [hframe]
    intro n hn
    have hnotice := hconcerns.notices hs.wired n (List.mem_append_right _ hn)
    cases n with
    | rerun => exact hnotice
    | deliver => exact hnotice.1

theorem Phase.of_heard {t : Database} (hs : Reachable s) (asked : Asked texts s (.channel u) text t)
    (h : Heard texts (Undisturbed u) u t ms v) : Phase texts t u text v ms ∧ v.Issued u := by
  have ht : Reachable t := hs.move (asked.move.mono fun _ _ => trivial)
  induction h with
  | start =>
    refine ⟨.of_asked hs asked, ?_⟩
    have hmem : Task.statement (.channel u) text ∈ t.tasks := by
      rw [asked.frame]
      exact List.mem_append_right _ List.mem_cons_self
    exact ht.numbered.issued.tasks _ hmem u rfl
  | move before h passed ih =>
    obtain ⟨hphase, hissued⟩ := ih
    have hreachable := ht.moves before.moves
    refine ⟨?_, hissued.move h⟩
    rcases h.aside hissued with hstep | ⟨hengine, hasked, hopen, hnone⟩
    · exact hphase.step hreachable.wired hreachable.numbered.connections before.moves hstep passed
    · exact hphase.aside h hengine hasked hopen hnone

end Phases

/-- On a channel the reply to its statement comes first and once, and nothing follows if it is an error, whatever else
goes on, as long as no write is published before the reply that calls for a notice for the channel. Once all is quiet
the reply has come, unless the connection was closed. -/
theorem Heard.reply_first {texts : String → Prop} {s t v : Database} {u : Subscriber} {text : String}
    {ms : List Message} (hs : Reachable s) (asked : Asked texts s (.channel u) text t)
    (h : Heard texts (Undisturbed u) u t ms v) :
    (ms = [] ∨ ∃ r, Decides texts t (.channel u) text v r ∧ u.Opens r ms) ∧
      (v.isQuiet = true → v.IsOpen u.connection → ms ≠ []) := by
  obtain ⟨hphase, -⟩ := Phase.of_heard hs asked h
  refine ⟨hphase.heard, fun quiet hopen => ?_⟩
  cases hphase with
  | awaiting tasks =>
    rw [(Database.idle_of_quiet quiet).1] at tasks
    cases tasks.nil_eq
  | answered | failed => simp
  | closed closed => exact absurd hopen closed

namespace Precedence.Sample

def channel : Subscriber := ⟨1, 1⟩

/-- No task is about to publish a write that calls for a notice for the channel before it has heard anything. -/
def undisturbed (unheard : Bool) (s : Database) : Bool :=
  !unheard || s.tasks.all fun task => task.announces.all fun e =>
    (e.2.notices (s.engine.audience e.1)).all fun n => decide (n.subscriber ≠ channel)

theorem of_undisturbed (ms : List Message) (s t : Database) (h : undisturbed ms.isEmpty s = true) :
    Undisturbed channel ms s t := by
  rintro rfl - e first n hn
  rw [undisturbed, List.isEmpty_nil, Bool.not_true, Bool.false_or] at h
  generalize he : some e = e' at first
  cases first with
  | actor => cases he
  | task fuel order i first =>
    obtain ⟨task, htask, hannounces⟩ := Option.bind_eq_some_iff.mp he.symm
    have hall := List.all_eq_true.mp h task (List.mem_of_getElem? htask)
    rw [hannounces, Option.all_some] at hall
    exact of_decide_eq_true (List.all_eq_true.mp hall n hn)

/-- A live query is sent on a new connection; a write has been committed, and not yet published. -/
def start : Option (Database × Database) :=
  (Database.follow (fun _ => true) 60 [.call "CREATE TABLE t (id int PRIMARY KEY)", .task 0, .task 0, .connect,
    .call "INSERT INTO t \x7bid: 1\x7d", .task 0, .task 0] {}).bind fun s =>
      (s.run 1 "LIVE MANY t \x7bid\x7d").bind fun p => if p.1 = 1 then some (s, p.2) else none

/-- The write is published while nobody listens, and another one after the result. -/
def inTurn : List Cue :=
  [.task 1, .task 0, .task 1, .call "INSERT INTO t \x7bid: 2\x7d", .task 1, .task 1, .task 1, .task 1, .task 1, .task 1,
    .actor "t", .actor "t", .actor "t", .actor "t", .task 1, .task 1, .task 1, .task 0, .actor "t"]

/-- The write is published, and told, between the subscription and the result. -/
def overtaken : List Cue :=
  [.task 1, .task 1, .task 0, .actor "t", .actor "t", .task 2, .task 2, .task 2, .task 1, .task 1, .task 0, .actor "t",
    .actor "t"]

def isInTurn : List Message → Bool
  | [.result 1 (.arr [.obj [("id", .num 1)]]), .tableUpdate 1 [] (.obj [("id", .num 2)])] => true
  | _ => false

theorem of_isInTurn {ms : List Message} (h : isInTurn ms = true) :
    ms = [.result 1 (.arr [.obj [("id", .num 1)]]), .tableUpdate 1 [] (.obj [("id", .num 2)])] := by
  unfold isInTurn at h
  split at h
  next => rfl
  next => cases h

def isOvertaken : List Message → Bool
  | .tableUpdate .. :: _ => true
  | _ => false

theorem not_opens_of_isOvertaken {ms : List Message} (h : isOvertaken ms = true) :
    ¬(ms = [] ∨ ∃ r, channel.Opens r ms) := by
  rintro (rfl | ⟨r, updates, rfl, -, -⟩)
  · cases h
  · cases r <;> cases h

def play (test : Bool → Database → Bool) (script : List Cue) :
    Option ((Database × Database) × List Message × Database) :=
  start.bind fun p => (p.2.hear test channel 60 script []).map (Prod.mk p)

theorem of_start {s t : Database} (h : start = some (s, t)) :
    Reachable s ∧ Asked (fun _ => True) s (.channel channel) "LIVE MANY t \x7bid\x7d" t := by
  obtain ⟨s', hs', h⟩ := Option.bind_eq_some_iff.mp h
  obtain ⟨⟨c, t'⟩, hrun, h⟩ := Option.bind_eq_some_iff.mp h
  dsimp only at h
  split at h
  next hc =>
    cases h
    cases hc
    exact ⟨Reachable.empty.follow hs', .run trivial hrun⟩
  next => cases h

theorem of_play {test : Bool → Database → Bool} {passes : List Message → Database → Database → Prop}
    {script : List Cue} {s t v : Database} {ms : List Message}
    (htest : ∀ ms s t, test ms.isEmpty s = true → passes ms s t) (h : play test script = some ((s, t), ms, v)) :
    Reachable s ∧ Asked (fun _ => True) s (.channel channel) "LIVE MANY t \x7bid\x7d" t ∧
      Heard (fun _ => True) passes channel t ms v := by
  obtain ⟨⟨s', t'⟩, hstart, h⟩ := Option.bind_eq_some_iff.mp h
  obtain ⟨⟨ms', v'⟩, hhear, h⟩ := Option.map_eq_some_iff.mp h
  cases h
  obtain ⟨hs, hasked⟩ := of_start hstart
  exact ⟨hs, hasked, .of_hear htest .start hhear⟩

end Precedence.Sample

open Precedence.Sample in
/-- A channel whose query is told of a row after its result, while a write that it shows was published behind it. -/
theorem Heard.reply_first_inTurn : ∃ s t v ms, Reachable s ∧
    Asked (fun _ => True) s (.channel channel) "LIVE MANY t \x7bid\x7d" t ∧
    Heard (fun _ => True) (Undisturbed channel) channel t ms v ∧ v.isQuiet = true ∧ v.IsOpen 1 ∧
    ms = [.result 1 (.arr [.obj [("id", .num 1)]]), .tableUpdate 1 [] (.obj [("id", .num 2)])] ∧
    ((ms = [] ∨ ∃ r, Decides (fun _ => True) t (.channel channel) "LIVE MANY t \x7bid\x7d" v r ∧ channel.Opens r ms) ∧
      (v.isQuiet = true → v.IsOpen channel.connection → ms ≠ [])) := by
  have hplay : (play undisturbed inTurn).any (fun p => p.2.2.isQuiet && ((Keyed.find? p.2.2.connections 1).isSome &&
      isInTurn p.2.1)) = true := by
    decide +kernel
  obtain ⟨⟨⟨s, t⟩, ms, v⟩, hp, htest⟩ := (Option.any_eq_true _ _).mp hplay
  simp only [Bool.and_eq_true] at htest
  obtain ⟨hquiet, hopen, hms⟩ := htest
  obtain ⟨hs, hasked, hheard⟩ := of_play of_undisturbed hp
  exact ⟨s, t, v, ms, hs, hasked, hheard, hquiet, hopen, of_isInTurn hms, Heard.reply_first hs hasked hheard⟩

open Precedence.Sample in
/-- A write that is published between the subscription and the result is told before the result. -/
theorem Heard.exists_overtaken : ∃ s t v ms, Reachable s ∧
    Asked (fun _ => True) s (.channel channel) "LIVE MANY t \x7bid\x7d" t ∧
    Heard (fun _ => True) (fun _ _ _ => True) channel t ms v ∧ v.isQuiet = true ∧ v.IsOpen 1 ∧
    ¬(ms = [] ∨ ∃ r, channel.Opens r ms) := by
  have hplay : (play (fun _ _ => true) overtaken).any (fun p => p.2.2.isQuiet &&
      ((Keyed.find? p.2.2.connections 1).isSome && isOvertaken p.2.1)) = true := by
    decide +kernel
  obtain ⟨⟨⟨s, t⟩, ms, v⟩, hp, htest⟩ := (Option.any_eq_true _ _).mp hplay
  simp only [Bool.and_eq_true] at htest
  obtain ⟨hquiet, hopen, hms⟩ := htest
  obtain ⟨hs, hasked, hheard⟩ := of_play (fun _ _ _ _ => trivial) hp
  exact ⟨s, t, v, ms, hs, hasked, hheard, hquiet, hopen, not_opens_of_isOvertaken hms⟩

end LiveQuery
