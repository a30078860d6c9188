import LiveQuery.Proofs.Live.Traffic

/-! # Accounts

What is under way in a database, counted so that a step moves it on and loses nothing.

* `Database.watches` are the listeners of a table: those it has or will have once its inbox is empty, and
  those that tasks have yet to send.
* `Database.notices` are the queries to be run again and what the posts in the inboxes call for. An actor
  that takes a post changes neither (`Database.stepActor_accounts`); an event that is posted adds the
  notices that it calls for among the listeners of its table at that moment (`Engine.notices_post`).
* `Database.incoming` are the messages that tasks have yet to hand over, and `Database.received` those that
  a channel has got.

All lists are taken up to their order.
-/
namespace LiveQuery

/-! ## Notices -/

namespace Actor

/-- The notices that posts call for, one post after the other. -/
def noticesFrom : Audience → List Post → List Notice
  | _, [] => []
  | t, p :: rest => (handle t p).2 ++ noticesFrom (handle t p).1 rest

/-- The notices that the posts of an inbox call for. -/
def notices (a : Actor) : List Notice := noticesFrom a.listeners a.inbox

theorem noticesFrom_append (t : Audience) (inbox : List Post) (p : Post) : noticesFrom t (inbox ++ [p]) =
    noticesFrom t inbox ++ (handle (inbox.foldl (fun t p => (handle t p).1) t) p).2 := by
  induction inbox generalizing t with
  | nil => simp [noticesFrom]
  | cons q inbox ih => rw [List.cons_append, noticesFrom, noticesFrom, ih, List.foldl_cons, List.append_assoc]

theorem notices_post (a : Actor) (p : Post) :
    notices { a with inbox := a.inbox ++ [p] } = a.notices ++ (handle a.audience p).2 :=
  noticesFrom_append _ _ p

end Actor

namespace Engine

variable {e : Engine} {table : String}

/-- The notices that the posts in all inboxes call for. -/
def notices (e : Engine) : List Notice := e.actors.flatMap fun a => a.2.notices

theorem notices_perm_actor (e : Engine) (table : String) : e.notices.Perm
    ((e.actor table).notices ++ (Keyed.erase e.actors table).flatMap fun a => a.2.notices) := by
  refine (Keyed.flatMap_perm_erase e.actors table _).trans (List.Perm.of_eq ?_)
  rw [actor]
  cases Keyed.find? e.actors table <;> rfl

theorem notices_setActor (h : e.Ordered) (table : String) (a : Actor) : (e.setActor table a).notices.Perm
    (a.notices ++ (Keyed.erase e.actors table).flatMap fun a => a.2.notices) :=
  (h.actors.insert_perm table a).flatMap_right _

/-- A post adds what it calls for among the listeners of its table. -/
theorem notices_post (h : e.Ordered) (table : String) (p : Post) :
    (e.post table p).notices.Perm (e.notices ++ (Actor.handle (e.audience table) p).2) := by
  have hpost : (e.post table p).notices.Perm (((e.actor table).notices ++ (Actor.handle (e.audience table) p).2) ++
      (Keyed.erase e.actors table).flatMap fun a => a.2.notices) := by
    rw [audience, ← Actor.notices_post]
    exact notices_setActor h table _
  refine hpost.trans ?_
  rw [List.append_assoc]
  refine (List.Perm.append_left _ List.perm_append_comm).trans ?_
  rw [← List.append_assoc]
  exact (e.notices_perm_actor table).symm.append_right _

theorem notices_of_idle (h : ∀ table, (e.actor table).inbox = []) (ho : e.Ordered) : e.notices = [] := by
  refine List.flatMap_eq_nil_iff.mpr fun a ha => ?_
  have hfind : Keyed.find? e.actors a.1 = some a.2 := ho.actors.find?_iff.mpr ha
  have hinbox := h a.1
  rw [actor, hfind, Option.getD_some] at hinbox
  rw [Actor.notices, hinbox]
  rfl

end Engine

/-- The notice that a task stands for, if it is a query to be run again. -/
def Task.notice? : Task → Option Notice
  | .rerun l key => some (.rerun l key)
  | .statement .. | .write .. | .actions _ => none

/-- Whether a notice asks for a query to be run again. -/
def Notice.isRerun : Notice → Bool
  | .rerun .. => true
  | .deliver .. => false

/-- The message that a notice has for a subscriber. -/
def Notice.message? (u : Subscriber) : Notice → Option Message
  | .deliver whom m => if whom = u then some m else none
  | .rerun .. => none

/-- The subscriptions that an action adds to a table. -/
def Action.subscriptions (table : String) : Action → List Subscription
  | .post name (.subscribe x) => if name = table then [x.on table] else []
  | _ => []

/-- Whether an action removes a listener from a table. -/
def Action.takes (table : String) (x : Subscription) : Action → Bool
  | .post name (.remove d) => name == table && d.covers x.listener
  | _ => false

/-- The message that an action has for a subscriber. -/
def Action.message? (u : Subscriber) : Action → Option Message
  | .deliver whom m => if whom = u then some m else none
  | _ => none

theorem Notice.message?_eq_some {u : Subscriber} {n : Notice} {m : Message} :
    n.message? u = some m ↔ n = .deliver u m := by
  cases n with
  | deliver whom m' => by_cases hwhom : whom = u <;> simp [Notice.message?, hwhom]
  | rerun => simp [Notice.message?]

theorem Action.message?_eq_some {u : Subscriber} {a : Action} {m : Message} :
    a.message? u = some m ↔ a = .deliver u m := by
  cases a with
  | deliver whom m' => by_cases hwhom : whom = u <;> simp [Action.message?, hwhom]
  | post | broadcast | answer | hangUp => simp [Action.message?]

namespace Database

/-- The notices under way: the queries to be run again, and what the posts in the inboxes call for. -/
def notices (s : Database) : List Notice := s.tasks.filterMap Task.notice? ++ s.engine.notices

/-- The listeners that a table has, or will have once all that was sent or is to be sent has arrived. -/
def watches (s : Database) (table : String) : List Subscription :=
  (s.engine.audience table).subscriptions table ++ s.pending.flatMap (Action.subscriptions table)

/-- The messages for a subscriber that tasks have yet to hand over. -/
def incoming (s : Database) (u : Subscriber) : List Message := s.pending.filterMap (Action.message? u)

/-- The messages that a connection has received. -/
def inboxOf (s : Database) (connection : Nat) : List Message :=
  ((Keyed.find? s.connections connection).map Connection.received).getD []

/-- The messages that a channel has received. -/
def received (s : Database) (u : Subscriber) : List Message :=
  (s.inboxOf u.connection).filter fun m => m.channel == u.channel

/-- Whether a connection is open. -/
def IsOpen (s : Database) (connection : Nat) : Prop := (Keyed.find? s.connections connection).isSome = true

variable {s t : Database}

theorem isOpen_deliver (whom : Subscriber) (m : Message) {c : Nat} :
    (s.deliver whom m).IsOpen c ↔ s.IsOpen c := by
  unfold deliver IsOpen
  split
  next => rfl
  next conn hconn =>
    rw [Keyed.find?_insert]
    split
    next heq => rw [← heq, hconn]; rfl
    next => rfl

theorem isOpen_congr (h : t.connections = s.connections) {c : Nat} : t.IsOpen c ↔ s.IsOpen c := by
  rw [IsOpen, IsOpen, h]

theorem received_congr (h : t.connections = s.connections) (u : Subscriber) : t.received u = s.received u := by
  rw [received, received, inboxOf, inboxOf, h]

/-- A message that is addressed to its own channel reaches that channel and no other one. -/
theorem received_deliver {whom u : Subscriber} {m : Message} (hm : m.channel = whom.channel)
    (hopen : s.IsOpen u.connection) :
    (s.deliver whom m).received u = s.received u ++ (if whom = u then [m] else []) := by
  unfold deliver received inboxOf
  split
  next hnone =>
    have hne : whom ≠ u := by
      rintro rfl
      rw [IsOpen, hnone] at hopen
      cases hopen
    rw [if_neg hne, List.append_nil]
  next conn hconn =>
    rw [Keyed.find?_insert]
    by_cases hc : whom.connection = u.connection
    · have hchannel : whom = u ↔ m.channel = u.channel := by
        rw [hm]
        exact ⟨fun h => h ▸ rfl, fun h => by cases whom; cases u; simp_all⟩
      rw [if_pos hc, ← hc, hconn]
      simp only [Option.map_some, Option.getD_some, List.filter_append, hchannel]
      by_cases hmu : m.channel = u.channel <;> simp [hmu]
    · have hne : whom ≠ u := fun h => hc (h ▸ rfl)
      rw [if_neg hc, if_neg hne, List.append_nil]

/-! ## Actors -/

/-- What an event calls for is addressed to the channels of listeners. -/
theorem channel_of_notices {e : Event} {t : Audience} {whom : Subscriber} {m : Message}
    (h : .deliver whom m ∈ e.notices t) : m.channel = whom.channel := by
  unfold Event.notices at h
  split at h
  next =>
    split at h
    next =>
      obtain ⟨l, -, hl⟩ := List.mem_map.mp h
      cases hl
    next => cases h
  next =>
    split at h
    next =>
      obtain ⟨l, -, hl⟩ := List.mem_map.mp h
      cases hl
      rfl
    next => cases h
  next => cases h

theorem channel_of_handle {t : Audience} {p : Post} {whom : Subscriber} {m : Message}
    (h : .deliver whom m ∈ (Actor.handle t p).2) : m.channel = whom.channel := by
  cases p with
  | event e => exact channel_of_notices h
  | subscribe | remove => cases h

theorem isOpen_foldl_notice (notices : List Notice) (s : Database) {c : Nat} :
    (notices.foldl notice s).IsOpen c ↔ s.IsOpen c := by
  induction notices generalizing s with
  | nil => rfl
  | cons n notices ih =>
    rw [List.foldl_cons, ih]
    cases n with
    | rerun l key => rfl
    | deliver whom m => exact isOpen_deliver whom m

theorem received_foldl_notice {notices : List Notice} {u : Subscriber}
    (hm : ∀ whom m, .deliver whom m ∈ notices → m.channel = whom.channel) (hopen : s.IsOpen u.connection) :
    (notices.foldl notice s).received u = s.received u ++ notices.filterMap (Notice.message? u) := by
  induction notices generalizing s with
  | nil => simp
  | cons n notices ih =>
    have hrest := fun whom m h => hm whom m (List.mem_cons_of_mem _ h)
    rw [List.foldl_cons]
    cases n with
    | rerun l key => exact ih (s := s.notice (.rerun l key)) hrest hopen
    | deliver whom m =>
      have hchannel := hm whom m List.mem_cons_self
      rw [notice, ih hrest ((isOpen_deliver whom m).mpr hopen), received_deliver hchannel hopen]
      by_cases hwhom : whom = u <;> simp [Notice.message?, hwhom]

theorem filterMap_tasks (notices : List Notice) :
    (notices.filterMap Notice.task?).filterMap Task.notice? = notices.filter Notice.isRerun := by
  induction notices with
  | nil => rfl
  | cons n notices ih =>
    cases n with
    | rerun l key => exact congrArg (Notice.rerun l key :: ·) ih
    | deliver whom m => exact ih

theorem pending_tasks (notices : List Notice) : (notices.filterMap Notice.task?).flatMap Task.pending = [] := by
  refine List.flatMap_eq_nil_iff.mpr fun task htask => ?_
  obtain ⟨n, -, hn⟩ := List.mem_filterMap.mp htask
  cases n <;> cases hn
  rfl

theorem filterMap_message?_of_isRerun (u : Subscriber) (notices : List Notice) :
    (notices.filter (!·.isRerun)).filterMap (Notice.message? u) = notices.filterMap (Notice.message? u) := by
  induction notices with
  | nil => rfl
  | cons n notices ih =>
    cases n with
    | rerun l key => exact ih
    | deliver whom m =>
      refine (List.filterMap_cons ..).trans ?_
      rw [ih]
      exact (List.filterMap_cons ..).symm

/-- An actor that takes a post hands messages over, and leaves all else as it was under way. -/
theorem stepActor_accounts {table : String} (hs : s.engine.Ordered) (h : s.stepActor table = some t) :
    (∀ name, t.engine.audience name = s.engine.audience name) ∧ t.pending = s.pending ∧
      (∀ c, t.IsOpen c ↔ s.IsOpen c) ∧
      ∃ handed : List Notice, (∀ n ∈ handed, n.isRerun = false) ∧ s.notices.Perm (handed ++ t.notices) ∧
        ∀ u, s.IsOpen u.connection → t.received u = s.received u ++ handed.filterMap (Notice.message? u) := by
  refine ⟨audience_stepActor h, ?_⟩
  obtain ⟨p, rest, hinbox, rfl⟩ := stepActor_eq h
  generalize hcalled : (Actor.handle (s.engine.actor table).listeners p).2 = called
  generalize hengine : s.engine.setActor table
    ⟨(Actor.handle (s.engine.actor table).listeners p).1, rest⟩ = engine
  refine ⟨?_, fun c => isOpen_foldl_notice _ _, called.filter (!·.isRerun), by simp, ?_, fun u hopen => ?_⟩
  · rw [foldl_notice_frame, pending, pending, List.flatMap_append, pending_tasks, List.append_nil]
  · have hbefore : (s.engine.actor table).notices = called ++
        Actor.notices ⟨(Actor.handle (s.engine.actor table).listeners p).1, rest⟩ := by
      rw [Actor.notices, hinbox, Actor.noticesFrom, hcalled]
      rfl
    have hperm : s.engine.notices.Perm (called ++ engine.notices) := by
      refine (s.engine.notices_perm_actor table).trans ?_
      rw [hbefore, List.append_assoc, ← hengine]
      exact (Engine.notices_setActor hs table _).symm.append_left _
    rw [foldl_notice_frame, notices, notices, List.filterMap_append, filterMap_tasks]
    have hsplit : called.Perm (called.filter (!·.isRerun) ++ called.filter Notice.isRerun) :=
      (List.filter_append_perm Notice.isRerun called).symm.trans List.perm_append_comm
    have hengines := hperm.trans (hsplit.append_right _)
    refine (hengines.append_left _).trans ?_
    simp only [List.append_assoc]
    exact List.perm_append_comm_assoc _ _ _
  · have hchannel : ∀ whom m, .deliver whom m ∈ called → m.channel = whom.channel :=
      fun whom m hmem => channel_of_handle (hcalled ▸ hmem)
    rw [filterMap_message?_of_isRerun]
    exact received_foldl_notice (s := { s with engine }) hchannel hopen

/-- The step of an actor carries out the notices that the post calls for: queries to be run again become tasks, and
messages are handed over on the channels of open connections. -/
theorem stepActor_called {table : String} (h : s.stepActor table = some t) : ∃ called : List Notice,
    (s.engine.actor table).step = some (t.engine.actor table, called) ∧
      (∀ name, name ≠ table → t.engine.actor name = s.engine.actor name) ∧
      t.tasks = s.tasks ++ called.filterMap Notice.task? ∧
      ∀ u, s.IsOpen u.connection → t.received u = s.received u ++ called.filterMap (Notice.message? u) := by
  obtain ⟨p, rest, hinbox, rfl⟩ := stepActor_eq h
  have hchannel : ∀ whom m, .deliver whom m ∈ (Actor.handle (s.engine.actor table).listeners p).2 →
      m.channel = whom.channel := fun whom m hmem => channel_of_handle hmem
  refine ⟨(Actor.handle (s.engine.actor table).listeners p).2, ?_, fun name hname => ?_, by rw [foldl_notice_frame],
    fun u hopen => received_foldl_notice hchannel hopen⟩
  · rw [foldl_notice_frame, Engine.actor_setActor, if_pos rfl, Actor.step, hinbox]
  · rw [foldl_notice_frame, Engine.actor_setActor, if_neg (Ne.symm hname)]

/-! ## Tasks -/

/-- A step of a task, up to the order of the tasks. -/
theorem stepTask_split {fuel i : Nat} {order : Traversal} (h : s.stepTask fuel order i = some t) :
    ∃ task others s' next, s.tasks.Perm (task :: others) ∧ Turn s task s' next ∧
      t.tasks.Perm (next.toList ++ others) ∧ t = { s' with tasks := t.tasks } := by
  obtain ⟨before, task, after, s', next, htasks, hadv, rfl⟩ := stepTask_eq h
  refine ⟨task, before ++ after, s', next, ?_, turn_of_advance hadv, ?_, rfl⟩
  · rw [htasks]
    exact List.perm_middle
  · exact (List.perm_append_comm.append_right _).trans (List.Perm.of_eq (List.append_assoc ..))

/-- What all tasks have they keep if what is left of the one that takes its step has it. -/
theorem all_tasks_of_next {P : Task → Prop} {task : Task} {others : List Task} {next : Option Task}
    (before : s.tasks.Perm (task :: others)) (after : t.tasks.Perm (next.toList ++ others))
    (all : ∀ task ∈ s.tasks, P task) (hnext : ∀ task' ∈ next, P task') : ∀ task' ∈ t.tasks, P task' := by
  intro task' hmem
  rcases List.mem_append.mp (after.mem_iff.mp hmem) with hmem | hmem
  · exact hnext task' (Option.mem_toList.mp hmem)
  · exact all task' (before.mem_iff.mpr (List.mem_cons_of_mem _ hmem))

/-- The notices that an action calls for. -/
def calls (s : Database) : Action → List Notice
  | .post table (.event e) => e.notices (s.engine.audience table)
  | _ => []

variable {rest : List Action} {a : Action}

/-- An action adds the notices that it calls for. -/
theorem notices_act (hs : s.engine.Ordered) (a : Action) :
    (s.act a).engine.notices.Perm (s.engine.notices ++ s.calls a) := by
  rcases s.engine_act a with ⟨hpost, heq⟩ | ⟨table, p, rfl, heq⟩
  · have hnone : s.calls a = [] := by
      cases a with
      | post table p => exact absurd rfl (hpost table p)
      | broadcast | deliver | answer | hangUp => rfl
    rw [heq, hnone, List.append_nil]
  · rw [heq]
    refine (Engine.notices_post hs table p).trans (List.Perm.of_eq (congrArg _ ?_))
    cases p <;> rfl

/-- An action adds the subscription that it sends, and takes those away that it removes. -/
theorem subscriptions_act (hs : s.engine.Ordered) (a : Action) (table : String) :
    (((s.act a).engine.audience table).subscriptions table).Perm
      ((a.subscriptions table ++ (s.engine.audience table).subscriptions table).filter
        fun x => !a.takes table x) := by
  have hkept : ∀ xs : List Subscription, xs.filter (fun _ => !false) = xs := fun xs => List.filter_true xs
  rcases s.engine_act a with ⟨hpost, heq⟩ | ⟨name, p, rfl, heq⟩
  · cases a with
    | post table p => exact absurd rfl (hpost table p)
    | broadcast | deliver | answer | hangUp =>
      rw [heq]
      exact List.Perm.of_eq (hkept _).symm
  · rw [heq, Engine.audience_post]
    by_cases hname : name = table
    · subst hname
      rw [if_pos rfl]
      cases p with
      | subscribe x =>
        simp only [Action.subscriptions, Action.takes, if_pos]
        rw [hkept]
        exact Audience.subscribe_perm (hs.audience name) name x
      | remove d =>
        simp only [Action.subscriptions, Action.takes, beq_self_eq_true, Bool.true_and, List.nil_append]
        exact List.Perm.of_eq (Audience.subscriptions_remove _ name d)
      | event e => exact List.Perm.of_eq (hkept _).symm
    · rw [if_neg hname]
      cases p with
      | subscribe x =>
        simp only [Action.subscriptions, Action.takes, if_neg hname, List.nil_append]
        exact List.Perm.of_eq (hkept _).symm
      | remove d =>
        simp only [Action.subscriptions, Action.takes, beq_false_of_ne hname, Bool.false_and, List.nil_append]
        exact List.Perm.of_eq (hkept _).symm
      | event e => exact List.Perm.of_eq (hkept _).symm

/-- What a broadcast leaves to do sends no subscription and no message. -/
theorem flatMap_fanOut {β : Type} {f : Action → List β} (ha : Task.Orderly (.actions (a :: rest))) (order : Traversal)
    (hpost : ∀ table d, f (.post table (.remove d)) = []) : (s.fanOut order a).flatMap f = [] := by
  rcases s.fanOut_cases order a with ⟨heq, -⟩ | ⟨p, rfl, heq⟩
  · rw [heq]
    rfl
  · obtain ⟨d, rfl⟩ := ha.removals p List.mem_cons_self
    simp [heq, List.flatMap_map, hpost]

theorem filterMap_fanOut {β : Type} {f : Action → Option β} (ha : Task.Orderly (.actions (a :: rest)))
    (order : Traversal) (hpost : ∀ table d, f (.post table (.remove d)) = none) :
    (s.fanOut order a).filterMap f = [] := by
  rw [List.filterMap_eq_flatMap_toList]
  exact flatMap_fanOut ha order fun table d => by rw [hpost]; rfl

/-- What is to be done before an action is what the action comes to and what is to be done after it. -/
theorem flatMap_acts {β : Type} {f : Action → List β} {others : List Action} {order : Traversal}
    (horderly : Task.Orderly (.actions (a :: rest))) (before : s.pending.Perm (a :: rest ++ others))
    (after : t.pending.Perm (s.fanOut order a ++ rest ++ others))
    (hpost : ∀ table d, f (.post table (.remove d)) = []) :
    (s.pending.flatMap f).Perm (f a ++ t.pending.flatMap f) := by
  have hbefore := before.flatMap_right f
  have hafter := after.flatMap_right f
  rw [List.flatMap_append, List.flatMap_append, flatMap_fanOut horderly order hpost, List.nil_append] at hafter
  rw [List.flatMap_append, List.flatMap_cons, List.append_assoc] at hbefore
  exact hbefore.trans (hafter.symm.append_left _)

theorem filterMap_acts {β : Type} {f : Action → Option β} {others : List Action} {order : Traversal}
    (horderly : Task.Orderly (.actions (a :: rest))) (before : s.pending.Perm (a :: rest ++ others))
    (after : t.pending.Perm (s.fanOut order a ++ rest ++ others))
    (hpost : ∀ table d, f (.post table (.remove d)) = none) :
    (s.pending.filterMap f).Perm ((f a).toList ++ t.pending.filterMap f) := by
  rw [List.filterMap_eq_flatMap_toList, List.filterMap_eq_flatMap_toList]
  exact flatMap_acts horderly before after fun table d => by rw [hpost]; rfl

/-- A connection stays open unless it is hung up. -/
theorem isOpen_act {c : Nat} (ha : a ≠ .hangUp c) : (s.act a).IsOpen c ↔ s.IsOpen c := by
  cases a with
  | deliver whom m => exact isOpen_deliver whom m
  | hangUp c' =>
    have hne : c' ≠ c := fun h => ha (h ▸ rfl)
    rw [IsOpen, act, Keyed.find?_erase_of_ne _ hne]
    rfl
  | post | broadcast | answer => rfl

/-- An action hands over the message that it has for a channel. -/
theorem received_act {u : Subscriber} (hopen : s.IsOpen u.connection) (ha : a ≠ .hangUp u.connection)
    (haddressed : ∀ whom m, a = .deliver whom m → m.channel = whom.channel) :
    (s.act a).received u = s.received u ++ (a.message? u).toList := by
  cases a with
  | deliver whom m =>
    rw [act, received_deliver (haddressed whom m rfl) hopen, Action.message?]
    split <;> rfl
  | hangUp c' =>
    have hne : c' ≠ u.connection := fun h => ha (h ▸ rfl)
    rw [received, inboxOf, act, Keyed.find?_erase_of_ne _ hne]
    exact (List.append_nil _).symm
  | post | broadcast | answer => exact (List.append_nil _).symm

/-! ## Steps in terms of the accounts -/

/-- What a step does to what is under way. -/
inductive Progress (s t : Database) : Prop
  /-- A task that is no list of actions takes its step, and its next actions wait. -/
  | begins {task task' : Task} {s' : Database} (mem : task ∈ s.tasks) (starts : Starts s task s' task')
      (frame : t = { s' with tasks := t.tasks })
      (pending : t.pending.Perm (task'.pending ++ s.pending))
      (notices : s.notices.Perm (task.notice?.toList ++ t.notices))
  /-- A listener without a query has nothing to run again. -/
  | lapses {l : Listener} {key : Literal} (query : l.query = none) (frame : t = { s with tasks := t.tasks })
      (pending : t.pending.Perm s.pending) (notices : s.notices.Perm (.rerun l key :: t.notices))
  /-- A task without actions is done. -/
  | ends (mem : .actions [] ∈ s.tasks) (frame : t = { s with tasks := t.tasks })
      (pending : t.pending.Perm s.pending) (notices : t.notices.Perm s.notices)
  /-- A task does an action. -/
  | acts {rest others : List Action} {a : Action} (order : Traversal) (mem : .actions (a :: rest) ∈ s.tasks)
      (frame : t = { s.act a with tasks := t.tasks }) (before : s.pending.Perm (a :: rest ++ others))
      (after : t.pending.Perm (s.fanOut order a ++ rest ++ others))
      (notices : t.notices.Perm (s.notices ++ s.calls a))
  /-- An actor takes a post and hands over the messages that it calls for. -/
  | handles {handed : List Notice} (store : t.store = s.store) (schema : t.schema = s.schema)
      (audience : ∀ table, t.engine.audience table = s.engine.audience table) (pending : t.pending = s.pending)
      (open_iff : ∀ c, t.IsOpen c ↔ s.IsOpen c) (messages : ∀ n ∈ handed, n.isRerun = false)
      (notices : s.notices.Perm (handed ++ t.notices))
      (received : ∀ u, s.IsOpen u.connection →
        t.received u = s.received u ++ handed.filterMap (Notice.message? u))

theorem Starts.notice? {task task' : Task} (h : Starts s task t task') : task'.notice? = none := by
  cases h <;> rfl

theorem progress (hs : s.Wired) (h : Step s t) : Progress s t := by
  cases h with
  | task fuel order i h =>
    obtain ⟨task, others, s', next, htasks, hturn, htasks', ht⟩ := stepTask_split h
    have hmem : task ∈ s.tasks := htasks.mem_iff.mpr List.mem_cons_self
    have hpending : s.pending.Perm (task.pending ++ others.flatMap Task.pending) := htasks.flatMap_right _
    have hpending' : t.pending.Perm (next.toList.flatMap Task.pending ++ others.flatMap Task.pending) :=
      (htasks'.flatMap_right _).trans (List.Perm.of_eq List.flatMap_append)
    have hnotices : s.notices.Perm (task.notice?.toList ++ (others.filterMap Task.notice? ++ s.engine.notices)) := by
      refine ((htasks.filterMap Task.notice?).append_right _).trans (List.Perm.of_eq ?_)
      rw [← List.append_assoc, List.filterMap_cons]
      cases task.notice? <;> rfl
    have hnotices' : t.notices.Perm
        (next.toList.filterMap Task.notice? ++ (others.filterMap Task.notice? ++ s'.engine.notices)) := by
      refine ((htasks'.filterMap Task.notice?).append_right _).trans (List.Perm.of_eq ?_)
      rw [ht, List.filterMap_append, List.append_assoc]
    cases hturn with
    | @idle l key query =>
      exact .lapses query ht (hpending'.trans hpending.symm) (hnotices.trans (hnotices'.symm.cons _))
    | @starts _ task' s' hstarts =>
      have hone : ([task'].filterMap Task.notice?) = [] := by simp [hstarts.notice?]
      rw [hstarts.pending, List.nil_append] at hpending
      simp only [Option.toList_some, hone, List.nil_append, List.flatMap_singleton] at hnotices' hpending'
      have hengine : s'.engine = s.engine := by rw [hstarts.frame]
      rw [hengine] at hnotices'
      exact .begins hmem hstarts ht (hpending'.trans (hpending.symm.append_left _))
        (hnotices.trans (hnotices'.symm.append_left _))
    | done => exact .ends hmem ht (hpending'.trans hpending.symm) (hnotices'.trans hnotices.symm)
    | @acts rest a order =>
      rw [pending_restTask] at hpending'
      refine .acts order hmem ht hpending hpending' ?_
      have hone : (restTask (s.fanOut order a ++ rest)).toList.filterMap Task.notice? = [] := by
        unfold restTask
        split <;> rfl
      rw [hone, List.nil_append] at hnotices'
      refine hnotices'.trans (((notices_act hs.engine a).append_left _).trans ?_)
      rw [← List.append_assoc]
      exact hnotices.symm.append_right _
  | actor table h =>
    obtain ⟨haudience, hpending, hopen, handed, hhanded, hnotices, hreceived⟩ := stepActor_accounts hs.engine h
    obtain ⟨hstore, hschema, -⟩ := stepActor_rest h
    exact .handles hstore hschema haudience hpending hopen hhanded hnotices hreceived

end Database

end LiveQuery
