import LiveQuery.Proofs.Live.Accounts
import LiveQuery.Proofs.Machine.Sender

/-! # Channels

Every statement on a connection gets a channel that was not used before. What a database holds concerns the
subscribers that it has given channels to (`Reachable.numbered`): evaluations subscribe for their own subscriber
only, and nothing else makes up a new one. So a channel that is given out is new to all that is there
(`Database.Numbered.concerns_run`).
-/
namespace LiveQuery

variable {P : Subscriber → Prop}

/-- The subscriber of a post is in `P`. -/
def Post.Concerns (P : Subscriber → Prop) : Post → Prop
  | .subscribe x => P x.listener.subscriber
  | .event _ | .remove _ => True

/-- The subscriber of a notice is in `P`, and its message names the right channel. -/
def Notice.Concerns (P : Subscriber → Prop) : Notice → Prop
  | .rerun l _ => P l.subscriber
  | .deliver whom m => P whom ∧ m.channel = whom.channel

/-- The subscriber of an action is in `P`. -/
def Action.Concerns (P : Subscriber → Prop) : Action → Prop
  | .post _ p | .broadcast p => p.Concerns P
  | .deliver whom _ => P whom
  | .answer .. | .hangUp _ => True

/-- The subscribers of a task are in `P`. -/
def Task.Concerns (P : Subscriber → Prop) : Task → Prop
  | .statement o _ | .write o _ => ∀ u ∈ o.subscriber?, P u
  | .rerun l _ => P l.subscriber
  | .actions rest => ∀ a ∈ rest, a.Concerns P

/-- All listeners, tasks and messages are those of subscribers in `P`. -/
structure Database.Concerns (P : Subscriber → Prop) (s : Database) : Prop where
  listeners : ∀ table, ∀ x ∈ (s.engine.actor table).listeners.subscriptions table, P x.listener.subscriber
  inboxes : ∀ table, ∀ p ∈ (s.engine.actor table).inbox, p.Concerns P
  tasks : ∀ task ∈ s.tasks, task.Concerns P
  received : ∀ e ∈ s.connections, ∀ m ∈ e.2.received, P ⟨e.1, m.channel⟩

/-! ## Steps -/

theorem Task.Concerns.finish {o : Origin} (h : ∀ u ∈ o.subscriber?, P u) (r : Except Fault Json) :
    ∀ a ∈ o.finish r, a.Concerns P := by
  intro a ha
  rcases Origin.mem_finish ha with ⟨ticket, rfl⟩ | ⟨u, hu, rfl | ⟨m, rfl, -⟩⟩
  · trivial
  · trivial
  · exact h u hu

theorem Task.Concerns.subscribeActions {sent : List Subscription} (h : ∀ x ∈ sent, P x.listener.subscriber) :
    ∀ a ∈ subscribeActions sent, a.Concerns P := by
  intro a ha
  obtain ⟨x, hx, rfl⟩ := List.mem_map.mp ha
  exact h x hx

theorem Task.Concerns.starts {s t : Database} {task task' : Task} (h : Database.Starts s task t task')
    (hs : task.Concerns P) : task'.Concerns P := by
  cases h with
  | write => exact hs
  | ended | refused => exact Task.Concerns.finish hs _
  | @selected o text live q anchor r read anchored fuel run =>
    refine List.forall_mem_append.mpr ⟨Task.Concerns.subscribeActions fun x hx => ?_, Task.Concerns.finish hs _⟩
    obtain ⟨a, rfl, hsubscriber⟩ := select_sent run x hx
    obtain ⟨-, u, rfl, rfl⟩ := anchorFor_eq_some anchored
    rw [hsubscriber]
    exact hs u rfl
  | @committed o w c made =>
    refine List.forall_mem_append.mpr ⟨fun a ha => ?_, Task.Concerns.finish hs _⟩
    obtain ⟨e, -, rfl⟩ := Option.map_eq_some_iff.mp (Option.mem_toList.mp ha)
    trivial
  | resumed query fuel run =>
    refine List.forall_mem_append.mpr ⟨Task.Concerns.subscribeActions fun x hx => ?_, fun a ha => ?_⟩
    · rw [rerun_sent run x hx]
      exact hs
    · obtain ⟨m, rfl, -⟩ := mem_updateActions ha
      exact hs

theorem Action.Concerns.fanOut {s : Database} {order : Traversal} {a : Action} (h : a.Concerns P) :
    ∀ b ∈ s.fanOut order a, b.Concerns P := by
  intro b hb
  obtain ⟨table, -, p, rfl, rfl⟩ := Database.mem_fanOut hb
  exact h

theorem Task.Concerns.turn {s t : Database} {task : Task} {next : Option Task}
    (htask : task.Concerns P) (h : Database.Turn s task t next) : ∀ task' ∈ next, task'.Concerns P := by
  refine h.all (fun _ hstarts => Task.Concerns.starts hstarts htask) fun a rest order hactions => ?_
  subst hactions
  obtain ⟨ha, hrest⟩ := List.forall_mem_cons.mp htask
  exact List.forall_mem_append.mpr ⟨ha.fanOut, hrest⟩

namespace Audience

variable {t : Audience} {table : String}

theorem concerns_handle (ht : t.Ordered) (h : ∀ x ∈ t.subscriptions table, P x.listener.subscriber) {p : Post}
    (hp : p.Concerns P) : ∀ x ∈ (Actor.handle t p).1.subscriptions table, P x.listener.subscriber := by
  intro x hx
  cases p with
  | subscribe y =>
    rcases List.mem_cons.mp ((subscribe_perm ht table y).mem_iff.mp hx) with rfl | hx
    · rw [Subscription.listener_on]
      exact hp
    · exact h x hx
  | remove d =>
    rw [Actor.handle, subscriptions_remove] at hx
    exact h x (List.mem_of_mem_filter hx)
  | event e => exact h x hx

theorem notices_concern (ht : t.Ordered) (h : ∀ x ∈ t.subscriptions table, P x.listener.subscriber) (p : Post) :
    ∀ n ∈ (Actor.handle t p).2, n.Concerns P := by
  intro n hn
  cases p with
  | subscribe | remove => cases hn
  | event e =>
    obtain ⟨x, hx, rfl | ⟨old, new, rfl⟩⟩ := Event.mem_notices ht table hn
    · exact h x hx
    · exact ⟨h x hx, rfl⟩

end Audience

theorem Actor.noticesFrom_concern {t : Audience} {table : String} {inbox : List Post} (ht : t.Ordered)
    (h : ∀ x ∈ t.subscriptions table, P x.listener.subscriber) (hinbox : ∀ p ∈ inbox, p.Concerns P) :
    ∀ n ∈ noticesFrom t inbox, n.Concerns P := by
  induction inbox generalizing t with
  | nil => simp [noticesFrom]
  | cons p inbox ih =>
    obtain ⟨hp, hrest⟩ := List.forall_mem_cons.mp hinbox
    exact List.forall_mem_append.mpr ⟨Audience.notices_concern ht h p,
      ih (Actor.ordered_handle ht p) (Audience.concerns_handle ht h hp) hrest⟩

namespace Database

variable {s t : Database}

/-- A connection after a message was handed over. -/
theorem mem_connections_deliver {whom : Subscriber} {m : Message} {e : Nat × Connection}
    (h : e ∈ (s.deliver whom m).connections) : e ∈ s.connections ∨ ∃ c, (whom.connection, c) ∈ s.connections ∧
      e = (whom.connection, { c with received := c.received ++ [m] }) := by
  unfold deliver at h
  split at h
  next => exact .inl h
  next c hc =>
    rcases Keyed.mem_of_mem_insert h with rfl | h
    · exact .inr ⟨c, Keyed.mem_of_find? hc, rfl⟩
    · exact .inl h

namespace Concerns

theorem setActor {table : String} {a : Actor} (h : s.Concerns P)
    (hlisteners : ∀ x ∈ a.listeners.subscriptions table, P x.listener.subscriber)
    (hinbox : ∀ p ∈ a.inbox, p.Concerns P) :
    Concerns P { s with engine := s.engine.setActor table a } := by
  refine ⟨fun name => ?_, fun name => ?_, h.tasks, h.received⟩
  · rw [Engine.actor_setActor]
    split
    next heq => exact heq ▸ hlisteners
    next => exact h.listeners name
  · rw [Engine.actor_setActor]
    split
    next => exact hinbox
    next => exact h.inboxes name

theorem post {table : String} {p : Post} (h : s.Concerns P) (hp : p.Concerns P) :
    Concerns P { s with engine := s.engine.post table p } := by
  refine h.setActor (h.listeners table) (List.forall_mem_append.mpr ⟨h.inboxes table, fun q hq => ?_⟩)
  cases List.mem_singleton.mp hq
  exact hp

theorem deliver {whom : Subscriber} {m : Message} (h : s.Concerns P) (hwhom : P whom)
    (hm : m.channel = whom.channel) : (s.deliver whom m).Concerns P := by
  have hreceived : ∀ e ∈ (s.deliver whom m).connections, ∀ m' ∈ e.2.received, P ⟨e.1, m'.channel⟩ := by
    intro e he m' hm'
    rcases mem_connections_deliver he with he | ⟨c, hc, rfl⟩
    · exact h.received e he m' hm'
    · rcases List.mem_append.mp hm' with hm' | hm'
      · exact h.received _ hc m' hm'
      · rw [List.mem_singleton.mp hm', hm]
        exact hwhom
  rw [deliver_frame] at hreceived ⊢
  exact ⟨h.listeners, h.inboxes, h.tasks, hreceived⟩

theorem tasks_of {tasks : List Task} (h : s.Concerns P) (htasks : ∀ task ∈ tasks, task.Concerns P) :
    Concerns P { s with tasks } :=
  ⟨h.listeners, h.inboxes, htasks, h.received⟩

theorem foldl_notice {notices : List Notice} (h : s.Concerns P) (hn : ∀ n ∈ notices, n.Concerns P) :
    (notices.foldl notice s).Concerns P := by
  induction notices generalizing s with
  | nil => exact h
  | cons n notices ih =>
    have hfirst : n.Concerns P := hn n List.mem_cons_self
    refine ih ?_ fun m hm => hn m (List.mem_cons_of_mem _ hm)
    cases n with
    | rerun l key =>
      refine h.tasks_of (List.forall_mem_append.mpr ⟨h.tasks, fun task htask => ?_⟩)
      cases List.mem_singleton.mp htask
      exact hfirst
    | deliver whom m => exact h.deliver hfirst.1 hfirst.2

theorem act {a : Action} (h : s.Concerns P) (ha : a.Concerns P)
    (haddressed : ∀ whom m, a = .deliver whom m → m.channel = whom.channel) :
    (s.act a).Concerns P := by
  cases a with
  | post table p => exact h.post ha
  | broadcast p => exact h
  | deliver whom m => exact h.deliver ha (haddressed whom m rfl)
  | answer => exact ⟨h.listeners, h.inboxes, h.tasks, h.received⟩
  | hangUp c =>
    exact ⟨h.listeners, h.inboxes, h.tasks, fun e he => h.received e (Keyed.mem_of_mem_erase he)⟩

/-- What concerns subscribers in `P` goes on to do so. -/
theorem step (hs : s.Wired) (hstep : Step s t) (h : s.Concerns P) : t.Concerns P := by
  cases hstep with
  | task fuel order i hstep =>
    obtain ⟨task, others, s', next, htasks, hturn, htasks', ht⟩ := stepTask_split hstep
    have htask : task ∈ s.tasks := htasks.mem_iff.mpr List.mem_cons_self
    have hleft : s'.Concerns P := by
      cases hturn with
      | idle | done => exact h
      | starts hstarts =>
        rw [hstarts.frame]
        exact ⟨h.listeners, h.inboxes, h.tasks, h.received⟩
      | @acts rest a order =>
        refine h.act (h.tasks _ htask a List.mem_cons_self) fun whom m ha => ?_
        exact (hs.tasks _ htask).addressed whom m (ha ▸ List.mem_cons_self)
    rw [ht]
    exact hleft.tasks_of (all_tasks_of_next htasks htasks' h.tasks (Task.Concerns.turn (h.tasks task htask) hturn))
  | actor table hstep =>
    obtain ⟨p, rest, hinbox, rfl⟩ := stepActor_eq hstep
    have hp : p.Concerns P := h.inboxes table p (hinbox ▸ List.mem_cons_self)
    have hkept := Audience.concerns_handle (hs.engine.listeners table) (h.listeners table) hp
    have hnotices := Audience.notices_concern (hs.engine.listeners table) (h.listeners table) p
    refine Concerns.foldl_notice (h.setActor hkept fun q hq => ?_) hnotices
    exact h.inboxes table q (hinbox ▸ List.mem_cons_of_mem _ hq)

/-- What is to be run again and what the posts call for concerns the same subscribers. -/
theorem notices (hs : s.Wired) (h : s.Concerns P) : ∀ n ∈ s.notices, n.Concerns P := by
  refine List.forall_mem_append.mpr ⟨fun n hn => ?_, fun n hn => ?_⟩
  · obtain ⟨task, htask, hn⟩ := List.mem_filterMap.mp hn
    cases task with
    | rerun l key => cases hn; exact h.tasks _ htask
    | statement | write | actions => cases hn
  · obtain ⟨⟨table, a⟩, ha, hn⟩ := List.mem_flatMap.mp hn
    have hactor : s.engine.actor table = a := by
      rw [Engine.actor, Keyed.Ordered.find?_iff hs.engine.actors |>.mpr ha, Option.getD_some]
    subst hactor
    exact Actor.noticesFrom_concern (hs.engine.listeners table) (h.listeners table) (h.inboxes table) n hn

end Concerns

/-! ## Channels that were given out -/

/-- The connection was opened, and the channel was given out if the connection is still open. -/
def Issued (s : Database) (u : Subscriber) : Prop :=
  u.connection < s.nextConnection ∧ ∀ c, (u.connection, c) ∈ s.connections → u.channel < c.nextChannel

/-- Connections are numbered in the order in which they are opened, and whatever is there concerns channels that
were given out. -/
structure Numbered (s : Database) : Prop where
  connections : Keyed.Ordered s.connections
  opened : ∀ e ∈ s.connections, e.1 < s.nextConnection
  issued : s.Concerns s.Issued

/-- What concerns some subscribers concerns more of them. -/
theorem Concerns.mono {P' : Subscriber → Prop} (h : s.Concerns P) (hp : ∀ u, P u → P' u) : s.Concerns P' := by
  have hpost : ∀ p : Post, p.Concerns P → p.Concerns P' := by
    intro p hp'
    cases p with
    | subscribe x => exact hp _ hp'
    | event | remove => trivial
  have haction : ∀ a : Action, a.Concerns P → a.Concerns P' := by
    intro a ha
    cases a with
    | post table p => exact hpost p ha
    | broadcast p => exact hpost p ha
    | deliver whom m => exact hp _ ha
    | answer | hangUp => trivial
  refine ⟨fun table x hx => hp _ (h.listeners table x hx), fun table p hmem => hpost p (h.inboxes table p hmem),
    fun task htask => ?_, fun e he m hm => hp _ (h.received e he m hm)⟩
  have hall := h.tasks task htask
  cases task with
  | statement o text => exact fun u hu => hp u (hall u hu)
  | write o w => exact fun u hu => hp u (hall u hu)
  | rerun l key => exact hp _ hall
  | actions rest => exact fun a ha => haction a (hall a ha)

namespace Numbered

/-- Connections after a step: none is new, and the next channels are the same. -/
structure Keeps (s t : Database) : Prop where
  connections : Keyed.Ordered s.connections → Keyed.Ordered t.connections
  mem : ∀ c conn, (c, conn) ∈ t.connections →
    ∃ conn', (c, conn') ∈ s.connections ∧ conn.nextChannel = conn'.nextChannel
  next : t.nextConnection = s.nextConnection

theorem Keeps.of_eq (h : t.connections = s.connections) (hn : t.nextConnection = s.nextConnection) : Keeps s t :=
  ⟨fun hs => h ▸ hs, fun _ conn hc => ⟨conn, h ▸ hc, rfl⟩, hn⟩

theorem Keeps.trans {u : Database} (h : Keeps s t) (h' : Keeps t u) : Keeps s u := by
  refine ⟨fun hs => h'.connections (h.connections hs), fun c conn hc => ?_, h'.next.trans h.next⟩
  obtain ⟨conn', hc', heq'⟩ := h'.mem c conn hc
  obtain ⟨conn'', hc'', heq''⟩ := h.mem c conn' hc'
  exact ⟨conn'', hc'', heq'.trans heq''⟩

theorem Keeps.deliver (s : Database) (whom : Subscriber) (m : Message) : Keeps s (s.deliver whom m) := by
  refine ⟨fun hs => ?_, fun c conn hc => ?_, by rw [deliver_frame]⟩
  · unfold Database.deliver
    split
    next => exact hs
    next => exact Keyed.Ordered.insert hs _ _
  · rcases mem_connections_deliver hc with hc | ⟨conn', hc', heq⟩
    · exact ⟨conn, hc, rfl⟩
    · cases heq
      exact ⟨conn', hc', rfl⟩

theorem Keeps.foldl_notice (notices : List Notice) (s : Database) : Keeps s (notices.foldl notice s) := by
  induction notices generalizing s with
  | nil => exact .of_eq rfl rfl
  | cons n notices ih =>
    refine Keeps.trans ?_ (ih _)
    cases n with
    | rerun l key => exact .of_eq rfl rfl
    | deliver whom m => exact .deliver s whom m

theorem Keeps.act (s : Database) (a : Action) : Keeps s (s.act a) := by
  cases a with
  | deliver whom m => exact .deliver s whom m
  | hangUp c =>
    exact ⟨fun hs => Keyed.ordered_erase hs c, fun _ conn hc => ⟨conn, Keyed.mem_of_mem_erase hc, rfl⟩, rfl⟩
  | post | broadcast | answer => exact .of_eq rfl rfl

theorem Keeps.step (h : Step s t) : Keeps s t := by
  cases h with
  | task fuel order i h =>
    obtain ⟨task, others, s', next, -, hturn, -, ht⟩ := stepTask_split h
    suffices hkeeps : Keeps s s' by
      rw [ht]
      exact hkeeps.trans (.of_eq rfl rfl)
    cases hturn with
    | idle | done => exact .of_eq rfl rfl
    | starts hstarts =>
      rw [hstarts.frame]
      exact .of_eq rfl rfl
    | acts => exact .act s _
  | actor table h =>
    obtain ⟨p, rest, -, rfl⟩ := stepActor_eq h
    refine Keeps.trans ?_ (.foldl_notice _ _)
    exact .of_eq rfl rfl

theorem Keeps.issued (h : Keeps s t) {u : Subscriber} (hu : s.Issued u) : t.Issued u := by
  refine ⟨h.next ▸ hu.1, fun c hc => ?_⟩
  obtain ⟨c', hc', heq⟩ := h.mem _ c hc
  exact heq ▸ hu.2 c' hc'

theorem step (hs : s.Wired) (h : s.Numbered) (hstep : Step s t) : t.Numbered := by
  have hkeeps := Keeps.step hstep
  refine ⟨hkeeps.connections h.connections, fun e he => ?_,
    (h.issued.step hs hstep).mono fun _ hu => hkeeps.issued hu⟩
  obtain ⟨c, hc, -⟩ := hkeeps.mem e.1 e.2 he
  rw [hkeeps.next]
  exact h.opened (e.1, c) hc

/-- A new task that concerns channels that were given out. -/
theorem ask (h : s.Numbered) (task : Task) (htask : task.Concerns s.Issued) :
    Numbered { s with tasks := s.tasks ++ [task] } := by
  refine ⟨h.connections, h.opened, h.issued.tasks_of (List.forall_mem_append.mpr ⟨h.issued.tasks, ?_⟩)⟩
  intro task' hmem
  cases List.mem_singleton.mp hmem
  exact htask

/-- The channel of a new statement was not given out before. -/
theorem not_issued {connection channel : Nat} {text : String} (h : s.run connection text = some (channel, t)) :
    ¬s.Issued ⟨connection, channel⟩ := by
  obtain ⟨c, hc, rfl, rfl⟩ := Database.run_eq h
  exact fun hissued => absurd (hissued.2 c (Keyed.mem_of_find? hc)) (Nat.lt_irrefl _)

/-- All that is there when a statement gets a channel is about other channels. -/
theorem concerns_run {connection channel : Nat} {text : String} (h : s.Numbered)
    (hrun : s.run connection text = some (channel, t)) : s.Concerns (· ≠ ⟨connection, channel⟩) :=
  h.issued.mono fun _ hu heq => not_issued hrun (heq ▸ hu)

/-- A connection is opened or changed; its channels that were given out stay given out. -/
theorem insert (h : s.Numbered) {k next : Nat} {c : Connection} (hk : k < next) (hnext : s.nextConnection ≤ next)
    (hissued : ∀ n, s.Issued ⟨k, n⟩ → n < c.nextChannel) (hreceived : ∀ m ∈ c.received, s.Issued ⟨k, m.channel⟩) :
    Numbered { s with connections := Keyed.insert s.connections k c, nextConnection := next } := by
  refine ⟨Keyed.Ordered.insert h.connections k c, fun e he => ?_, Concerns.mono (P := s.Issued)
    ⟨h.issued.listeners, h.issued.inboxes, h.issued.tasks, fun e he => ?_⟩ fun u hu => ?_⟩
  · rcases Keyed.mem_of_mem_insert he with rfl | he
    · exact hk
    · exact Nat.lt_of_lt_of_le (h.opened e he) hnext
  · rcases Keyed.mem_of_mem_insert he with rfl | he
    · exact hreceived
    · exact h.issued.received e he
  · refine ⟨Nat.lt_of_lt_of_le hu.1 hnext, fun c' hc' => ?_⟩
    rcases Keyed.mem_of_mem_insert hc' with heq | hc'
    · obtain ⟨hconnection, rfl⟩ := Prod.mk.inj heq
      exact hissued u.channel (hconnection ▸ hu)
    · exact hu.2 c' hc'

theorem run {connection channel : Nat} {text : String} (h : s.Numbered)
    (hrun : s.run connection text = some (channel, t)) : t.Numbered := by
  obtain ⟨c, hc, rfl, rfl⟩ := Database.run_eq hrun
  have hmem := Keyed.mem_of_find? hc
  have hinsert := h.insert (c := { c with nextChannel := c.nextChannel + 1 }) (h.opened _ hmem)
    (Nat.le_refl _) (fun n hn => Nat.lt_succ_of_lt (hn.2 c hmem)) (h.issued.received _ hmem)
  refine hinsert.ask (.statement (.channel ⟨connection, c.nextChannel⟩) text) ?_
  rintro u ⟨⟩
  refine ⟨h.opened _ hmem, fun c' hc' => ?_⟩
  have hfind := hinsert.connections.find?_iff.mpr hc'
  rw [Keyed.find?_insert_self] at hfind
  cases hfind
  exact Nat.lt_succ_self _

theorem move {texts : String → Prop} (hs : s.Wired) (h : s.Numbered) (hmove : Move texts s t) : t.Numbered := by
  cases hmove with
  | step hstep => exact h.step hs hstep
  | connect =>
    exact h.insert (Nat.lt_succ_self _) (Nat.le_succ _) (fun n hn => absurd hn.1 (Nat.lt_irrefl _)) (by simp)
  | call => exact h.ask _ (by simp [Task.Concerns, Origin.subscriber?])
  | run sent hrun => exact h.run hrun
  | closeChannel => exact h.ask _ (by simp [Task.Concerns, Action.Concerns, Post.Concerns])
  | disconnect => exact h.ask _ (by simp [Task.Concerns, Action.Concerns, Post.Concerns])
  | takeMessages connection =>
    rcases s.takeMessages_cases connection with ⟨c, hc, heq⟩ | heq <;> rw [heq]
    · have hmem := Keyed.mem_of_find? hc
      exact h.insert (h.opened _ hmem) (Nat.le_refl _) (fun n hn => hn.2 c hmem) (by simp)
    · exact h

end Numbered

end Database

/-! ## Open connections -/

namespace Database

variable {s t : Database} {u : Subscriber} {c : Nat}

theorem received_of_closed (h : ¬s.IsOpen u.connection) : s.received u = [] := by
  rw [received, inboxOf]
  cases hc : Keyed.find? s.connections u.connection with
  | none => rfl
  | some conn => exact absurd (by rw [IsOpen, hc]; rfl) h

theorem isOpen_iff_mem : s.IsOpen c ↔ ∃ conn, (c, conn) ∈ s.connections := by
  refine ⟨fun h => ?_, fun ⟨conn, hc⟩ => ?_⟩
  · obtain ⟨conn, hc⟩ := Option.isSome_iff_exists.mp h
    exact ⟨conn, Keyed.mem_of_find? hc⟩
  · rw [IsOpen, Option.isSome_iff_ne_none, Ne, Keyed.find?_eq_none, not_not]
    exact List.mem_map_of_mem hc

/-- No step opens a connection. -/
theorem isOpen_of_step (hstep : Step s t) (h : t.IsOpen c) : s.IsOpen c := by
  obtain ⟨conn, hc⟩ := isOpen_iff_mem.mp h
  obtain ⟨conn', hc', -⟩ := (Numbered.Keeps.step hstep).mem c conn hc
  exact isOpen_iff_mem.mpr ⟨conn', hc'⟩

theorem isOpen_of_steps (hruns : Relation.ReflTransGen Step s t) (h : t.IsOpen c) : s.IsOpen c := by
  induction hruns with
  | refl => exact h
  | tail _ hstep ih => exact ih (isOpen_of_step hstep h)

theorem not_isOpen_hangUp (hs : Keyed.Ordered s.connections) (c : Nat) : ¬(s.act (.hangUp c)).IsOpen c := by
  rw [IsOpen, act, Keyed.find?_erase hs.nodup, if_pos rfl]
  exact Bool.false_ne_true

theorem ne_hangUp_of_isOpen {a : Action} (hs : Keyed.Ordered s.connections) (h : (s.act a).IsOpen c) :
    a ≠ .hangUp c := by
  rintro rfl
  exact not_isOpen_hangUp hs c h

end Database

theorem Reachable.numbered {s : Database} (h : Reachable s) : s.Numbered := by
  induction h with
  | @opened store s ordered h =>
    obtain ⟨schema, -, rfl⟩ := Database.eq_of_ofStore h
    exact ⟨List.Pairwise.nil, by simp, ⟨fun table => by simp [Engine.actor, Keyed.find?],
      fun table => by simp [Engine.actor, Keyed.find?], by simp, by simp⟩⟩
  | move before h ih => exact ih.move before.wired h

end LiveQuery
