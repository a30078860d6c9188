import LiveQuery.Proofs.Live.Accounts
import LiveQuery.Proofs.Live.Reruns
import LiveQuery.Proofs.Machine.Sender

/-! # Settling

From the moment when all writes are published nothing changes in the tables until all is quiet, so what every
channel gets is settled: the listeners that it has already and those that the queries to be run again subscribe
(`Database.prospect`), and the messages on their way with the rows of these queries (`Database.due`). Whatever
moves next, a step keeps both (`Database.Settling.step_prospect`, `Database.Settling.step_due`), up to the
listeners that a removal takes away.
-/
namespace LiveQuery

/-- Whether an action publishes a write. -/
def Action.publishes : Action → Bool
  | .post _ (.event _) | .broadcast (.event _) => true
  | _ => false

/-- Whether an action removes the listeners of a subscriber. -/
def Action.dismisses (u : Subscriber) : Action → Bool
  | .post _ (.remove d) | .broadcast (.remove d) => d.covers ⟨u, none, []⟩
  | _ => false

/-- Whether an action closes a connection. -/
def Action.hangsUp (connection : Nat) : Action → Bool
  | .hangUp c => c == connection
  | _ => false

theorem Leaving.covers_eq (d : Leaving) (l : Listener) : d.covers l = d.covers ⟨l.subscriber, none, []⟩ := by
  cases d <;> rfl

/-- A query to be run again, or actions that publish no write. -/
def Task.Settling : Task → Prop
  | .rerun .. => True
  | .actions rest => ∀ a ∈ rest, a.publishes = false
  | .statement .. | .write .. => False

/-- No statement is under way, and no write has yet to be published. -/
def Database.Settling (s : Database) : Prop := ∀ task ∈ s.tasks, task.Settling

/-- The subscriptions to a table that a notice leads to on a channel. -/
def Notice.sent (schema : Schema) (store : Store) (u : Subscriber) (table : String) : Notice → List Subscription
  | .rerun l key => if l.subscriber = u then (l.sent schema store key).filter (·.tableName = table) else []
  | .deliver .. => []

/-- The messages that a notice leads to on a channel. -/
def Notice.messages (schema : Schema) (store : Store) (u : Subscriber) : Notice → List Message
  | .rerun l key => if l.subscriber = u then l.messages schema store key else []
  | .deliver whom m => if whom = u then [m] else []

section Calls

variable (schema : Schema) (store : Store) (u : Subscriber) (xs : List Subscription)

/-- What a channel subscribes to when the queries of listeners are run again is up to its own listeners. -/
theorem sent_reruns (key : Literal) (table : String) :
    (xs.map fun x => Notice.rerun x.listener key).flatMap (Notice.sent schema store u table) =
      ((xs.filter (·.listener.subscriber = u)).flatMap fun x => x.listener.sent schema store key).filter
        (·.tableName = table) := by
  induction xs with
  | nil => rfl
  | cons x xs ih =>
    rw [List.map_cons, List.flatMap_cons, ih, Notice.sent, List.filter_cons]
    by_cases hx : x.listener.subscriber = u <;> simp [hx]

/-- So are the messages that it is to get. -/
theorem messages_reruns (key : Literal) :
    (xs.map fun x => Notice.rerun x.listener key).flatMap (Notice.messages schema store u) =
      (xs.filter (·.listener.subscriber = u)).flatMap fun x => x.listener.messages schema store key := by
  induction xs with
  | nil => rfl
  | cons x xs ih =>
    rw [List.map_cons, List.flatMap_cons, ih, Notice.messages, List.filter_cons]
    by_cases hx : x.listener.subscriber = u <;> simp [hx]

theorem sent_delivers (old new : Json) (table : String) :
    (xs.map fun x => Notice.deliver x.listener.subscriber (x.listener.recordUpdate old new)).flatMap
      (Notice.sent schema store u table) = [] := by
  simp [List.flatMap_map, Notice.sent]

theorem messages_delivers (old new : Json) :
    (xs.map fun x => Notice.deliver x.listener.subscriber (x.listener.recordUpdate old new)).flatMap
      (Notice.messages schema store u) =
        (xs.filter (·.listener.subscriber = u)).map fun x => x.listener.recordUpdate old new := by
  induction xs with
  | nil => rfl
  | cons x xs ih =>
    rw [List.map_cons, List.flatMap_cons, ih, Notice.messages, List.filter_cons]
    by_cases hx : x.listener.subscriber = u <;> simp [hx]

end Calls

namespace Database

variable {s t : Database} {u : Subscriber}

/-- The listeners of a channel on a table once all is quiet, if no removal takes them away. -/
def prospect (s : Database) (u : Subscriber) (table : String) : List Subscription :=
  (s.watches table).filter (·.listener.subscriber = u) ++ s.notices.flatMap (Notice.sent s.schema s.store u table)

/-- The messages that a channel has yet to receive. -/
def due (s : Database) (u : Subscriber) : List Message :=
  s.incoming u ++ s.notices.flatMap (Notice.messages s.schema s.store u)

/-- The same, if the queries are run again on given tables and rows. -/
def dueAt (s : Database) (schema : Schema) (store : Store) (u : Subscriber) : List Message :=
  s.incoming u ++ s.notices.flatMap (Notice.messages schema store u)

/-- The queries of a channel that are to be run again have no more levels than can be numbered. -/
def Numberable (s : Database) (u : Subscriber) : Prop :=
  ∀ l key, .rerun l key ∈ s.notices → l.subscriber = u → ∀ q ∈ l.query, q.levels ≤ Plan.maxPoints

/-- What the queries of a channel yield when they are run again is what their listeners are to send and to tell. -/
def Foreseen (s : Database) (u : Subscriber) : Prop :=
  ∀ {l : Listener} {key : Literal} {q : Query} {fuel : Nat} {r : Evaluation Json}, .rerun l key ∈ s.notices →
    l.subscriber = u → l.query = some q → LiveQuery.rerun fuel s.schema s.store l q key = some r →
      r.sent = l.sent s.schema s.store key ∧
        updateActions l r.outcome = (l.messages s.schema s.store key).map (.deliver l.subscriber)

/-- Nothing is to be foreseen of a channel that no notice is about. -/
theorem foreseen_of_unconcerned (h : ∀ l key, .rerun l key ∈ s.notices → l.subscriber ≠ u) : s.Foreseen u :=
  fun hrerun hu => absurd hu (h _ _ hrerun)

/-! ## What a step turns into what -/

theorem watches_of_posts {T : String} (sent : List Subscription) :
    (subscribeActions sent).flatMap (Action.subscriptions T) = sent.filter (·.tableName = T) := by
  induction sent with
  | nil => rfl
  | cons x sent ih =>
    have hcons : (subscribeActions (x :: sent)).flatMap (Action.subscriptions T) =
        Action.subscriptions T (.post x.tableName (.subscribe x)) ++
          (subscribeActions sent).flatMap (Action.subscriptions T) := rfl
    rw [hcons, ih, List.filter_cons, Action.subscriptions]
    by_cases hx : x.tableName = T
    · subst hx
      rw [if_pos rfl, if_pos (decide_eq_true rfl), Subscription.on_tableName]
      rfl
    · rw [if_neg hx, if_neg (by simpa using hx)]
      rfl

theorem watches_of_deliveries {T : String} {l : Listener} (r : Except Fault Json) :
    (updateActions l r).flatMap (Action.subscriptions T) = [] := by
  refine List.flatMap_eq_nil_iff.mpr fun a ha => ?_
  obtain ⟨m, rfl, -⟩ := mem_updateActions ha
  rfl

theorem incoming_of_posts (sent : List Subscription) :
    (subscribeActions sent).filterMap (Action.message? u) = [] := by
  refine List.filterMap_eq_nil_iff.mpr fun a ha => ?_
  obtain ⟨x, -, rfl⟩ := List.mem_map.mp ha
  rfl

/-- A test of actions that fails for a broadcast as it does for each of its posts. -/
theorem fanOut_all {test : Action → Bool} {order : Traversal} {a : Action}
    (hposts : ∀ table p, test (.post table p) = test (.broadcast p)) (h : test a = false) :
    ∀ b ∈ s.fanOut order a, test b = false := by
  intro b hb
  obtain ⟨table, -, p, rfl, rfl⟩ := mem_fanOut hb
  rwa [hposts]

/-- An action that publishes nothing calls for nothing. -/
theorem calls_of_not_publishes {a : Action} (h : a.publishes = false) : s.calls a = [] := by
  cases a with
  | post table p =>
    cases p with
    | event e => cases h
    | subscribe | remove => rfl
  | broadcast | deliver | answer | hangUp => rfl

/-- What a query yields that is run again waits to be handed over. -/
theorem Foreseen.incoming {l : Listener} {key : Literal} {q : Query} {fuel : Nat} {r : Evaluation Json}
    (hforeseen : s.Foreseen u) (hmem : .rerun l key ∈ s.notices) (hq : l.query = some q)
    (hr : LiveQuery.rerun fuel s.schema s.store l q key = some r) :
    (subscribeActions r.sent ++ updateActions l r.outcome).filterMap (Action.message? u) =
      Notice.messages s.schema s.store u (.rerun l key) := by
  rw [List.filterMap_append, incoming_of_posts, List.nil_append, Notice.messages]
  split
  next hu =>
    rw [(hforeseen hmem hu hq hr).2, List.filterMap_map]
    simp [Action.message?, hu]
  next hu =>
    refine List.filterMap_eq_nil_iff.mpr fun a ha => ?_
    obtain ⟨m, rfl, -⟩ := mem_updateActions ha
    simp [Action.message?, hu]

section Due

variable (schema : Schema) (store : Store) (u : Subscriber)

/-- What a task turns into has messages to hand over, in place of those that the task stood for. -/
theorem dueAt_of_begins {task task' : Task} (pending : t.pending.Perm (task'.pending ++ s.pending))
    (notices : s.notices.Perm (task.notice?.toList ++ t.notices)) :
    (task'.pending.filterMap (Action.message? u) ++ s.dueAt schema store u).Perm
      (task.notice?.toList.flatMap (Notice.messages schema store u) ++ t.dueAt schema store u) := by
  have hposts := pending.filterMap (Action.message? u)
  have hnotices := notices.flatMap_right (Notice.messages schema store u)
  rw [List.filterMap_append] at hposts
  rw [List.flatMap_append] at hnotices
  rw [dueAt, dueAt, ← List.append_assoc]
  exact ((hposts.symm.append hnotices).trans (List.perm_append_comm_assoc _ _ _))

theorem dueAt_of_lapses {l : Listener} {key : Literal} (query : l.query = none) (pending : t.pending.Perm s.pending)
    (notices : s.notices.Perm (.rerun l key :: t.notices)) :
    (s.dueAt schema store u).Perm (t.dueAt schema store u) := by
  have hnil : Notice.messages schema store u (.rerun l key) = [] := by
    simp [Notice.messages, Listener.messages, query]
  have hnotices := notices.flatMap_right (Notice.messages schema store u)
  rw [List.flatMap_cons, hnil, List.nil_append] at hnotices
  exact (pending.symm.filterMap _).append hnotices

theorem dueAt_of_ends (pending : t.pending.Perm s.pending) (notices : t.notices.Perm s.notices) :
    (s.dueAt schema store u).Perm (t.dueAt schema store u) :=
  (pending.symm.filterMap _).append (notices.symm.flatMap_right _)

/-- An action hands over its message and adds those of the queries that it calls for. -/
theorem dueAt_of_acts {rest others : List Action} {a : Action} {order : Traversal}
    (horderly : Task.Orderly (.actions (a :: rest))) (before : s.pending.Perm (a :: rest ++ others))
    (after : t.pending.Perm (s.fanOut order a ++ rest ++ others)) (notices : t.notices.Perm (s.notices ++ s.calls a)) :
    (s.dueAt schema store u ++ (s.calls a).flatMap (Notice.messages schema store u)).Perm
      ((a.message? u).toList ++ t.dueAt schema store u) := by
  have hhanded : (s.incoming u).Perm ((a.message? u).toList ++ t.incoming u) :=
    filterMap_acts horderly before after fun _ _ => rfl
  have hnotices := notices.flatMap_right (Notice.messages schema store u)
  rw [List.flatMap_append] at hnotices
  rw [dueAt, dueAt, List.append_assoc, ← List.append_assoc (a.message? u).toList]
  exact hhanded.append hnotices.symm

/-- What an actor hands over was due. -/
theorem dueAt_of_handles {handed : List Notice} (pending : t.pending = s.pending)
    (messages : ∀ n ∈ handed, n.isRerun = false) (notices : s.notices.Perm (handed ++ t.notices)) :
    (s.dueAt schema store u).Perm (handed.filterMap (Notice.message? u) ++ t.dueAt schema store u) := by
  have hmessages : handed.flatMap (Notice.messages schema store u) = handed.filterMap (Notice.message? u) := by
    rw [List.filterMap_eq_flatMap_toList]
    refine List.flatMap_congr fun n hn => ?_
    have hrerun := messages n hn
    cases n with
    | rerun => cases hrerun
    | deliver whom m =>
      rw [Notice.messages, Notice.message?]
      split <;> rfl
  have hnotices := notices.flatMap_right (Notice.messages schema store u)
  rw [List.flatMap_append, hmessages] at hnotices
  rw [dueAt, dueAt, incoming, incoming, pending]
  exact (hnotices.append_left _).trans (List.perm_append_comm_assoc _ _ _)

end Due

/-- An action that takes a listener of a channel away dismisses the channel. -/
theorem dismisses_of_takes {a : Action} {table : String} {x : Subscription} (h : a.takes table x = true)
    (hx : x.listener.subscriber = u) : a.dismisses u = true := by
  unfold Action.takes at h
  split at h
  next name d =>
    have hcovers := (Bool.and_eq_true_iff.mp h).2
    rw [Leaving.covers_eq, hx] at hcovers
    exact hcovers
  next => cases h

section Watches

theorem watches_of_pending (engine : t.engine = s.engine) (pending : t.pending.Perm s.pending) (table : String) :
    (t.watches table).Perm (s.watches table) := by
  rw [watches, watches, engine]
  exact (pending.flatMap_right _).append_left _

/-- What a query subscribes to that is run again joins those that watch. -/
theorem watches_of_resumed {l : Listener} {r : Evaluation Json} (engine : t.engine = s.engine)
    (pending : t.pending.Perm (subscribeActions r.sent ++ updateActions l r.outcome ++ s.pending)) (table : String) :
    (t.watches table).Perm (r.sent.filter (·.tableName = table) ++ s.watches table) := by
  have hposts := pending.flatMap_right (Action.subscriptions table)
  rw [List.flatMap_append, List.flatMap_append, watches_of_posts, watches_of_deliveries, List.append_nil] at hposts
  rw [watches, engine]
  exact (hposts.append_left _).trans (List.perm_append_comm_assoc _ _ _)

/-- Of those that watch an action leaves all but those that it takes away. -/
theorem watches_of_acts (hs : s.engine.Ordered) {a : Action} (engine : t.engine = (s.act a).engine) {table : String}
    (hsubscriptions : (s.pending.flatMap (Action.subscriptions table)).Perm
      (a.subscriptions table ++ t.pending.flatMap (Action.subscriptions table))) :
    ∃ gone, (s.watches table).Perm (gone ++ t.watches table) ∧ ∀ x ∈ gone, a.takes table x = true := by
  let there := a.subscriptions table ++ (s.engine.audience table).subscriptions table
  have hkept : (t.watches table).Perm
      (there.filter (fun x => !a.takes table x) ++ t.pending.flatMap (Action.subscriptions table)) := by
    rw [watches, engine]
    exact (subscriptions_act hs a table).append_right _
  have hsplit : (s.watches table).Perm (there ++ t.pending.flatMap (Action.subscriptions table)) := by
    refine (hsubscriptions.append_left _).trans ?_
    rw [List.append_assoc]
    exact List.perm_append_comm_assoc _ _ _
  refine ⟨there.filter fun x => a.takes table x, ?_, fun x hx => (List.mem_filter.mp hx).2⟩
  refine (hsplit.trans ((List.filter_append_perm (fun x => a.takes table x) there).symm.append_right _)).trans ?_
  rw [List.append_assoc]
  exact hkept.symm.append_left _

end Watches

namespace Settling

/-- What follows a task that settles settles too, and tables and rows stay as they are. -/
theorem turn {task : Task} {next : Option Task} (htask : task.Settling) (h : Turn s task t next) :
    t.store = s.store ∧ t.schema = s.schema ∧ ∀ task' ∈ next, task'.Settling := by
  cases h with
  | idle | done => exact ⟨rfl, rfl, by simp⟩
  | starts hstarts =>
    cases hstarts with
    | resumed query fuel run =>
      refine ⟨rfl, rfl, ?_⟩
      rintro task' ⟨⟩ a ha
      rcases List.mem_append.mp ha with ha | ha
      · obtain ⟨x, -, rfl⟩ := List.mem_map.mp ha
        rfl
      · obtain ⟨m, rfl, -⟩ := mem_updateActions ha
        rfl
    | write | ended | selected | refused | committed => exact htask.elim
  | @acts rest a order =>
    obtain ⟨hstore, hschema, -⟩ := s.act_rest a
    obtain ⟨ha, hrest⟩ := List.forall_mem_cons.mp htask
    refine ⟨hstore, hschema, fun task' hmem => ?_⟩
    rw [eq_of_mem_restTask hmem]
    exact List.forall_mem_append.mpr ⟨fanOut_all (fun _ p => by cases p <;> rfl) ha, hrest⟩

theorem step (hs : s.Settling) (h : Step s t) : t.Settling ∧ t.store = s.store ∧ t.schema = s.schema := by
  cases h with
  | task fuel order i h =>
    obtain ⟨task, others, s', next, htasks, hturn, htasks', ht⟩ := stepTask_split h
    obtain ⟨hstore, hschema, hnext⟩ := turn (hs task (htasks.mem_iff.mpr List.mem_cons_self)) hturn
    exact ⟨all_tasks_of_next htasks htasks' hs hnext, by rw [ht]; exact hstore, by rw [ht]; exact hschema⟩
  | actor table h =>
    obtain ⟨hstore, hschema, htasks⟩ := stepActor_rest h
    refine ⟨fun task hmem => ?_, hstore, hschema⟩
    rcases htasks task hmem with hmem | ⟨l, key, rfl⟩
    · exact hs task hmem
    · trivial

theorem steps (hs : s.Settling) (h : Relation.ReflTransGen Step s t) : t.Settling := by
  induction h with
  | refl => exact hs
  | tail _ hstep ih => exact (ih.step hstep).1

/-- Until all is quiet the tables and rows stay as they are. -/
theorem run (hs : s.Settling) (h : Relation.ReflTransGen Step s t) : t.store = s.store ∧ t.schema = s.schema := by
  induction h with
  | refl => exact ⟨rfl, rfl⟩
  | tail hruns hstep ih =>
    obtain ⟨-, hstore, hschema⟩ := (hs.steps hruns).step hstep
    exact ⟨hstore.trans ih.1, hschema.trans ih.2⟩

/-- The notices under way only become fewer. -/
theorem notices_subset (hs : s.Settling) (hwired : s.Wired) (h : Step s t) : t.notices ⊆ s.notices := by
  intro n hn
  cases progress hwired h with
  | begins mem starts frame pending notices => exact notices.mem_iff.mpr (List.mem_append_right _ hn)
  | lapses query frame pending notices => exact notices.mem_iff.mpr (List.mem_cons_of_mem _ hn)
  | ends mem frame pending notices => exact notices.mem_iff.mp hn
  | acts order mem frame before after notices =>
    rw [calls_of_not_publishes (hs _ mem _ List.mem_cons_self), List.append_nil] at notices
    exact notices.mem_iff.mp hn
  | handles store schema audience pending open_iff messages notices received =>
    exact notices.mem_iff.mpr (List.mem_append_right _ hn)

/-- What no action does that waits, no later one does, if it is neither a subscription nor a message. -/
theorem pending_all (hs : s.Settling) (hwired : s.Wired) {test : Action → Bool}
    (hposts : ∀ table p, test (.post table p) = test (.broadcast p))
    (hsubscribe : ∀ table x, test (.post table (.subscribe x)) = false)
    (hdeliver : ∀ whom m, test (.deliver whom m) = false) (hnone : ∀ a ∈ s.pending, test a = false)
    (h : Step s t) : ∀ a ∈ t.pending, test a = false := by
  intro b hb
  cases progress hwired h with
  | begins mem starts frame pending notices =>
    rcases List.mem_append.mp (pending.mem_iff.mp hb) with hb | hb
    · cases starts with
      | write | ended | selected | refused | committed => exact (hs _ mem).elim
      | resumed =>
        rcases List.mem_append.mp hb with hb | hb
        · obtain ⟨x, -, rfl⟩ := List.mem_map.mp hb
          exact hsubscribe _ x
        · obtain ⟨m, rfl, -⟩ := mem_updateActions hb
          exact hdeliver _ m
    · exact hnone b hb
  | lapses query frame pending notices => exact hnone b (pending.mem_iff.mp hb)
  | ends mem frame pending notices => exact hnone b (pending.mem_iff.mp hb)
  | @acts rest others a order mem frame before after notices =>
    rw [List.append_assoc] at after
    rcases List.mem_append.mp (after.mem_iff.mp hb) with hb | hb
    · exact fanOut_all hposts (hnone a (before.mem_iff.mpr List.mem_cons_self)) b hb
    · exact hnone b (before.mem_iff.mpr (List.mem_cons_of_mem _ hb))
  | handles store schema audience pending open_iff messages notices received => exact hnone b (pending ▸ hb)

theorem run_notices_subset (hs : s.Settling) (hwired : s.Wired) (h : Relation.ReflTransGen Step s t) :
    t.notices ⊆ s.notices := by
  induction h using Relation.ReflTransGen.head_induction_on with
  | refl => exact List.Subset.refl _
  | head hstep _ ih =>
    exact List.Subset.trans (ih (hs.step hstep).1 (hwired.step hstep)) (hs.notices_subset hwired hstep)

theorem run_pending_all (hs : s.Settling) (hwired : s.Wired) {test : Action → Bool}
    (hposts : ∀ table p, test (.post table p) = test (.broadcast p))
    (hsubscribe : ∀ table x, test (.post table (.subscribe x)) = false)
    (hdeliver : ∀ whom m, test (.deliver whom m) = false) (hnone : ∀ a ∈ s.pending, test a = false)
    (h : Relation.ReflTransGen Step s t) : ∀ a ∈ t.pending, test a = false := by
  induction h using Relation.ReflTransGen.head_induction_on with
  | refl => exact hnone
  | head hstep _ ih =>
    exact ih (hs.step hstep).1 (hwired.step hstep) (hs.pending_all hwired hposts hsubscribe hdeliver hnone hstep)

/-- What a query of any channel subscribes to when it is run again, as seen by one channel. -/
theorem filter_sent (hforeseen : s.Foreseen u) {l : Listener} {key : Literal} (hmem : .rerun l key ∈ s.notices)
    {q : Query} (hq : l.query = some q) {fuel : Nat} {r : Evaluation Json}
    (hr : LiveQuery.rerun fuel s.schema s.store l q key = some r) (table : String) :
    (r.sent.filter (·.tableName = table)).filter (·.listener.subscriber = u) =
      Notice.sent s.schema s.store u table (.rerun l key) := by
  have hsender := rerun_sent hr
  rw [Notice.sent]
  split
  next hu =>
    rw [(hforeseen hmem hu hq hr).1] at hsender ⊢
    refine List.filter_eq_self.mpr fun x hx => ?_
    rw [hsender x (List.mem_of_mem_filter hx), hu, decide_eq_true_iff]
  next hu =>
    refine List.filter_eq_nil_iff.mpr fun x hx => ?_
    rw [hsender x (List.mem_of_mem_filter hx), decide_eq_true_iff]
    exact hu

/-- A step keeps the listeners that a channel will have, up to those that a removal takes away. -/
theorem step_prospect (hs : s.Settling) (hwired : s.Wired) (hforeseen : s.Foreseen u) (h : Step s t)
    (table : String) :
    ∃ gone, (s.prospect u table).Perm (gone ++ t.prospect u table) ∧
      ((∀ a ∈ s.pending, a.dismisses u = false) → gone = []) := by
  obtain ⟨-, hstore, hschema⟩ := hs.step h
  simp only [prospect, hstore, hschema]
  cases progress hwired h with
  | begins mem starts frame pending notices =>
    cases starts with
    | write | ended | selected | refused | committed => exact (hs _ mem).elim
    | @resumed l key q r query fuel run =>
      refine ⟨[], ?_, fun _ => rfl⟩
      have hrerun : .rerun l key ∈ s.notices := notices.mem_iff.mpr List.mem_cons_self
      have hwatches := (watches_of_resumed (by rw [frame]) pending table).filter (·.listener.subscriber = u)
      rw [List.filter_append, filter_sent hforeseen hrerun query run] at hwatches
      -- what the notice led to is now on its way
      have hnotices : (s.notices.flatMap (Notice.sent s.schema s.store u table)).Perm
          (Notice.sent s.schema s.store u table (.rerun l key) ++
            t.notices.flatMap (Notice.sent s.schema s.store u table)) := notices.flatMap_right _
      refine (hnotices.append_left _).trans ((List.perm_append_comm_assoc _ _ _).trans ?_)
      rw [← List.append_assoc]
      exact hwatches.symm.append_right _
  | @lapses l key query frame pending notices =>
    refine ⟨[], ?_, fun _ => rfl⟩
    have hwatches := watches_of_pending (by rw [frame]) pending table
    have hnil : Notice.sent s.schema s.store u table (.rerun l key) = [] := by
      simp [Notice.sent, Listener.sent, query]
    have hnotices := notices.flatMap_right (Notice.sent s.schema s.store u table)
    rw [List.flatMap_cons, hnil, List.nil_append] at hnotices
    exact (hwatches.filter _).symm.append hnotices
  | ends mem frame pending notices =>
    refine ⟨[], ?_, fun _ => rfl⟩
    have hwatches := watches_of_pending (by rw [frame]) pending table
    exact (hwatches.filter _).symm.append (notices.symm.flatMap_right _)
  | @acts rest others a order mem frame before after notices =>
    rw [calls_of_not_publishes (hs _ mem a List.mem_cons_self), List.append_nil] at notices
    obtain ⟨gone, hwatches, htakes⟩ := watches_of_acts hwired.engine (by rw [frame])
      (flatMap_acts (f := Action.subscriptions table) (hwired.tasks _ mem) before after fun _ _ => rfl)
    refine ⟨gone.filter (·.listener.subscriber = u), ?_, fun hnone => ?_⟩
    · have hsplit := hwatches.filter (·.listener.subscriber = u)
      rw [List.filter_append] at hsplit
      rw [← List.append_assoc]
      exact hsplit.append (notices.symm.flatMap_right _)
    · have hdismiss : a.dismisses u = false := hnone a (before.mem_iff.mpr List.mem_cons_self)
      refine List.filter_eq_nil_iff.mpr fun x hx hu => ?_
      rw [dismisses_of_takes (htakes x hx) (of_decide_eq_true hu)] at hdismiss
      cases hdismiss
  | @handles handed store schema audience pending open_iff messages notices received =>
    refine ⟨[], ?_, fun _ => rfl⟩
    have hnil : handed.flatMap (Notice.sent s.schema s.store u table) = [] := by
      refine List.flatMap_eq_nil_iff.mpr fun n hn => ?_
      have hrerun := messages n hn
      cases n with
      | rerun => cases hrerun
      | deliver => rfl
    have hsent := notices.flatMap_right (Notice.sent s.schema s.store u table)
    rw [List.flatMap_append, hnil, List.nil_append] at hsent
    rw [List.nil_append, watches, watches, audience, pending]
    exact hsent.append_left _

/-- A step hands over some of the messages that a channel is to receive, and the others stay due. -/
theorem step_due (hs : s.Settling) (hwired : s.Wired) (hforeseen : s.Foreseen u) (hopen : s.IsOpen u.connection)
    (hstays : ∀ a ∈ s.pending, a.hangsUp u.connection = false) (h : Step s t) : t.IsOpen u.connection ∧
      ∃ ms, t.received u = s.received u ++ ms ∧ (s.due u).Perm (ms ++ t.due u) := by
  obtain ⟨-, hstore, hschema⟩ := hs.step h
  have hsame : t.due u = t.dueAt s.schema s.store u := by rw [due, dueAt, hstore, hschema]
  have hquiet : t.connections = s.connections → (s.due u).Perm (t.dueAt s.schema s.store u) → t.IsOpen u.connection ∧
      ∃ ms, t.received u = s.received u ++ ms ∧ (s.due u).Perm (ms ++ t.dueAt s.schema s.store u) :=
    fun hconnections hdue => ⟨(isOpen_congr hconnections).mpr hopen, [],
      by rw [received_congr hconnections, List.append_nil], hdue⟩
  rw [hsame]
  cases progress hwired h with
  | begins mem starts frame pending notices =>
    cases starts with
    | write | ended | selected | refused | committed => exact (hs _ mem).elim
    | @resumed l key q r query fuel run =>
      have hrerun : .rerun l key ∈ s.notices := notices.mem_iff.mpr List.mem_cons_self
      have hdue := dueAt_of_begins s.schema s.store u pending notices
      rw [Task.pending, hforeseen.incoming hrerun query run, Task.notice?, Option.toList_some,
        List.flatMap_singleton] at hdue
      exact hquiet (by rw [frame]) ((List.perm_append_left_iff _).mp hdue)
  | lapses query frame pending notices => exact hquiet (by rw [frame]) (dueAt_of_lapses _ _ _ query pending notices)
  | ends mem frame pending notices => exact hquiet (by rw [frame]) (dueAt_of_ends _ _ _ pending notices)
  | @acts rest others a order mem frame before after notices =>
    have hcalls : s.calls a = [] := calls_of_not_publishes (hs _ mem a List.mem_cons_self)
    have horderly := hwired.tasks _ mem
    have hhang : a ≠ .hangUp u.connection := by
      rintro rfl
      simpa [Action.hangsUp] using hstays _ (before.mem_iff.mpr List.mem_cons_self)
    have hconnections : t.connections = (s.act a).connections := by rw [frame]
    refine ⟨(isOpen_congr hconnections).mpr ((isOpen_act hhang).mpr hopen), (a.message? u).toList, ?_, ?_⟩
    · rw [received_congr hconnections]
      exact received_act hopen hhang fun whom m heq => horderly.addressed whom m (heq ▸ List.mem_cons_self)
    · have hdue := dueAt_of_acts s.schema s.store u horderly before after notices
      rw [hcalls, List.flatMap_nil, List.append_nil] at hdue
      exact hdue
  | handles store schema audience pending open_iff messages notices received =>
    exact ⟨(open_iff _).mpr hopen, _, received u hopen, dueAt_of_handles _ _ _ pending messages notices⟩

theorem step_foreseen (hs : s.Settling) (hwired : s.Wired) (h : Step s t) (hforeseen : s.Foreseen u) :
    t.Foreseen u := by
  obtain ⟨-, hstore, hschema⟩ := hs.step h
  intro l key q fuel r hmem hu hq hr
  rw [hstore, hschema] at hr ⊢
  exact hforeseen (hs.notices_subset hwired h hmem) hu hq hr

/-- Until all is quiet a channel receives the messages that are due. -/
theorem run_due (hs : s.Settling) (hwired : s.Wired) (hforeseen : s.Foreseen u) (hopen : s.IsOpen u.connection)
    (hstays : ∀ a ∈ s.pending, a.hangsUp u.connection = false) (h : Relation.ReflTransGen Step s t) :
    t.IsOpen u.connection ∧ (∀ a ∈ t.pending, a.hangsUp u.connection = false) ∧
      ∃ ms, t.received u = s.received u ++ ms ∧ (s.due u).Perm (ms ++ t.due u) := by
  induction h using Relation.ReflTransGen.head_induction_on with
  | refl => exact ⟨hopen, hstays, [], (List.append_nil _).symm, List.Perm.refl _⟩
  | head hstep _ ih =>
    obtain ⟨hopen', ms, hreceived, hdue⟩ := hs.step_due hwired hforeseen hopen hstays hstep
    have hstays' := hs.pending_all hwired (fun _ _ => rfl) (fun _ _ => rfl) (fun _ _ => rfl) hstays hstep
    obtain ⟨hopen'', hstays'', ms', hreceived', hdue'⟩ := ih (hs.step hstep).1 (hwired.step hstep)
      (hs.step_foreseen hwired hstep hforeseen) hopen' hstays'
    refine ⟨hopen'', hstays'', ms ++ ms', ?_, ?_⟩
    · rw [hreceived', hreceived, List.append_assoc]
    · rw [List.append_assoc]
      exact hdue.trans (hdue'.append_left _)

end Settling

/-! ## Until all is quiet -/

/-- All writes are published, and what is to be run again for a channel is well-formed. -/
structure Calm (s : Database) (u : Subscriber) : Prop where
  settling : s.Settling
  wired : s.Wired
  inOrder : s.InOrder
  rows : RowsTyped s.schema s.store
  numberable : s.Numberable u

theorem Calm.step (hs : s.Calm u) (h : Step s t) : t.Calm u := by
  obtain ⟨hsettling, hstore, hschema⟩ := hs.settling.step h
  refine ⟨hsettling, hs.wired.step h, hs.inOrder.step h, hschema ▸ hstore ▸ hs.rows, fun l key hmem => ?_⟩
  exact hs.numberable l key (hs.settling.notices_subset hs.wired h hmem)

theorem Calm.foreseen (hs : s.Calm u) : s.Foreseen u := fun hmem hu hq hr =>
  rerun_eq hs.inOrder.schema hs.inOrder.store hs.rows hq (hs.numberable _ _ hmem hu _ hq) hr

/-- Until all is quiet the listeners that a channel will have stay the same, up to those that a removal takes. -/
theorem Calm.run_prospect (hs : s.Calm u) (h : Relation.ReflTransGen Step s t) :
    t.Calm u ∧ t.store = s.store ∧ t.schema = s.schema ∧ ∀ table, ∃ gone,
      (s.prospect u table).Perm (gone ++ t.prospect u table) ∧
        ((∀ a ∈ s.pending, a.dismisses u = false) → gone = [] ∧ ∀ a ∈ t.pending, a.dismisses u = false) := by
  induction h with
  | refl => exact ⟨hs, rfl, rfl, fun table => ⟨[], List.Perm.refl _, fun hnone => ⟨rfl, hnone⟩⟩⟩
  | tail _ hstep ih =>
    obtain ⟨hcalm, hstore, hschema, hprospect⟩ := ih
    obtain ⟨-, hstore', hschema'⟩ := hcalm.settling.step hstep
    refine ⟨hcalm.step hstep, hstore'.trans hstore, hschema'.trans hschema, fun table => ?_⟩
    obtain ⟨gone, hperm, hnone⟩ := hprospect table
    obtain ⟨gone', hperm', hnone'⟩ :=
      hcalm.settling.step_prospect hcalm.wired hcalm.foreseen hstep table
    refine ⟨gone ++ gone', hperm.trans ?_, fun hstart => ?_⟩
    · rw [List.append_assoc]
      exact hperm'.append_left _
    · obtain ⟨hgone, hpending⟩ := hnone hstart
      exact ⟨by rw [hgone, hnone' hpending]; rfl, hcalm.settling.pending_all hcalm.wired
        (fun _ p => by cases p <;> rfl) (fun _ _ => rfl) (fun _ _ => rfl) hpending hstep⟩

/-- When all is quiet nothing is under way. -/
theorem quiet_accounts (hwired : s.Wired) (hquiet : s.isQuiet = true) : s.tasks = [] ∧ s.pending = [] ∧
    s.notices = [] ∧ ∀ table, (s.engine.actor table).inbox = [] ∧
      s.engine.audience table = (s.engine.actor table).listeners := by
  obtain ⟨htasks, hbusy⟩ := Bool.and_eq_true_iff.mp hquiet
  have htasks := List.isEmpty_iff.mp htasks
  have hinbox := Engine.inbox_of_busy?_none (Option.isNone_iff_eq_none.mp hbusy)
  refine ⟨htasks, by rw [pending, htasks]; rfl, ?_, fun table => ⟨hinbox table, ?_⟩⟩
  · rw [notices, htasks, Engine.notices_of_idle hinbox hwired.engine]
    rfl
  · rw [Engine.audience, Actor.audience, hinbox table]
    rfl

/-- When all is quiet a channel has the listeners that it was to have. -/
theorem prospect_of_quiet (hwired : s.Wired) (hquiet : s.isQuiet = true) (u : Subscriber) (table : String) :
    s.prospect u table =
      ((s.engine.actor table).listeners.subscriptions table).filter (·.listener.subscriber = u) := by
  obtain ⟨-, hpending, hnotices, hactors⟩ := quiet_accounts hwired hquiet
  rw [prospect, watches, hpending, hnotices, (hactors table).2]
  simp

theorem due_of_quiet (hwired : s.Wired) (hquiet : s.isQuiet = true) (u : Subscriber) : s.due u = [] := by
  obtain ⟨-, hpending, hnotices, -⟩ := quiet_accounts hwired hquiet
  rw [due, incoming, hpending, hnotices]
  rfl

end Database

end LiveQuery
