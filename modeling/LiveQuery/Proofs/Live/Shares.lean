import LiveQuery.Proofs.Live.Addresses
import LiveQuery.Proofs.Live.Atomic
import LiveQuery.Proofs.Live.Hearing

/-! # Shares of a round

What a round with a statement brings one channel: the reply and the listeners of its own statement
(`Database.Answered.here`), or else what the write of the statement calls for among the channel's own listeners
(`Database.Answered.elsewhere`). Whom else a write calls for makes no difference, as long as each column of the row that
is inserted holds a key (`Event.Legible`): otherwise it calls for nobody as soon as anybody listens on the column.
-/
namespace LiveQuery

/-! ## What a write calls for -/

/-- A row that was not there before holds a key in each of its columns. -/
def Event.Legible (e : Event) : Prop :=
  e.old = none → ∀ new row, e.new = some new → Value.decode new = .ok row →
    ∀ column v, row.member column = .ok v → ∃ bytes, v.toKey = .ok bytes

/-- Which subscriptions to its table a write calls for, and the notice for each of their listeners. -/
def Event.summons (e : Event) : Option ((Subscription → Bool) × (Listener → Notice)) :=
  match e.old, e.new with
  | none, some new =>
    match Value.decode new with
    | .ok row => some (Subscription.awaits row, fun l => .rerun l e.key)
    | .error _ => none
  | some old, some new =>
    match storedJson? old, storedJson? new with
    | some old, some new =>
      some (Subscription.isOn e.key.keyBytes, fun l => .deliver l.subscriber (l.recordUpdate old new))
    | _, _ => none
  | _, none => none

def Event.calls (e : Event) (xs : List Subscription) : List Notice :=
  match e.summons with
  | some (test, notice) => (xs.filter test).map fun x => notice x.listener
  | none => []

namespace Event

variable {e : Event} {xs ys : List Subscription}

theorem notices_eq {t : Audience} (h : t.Ordered) (name : String) (hkeys : e.Legible) :
    e.notices t = e.calls (t.subscriptions name) := by
  rcases e with ⟨key, _ | old, _ | new⟩
  · rfl
  · simp only [notices, calls, summons]
    cases hrow : Value.decode new with
    | ok row =>
      dsimp only
      rw [Audience.forNewRow_of_keys h name (hkeys rfl new row rfl hrow), List.map_map]
      rfl
    | error => rfl
  · rfl
  · simp only [notices, calls, summons]
    cases storedJson? old with
    | none => rfl
    | some old =>
      cases storedJson? new with
      | none => rfl
      | some new =>
        dsimp only
        rw [Audience.forRow_eq h name, List.map_map]
        rfl

theorem subscriber_of_summons {test : Subscription → Bool} {notice : Listener → Notice}
    (h : e.summons = some (test, notice)) (l : Listener) : (notice l).subscriber = l.subscriber := by
  unfold summons at h
  split at h
  next => split at h <;> cases h; rfl
  next => split at h <;> cases h; rfl
  next => cases h

theorem calls_nil (e : Event) : e.calls [] = [] := by
  unfold calls
  split <;> rfl

theorem calls_perm (h : xs.Perm ys) : (e.calls xs).Perm (e.calls ys) := by
  unfold calls
  split
  next => exact (h.filter _).map _
  next => exact .refl _

/-- The notices for a channel are those that its own subscriptions call for. -/
theorem filter_calls (e : Event) (xs : List Subscription) (u : Subscriber) :
    (e.calls xs).filter (·.subscriber = u) = e.calls (xs.filter (·.listener.subscriber = u)) := by
  unfold calls
  split
  next test notice h =>
    rw [List.filter_map, List.filter_comm]
    simp only [Function.comp_def, subscriber_of_summons h]
  next => rfl

end Event

/-- Elements that a function turns into nothing make no difference to what it turns a list into. -/
theorem flatMap_filter_of_nil {α β : Type} {p : α → Bool} {f : α → List β} (h : ∀ a, p a = false → f a = [])
    (xs : List α) : (xs.filter p).flatMap f = xs.flatMap f := by
  induction xs with
  | nil => rfl
  | cons a xs ih =>
    rw [List.filter_cons, List.flatMap_cons, ← ih]
    cases ha : p a with
    | true => rfl
    | false => rw [h a ha]; rfl

/-- What notices lead to on a channel is up to those for the channel. -/
theorem flatMap_sent_filter (schema : Schema) (store : Store) (u : Subscriber) (table : String) (ns : List Notice) :
    (ns.filter (·.subscriber = u)).flatMap (Notice.sent schema store u table) =
      ns.flatMap (Notice.sent schema store u table) := by
  refine flatMap_filter_of_nil (fun n hn => ?_) ns
  cases n with
  | rerun => exact if_neg (of_decide_eq_false hn)
  | deliver => rfl

theorem flatMap_messages_filter (schema : Schema) (store : Store) (u : Subscriber) (ns : List Notice) :
    (ns.filter (·.subscriber = u)).flatMap (Notice.messages schema store u) =
      ns.flatMap (Notice.messages schema store u) := by
  refine flatMap_filter_of_nil (fun n hn => ?_) ns
  cases n with
  | rerun => exact if_neg (of_decide_eq_false hn)
  | deliver => exact if_neg (of_decide_eq_false hn)

namespace Database

/-! ## What a statement brings a channel -/

variable {texts : String → Prop} {s t v : Database} {o : Origin} {text : String} {x : Service} {u : Subscriber}
  {table : String}

/-- A row that a statement inserts is typed, so each of its columns holds a literal, which is a key. -/
theorem Serves.legible (hs : s.schema.Valid) (h : s.Serves o text x) (hrows : RowsTyped x.schema x.store) :
    ∀ e ∈ x.event, e.2.Legible := by
  rintro ⟨name, e⟩ hevent hold new row hnew hrow
  cases h with
  | unread | created | unmade | unprepared | refused | evaluated | unanchored | selected => cases hevent
  | committed read prepares made =>
    have hkeeps := keepsKeys_of_continues hs (prepares.continues (o := o) read)
    obtain ⟨key, bytes, rfl, -, hstore, rfl⟩ := Write.insert_of_event made hevent hold
    obtain ⟨t, ht, -⟩ := hkeeps
    cases hnew
    have hname : t.name = name := (hs.names _ (Keyed.mem_of_find? ht)).symm
    have hmem : (key.keyBytes, new) ∈ (s.store.put name key.keyBytes new).entries t.name := by
      rw [hname, Store.entries_put_self]
      exact Keyed.mem_insert_self _ _ _
    obtain ⟨r, -, hdecode, -⟩ := Row.ofBytes?_of_holds (hrows _ (Keyed.mem_of_find? ht) _ (hstore ▸ hmem))
    cases hdecode.symm.trans hrow
    exact fun column v hv => Row.toKey_of_member hv

/-- The notices for a channel that a write calls for, if it calls for any. -/
def called (s : Database) (u : Subscriber) (event : Option (String × Event)) : List Notice :=
  event.elim [] fun e => e.2.calls (s.held u e.1)

namespace Serves

variable (hquiet : s.isQuiet = true) (hwired : s.Wired) (asked : Asked texts s o text t) (serves : t.Serves o text x)
  (legible : ∀ e ∈ x.event, e.2.Legible)
include hquiet hwired asked serves legible

theorem notices_perm (u : Subscriber) :
    ((x.opens t o).notices.filter (·.subscriber = u)).Perm (s.called u x.event) := by
  have opening := serves.opening asked
  cases hevent : x.event with
  | none =>
    have hengine : (x.opens t o).engine = s.engine := by
      rw [Service.opens, Service.changes, hevent]
      exact asked.engine
    rw [opening.notices_of_engine hquiet hwired hengine]
    exact .refl _
  | some e =>
    obtain ⟨-, hidle⟩ := idle_of_quiet hquiet
    have hengine : (x.opens t o).engine = s.engine.post e.1 (.event e.2) := by
      rw [Service.opens, Service.changes, hevent, asked.engine]
      rfl
    have hposted := Engine.notices_post hwired.engine e.1 (.event e.2)
    rw [Engine.notices_of_idle hidle hwired.engine, Engine.audience, Actor.audience, hidle e.1, List.nil_append,
      ← hengine] at hposted
    have hcalls := hposted.filter (·.subscriber = u)
    rw [List.foldl_nil, Actor.handle, Event.notices_eq (hwired.engine.listeners e.1) e.1 (legible e hevent),
      Event.filter_calls] at hcalls
    exact hcalls

theorem prospect_perm (u : Subscriber) (table : String) : ((x.opens t o).prospect u table).Perm
    ((s.held u table ++ (x.sent.filter (·.tableName = table)).filter (·.listener.subscriber = u)) ++
      (s.called u x.event).flatMap (Notice.sent x.schema x.store u table)) := by
  rw [(serves.opening asked).prospect hquiet u table]
  have hpending : (x.opens t o).pending.flatMap (Action.subscriptions table) = x.sent.filter (·.tableName = table) := by
    rw [pending, Service.opens, List.flatMap_singleton, Task.pending, Service.rest, List.flatMap_append,
      watches_of_posts, Opening.subscriptions_finish, List.append_nil]
  rw [hpending]
  refine List.Perm.append_left _ ?_
  rw [← flatMap_sent_filter]
  exact (serves.notices_perm hquiet hwired asked legible u).flatMap_right _

theorem due_perm (u : Subscriber) : ((x.opens t o).due u).Perm ((o.finish x.reply).filterMap (Action.message? u) ++
    (s.called u x.event).flatMap (Notice.messages x.schema x.store u)) := by
  have hincoming : (x.opens t o).incoming u = (o.finish x.reply).filterMap (Action.message? u) := by
    rw [incoming, pending, Service.opens, List.flatMap_singleton, Task.pending, Service.rest, List.filterMap_append,
      incoming_of_posts, List.nil_append]
  rw [due, hincoming, ← flatMap_messages_filter]
  exact ((serves.notices_perm hquiet hwired asked legible u).flatMap_right _).append_left _

end Serves

end Database

/-! ## Rounds with a statement -/

namespace Database

variable {texts : String → Prop} {s s' t t' v v' : Database} {c k : Nat} {o o' : Origin} {text : String}
  {x x' : Service} {u : Subscriber}

/-- A database at rest, on whose channel the queries that may be run again are known. -/
structure AtRest (texts : String → Prop) (u : Subscriber) (s : Database) : Prop where
  run : Run texts WellTyped s
  quiet : s.isQuiet = true
  accounted : s.IsOpen u.connection → ∃ log, s.Accounted log u

/-- What follows a request until all is quiet, every state on the way in `P`. -/
structure Ends (P : Database → Prop) (t v : Database) : Prop where
  test : P t
  runs : Relation.ReflTransGen (StepIn P) t v
  quiet : v.isQuiet = true

/-- A round that began with a statement, which came to `x`. -/
structure Answered (texts : String → Prop) (u : Subscriber) (s t v : Database) (o : Origin) (text : String)
    (x : Service) : Prop where
  reachable : Reachable s
  quiet : s.isQuiet = true
  asked : Asked texts s o text t
  serves : t.Serves o text x
  before : Relation.ReflTransGen Step t (x.opens t o)
  opened : Opened texts s t (x.opens t o) v
  calm : s.IsOpen u.connection → (x.opens t o).Calm u
  ended : v.isQuiet = true

theorem AtRest.answered (hs : s.AtRest texts u) (asked : Asked texts s o text t) (ends : Ends WellTyped t v) :
    ∃ x, Answered texts u s t v o text x := by
  have hreachable : Reachable s := .of_run hs.run
  have hv : Run texts WellTyped v := (hs.run.move asked.move ends.test).steps ends.runs
  have ht : Reachable t := hreachable.move (asked.move.mono fun _ _ => trivial)
  obtain ⟨es, hes⟩ := Publishes.of_steps (StepIn.steps ends.runs)
  cases course_of_asked hs.quiet asked hes with
  | waiting silent engine connections tasks =>
    rw [(idle_of_quiet ends.quiet).1] at tasks
    cases tasks
  | @opened x serves before published runs =>
    have opened : Opened texts s t (x.opens t o) v :=
      opened_of_opening ht hv (serves.opening asked) before runs
    refine ⟨x, hreachable, hs.quiet, asked, serves, before, opened, fun hopen => ?_, ends.quiet⟩
    obtain ⟨log, hacc⟩ := hs.accounted hopen
    exact hacc.calm hs.quiet hreachable opened

namespace Answered

theorem store (h : Answered texts u s t v o text x) : v.store = x.store := h.opened.store

theorem schema (h : Answered texts u s t v o text x) : v.schema = x.schema := h.opened.schema

theorem isOpen (h : Answered texts u s t v o text x) : v.IsOpen u.connection ↔ s.IsOpen u.connection := by
  refine ⟨h.opened.isOpen, fun hopen => ?_⟩
  have hcalm := h.calm hopen
  exact (hcalm.settling.run_due hcalm.wired hcalm.foreseen ((h.opened.opening.received u).2.mpr hopen)
    (Opening.stays h.asked h.opened.opening u.connection) h.opened.runs).1

/-- What a round with a statement brings a channel that the statement does not dismiss: the listeners and messages of
the statement itself, and those that its write calls for. -/
theorem settled (h : Answered texts u s t v o text x) (hopen : s.IsOpen u.connection)
    (hkept : ∀ a ∈ o.finish x.reply, a.dismisses u = false) :
    (∀ table, (v.held u table).Perm ((s.held u table ++
      (x.sent.filter (·.tableName = table)).filter (·.listener.subscriber = u)) ++
        (s.called u x.event).flatMap (Notice.sent x.schema x.store u table))) ∧
      (s.handed v u).Perm ((o.finish x.reply).filterMap (Action.message? u) ++
        (s.called u x.event).flatMap (Notice.messages x.schema x.store u)) := by
  have hschema : t.schema.Valid := h.asked.schema ▸ h.reachable.inOrder.schema
  have legible : ∀ e ∈ x.event, e.2.Legible := h.serves.legible hschema h.opened.rows
  obtain ⟨hreceived, hopen_iff⟩ := h.opened.opening.received u
  have hpending : ∀ a ∈ (x.opens t o).pending, a.dismisses u = false := by
    rw [pending_of_tasks rfl]
    refine List.forall_mem_append.mpr ⟨fun a ha => ?_, hkept⟩
    obtain ⟨y, -, rfl⟩ := List.mem_map.mp ha
    rfl
  obtain ⟨-, hheld, ms, hms, hdue⟩ := (h.calm hopen).settled (hopen_iff.mpr hopen)
    (Opening.stays h.asked h.opened.opening u.connection) hpending h.opened.runs h.ended
  refine ⟨fun table => (hheld table).trans ?_, ?_⟩
  · exact h.serves.prospect_perm h.quiet h.reachable.wired h.asked legible u table
  · rw [handed_of_append (hms.trans (by rw [hreceived]))]
    exact hdue.trans (h.serves.due_perm h.quiet h.reachable.wired h.asked legible u)

/-- What it brings a channel on which the statement was not sent: what its write calls for. -/
theorem elsewhere (h : Answered texts u s t v o text x) (hopen : s.IsOpen u.connection) (ho : o.subscriber? ≠ some u) :
    (∀ table, (v.held u table).Perm
      (s.held u table ++ (s.called u x.event).flatMap (Notice.sent x.schema x.store u table))) ∧
        (s.handed v u).Perm ((s.called u x.event).flatMap (Notice.messages x.schema x.store u)) := by
  obtain ⟨hheld, hhanded⟩ := h.settled hopen fun a ha => (finish_elsewhere ho a ha).2
  refine ⟨fun table => ?_, ?_⟩
  · have hsent : (x.sent.filter (·.tableName = table)).filter (·.listener.subscriber = u) = [] := by
      refine List.filter_eq_nil_iff.mpr fun y hy hu => ho ?_
      rw [h.serves.sender y (List.mem_of_mem_filter hy), of_decide_eq_true hu]
    have hheld := hheld table
    rwa [hsent, List.append_nil] at hheld
  · have hfinish : (o.finish x.reply).filterMap (Action.message? u) = [] :=
      List.filterMap_eq_nil_iff.mpr fun a ha => (finish_elsewhere ho a ha).1
    rwa [hfinish, List.nil_append] at hhanded

/-- What it brings the channel of the statement: the reply, and the listeners of a live query that succeeds. -/
theorem here (h : Answered texts u s t v (.channel u) text x) : s.handed v u = [u.reply x.reply] ∧
    ∀ table, (v.held u table).Perm (if x.reply.isOk then x.sent.filter (·.tableName = table) else []) := by
  obtain ⟨hopen, hconcerns⟩ := h.asked.fresh h.reachable
  have hheld : ∀ table, s.held u table = [] := Opening.held_of_asked h.reachable h.asked
  refine ⟨?_, fun table => ?_⟩
  · have hears : v.received u = [u.reply x.reply] := h.asked.hears h.quiet h.reachable h.serves h.opened.runs h.ended
    have hnone : s.received u = [] := hconcerns.received_eq
    rw [handed, hears, hnone]
    rfl
  · cases hreply : x.reply with
    | error f =>
      rw [held, h.serves.listeners h.reachable h.quiet h.asked hreply h.before h.opened.runs h.ended table]
      exact .of_eq (hheld table)
    | ok data =>
      have hkept : ∀ a ∈ Origin.finish (.channel u) x.reply, a.dismisses u = false := by
        rw [hreply]
        simp [Origin.finish, Action.dismisses]
      have hcalled : s.called u x.event = [] := by
        cases x.event with
        | none => rfl
        | some e => rw [called, Option.elim_some, hheld, Event.calls_nil]
      have hsent : (x.sent.filter (·.tableName = table)).filter (·.listener.subscriber = u) =
          x.sent.filter (·.tableName = table) :=
        List.filter_eq_self.mpr fun y hy => decide_eq_true (h.serves.subscriber y (List.mem_of_mem_filter hy))
      have hsettled := (h.settled hopen hkept).1 table
      rwa [hheld, hcalled, hsent, List.flatMap_nil, List.append_nil, List.nil_append] at hsettled

end Answered

end Database

end LiveQuery
