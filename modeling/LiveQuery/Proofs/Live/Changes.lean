import LiveQuery.Proofs.Database.Onward
import LiveQuery.Proofs.Live.Channels

/-! # Changes of a row

A listener on a row is sent the row before and after each change. A change is made in two steps: the write is
committed, then its event is published; no lock is held in between.

`Updating` are the moves of clients that send nothing but `UPDATE` statements. A change of the row under a key
is first among `Database.unpublished`, then among `Database.published`, and at last among `Database.changes`,
those that the listener was told of. As long as no two changes of the row wait to be published at one time,
the three lists, one after the other, are `Linked` from the row at the start to the row that is stored
(`Database.Traces`). So the messages follow the commits, and the last one has the row that is stored once
nothing is under way (`Updating.changes_linked`). Two changes that wait may be published in either order, and then a
listener is left with a row that is out of date (`Updating.exists_stale`).
-/
namespace LiveQuery

/-- Each change starts from what the one before it has left. -/
def Linked {α : Type} : Option α → List (α × α) → Option α → Prop
  | a, [], b => a = b
  | a, (old, new) :: rest, b => a = some old ∧ Linked (some new) rest b

theorem linked_append {α : Type} {a b : Option α} {xs ys : List (α × α)} :
    Linked a (xs ++ ys) b ↔ ∃ c, Linked a xs c ∧ Linked c ys b := by
  induction xs generalizing a with
  | nil => simp [Linked]
  | cons x xs ih => simp [Linked, ih, and_assoc]

/-! ## What is told of a row -/

/-- The row before and after, in a message about a changed row at a path. -/
def Message.change? (p : Path) : Message → Option (Json × Json)
  | .recordUpdate _ path old new => if path = p then some (old, new) else none
  | .result .. | .tableUpdate .. | .error .. => none

/-- The row before and after a change. -/
def Event.change? (e : Event) : Option (Json × Json) :=
  match e.old.bind storedJson?, e.new.bind storedJson? with
  | some old, some new => some (old, new)
  | _, _ => none

/-- The change of the row under a key that a post tells of. -/
def Post.change? (key : Bytes) : Post → Option (Json × Json)
  | .event e => if e.key.keyBytes = key then e.change? else none
  | .subscribe _ | .remove _ => none

/-- The change of a row that an action has to publish. -/
def Action.change? (table : String) (key : Bytes) : Action → Option (Json × Json)
  | .post name p => if name = table then p.change? key else none
  | .broadcast _ | .deliver .. | .answer .. | .hangUp _ => none

/-- The listeners of a channel at a path that are on the row under a key. -/
def Audience.at (t : Audience) (u : Subscriber) (p : Path) (key : Bytes) : List Listener :=
  (t.forRow key).filter fun l => decide (l.subscriber = u ∧ l.path = p)

namespace Database

/-- The changes that a channel was told of at a path. -/
def changes (s : Database) (u : Subscriber) (p : Path) : List (Json × Json) :=
  (s.received u).filterMap (Message.change? p)

/-- The changes of a row that its actor has yet to take. -/
def published (s : Database) (table : String) (key : Bytes) : List (Json × Json) :=
  (s.engine.actor table).inbox.filterMap (Post.change? key)

/-- The changes of a row that are committed and wait to be published. -/
def unpublished (s : Database) (table : String) (key : Bytes) : List (Json × Json) :=
  s.pending.filterMap (Action.change? table key)

/-- The data of a stored row. -/
def row? (s : Database) (table : String) (key : Bytes) : Option Json :=
  (s.store.get? table key).bind storedJson?

/-- A channel listens once at a path, on the row under a key. -/
def ListensOnce (s : Database) (u : Subscriber) (p : Path) (table : String) (key : Bytes) : Prop :=
  ∀ name k, ((s.engine.actor name).listeners.at u p k).length = if name = table ∧ k = key then 1 else 0

end Database

/-- Whether a text is an `UPDATE` statement. -/
def isUpdate (text : String) : Bool :=
  match Statement.read text with
  | .ok (.update ..) => true
  | _ => false

/-- The states that are reached from `s` while clients send nothing but `UPDATE` statements, each of which satisfies
`P`. -/
inductive Updating (P : Database → Prop) (s : Database) : Database → Prop
  | start (test : P s) : Updating P s s
  | step {t v : Database} (before : Updating P s t) (h : Step t v) (test : P v) : Updating P s v
  | call {t : Database} (before : Updating P s t) (ticket : Nat) {text : String} (sent : isUpdate text = true)
      (test : P (t.call ticket text)) : Updating P s (t.call ticket text)
  | run {t v : Database} {connection channel : Nat} {text : String} (before : Updating P s t)
      (sent : isUpdate text = true) (h : t.run connection text = some (channel, v)) (test : P v) :
      Updating P s v

theorem Updating.test {P : Database → Prop} {s t : Database} (h : Updating P s t) : P t := by
  cases h with
  | start test | step _ _ test | call _ _ _ test | run _ _ _ test => exact test

theorem Reachable.updating {P : Database → Prop} {s t : Database} (hs : Reachable s) (h : Updating P s t) :
    Reachable t := by
  induction h with
  | start => exact hs
  | step _ h _ ih => exact ih.move (.step h)
  | call _ ticket _ _ ih => exact ih.move (.call _ ticket trivial)
  | run _ _ h _ ih => exact ih.move (.run trivial h)

/-! ## Updates in the store -/

mutual

theorem Value.exists_json? : (v : Value) → v.IsData → ∃ j, v.json? = some j
  | .int _, _ | .bool _, _ | .str _, _ => ⟨_, rfl⟩
  | .record fields, h => by
    obtain ⟨js, hjs⟩ := Value.exists_jsonFields? fields h.2
    exact ⟨.obj js, by rw [Value.json?, hjs]; rfl⟩
  | .array .., h | .iterator .., h | .function _, h | .index _, h => h.elim

theorem Value.exists_jsonFields? : (fields : List (String × Value)) → Value.FieldsAreData fields →
    ∃ js, Value.jsonFields? fields = some js
  | [], _ => ⟨[], rfl⟩
  | (name, v) :: rest, h => by
    obtain ⟨j, hj⟩ := Value.exists_json? v h.1
    obtain ⟨js, hjs⟩ := Value.exists_jsonFields? rest h.2
    exact ⟨(name, j) :: js, by rw [Value.jsonFields?, hj, hjs]⟩

end

theorem storedJson?_of_decode {bytes : Bytes} {v : Value} (h : Value.decode bytes = .ok v) :
    ∃ j, storedJson? bytes = some j := by
  rw [storedJson?, h]
  exact Value.exists_json? v (Value.isData_of_decode h)

theorem storedJson?_of_changedRow {table : String} {key : Literal} {assignments : List (String × Literal)}
    {old new : Bytes} (h : changedRow table key assignments old = .ok new) (hlen : new.length < 2 ^ 62) :
    (∃ j, storedJson? old = some j) ∧ ∃ j, storedJson? new = some j := by
  obtain ⟨v, hv, h⟩ := ok_of_bind h
  have hold := ok_of_mapError hv
  refine ⟨storedJson?_of_decode hold, ?_⟩
  split at h
  next fields =>
    have hdata := (Value.isData_of_decode hold).assign assignments
    exact storedJson?_of_decode (Value.decode_encode hdata (ok_of_mapError h) hlen)
  next => cases h

/-- An update either does nothing, or its event tells how it has changed a row. -/
theorem Write.commit_update {store : Store} {table : String} {key : Literal}
    {assignments : List (String × Literal)} {c : Committed} (hfits : c.store.Fits)
    (h : (Write.update table key assignments).commit store = .ok c) :
    (c.event = none ∧ c.store = store) ∨ ∃ e old new after, c.event = some (table, e) ∧
      e.change? = some (old, new) ∧ (store.get? table e.key.keyBytes).bind storedJson? = some old ∧
      c.store = store.put table e.key.keyBytes after ∧ storedJson? after = some new := by
  simp only [Write.commit] at h
  split at h
  next => cases h; exact .inl ⟨rfl, rfl⟩
  next before hbefore =>
    obtain ⟨after, hafter, h⟩ := ok_of_bind h
    cases h
    have hmem : (key.keyBytes, after) ∈ (store.put table key.keyBytes after).entries table := by
      rw [Store.entries_put_self]
      exact Keyed.mem_insert_self _ _ _
    obtain ⟨⟨old, hold⟩, new, hnew⟩ := storedJson?_of_changedRow hafter (hfits table _ hmem)
    refine .inr ⟨_, old, new, after, rfl, ?_, ?_, rfl, hnew⟩
    · simp [Event.change?, hold, hnew]
    · rw [hbefore]
      exact hold

/-! ## What is under way -/

/-- The post tells of a change, or removes listeners of other channels than `u`. -/
def Post.Spares (u : Subscriber) : Post → Prop
  | .event e => e.change?.isSome = true
  | .remove d => ∀ l : Listener, l.subscriber = u → d.covers l = false
  | .subscribe _ => False

/-- The action sends such posts, or concerns other channels than `u`. -/
def Action.Spares (u : Subscriber) : Action → Prop
  | .post _ p | .broadcast p => p.Spares u
  | .deliver whom _ => whom ≠ u
  | .answer .. => True
  | .hangUp _ => False

/-- The task is one of an update that another channel than `u`, or a caller, has sent. -/
def Task.Spares (u : Subscriber) : Task → Prop
  | .statement o text => o.subscriber? ≠ some u ∧ isUpdate text = true
  | .write o w => o.subscriber? ≠ some u ∧ ∃ table key assignments, w = .update table key assignments
  | .rerun .. => False
  | .actions rest => ∀ a ∈ rest, a.Spares u

theorem Origin.finish_spares {o : Origin} {u : Subscriber} (h : o.subscriber? ≠ some u) (r : Except Fault Json) :
    ∀ a ∈ o.finish r, a.Spares u := by
  intro a ha
  rcases Origin.mem_finish ha with ⟨ticket, rfl⟩ | ⟨w, hw, rfl | ⟨m, rfl, -⟩⟩
  · trivial
  · rintro l rfl
    simp only [Leaving.covers, decide_eq_false_iff_not]
    rintro rfl
    exact h hw
  · rintro rfl
    exact h hw

theorem statement_of_isUpdate {text : String} (h : isUpdate text = true) :
    ∃ table assignments filters, Statement.read text = .ok (.update table assignments filters) := by
  unfold isUpdate at h
  split at h
  next table assignments filters read => exact ⟨table, assignments, filters, read⟩
  next => cases h

theorem Origin.change?_finish (o : Origin) (r : Except Fault Json) (table : String) (key : Bytes) :
    (o.finish r).filterMap (Action.change? table key) = [] := by
  cases o <;> cases r <;> rfl

namespace Database

variable {s t : Database} {u : Subscriber} {p : Path} {table : String} {key : Bytes}

/-- What becomes of a task that is no list of actions: it goes on as an update, and if it is one that
commits, the change it has made waits to be published. -/
theorem Starts.spares {task task' : Task} (h : Starts s task t task') (table : String) (key : Bytes)
    (hfits : t.store.Fits) (htask : task.Spares u) : task'.Spares u ∧
      (task'.pending.filterMap (Action.change? table key) = [] ∧ t.row? table key = s.row? table key ∨
        ∃ old new, task'.pending.filterMap (Action.change? table key) = [(old, new)] ∧
          s.row? table key = some old ∧ t.row? table key = some new) := by
  cases h with
  | write w prepared =>
    obtain ⟨hother, hupdate⟩ := htask
    obtain ⟨name, assignments, filters, hread⟩ := statement_of_isUpdate hupdate
    refine ⟨⟨hother, ?_⟩, .inl ⟨rfl, rfl⟩⟩
    cases prepared with
    | insert _ read | delete read => rw [read] at hread; cases hread
    | update read prepared =>
      obtain ⟨t, -, h⟩ := ok_of_bind prepared
      obtain ⟨k, -, h⟩ := ok_of_bind h
      obtain ⟨⟨⟩, -, h⟩ := ok_of_bind h
      cases h
      exact ⟨_, _, _, rfl⟩
  | ended store schema r changes =>
    obtain ⟨hother, hupdate⟩ := htask
    obtain ⟨name, assignments, filters, hread⟩ := statement_of_isUpdate hupdate
    refine ⟨Origin.finish_spares hother r, .inl ⟨Origin.change?_finish _ _ _ _, ?_⟩⟩
    cases changes with
    | none hstore => exact congrArg (fun store => (Store.get? store table key).bind storedJson?) hstore
    | create read => rw [read] at hread; cases hread
  | selected read =>
    obtain ⟨name, assignments, filters, hread⟩ := statement_of_isUpdate htask.2
    rw [read] at hread
    cases hread
  | refused f => exact ⟨Origin.finish_spares htask.1 _, .inl ⟨Origin.change?_finish _ _ _ _, rfl⟩⟩
  | @committed o w c made =>
    obtain ⟨hother, name, k, assignments, rfl⟩ := htask
    have hfinish := Origin.finish_spares hother (.ok c.answer)
    have hnone := Origin.change?_finish o (.ok c.answer) table key
    rcases Write.commit_update hfits made with ⟨hevent, hstore⟩ |
      ⟨e, old, new, after, hevent, hchange, hold, hstore, hnew⟩
    · rw [hevent]
      refine ⟨hfinish, .inl ⟨hnone, ?_⟩⟩
      rw [row?, hstore]
      rfl
    · rw [hevent]
      refine ⟨List.forall_mem_cons.mpr ⟨by simp [Action.Spares, Post.Spares, hchange], hfinish⟩, ?_⟩
      have hrow : ({ s with store := c.store } : Database).row? table key =
          if name = table ∧ e.key.keyBytes = key then some new else s.row? table key := by
        rw [row?, row?, hstore, Store.get?_put]
        split
        next => exact hnew
        next => rfl
      have hpending : (Task.pending (.actions (Action.post name (.event e) :: o.finish (.ok c.answer)))).filterMap
          (Action.change? table key) = if name = table ∧ e.key.keyBytes = key then [(old, new)] else [] := by
        rw [Task.pending, List.filterMap_cons, hnone]
        by_cases hname : name = table <;> by_cases hkey : e.key.keyBytes = key <;>
          simp [Action.change?, Post.change?, hname, hkey, hchange]
      by_cases hthis : name = table ∧ e.key.keyBytes = key
      · obtain ⟨rfl, rfl⟩ := hthis
        rw [if_pos ⟨rfl, rfl⟩] at hrow hpending
        exact .inr ⟨old, new, hpending, hold, hrow⟩
      · rw [if_neg hthis] at hrow hpending
        exact .inl ⟨hpending, hrow⟩
  | resumed => exact htask.elim

/-! ## Actors and actions -/

theorem notices_of_change? {e : Event} {old new : Json} (h : e.change? = some (old, new)) (t : Audience) :
    e.notices t = (t.forRow e.key.keyBytes).map fun l => .deliver l.subscriber (l.recordUpdate old new) := by
  unfold Event.change? at h
  unfold Event.notices
  split at h
  next before after hbefore hafter =>
    cases h
    obtain ⟨b, hb, hbefore⟩ := Option.bind_eq_some_iff.mp hbefore
    obtain ⟨a, ha, hafter⟩ := Option.bind_eq_some_iff.mp hafter
    simp only [hb, ha, hbefore, hafter]
  next => cases h

/-- Each listener of the channel that is on the row tells it of the change. -/
theorem changes_of_notices {e : Event} {old new : Json} (h : e.change? = some (old, new)) (t : Audience) :
    ((e.notices t).filterMap (Notice.message? u)).filterMap (Message.change? p) =
      (t.at u p e.key.keyBytes).map fun _ => (old, new) := by
  have hone : ∀ l : Listener, (Notice.message? u (.deliver l.subscriber (l.recordUpdate old new))).bind
      (Message.change? p) = if decide (l.subscriber = u ∧ l.path = p) then some (old, new) else none := by
    intro l
    by_cases hl : l.subscriber = u <;> simp [Notice.message?, Listener.recordUpdate, Message.change?, hl]
  rw [notices_of_change? h, List.filterMap_filterMap, List.filterMap_map, Audience.at]
  induction t.forRow e.key.keyBytes with
  | nil => rfl
  | cons l ls ih =>
    rw [List.filterMap_cons, Function.comp_apply, hone, List.filter_cons]
    cases decide (l.subscriber = u ∧ l.path = p) with
    | false => exact ih
    | true => exact congrArg ((old, new) :: ·) ih

theorem at_remove {t : Audience} (ht : t.Ordered) {d : Leaving}
    (hd : ∀ l : Listener, l.subscriber = u → d.covers l = false) : (t.remove d).at u p key = t.at u p key := by
  rw [Audience.at, Audience.at, Audience.forRow_eq (ht.remove d) "", Audience.forRow_eq ht "",
    Audience.subscriptions_remove, List.filter_map, List.filter_map, List.filter_filter, List.filter_filter,
    List.filter_filter]
  refine congrArg _ (List.filter_congr fun x _ => ?_)
  by_cases hu : x.listener.subscriber = u
  · simp [hd x.listener hu]
  · simp [hu]

theorem spares_fanOut {order : Traversal} {a : Action} (h : a.Spares u) :
    ∀ b ∈ s.fanOut order a, b.Spares u := by
  intro b hb
  obtain ⟨name, -, q, rfl, rfl⟩ := mem_fanOut hb
  exact h

/-! ## The invariant -/

/-- The changes of a row, told, published and unpublished, lead from the row at the start to the one that is
stored. All that is under way are updates, and the channel listens once, on the row. -/
structure Traces (u : Subscriber) (p : Path) (table : String) (key : Bytes) (first : Option Json)
    (told : List (Json × Json)) (s : Database) : Prop where
  tasks : ∀ task ∈ s.tasks, task.Spares u
  inboxes : ∀ name, ∀ q ∈ (s.engine.actor name).inbox, q.Spares u
  isOpen : s.IsOpen u.connection
  listens : s.ListensOnce u p table key
  linked : ∃ new, s.changes u p = told ++ new ∧
    Linked first (new ++ s.published table key ++ s.unpublished table key) (s.row? table key)

/-- At most one change of a row waits to be published. -/
def PublishesInTurn (table : String) (key : Bytes) (s : Database) : Prop :=
  (s.unpublished table key).length ≤ 1

instance : Decidable (s.PublishesInTurn table key) := inferInstanceAs (Decidable (_ ≤ 1))

namespace Traces

variable {first : Option Json} {told : List (Json × Json)}

/-- The order of the actions that wait does not matter as long as one of them at most tells of a change. -/
theorem eq_of_perm {α : Type} {xs ys : List α} (h : xs.Perm ys) (hlen : xs.length ≤ 1) : xs = ys := by
  match xs with
  | [] => exact h.nil_eq
  | [x] => exact (List.perm_singleton.mp h.symm).symm

/-- What an action does to the lists of the invariant: it publishes the change that it tells of. -/
theorem act {a : Action} (ha : a.Spares u) (haddressed : ∀ whom m, a = .deliver whom m → m.channel = whom.channel)
    (h : s.Traces u p table key first told) :
    (∀ name, ∀ q ∈ ((s.act a).engine.actor name).inbox, q.Spares u) ∧ (s.act a).IsOpen u.connection ∧
      (s.act a).ListensOnce u p table key ∧ (s.act a).changes u p = s.changes u p ∧
      (s.act a).published table key = s.published table key ++ (a.change? table key).toList := by
  have hne : a ≠ .hangUp u.connection := by
    rintro rfl
    exact ha
  have hmessage : a.message? u = none := by
    cases a with
    | deliver whom m => exact if_neg ha
    | post | broadcast | answer | hangUp => rfl
  have hchanges : (s.act a).changes u p = s.changes u p := by
    rw [changes, received_act h.isOpen hne haddressed, hmessage, Option.toList_none, List.append_nil]
    rfl
  refine ⟨?_, (isOpen_act hne).mpr h.isOpen, ?_, hchanges, ?_⟩
  all_goals rcases s.engine_act a with ⟨hpost, heq⟩ | ⟨name, q, rfl, heq⟩
  · rw [heq]
    exact h.inboxes
  · intro other
    rw [heq, Engine.actor_post]
    split
    next =>
      refine List.forall_mem_append.mpr ⟨h.inboxes other, fun q' hq' => ?_⟩
      cases List.mem_singleton.mp hq'
      exact ha
    next => exact h.inboxes other
  · intro other
    rw [heq]
    exact h.listens other
  · intro other
    rw [heq, Engine.actor_post]
    have hother := h.listens other
    split <;> exact hother
  · have hnone : a.change? table key = none := by
      cases a with
      | post name q => exact absurd rfl (hpost name q)
      | broadcast | deliver | answer | hangUp => rfl
    rw [published, heq, hnone, Option.toList_none, List.append_nil]
    rfl
  · rw [published, heq, Engine.actor_post, Action.change?]
    split
    next =>
      rw [List.filterMap_append, published]
      cases hq : q.change? key <;> simp [hq]
    next => exact (List.append_nil _).symm

section Tasks

variable {waiting : List (Json × Json)}

/-- A task that begins may commit a change of the row. Then that is the only one that waits, so it comes after all that
were published. -/
theorem starts {task task' : Task} {s' : Database} (hstarts : Starts s task s' task')
    (ht : t = { s' with tasks := t.tasks }) (hfits : t.store.Fits) (hafter : t.PublishesInTurn table key)
    (htask : task.Spares u) (hnext : task'.Spares u → ∀ other ∈ t.tasks, other.Spares u)
    (hwaiting : s.unpublished table key = waiting)
    (hwaiting' : t.unpublished table key = task'.pending.filterMap (Action.change? table key) ++ waiting)
    (h : s.Traces u p table key first told) : t.Traces u p table key first told := by
  have hfits' : s'.store.Fits := by
    rw [ht] at hfits
    exact hfits
  obtain ⟨hspares, hcommit⟩ := hstarts.spares table key hfits' htask
  have hframe := hstarts.frame
  have hrow : t.row? table key = s'.row? table key := by rw [ht]; rfl
  have hengine : t.engine = s.engine := by rw [ht, hframe]
  have hconnections : t.connections = s.connections := by rw [ht, hframe]
  obtain ⟨new, hchanges, hlinked⟩ := h.linked
  refine ⟨hnext hspares, hengine ▸ h.inboxes, (isOpen_congr hconnections).mpr h.isOpen, ?_, new, ?_, ?_⟩
  · intro other k
    rw [hengine]
    exact h.listens other k
  · rw [changes, received_congr hconnections]
    exact hchanges
  · rw [published, hengine, hrow]
    rcases hcommit with ⟨hnone, hsame⟩ | ⟨old, new', hone, hold, hnew⟩
    · rw [hwaiting', hnone, hsame, List.nil_append, ← hwaiting]
      exact hlinked
    · have hnil : waiting = [] := by
        have hlen : (t.unpublished table key).length ≤ 1 := hafter
        rw [hwaiting', hone, List.length_append, List.length_singleton] at hlen
        exact List.length_eq_zero_iff.mp (by omega)
      rw [hwaiting, hnil, List.append_nil, hold] at hlinked
      rw [hwaiting', hone, hnil, hnew, List.append_nil]
      exact linked_append.mpr ⟨some old, hlinked, rfl, rfl⟩

/-- An action that is done publishes the change that it tells of, which waited before all others. -/
theorem acts {a : Action} {rest : List Action} {order : Traversal} (ht : t = { s.act a with tasks := t.tasks })
    (horderly : Task.Orderly (.actions (a :: rest))) (htask : Task.Spares u (.actions (a :: rest)))
    (hnext : (∀ task ∈ restTask (s.fanOut order a ++ rest), task.Spares u) → ∀ task ∈ t.tasks, task.Spares u)
    (hwaiting : s.unpublished table key = (a :: rest).filterMap (Action.change? table key) ++ waiting)
    (hwaiting' : t.unpublished table key =
      (s.fanOut order a ++ rest).filterMap (Action.change? table key) ++ waiting)
    (h : s.Traces u p table key first told) : t.Traces u p table key first told := by
  obtain ⟨ha, hrest⟩ := List.forall_mem_cons.mp htask
  obtain ⟨hinboxes, hopen, hlistens, hsame, hpublished⟩ :=
    h.act ha fun whom m heq => horderly.addressed whom m (heq ▸ List.mem_cons_self)
  have hrow : t.row? table key = s.row? table key := by
    rw [ht, row?, row?]
    exact congrArg (fun store => (Store.get? store table key).bind storedJson?) (s.act_rest a).1
  have hposts : (s.fanOut order a).filterMap (Action.change? table key) = [] := by
    refine filterMap_fanOut horderly order fun name d => ?_
    by_cases hname : name = table <;> simp [Action.change?, Post.change?, hname]
  have hmoved : s.published table key ++ s.unpublished table key =
      (s.act a).published table key ++ t.unpublished table key := by
    rw [hwaiting, hwaiting', List.filterMap_append, hposts, hpublished, List.filterMap_cons]
    cases a.change? table key <;> simp
  have hspared : ∀ task ∈ restTask (s.fanOut order a ++ rest), task.Spares u := by
    intro task hmem
    rw [eq_of_mem_restTask hmem]
    exact List.forall_mem_append.mpr ⟨spares_fanOut ha, hrest⟩
  obtain ⟨new, hchanges, hlinked⟩ := h.linked
  have hlinked' : Linked first (new ++ (s.act a).published table key ++ t.unpublished table key)
      (t.row? table key) := by
    rw [List.append_assoc, ← hmoved, ← List.append_assoc, hrow]
    exact hlinked
  have htasks := hnext hspared
  rw [ht] at htasks hlinked' ⊢
  exact ⟨htasks, hinboxes, hopen, hlistens, new, hsame.trans hchanges, hlinked'⟩

end Tasks

theorem task {fuel i : Nat} {order : Traversal} (hs : s.Wired) (hfits : t.store.Fits)
    (hbefore : s.PublishesInTurn table key) (hafter : t.PublishesInTurn table key)
    (hstep : s.stepTask fuel order i = some t) (h : s.Traces u p table key first told) :
    t.Traces u p table key first told := by
  obtain ⟨task, others, s', next, htasks, hturn, htasks', ht⟩ := stepTask_split hstep
  have htask : task.Spares u := h.tasks task (htasks.mem_iff.mpr List.mem_cons_self)
  have hnext : (∀ task' ∈ next, task'.Spares u) → ∀ task' ∈ t.tasks, task'.Spares u :=
    all_tasks_of_next htasks htasks' h.tasks
  -- at most one change waits, so the tasks can be taken in any order
  have hsplit : s.unpublished table key = task.pending.filterMap (Action.change? table key) ++
      (others.flatMap Task.pending).filterMap (Action.change? table key) := by
    refine eq_of_perm (((htasks.flatMap_right _).filterMap _).trans (List.Perm.of_eq ?_)) hbefore
    rw [List.flatMap_cons, List.filterMap_append]
  have hsplit' : t.unpublished table key =
      (next.toList.flatMap Task.pending).filterMap (Action.change? table key) ++
        (others.flatMap Task.pending).filterMap (Action.change? table key) := by
    refine eq_of_perm (((htasks'.flatMap_right _).filterMap _).trans (List.Perm.of_eq ?_)) hafter
    rw [List.flatMap_append, List.filterMap_append]
  cases hturn with
  | idle => exact htask.elim
  | starts hstarts =>
    rw [hstarts.pending, List.filterMap_nil, List.nil_append] at hsplit
    simp only [Option.toList_some, List.flatMap_singleton] at hsplit'
    exact h.starts hstarts ht hfits hafter htask
      (fun hspares => hnext fun task' hmem => Option.some.inj hmem ▸ hspares) hsplit hsplit'
  | done =>
    have hsame : t.unpublished table key = s.unpublished table key := by
      rw [hsplit, hsplit', Task.pending]
      rfl
    obtain ⟨new, hchanges, hlinked⟩ := h.linked
    rw [ht] at hnext hsame ⊢
    exact ⟨hnext (by simp), h.inboxes, h.isOpen, h.listens, new, hchanges, by rw [hsame]; exact hlinked⟩
  | acts =>
    rw [pending_restTask] at hsplit'
    exact h.acts ht (hs.tasks _ (htasks.mem_iff.mpr List.mem_cons_self)) htask hnext hsplit hsplit'

/-- What the post that an actor takes does: its listeners stay those of the channel, and the channel is told of the
change of the row that the post tells of. -/
theorem handle (name : String) {q : Post} (hs : s.Wired) (hq : q.Spares u)
    (h : s.Traces u p table key first told) :
    (∀ k, (Actor.handle (s.engine.actor name).listeners q).1.at u p k = (s.engine.actor name).listeners.at u p k) ∧
      (Actor.handle (s.engine.actor name).listeners q).2.filterMap Notice.task? = [] ∧
      ((Actor.handle (s.engine.actor name).listeners q).2.filterMap (Notice.message? u)).filterMap
        (Message.change? p) = (Action.change? table key (.post name q)).toList := by
  cases q with
  | subscribe x => exact hq.elim
  | remove d =>
    refine ⟨fun k => at_remove (hs.engine.listeners name) hq, rfl, ?_⟩
    by_cases hname : name = table <;> simp [Actor.handle, Action.change?, Post.change?, hname]
  | event e =>
    obtain ⟨⟨old, new⟩, hchange⟩ := Option.isSome_iff_exists.mp hq
    refine ⟨fun k => rfl, ?_, ?_⟩
    · rw [Actor.handle, notices_of_change? hchange, List.filterMap_map]
      exact List.filterMap_eq_nil_iff.mpr fun l _ => rfl
    · have hlength := h.listens name e.key.keyBytes
      rw [Actor.handle, changes_of_notices hchange, List.map_const', hlength, Action.change?, Post.change?]
      by_cases hname : name = table <;> by_cases hkey : e.key.keyBytes = key <;> simp [hname, hkey, hchange]

theorem actor {name : String} (hs : s.Wired) (hstep : s.stepActor name = some t)
    (h : s.Traces u p table key first told) : t.Traces u p table key first told := by
  obtain ⟨q, rest, hinbox, rfl⟩ := stepActor_eq hstep
  obtain ⟨hat, htasks, htold⟩ := h.handle name hs (h.inboxes name q (hinbox ▸ List.mem_cons_self))
  have hchannel := fun whom m (hm : .deliver whom m ∈ (Actor.handle (s.engine.actor name).listeners q).2) =>
    channel_of_handle hm
  generalize Actor.handle (s.engine.actor name).listeners q = handled at hat htasks htold hchannel ⊢
  obtain ⟨listeners, notices⟩ := handled
  generalize hbase : ({ s with engine := s.engine.setActor name ⟨listeners, rest⟩ } : Database) = base
  have hopen : base.IsOpen u.connection := hbase ▸ h.isOpen
  have hreceived := received_foldl_notice hchannel hopen
  obtain ⟨new, hchanges, hlinked⟩ := h.linked
  have hpublished : s.published table key =
      (Action.change? table key (.post name q)).toList ++ base.published table key := by
    rw [← hbase, published, published, Engine.actor_setActor, Action.change?]
    split
    next hname =>
      rw [← hname, hinbox, List.filterMap_cons]
      cases q.change? key <;> rfl
    next => rfl
  have hlinked' : Linked first (new ++ (Action.change? table key (.post name q)).toList ++ base.published table key ++
      base.unpublished table key) (base.row? table key) := by
    rw [hpublished] at hlinked
    rw [List.append_assoc new, ← hbase]
    rw [← hbase] at hlinked
    exact hlinked
  have hchanges' : (notices.foldl notice base).changes u p =
      told ++ (new ++ (Action.change? table key (.post name q)).toList) := by
    have hsame : base.received u = s.received u := by rw [← hbase]; rfl
    rw [changes, hreceived, List.filterMap_append, htold, hsame, ← List.append_assoc, ← hchanges]
    rfl
  have hopen' := (isOpen_foldl_notice notices base).mpr hopen
  rw [foldl_notice_frame, htasks, List.append_nil] at hchanges' hopen' ⊢
  refine ⟨?_, ?_, hopen', ?_, _, hchanges', hlinked'⟩
  · rw [← hbase]
    exact h.tasks
  · intro other q' hq'
    rw [← hbase] at hq'
    simp only [Engine.actor_setActor] at hq'
    split at hq'
    next => exact h.inboxes name q' (hinbox ▸ List.mem_cons_of_mem _ hq')
    next => exact h.inboxes other q' hq'
  · intro other k
    rw [← hbase]
    simp only [Engine.actor_setActor]
    split
    next hname => rw [hat, hname]; exact h.listens other k
    next => exact h.listens other k

theorem ask (task : Task) (h : s.Traces u p table key first told) (htask : task.Spares u)
    (hpending : task.pending = []) (htasks : t.tasks = s.tasks ++ [task]) (hstore : t.store = s.store)
    (hengine : t.engine = s.engine) (hreceived : t.received u = s.received u) (hopen : t.IsOpen u.connection) :
    t.Traces u p table key first told := by
  have hunpublished : t.unpublished table key = s.unpublished table key := by
    rw [unpublished, pending, htasks, List.flatMap_append, List.flatMap_singleton, hpending, List.append_nil]
    rfl
  obtain ⟨new, hchanges, hlinked⟩ := h.linked
  refine ⟨fun task' hmem => ?_, hengine ▸ h.inboxes, hopen, fun other k => ?_, new, ?_, ?_⟩
  · rw [htasks] at hmem
    rcases List.mem_append.mp hmem with hmem | hmem
    · exact h.tasks task' hmem
    · exact List.mem_singleton.mp hmem ▸ htask
  · rw [hengine]
    exact h.listens other k
  · rw [changes, hreceived]
    exact hchanges
  · rw [published, hengine, hunpublished, row?, hstore]
    exact hlinked

theorem ne_of_run {connection channel : Nat} {text : String} (hs : Reachable s)
    (hrun : s.run connection text = some (channel, t)) (h : s.ListensOnce u p table key) :
    u ≠ ⟨connection, channel⟩ := by
  have hlength := h table key
  rw [if_pos ⟨rfl, rfl⟩] at hlength
  obtain ⟨l, hl⟩ := List.exists_mem_of_length_pos (by omega : 0 < ((s.engine.actor table).listeners.at u p key).length)
  obtain ⟨hmem, htest⟩ := List.mem_filter.mp hl
  rw [Audience.forRow_eq (hs.wired.engine.listeners table) table] at hmem
  obtain ⟨x, hx, rfl⟩ := List.mem_map.mp hmem
  have hsubscriber : x.listener.subscriber = u := (of_decide_eq_true htest).1
  exact hsubscriber ▸ (hs.numbered.concerns_run hrun).listeners table x (List.mem_of_mem_filter hx)

theorem run {connection channel : Nat} {text : String} (hs : Reachable s) (sent : isUpdate text = true)
    (hrun : s.run connection text = some (channel, t)) (h : s.Traces u p table key first told) :
    t.Traces u p table key first told := by
  have hne := ne_of_run hs hrun h.listens
  obtain ⟨c, hc, rfl, rfl⟩ := Database.run_eq hrun
  refine h.ask (.statement (.channel ⟨connection, c.nextChannel⟩) text) ⟨?_, sent⟩ rfl rfl rfl rfl ?_ ?_
  · intro heq
    exact hne (Option.some.inj heq).symm
  · -- the connection has received what it had received before
    refine congrArg (List.filter fun m : Message => m.channel == u.channel) ?_
    rw [inboxOf, inboxOf, Keyed.find?_insert]
    split
    next heq => rw [← heq, hc]; rfl
    next => rfl
  · rw [IsOpen, Keyed.find?_insert]
    split
    next => rfl
    next => exact h.isOpen

theorem start (hquiet : s.isQuiet = true) (hopen : s.IsOpen u.connection)
    (hlistens : s.ListensOnce u p table key) :
    s.Traces u p table key (s.row? table key) (s.changes u p) := by
  obtain ⟨htasks, hbusy⟩ := Bool.and_eq_true_iff.mp hquiet
  have hnone : s.tasks = [] := List.isEmpty_iff.mp htasks
  have hidle := Engine.inbox_of_busy?_none (Option.isNone_iff_eq_none.mp hbusy)
  refine ⟨by simp [hnone], fun name => by simp [hidle], hopen, hlistens, [], (List.append_nil _).symm, ?_⟩
  simp [published, unpublished, pending, hnone, hidle, Linked]

end Traces

end Database

/-- If the changes of a row are published in turn, the messages to a listener on it form a chain that starts at the
row as it was: each one has as its old row the new row of the one before. Once nothing is under way, the chain ends
at the row that is stored. -/
theorem Updating.changes_linked {s t : Database} {u : Subscriber} {p : Path} {table : String} {key : Bytes}
    (hs : Reachable s) (hquiet : s.isQuiet = true) (hopen : s.IsOpen u.connection)
    (hlistens : s.ListensOnce u p table key)
    (h : Updating (fun v => v.store.Fits ∧ v.PublishesInTurn table key) s t) :
    ∃ new last, t.changes u p = s.changes u p ++ new ∧ Linked (s.row? table key) new last ∧
      (t.isQuiet = true → last = t.row? table key) := by
  have htraces : t.Traces u p table key (s.row? table key) (s.changes u p) := by
    induction h with
    | start => exact .start hquiet hopen hlistens
    | @step v w before hstep test ih =>
      have hwired := (hs.updating before).wired
      cases hstep with
      | task fuel order i hstep => exact ih.task hwired test.1 before.test.2 test.2 hstep
      | actor name hstep => exact ih.actor hwired hstep
    | @call _ _ ticket text sent _ ih =>
      exact ih.ask (.statement (.caller ticket) text) ⟨by simp [Origin.subscriber?], sent⟩ rfl rfl rfl rfl
        rfl ih.isOpen
    | run before sent hrun _ ih => exact ih.run (hs.updating before) sent hrun
  obtain ⟨new, hchanges, hlinked⟩ := htraces.linked
  rw [List.append_assoc] at hlinked
  obtain ⟨last, hlinked, hrest⟩ := linked_append.mp hlinked
  refine ⟨new, last, hchanges, hlinked, fun hquiet => ?_⟩
  obtain ⟨htasks, hbusy⟩ := Bool.and_eq_true_iff.mp hquiet
  have hidle := Engine.inbox_of_busy?_none (Option.isNone_iff_eq_none.mp hbusy)
  simpa [Database.published, Database.unpublished, Database.pending, List.isEmpty_iff.mp htasks, hidle, Linked]
    using hrest

/-! ## Two updates of one row -/

/-- Whether the move is a step, or the sending of an `UPDATE`. -/
def Cue.updates : Cue → Bool
  | .call text | .run _ text => isUpdate text
  | .task _ | .actor _ => true
  | .connect | .closeChannel _ | .disconnect _ | .takeMessages _ => false

/-- A script of updates that can be followed is a sequence of such moves. -/
theorem Updating.of_follow {test : Database → Bool} {fuel : Nat} {script : List Cue} {s t v : Database}
    (h : Updating (test · = true) s t) (hc : ∀ c ∈ script, c.updates = true)
    (hf : t.follow test fuel script = some v) : Updating (test · = true) s v := by
  induction script generalizing t with
  | nil => cases hf; exact h
  | cons c script ih =>
    obtain ⟨hcue, hc⟩ := List.forall_mem_cons.mp hc
    simp only [Database.follow] at hf
    split at hf
    next w hw =>
      split at hf
      next hok =>
        refine ih ?_ hc hf
        cases c with
        | call text => cases hw; exact h.call 0 hcue hok
        | run connection text =>
          obtain ⟨⟨channel, w⟩, hrun, rfl⟩ := Option.map_eq_some_iff.mp hw
          exact h.run hcue hrun hok
        | task i => exact h.step (.task fuel default i hw) hok
        | actor name => exact h.step (.actor name hw) hok
        | connect | closeChannel | disconnect | takeMessages => cases hcue
      next => cases hf
    next => cases hf

theorem Updating.mono {P P' : Database → Prop} {s t : Database} (h : Updating P s t) (hp : ∀ v, P v → P' v) :
    Updating P' s t := by
  induction h with
  | start test => exact .start (hp _ test)
  | step _ h test ih => exact ih.step h (hp _ test)
  | call _ ticket sent test ih => exact ih.call ticket sent (hp _ test)
  | run _ sent h test ih => exact ih.run sent h (hp _ test)

namespace Updating.Sample

/-- A connection whose live query shows the row of a table. -/
def watching : List Cue :=
  [.call "CREATE TABLE t (id int PRIMARY KEY, n int)", .task 0, .task 0,
    .call "INSERT INTO t \x7bid: 1, n: 0\x7d", .task 0, .task 0, .task 0, .task 0, .actor "t",
    .connect, .run 1 "LIVE MANY t \x7bid, n\x7d", .task 0, .task 0, .task 0, .task 0, .actor "t", .actor "t"]

/-- Two updates that are under way at one time; the second one commits when the first one has published. -/
def inTurn : List Cue :=
  [.call "UPDATE t SET n = 1 WHERE id = 1", .call "UPDATE t SET n = 2 WHERE id = 1", .task 0, .task 1,
    .task 0, .task 0, .task 1, .task 1, .task 0, .actor "t", .task 0, .actor "t"]

/-- Two updates, of which the second one to commit is the first one to publish. -/
def overtaking : List Cue :=
  [.call "UPDATE t SET n = 1 WHERE id = 1", .call "UPDATE t SET n = 2 WHERE id = 1", .task 0, .task 1,
    .task 0, .task 1, .task 1, .task 0, .task 0, .task 0, .actor "t", .actor "t"]

def key : Bytes := (Literal.int 1).keyBytes

def row : Path := [.row (.num 1)]

/-- What the connection was told of, and the row that is stored. -/
def shown (s : Database) : List (String × String) × Option String :=
  ((s.changes ⟨1, 1⟩ row).map fun c => (c.1.compact, c.2.compact), (s.row? "t" key).map Json.compact)

/-- Whether the connection listens once at the path, on the row. -/
def listens (s : Database) : Bool :=
  (((s.engine.actor "t").listeners.at ⟨1, 1⟩ row key).length == 1) && s.engine.actors.all fun a =>
    a.2.listeners.byRow.all fun e => (a.1 == "t" && decide (e.1 = key)) ||
      (e.2.filter fun l => decide (l.subscriber = ⟨1, 1⟩ ∧ l.path = row)).isEmpty

theorem listens_iff {s : Database} (h : listens s = true) : s.ListensOnce ⟨1, 1⟩ row "t" key := by
  obtain ⟨hone, hall⟩ := Bool.and_eq_true_iff.mp h
  intro name k
  by_cases hthis : name = "t" ∧ k = key
  · rw [if_pos hthis, hthis.1, hthis.2]
    exact eq_of_beq hone
  · rw [if_neg hthis, Audience.at, Audience.forRow]
    cases hactor : Keyed.find? s.engine.actors name with
    | none => rw [Engine.actor, hactor]; rfl
    | some a =>
      rw [Engine.actor, hactor, Option.getD_some]
      cases hrow : Keyed.find? a.listeners.byRow k with
      | none => rfl
      | some ls =>
        have hrows := List.all_eq_true.mp hall _ (Keyed.mem_of_find? hactor)
        have htest := List.all_eq_true.mp hrows _ (Keyed.mem_of_find? hrow)
        rcases Bool.or_eq_true_iff.mp htest with hmem | hempty
        · obtain ⟨hname, hkey⟩ := Bool.and_eq_true_iff.mp hmem
          exact absurd ⟨eq_of_beq hname, of_decide_eq_true hkey⟩ hthis
        · exact congrArg List.length (List.isEmpty_iff.mp hempty)

/-- Plays a script of updates from the state in which the connection listens. -/
def play (test : Database → Bool) (script : List Cue) : Option (Database × Database) :=
  (Database.follow (fun _ => true) 60 watching {}).bind fun s =>
    if s.isQuiet && (Keyed.find? s.connections 1).isSome && listens s && test s then
      (s.follow test 60 script).map (Prod.mk s)
    else none

theorem of_play {test : Database → Bool} {script : List Cue} {s t : Database}
    (hc : ∀ c ∈ script, c.updates = true) (h : play test script = some (s, t)) :
    Reachable s ∧ s.isQuiet = true ∧ s.IsOpen 1 ∧ s.ListensOnce ⟨1, 1⟩ row "t" key ∧
      Updating (test · = true) s t := by
  obtain ⟨v, hv, h⟩ := Option.bind_eq_some_iff.mp h
  split at h
  next hok =>
    obtain ⟨w, hw, hpair⟩ := Option.map_eq_some_iff.mp h
    cases hpair
    simp only [Bool.and_eq_true] at hok
    obtain ⟨⟨⟨hquiet, hopen⟩, hlistens⟩, htest⟩ := hok
    exact ⟨Reachable.empty.follow hv, hquiet, hopen, listens_iff hlistens, .of_follow (.start htest) hc hw⟩
  next => cases h

end Updating.Sample

open Updating.Sample in
/-- Two updates that publish in turn: the connection is told of both in the order in which they were committed. -/
theorem Updating.changes_linked_inTurn : ∃ s t new last, Reachable s ∧ s.isQuiet = true ∧ s.IsOpen 1 ∧
    s.ListensOnce ⟨1, 1⟩ row "t" key ∧
    Updating (fun v => v.store.Fits ∧ v.PublishesInTurn "t" key) s t ∧ t.isQuiet = true ∧
    t.changes ⟨1, 1⟩ row = s.changes ⟨1, 1⟩ row ++ new ∧ Linked (s.row? "t" key) new last ∧
    last = t.row? "t" key ∧ new.length = 2 := by
  let test : Database → Bool := fun v => v.store.fits && decide (v.PublishesInTurn "t" key)
  have hplay : (play test inTurn).any (fun (s, t) => t.isQuiet &&
      (s.changes ⟨1, 1⟩ row).isEmpty && (t.changes ⟨1, 1⟩ row).length == 2) = true := by
    decide +kernel
  obtain ⟨⟨s, t⟩, hst, htest⟩ := (Option.any_eq_true _ _).mp hplay
  simp only [Bool.and_eq_true, beq_iff_eq, List.isEmpty_iff] at htest
  obtain ⟨⟨hquiet, hnone⟩, hlength⟩ := htest
  obtain ⟨hs, hrest, hopen, hlistens, hupdating⟩ := of_play (by decide +kernel) hst
  have hturn : Updating (fun v => v.store.Fits ∧ v.PublishesInTurn "t" key) s t := by
    refine hupdating.mono fun v hv => ?_
    obtain ⟨hfits, hlen⟩ := Bool.and_eq_true_iff.mp hv
    exact ⟨Store.fits_iff hfits, of_decide_eq_true hlen⟩
  obtain ⟨new, last, hchanges, hlinked, hlast⟩ := Updating.changes_linked hs hrest hopen hlistens hturn
  refine ⟨s, t, new, last, hs, hrest, hopen, hlistens, hturn, hquiet, hchanges, hlinked, hlast hquiet, ?_⟩
  rw [hchanges, hnone] at hlength
  exact hlength

open Updating.Sample in
/-- Two updates of which the second one to commit is the first one to publish: the connection is told of the first
one last, and no chain leads to what it was told. -/
theorem Updating.exists_stale : ∃ s t, Reachable s ∧ s.isQuiet = true ∧ s.IsOpen 1 ∧
    s.ListensOnce ⟨1, 1⟩ row "t" key ∧ Updating (fun v => v.store.Fits) s t ∧ t.isQuiet = true ∧
    ¬∃ new last, t.changes ⟨1, 1⟩ row = s.changes ⟨1, 1⟩ row ++ new ∧ Linked (s.row? "t" key) new last ∧
      last = t.row? "t" key := by
  have hplay : (play (·.store.fits) overtaking).any (fun (s, t) => t.isQuiet &&
      (s.changes ⟨1, 1⟩ row).isEmpty && decide (shown t =
        ([("\x7b\"id\":1,\"n\":1\x7d", "\x7b\"id\":1,\"n\":2\x7d"),
          ("\x7b\"id\":1,\"n\":0\x7d", "\x7b\"id\":1,\"n\":1\x7d")], some "\x7b\"id\":1,\"n\":2\x7d"))) =
      true := by
    decide +kernel
  obtain ⟨⟨s, t⟩, hst, htest⟩ := (Option.any_eq_true _ _).mp hplay
  simp only [Bool.and_eq_true, List.isEmpty_iff, decide_eq_true_eq] at htest
  obtain ⟨⟨hquiet, hnone⟩, hshown⟩ := htest
  obtain ⟨hs, hrest, hopen, hlistens, hupdating⟩ := of_play (by decide +kernel) hst
  refine ⟨s, t, hs, hrest, hopen, hlistens, hupdating.mono fun v hv => Store.fits_iff hv, hquiet, ?_⟩
  rintro ⟨new, last, hchanges, hlinked, rfl⟩
  -- the row that is told last is not the one that is stored
  rw [hnone, List.nil_append] at hchanges
  obtain ⟨htold, hrow⟩ := Prod.mk.inj hshown
  rw [hchanges] at htold
  obtain ⟨first, rest, rfl, -, hrest⟩ := List.map_eq_cons_iff.mp htold
  obtain ⟨second, rest, rfl, hsecond, hrest⟩ := List.map_eq_cons_iff.mp hrest
  obtain rfl := List.map_eq_nil_iff.mp hrest
  obtain ⟨-, -, hlast⟩ := hlinked
  rw [← hlast, Option.map_some, Option.some.injEq, (Prod.mk.inj hsecond).2] at hrow
  exact absurd hrow (by decide)

end LiveQuery
