import LiveQuery.Proofs.Live.Changes
import Mathlib.Data.List.Induction

/-! # What an actor makes of its posts

The listeners of a table are an account of the posts that its actor has taken: those of the subscriptions that no later
removal covers (`Post.standing`), each as often as it was subscribed (`Actor.Took.listeners`). So whom a write notifies
can be told from the posts before it alone: a new row calls once for each standing listener that awaits it, a change
sends one message to each standing listener on the row, and nothing else calls for anybody
(`Actor.Took.notices_standing`). In a database the actor's step carries just that out: it starts a task
for each call and hands each message over (`Actor.Took.stepActor`).
-/
namespace LiveQuery

namespace Post

/-- Whether a post takes a listener away. -/
def removes (l : Listener) : Post → Bool
  | .remove d => d.covers l
  | .subscribe _ | .event _ => false

/-- The subscription that a post makes. -/
def subscribed : Post → List Subscription
  | .subscribe s => [s]
  | .remove _ | .event _ => []

/-- The subscriptions among posts, in their order, that no later post takes away. -/
def standing : List Post → List Subscription
  | [] => []
  | p :: later => (p.subscribed.filter fun s => !later.any (removes s.listener)) ++ standing later

/-- One more post takes some of the subscriptions away or makes one. -/
theorem standing_append (posts : List Post) (p : Post) :
    standing (posts ++ [p]) = ((standing posts).filter fun s => !p.removes s.listener) ++ p.subscribed := by
  induction posts with
  | nil => simp [standing]
  | cons q posts ih =>
    have hlater : ∀ s : Subscription, (!(posts ++ [p]).any (removes s.listener)) =
        (!p.removes s.listener && !posts.any (removes s.listener)) := by
      intro s
      rw [List.any_append, List.any_cons, List.any_nil, Bool.or_false, Bool.not_or, Bool.and_comm]
    rw [List.cons_append, standing, standing, ih, List.filter_append, List.filter_filter, List.append_assoc]
    simp only [hlater]

end Post

namespace Subscription

@[simp] theorem awaits_on (name : String) (row : Value) (s : Subscription) : (s.on name).awaits row = s.awaits row := by
  rcases s with ⟨table, _ | filter, l⟩ | ⟨table, key, l⟩ <;> rfl

@[simp] theorem isOn_on (name : String) (key : Bytes) (s : Subscription) : (s.on name).isOn key = s.isOn key := by
  cases s <;> rfl

end Subscription

/-- A row before or after the write cannot be decoded. -/
def Event.Unreadable (e : Event) : Prop :=
  ∃ bytes, (e.old = some bytes ∨ e.new = some bytes) ∧ ∃ f, Value.decode bytes = .error f

namespace Actor

/-- An actor that was started without listeners and has taken posts, in their order; others may wait in its inbox. -/
inductive Took : List Post → Actor → Prop
  | start : Took [] {}
  | receive {posts : List Post} {a : Actor} (before : Took posts a) (p : Post) :
      Took posts { a with inbox := a.inbox ++ [p] }
  | take {posts : List Post} {a b : Actor} {p : Post} {rest : List Post} {notices : List Notice} (before : Took posts a)
      (next : a.inbox = p :: rest) (step : a.step = some (b, notices)) : Took (posts ++ [p]) b

variable {posts rest : List Post} {a b : Actor} {p : Post} {notices : List Notice}

theorem step_of_inbox (next : a.inbox = p :: rest) (step : a.step = some (b, notices)) :
    b.listeners = (handle a.listeners p).1 ∧ notices = (handle a.listeners p).2 := by
  rw [Actor.step, next] at step
  cases step
  exact ⟨rfl, rfl⟩

/-- Handling a post keeps the listeners those of the standing subscriptions. -/
theorem subscriptions_handle {t : Audience} (name : String) (ordered : t.Ordered)
    (h : (t.subscriptions name).Perm ((Post.standing posts).map (Subscription.on name))) (p : Post) :
    ((handle t p).1.subscriptions name).Perm ((Post.standing (posts ++ [p])).map (Subscription.on name)) := by
  rw [Post.standing_append, List.map_append]
  cases p with
  | subscribe s =>
    have hadded : ((t.subscribe s).subscriptions name).Perm (s.on name :: t.subscriptions name) :=
      Audience.subscribe_perm ordered name s
    have hkept : ((Post.standing posts).filter fun s' => !(Post.subscribe s).removes s'.listener) =
        Post.standing posts := List.filter_eq_self.mpr fun _ _ => rfl
    rw [hkept]
    exact hadded.trans ((h.cons _).trans (List.perm_append_singleton _ _).symm)
  | remove d =>
    have hleft : (t.remove d).subscriptions name = (t.subscriptions name).filter fun s => !d.covers s.listener :=
      Audience.subscriptions_remove t name d
    have hmap : ((Post.standing posts).filter fun s => !(Post.remove d).removes s.listener).map (Subscription.on name) =
        ((Post.standing posts).map (Subscription.on name)).filter fun s => !d.covers s.listener := by
      simp [List.filter_map, Function.comp_def, Post.removes]
    rw [hmap, Post.subscribed, List.map_nil, List.append_nil]
    exact hleft ▸ h.filter _
  | event e =>
    have hkept : ((Post.standing posts).filter fun s => !(Post.event e).removes s.listener) = Post.standing posts :=
      List.filter_eq_self.mpr fun _ _ => rfl
    rw [hkept, Post.subscribed, List.map_nil, List.append_nil]
    exact h

namespace Took

/-- The listeners of an actor are those of the subscriptions that stand after the posts that it has taken. -/
theorem listeners (h : Took posts a) (name : String) : a.listeners.Ordered ∧
    (a.listeners.subscriptions name).Perm ((Post.standing posts).map (Subscription.on name)) := by
  induction h with
  | start => exact ⟨Audience.ordered_empty, List.Perm.refl _⟩
  | receive _ p ih => exact ih
  | take _ next step ih =>
    obtain ⟨hordered, hperm⟩ := ih
    obtain ⟨hlisteners, -⟩ := step_of_inbox next step
    rw [hlisteners]
    exact ⟨ordered_handle hordered _, subscriptions_handle name hordered hperm _⟩

/-- Posts can be taken whatever they are. -/
theorem all (posts : List Post) : Took posts { listeners := Actor.audience { inbox := posts } } := by
  induction posts using List.reverseRecOn with
  | nil => exact .start
  | append_singleton posts p ih =>
    have hnext : Took (posts ++ [p]) { listeners := (handle (Actor.audience { inbox := posts }) p).1 } :=
      (ih.receive p).take rfl rfl
    rwa [← Actor.audience_post { inbox := posts } p] at hnext

/-- The standing subscriptions that pass a test are those of the listeners that pass it. -/
theorem filter_perm (h : Took posts a) (name : String) {test : Subscription → Bool}
    (htest : ∀ s, test (s.on name) = test s) {α : Type} (f : Listener → α) :
    (((a.listeners.subscriptions name).filter test).map fun s => f s.listener).Perm
      (((Post.standing posts).filter test).map fun s => f s.listener) := by
  obtain ⟨-, hperm⟩ := h.listeners name
  have hmap : (((Post.standing posts).map (Subscription.on name)).filter test).map (fun s => f s.listener) =
      ((Post.standing posts).filter test).map fun s => f s.listener := by
    simp [List.filter_map, Function.comp_def, htest]
  exact hmap ▸ (hperm.filter test).map _

/-- A new row whose fields are keys calls for the queries of the listeners that await it. -/
theorem notices_new (h : Took posts a) {key : Literal} {bytes : Bytes} {fields : List (String × Value)}
    (row : Value.decode bytes = .ok (.record fields)) (keys : ∀ f ∈ fields, ∃ k, f.2.toKey = .ok k) :
    (Event.notices ⟨key, none, some bytes⟩ a.listeners).Perm
      (((Post.standing posts).filter (Subscription.awaits (.record fields))).map fun s => .rerun s.listener key) := by
  obtain ⟨hordered, -⟩ := h.listeners ""
  have hmember : ∀ column v, (Value.record fields).member column = .ok v → ∃ k, v.toKey = .ok k := by
    intro column v hv
    rw [Value.member] at hv
    cases hfound : Keyed.find? fields column with
    | none => rw [hfound] at hv; cases hv
    | some w =>
      rw [hfound] at hv
      cases hv
      exact keys _ (Keyed.mem_of_find? hfound)
  have hnotices : Event.notices ⟨key, none, some bytes⟩ a.listeners =
      ((a.listeners.subscriptions "").filter (Subscription.awaits (.record fields))).map
        fun s => .rerun s.listener key := by
    simp only [Event.notices, row]
    rw [Audience.forNewRow_of_keys hordered "" hmember, List.map_map]
    rfl
  exact hnotices ▸ h.filter_perm "" (fun _ => Subscription.awaits_on ..) fun l => Notice.rerun l key

/-- A change that can be decoded sends its rows to the listeners on the row. -/
theorem notices_changed (h : Took posts a) {key : Literal} {old new : Bytes} {j k : Json}
    (before : storedJson? old = some j) (after : storedJson? new = some k) :
    (Event.notices ⟨key, some old, some new⟩ a.listeners).Perm
      (((Post.standing posts).filter (Subscription.isOn key.keyBytes)).map fun s =>
        .deliver s.listener.subscriber (s.listener.recordUpdate j k)) := by
  obtain ⟨hordered, -⟩ := h.listeners ""
  have hnotices : Event.notices ⟨key, some old, some new⟩ a.listeners =
      ((a.listeners.subscriptions "").filter (Subscription.isOn key.keyBytes)).map fun s =>
        .deliver s.listener.subscriber (s.listener.recordUpdate j k) := by
    simp only [Event.notices, before, after]
    rw [Audience.forRow_eq hordered "", List.map_map]
    rfl
  exact hnotices ▸ h.filter_perm "" (fun _ => Subscription.isOn_on ..) fun l =>
    Notice.deliver l.subscriber (l.recordUpdate j k)

/-- The actor of a table in a database takes posts only, whatever moves. -/
theorem step {s t : Database} {table : String} (h : Took posts (s.engine.actor table)) (hstep : Step s t) :
    ∃ posts, Took posts (t.engine.actor table) := by
  cases hstep with
  | task fuel order i hstep =>
    obtain ⟨task, others, s', next, -, hturn, -, ht⟩ := Database.stepTask_split hstep
    suffices hleft : ∃ posts, Took posts (s'.engine.actor table) by rw [ht]; exact hleft
    cases hturn with
    | idle | done => exact ⟨posts, h⟩
    | starts hstarts => rw [hstarts.frame]; exact ⟨posts, h⟩
    | @acts rest a order =>
      rcases s.engine_act a with ⟨-, heq⟩ | ⟨name, p, -, heq⟩
      · exact ⟨posts, heq ▸ h⟩
      · rw [heq, Engine.actor_post]
        split
        next => exact ⟨_, h.receive p⟩
        next => exact ⟨posts, h⟩
  | actor name hstep =>
    obtain ⟨called, hcalled, hothers, -⟩ := Database.stepActor_called hstep
    by_cases hname : table = name
    · subst hname
      obtain ⟨p, rest, next, -⟩ := Database.stepActor_eq hstep
      exact ⟨_, h.take next hcalled⟩
    · exact ⟨posts, hothers table hname ▸ h⟩

end Took

end Actor

/-- A write whose rows cannot be decoded notifies nobody. -/
theorem Event.notices_unreadable {e : Event} (h : e.Unreadable) (t : Audience) : e.notices t = [] := by
  obtain ⟨bytes, hbytes, f, hf⟩ := h
  have hnone : storedJson? bytes = none := by rw [storedJson?, hf]
  obtain ⟨key, old, new⟩ := e
  cases new with
  | none => cases old <;> rfl
  | some new =>
    cases old with
    | none =>
      rcases hbytes with hbytes | hbytes <;> cases hbytes
      simp only [notices, hf]
    | some old =>
      rcases hbytes with hbytes | hbytes <;> cases hbytes
      · simp only [notices, hnone]
      · simp only [notices, hnone]
        cases storedJson? old <;> rfl

/-- A change whose rows decode sends the data of both to the listeners on the row. -/
theorem Actor.Took.notices_decoded {posts : List Post} {a : Actor} (h : Took posts a) {key : Literal} {old new : Bytes}
    {v w : Value} (before : Value.decode old = .ok v) (after : Value.decode new = .ok w) :
    ∃ j k, v.json? = some j ∧ w.json? = some k ∧ (Event.notices ⟨key, some old, some new⟩ a.listeners).Perm
      (((Post.standing posts).filter (Subscription.isOn key.keyBytes)).map fun s =>
        .deliver s.listener.subscriber (.recordUpdate s.listener.subscriber.channel s.listener.path j k)) := by
  obtain ⟨j, hj⟩ := Value.exists_json? v (Value.isData_of_decode before)
  obtain ⟨k, hk⟩ := Value.exists_json? w (Value.isData_of_decode after)
  refine ⟨j, k, hj, hk, h.notices_changed ?_ ?_⟩
  · rw [storedJson?, before]
    exact hj
  · rw [storedJson?, after]
    exact hk

/-- Posts that are no write, removed rows and rows that cannot be decoded notify nobody. -/
theorem Actor.handle_silent {t : Audience} {p : Post} (h : ∀ e, p = .event e → e.new = none ∨ e.Unreadable) :
    (handle t p).2 = [] := by
  cases p with
  | subscribe | remove => rfl
  | event e =>
    rcases h e rfl with hnone | hunreadable
    · obtain ⟨key, old, new⟩ := e
      cases hnone
      cases old <;> rfl
    · exact Event.notices_unreadable hunreadable t

/-- Whatever an actor has taken before, the next post notifies these and nobody else: a new row whose fields are keys,
each standing listener that awaits it, by running its query again for the key; a change, each standing listener on the
row, by a message with the row before and after. Removed rows, rows that cannot be decoded, subscriptions and removals
notify nobody. -/
theorem Actor.Took.notices_standing {posts rest : List Post} {a b : Actor} {p : Post} {notices : List Notice}
    (h : Took posts a) (next : a.inbox = p :: rest) (step : a.step = some (b, notices)) :
    (∀ key bytes fields, p = .event ⟨key, none, some bytes⟩ → Value.decode bytes = .ok (.record fields) →
      (∀ f ∈ fields, ∃ k, f.2.toKey = .ok k) → notices.Perm
        (((Post.standing posts).filter (Subscription.awaits (.record fields))).map fun s => .rerun s.listener key)) ∧
    (∀ key old new v w, p = .event ⟨key, some old, some new⟩ → Value.decode old = .ok v → Value.decode new = .ok w →
      ∃ j k, v.json? = some j ∧ w.json? = some k ∧ notices.Perm
        (((Post.standing posts).filter (Subscription.isOn key.keyBytes)).map fun s =>
          .deliver s.listener.subscriber (.recordUpdate s.listener.subscriber.channel s.listener.path j k))) ∧
    (∀ key old, p = .event ⟨key, old, none⟩ → notices = []) ∧
    (∀ e, p = .event e → e.Unreadable → notices = []) ∧
    ((∀ e, p ≠ .event e) → notices = []) := by
  obtain ⟨-, rfl⟩ := step_of_inbox next step
  refine ⟨?_, ?_, ?_, ?_, fun other => handle_silent fun e he => absurd he (other e)⟩
  · rintro key bytes fields rfl row keys
    exact h.notices_new row keys
  · rintro key old new v w rfl hold hnew
    exact h.notices_decoded hold hnew
  · rintro key old rfl
    exact handle_silent fun e he => .inl (Post.event.inj he ▸ rfl)
  · rintro e rfl unreadable
    exact handle_silent fun e' he => .inr (Post.event.inj he ▸ unreadable)

/-! ## In a database -/

/-- The step to `t` carries out some notices, in some order: each query to be run again becomes a task, and each
message is handed over on its channel if the connection is open. Nothing else becomes a task or is handed over. -/
structure Database.CarriesOut (s t : Database) (notices : List Notice) : Prop where
  tasks : ∃ added, t.tasks = s.tasks ++ added ∧ added.Perm (notices.filterMap Notice.task?)
  received : ∀ u, s.IsOpen u.connection →
    ∃ ms, t.received u = s.received u ++ ms ∧ ms.Perm (notices.filterMap (Notice.message? u))

theorem Database.CarriesOut.congr {s t : Database} {notices notices' : List Notice} (h : s.CarriesOut t notices)
    (same : notices.Perm notices') : s.CarriesOut t notices' := by
  obtain ⟨⟨added, htasks, hadded⟩, hreceived⟩ := h
  refine ⟨⟨added, htasks, hadded.trans (same.filterMap _)⟩, fun u hopen => ?_⟩
  obtain ⟨ms, hms, hperm⟩ := hreceived u hopen
  exact ⟨ms, hms, hperm.trans (same.filterMap _)⟩

/-- What a step of an actor starts and sends, whatever the actor has taken before: for a new row whose fields are
keys, it runs the query of each standing listener that awaits it again for the key; for a change, it sends each
standing listener on the row a message with the row before and after; and nothing else. -/
theorem Actor.Took.stepActor {s t : Database} {table : String} {posts : List Post}
    (h : Took posts (s.engine.actor table)) (step : s.stepActor table = some t) :
    ∃ p rest, (s.engine.actor table).inbox = p :: rest ∧ Took (posts ++ [p]) (t.engine.actor table) ∧
      (∀ key bytes fields, p = .event ⟨key, none, some bytes⟩ → Value.decode bytes = .ok (.record fields) →
        (∀ f ∈ fields, ∃ k, f.2.toKey = .ok k) → s.CarriesOut t
          (((Post.standing posts).filter (Subscription.awaits (.record fields))).map fun x => .rerun x.listener key)) ∧
      (∀ key old new v w, p = .event ⟨key, some old, some new⟩ → Value.decode old = .ok v → Value.decode new = .ok w →
        ∃ j k, v.json? = some j ∧ w.json? = some k ∧ s.CarriesOut t
          (((Post.standing posts).filter (Subscription.isOn key.keyBytes)).map fun x =>
            .deliver x.listener.subscriber (.recordUpdate x.listener.subscriber.channel x.listener.path j k))) ∧
      ((∀ e, p = .event e → e.new = none ∨ e.Unreadable) → s.CarriesOut t []) := by
  obtain ⟨called, hcalled, -, htasks, hreceived⟩ := Database.stepActor_called step
  have hcarries : s.CarriesOut t called :=
    ⟨⟨_, htasks, List.Perm.refl _⟩, fun u hopen => ⟨_, hreceived u hopen, List.Perm.refl _⟩⟩
  obtain ⟨p, rest, next, -⟩ := Database.stepActor_eq step
  obtain ⟨-, rfl⟩ := step_of_inbox next hcalled
  refine ⟨p, rest, next, h.take next hcalled, ?_, ?_, fun hsilent => ?_⟩
  · rintro key bytes fields rfl row keys
    exact hcarries.congr (h.notices_new row keys)
  · rintro key old new v w rfl hold hnew
    obtain ⟨j, k, hj, hk, hnotices⟩ := h.notices_decoded hold hnew
    exact ⟨j, k, hj, hk, hcarries.congr hnotices⟩
  · rwa [handle_silent hsilent] at hcarries

/-- In every reachable database each actor has taken some posts. -/
theorem Reachable.took {s : Database} (h : Reachable s) (table : String) :
    ∃ posts, Actor.Took posts (s.engine.actor table) := by
  induction h with
  | @opened store s ordered h =>
    obtain ⟨schema, -, rfl⟩ := Database.eq_of_ofStore h
    exact ⟨[], .start⟩
  | @move s t _ h ih =>
    obtain ⟨posts, htook⟩ := ih
    rcases h.step_or_asks with hstep | ⟨hengine, -⟩
    · exact htook.step hstep
    · exact ⟨posts, hengine ▸ htook⟩

namespace Dispatch.Sample

/-- A listener of a channel on a whole result. -/
def listener (connection channel : Nat) : Listener := ⟨⟨connection, channel⟩, none, Path.root⟩

/-- Listeners on the whole table, on two values of a column and on a row; those of one connection leave. -/
def posts : List Post :=
  [.subscribe (.table "t" (some ("n", (Literal.int 7).keyBytes)) (listener 3 1)),
    .subscribe (.table "t" (some ("n", (Literal.int 7).keyBytes)) (listener 1 2)),
    .subscribe (.record "t" (Literal.int 1).keyBytes (listener 1 2)),
    .subscribe (.table "t" none (listener 1 1)), .remove (.connection 3),
    .subscribe (.table "t" (some ("n", (Literal.int 8).keyBytes)) (listener 2 1))]

/-- The bytes of the row `{id: 1, n: 7}`. -/
def row : Bytes := [2, 30, 5, 17, 9, 15, 1, 105, 100, 110, 7]

end Dispatch.Sample

open Dispatch.Sample in
/-- A new row notifies the listener on its value that stayed and the one on the whole table, once each. -/
theorem Actor.Took.notices_standing_row : ∃ a b p rest notices, Took posts a ∧ a.inbox = p :: rest ∧
    a.step = some (b, notices) ∧
      notices.Perm [.rerun (listener 1 2) (.int 1), .rerun (listener 1 1) (.int 1)] := by
  have htook := (Took.all posts).receive (.event ⟨.int 1, none, some row⟩)
  refine ⟨_, _, _, _, _, htook, rfl, rfl, ?_⟩
  obtain ⟨hnew, -⟩ := htook.notices_standing rfl rfl
  have hkeys : ∀ f ∈ [("id", Value.int 1), ("n", Value.int 7)], ∃ k, f.2.toKey = .ok k := by
    intro f hf
    rcases List.mem_pair.mp hf with rfl | rfl <;> exact ⟨_, rfl⟩
  exact hnew (.int 1) row [("id", .int 1), ("n", .int 7)] rfl rfl hkeys

end LiveQuery
