import LiveQuery.Proofs.Database.Onward
import LiveQuery.Proofs.Live.Accounts

/-! # Leaving

A client that closes a connection or a channel has its listeners removed from every table. The removal is a
post to each actor, so what is subscribed behind it stays.

While the removal is under way a table is in one of two states (`Database.Sweeps`): the removal has yet to be
sent to it, or nobody who leaves will be among its listeners once its inbox is empty. If subscriptions of
those who leave are sent no later than the removal (`Database.inTime`), every move keeps this, and nobody is
left at the end (`Onward.freeOf_leave`). A query that is run again too late leaves its listeners behind
(`Onward.exists_left_behind`).
-/
namespace LiveQuery

/-- Starts to close a connection, or a channel of one. -/
def Database.leave (s : Database) : Leaving → Database
  | .connection c => s.disconnect c
  | .channel u => s.closeChannel u

/-- Whether an action sends the removal to a table. -/
def Action.removes (d : Leaving) (table : String) : Action → Bool
  | .post name (.remove e) => name == table && decide (e = d)
  | .broadcast (.remove e) => decide (e = d)
  | _ => false

/-- Whether an action sends a subscription of those who leave to a table. -/
def Action.joins (d : Leaving) (table : String) : Action → Bool
  | .post name (.subscribe s) => name == table && d.covers s.listener
  | _ => false

/-- The table that an action sends a post to. -/
def Action.table? : Action → Option String
  | .post table _ => some table
  | _ => none

/-- No subscription of those who leave waits to be sent to a table that the removal has been sent to. -/
def Database.inTime (d : Leaving) (s : Database) : Bool :=
  s.pending.all fun a => a.table?.all fun table => !a.joins d table || s.pending.any (Action.removes d table)

/-- None of those who leave listens on any table. -/
def Engine.FreeOf (d : Leaving) (e : Engine) : Prop :=
  ∀ table, ∀ x ∈ (e.actor table).listeners.subscriptions table, d.covers x.listener = false

/-- The removal has yet to be sent to a table, or nobody who leaves will be left there. -/
def Database.Sweeps (d : Leaving) (table : String) (s : Database) : Prop :=
  (∃ a ∈ s.pending, a.removes d table = true) ∨
    ∀ x ∈ (s.engine.audience table).subscriptions table, d.covers x.listener = false

section Step

variable {d : Leaving} {table : String} {s t : Database}

/-- Without a removal to come, a subscription in time is none of those who leave. -/
theorem Database.joins_of_inTime (h : s.inTime d = true) (hnone : ¬∃ a ∈ s.pending, a.removes d table = true)
    {a : Action} (ha : a ∈ s.pending) : a.joins d table = false := by
  cases hjoins : a.joins d table with
  | false => rfl
  | true =>
    have htable : a.table? = some table := by
      unfold Action.joins at hjoins
      split at hjoins
      next => rw [eq_of_beq (Bool.and_eq_true_iff.mp hjoins).1]; rfl
      next => cases hjoins
    have hin := List.all_eq_true.mp h a ha
    rw [htable, Option.all_some, hjoins] at hin
    exact absurd (List.any_eq_true.mp hin) hnone

/-- Nobody who leaves is left after a post, unless it subscribes one of them. -/
theorem Audience.free_handle {t : Audience} (ht : t.Ordered)
    (h : ∀ x ∈ t.subscriptions table, d.covers x.listener = false) {p : Post}
    (hp : (Action.post table p).joins d table = false) :
    ∀ x ∈ (Actor.handle t p).1.subscriptions table, d.covers x.listener = false := by
  intro x hx
  cases p with
  | subscribe s =>
    rcases List.mem_cons.mp ((Audience.subscribe_perm ht table s).mem_iff.mp hx) with rfl | hx
    · simpa [Action.joins] using hp
    · exact h x hx
  | remove e =>
    rw [Actor.handle, Audience.subscriptions_remove] at hx
    exact h x (List.mem_of_mem_filter hx)
  | event e => exact h x hx

/-- Nobody who leaves is left after the removal. -/
theorem Audience.free_of_removes {t : Audience} {p : Post}
    (hp : (Action.post table p).removes d table = true) :
    ∀ x ∈ (Actor.handle t p).1.subscriptions table, d.covers x.listener = false := by
  intro x hx
  cases p with
  | remove e =>
    have he : e = d := by simpa [Action.removes] using hp
    rw [Actor.handle, Audience.subscriptions_remove, he] at hx
    simpa using (List.mem_filter.mp hx).2
  | subscribe | event => cases hp

/-- An action that subscribes none of those who leave. -/
theorem Engine.free_act (hs : s.engine.Ordered) {a : Action} (hjoins : a.joins d table = false)
    (h : ∀ x ∈ (s.engine.audience table).subscriptions table, d.covers x.listener = false) :
    ∀ x ∈ ((s.act a).engine.audience table).subscriptions table, d.covers x.listener = false := by
  rcases s.engine_act a with ⟨-, heq⟩ | ⟨name, p, rfl, heq⟩
  · rwa [heq]
  · rw [heq, audience_post]
    split
    next hname =>
      subst hname
      exact Audience.free_handle (hs.audience _) h hjoins
    next => exact h

/-- An action that sends the removal: nobody who leaves is left, unless it goes on to post the removal to the table. -/
theorem Engine.free_act_of_removes {a : Action} (order : Traversal) (hremoves : a.removes d table = true) :
    (∃ b ∈ s.fanOut order a, b.removes d table = true) ∨
      ∀ x ∈ ((s.act a).engine.audience table).subscriptions table, d.covers x.listener = false := by
  cases a with
  | post name p =>
    have hname : name = table := by
      cases p with
      | remove e => exact eq_of_beq (Bool.and_eq_true_iff.mp hremoves).1
      | subscribe | event => cases hremoves
    subst hname
    refine .inr ?_
    rw [show (s.act (.post name p)).engine = s.engine.post name p from rfl, audience_post, if_pos rfl]
    exact Audience.free_of_removes hremoves
  | broadcast p =>
    by_cases htable : table ∈ Keyed.keys s.engine.actors
    · refine .inl ⟨.post table p, List.mem_map_of_mem (mem_tables.mpr htable), ?_⟩
      cases p with
      | remove e => simpa [Action.removes] using hremoves
      | subscribe | event => cases hremoves
    · -- the broadcast does not reach the table, where nobody listens
      refine .inr ?_
      rw [show (s.act (.broadcast p)).engine = s.engine from rfl, audience, actor_of_not_mem htable]
      simp [Actor.audience]
  | deliver | answer | hangUp => cases hremoves

namespace Database.Sweeps

/-- Other actions that wait do not matter, nor what the actors have taken. -/
theorem mono (haudience : t.engine.audience table = s.engine.audience table) (hpending : s.pending ⊆ t.pending)
    (h : s.Sweeps d table) : t.Sweeps d table := by
  rcases h with ⟨a, ha, hremoves⟩ | hfree
  · exact .inl ⟨a, hpending ha, hremoves⟩
  · exact .inr (haudience ▸ hfree)

/-- A task that does an action. -/
theorem act (hs : s.engine.Ordered) (hin : s.inTime d = true) {rest others : List Action} {a : Action}
    {order : Traversal} (frame : t = { s.act a with tasks := t.tasks }) (before : s.pending.Perm (a :: rest ++ others))
    (after : t.pending.Perm (s.fanOut order a ++ rest ++ others)) (h : s.Sweeps d table) : t.Sweeps d table := by
  have hengine : t.engine = (s.act a).engine := by rw [frame]
  have hstays : ∀ b ∈ rest ++ others, b ∈ t.pending := fun b hb =>
    after.mem_iff.mpr (List.append_assoc .. ▸ List.mem_append_right _ hb)
  rw [Sweeps, hengine]
  by_cases hpending : ∃ b ∈ s.pending, b.removes d table = true
  · obtain ⟨b, hb, hremoves⟩ := hpending
    rcases List.mem_cons.mp (before.mem_iff.mp hb) with rfl | hb
    · refine (Engine.free_act_of_removes order hremoves).imp_left fun ⟨c, hc, hremoves⟩ => ⟨c, ?_, hremoves⟩
      exact after.mem_iff.mpr (List.mem_append_left _ (List.mem_append_left _ hc))
    · exact .inl ⟨b, hstays b hb, hremoves⟩
  · have hjoins := joins_of_inTime hin hpending (before.mem_iff.mpr List.mem_cons_self)
    exact .inr (Engine.free_act hs hjoins (h.resolve_left hpending))

theorem step (hs : s.Wired) (hin : s.inTime d = true) (hstep : Step s t) (h : s.Sweeps d table) :
    t.Sweeps d table := by
  cases progress hs hstep with
  | begins mem starts frame pending notices =>
    refine h.mono (by rw [frame, starts.frame]) fun b hb => ?_
    exact pending.mem_iff.mpr (List.mem_append_right _ hb)
  | lapses query frame pending notices =>
    exact h.mono (by rw [frame]) fun b hb => pending.mem_iff.mpr hb
  | ends mem frame pending notices =>
    exact h.mono (by rw [frame]) fun b hb => pending.mem_iff.mpr hb
  | acts order mem frame before after notices => exact h.act hs.engine hin frame before after
  | handles store schema audience pending open_iff messages notices received =>
    exact h.mono (audience table) (pending ▸ List.Subset.refl _)

theorem move {texts : String → Prop} (hs : s.Wired) (hin : s.inTime d = true) (hmove : Move texts s t)
    (h : s.Sweeps d table) : t.Sweeps d table := by
  rcases hmove.step_or_asks with hstep | ⟨hengine, asked, htasks, -⟩
  · exact h.step hs hin hstep
  · refine h.mono (by rw [hengine]) ?_
    rw [pending, pending, htasks, List.flatMap_append]
    exact List.subset_append_left _ _

/-- Once those who leave have asked to, the removal has yet to be sent to every table. -/
theorem leave (s : Database) (d : Leaving) (table : String) : (s.leave d).Sweeps d table := by
  refine .inl ⟨.broadcast (.remove d), ?_, by simp [Action.removes]⟩
  cases d <;> simp [Database.leave, closeChannel, disconnect, pending, Task.pending]

/-- When nothing is under way any more, nobody who leaves listens. -/
theorem free_of_quiet (hquiet : s.isQuiet = true) (h : s.Sweeps d table) :
    ∀ x ∈ (s.engine.actor table).listeners.subscriptions table, d.covers x.listener = false := by
  obtain ⟨htasks, hbusy⟩ := Bool.and_eq_true_iff.mp hquiet
  have haudience : s.engine.audience table = (s.engine.actor table).listeners := by
    rw [Engine.audience, Actor.audience, Engine.inbox_of_busy?_none (Option.isNone_iff_eq_none.mp hbusy)]
    rfl
  rcases h with ⟨b, hb, -⟩ | hfree
  · rw [pending, List.isEmpty_iff.mp htasks] at hb
    cases hb
  · rwa [haudience] at hfree

end Database.Sweeps

end Step

/-- Whoever closes a connection or a channel is gone from every table once nothing is under way, if no
subscription of theirs is sent later than the removal. Whatever else happens meanwhile does not matter. -/
theorem Onward.freeOf_leave {s t : Database} {d : Leaving} (hs : Reachable s)
    (h : Onward (fun _ => True) (Database.inTime d · = true) (s.leave d) t) (hquiet : t.isQuiet = true) :
    t.engine.FreeOf d := by
  have hleave : Reachable (s.leave d) := by
    cases d with
    | connection c => exact hs.move (.disconnect s c)
    | channel u => exact hs.move (.closeChannel s u)
  suffices hsweeps : ∀ table, t.Sweeps d table from fun table => (hsweeps table).free_of_quiet hquiet
  intro table
  clear hquiet
  induction h with
  | start => exact Database.Sweeps.leave s d table
  | move before hmove _ ih => exact ih.move (hleave.onward before).wired before.test hmove

namespace Leaving.Sample

/-- A connection with a live query, which is to be run again for a row that somebody else has inserted. -/
def pendingRerun : List Cue :=
  [.call "CREATE TABLE t (id int PRIMARY KEY)", .task 0, .task 0,
    .connect, .run 1 "LIVE MANY t \x7bid\x7d", .task 0, .task 0, .task 0, .actor "t",
    .call "INSERT INTO t \x7bid: 1\x7d", .task 0, .task 0, .task 0, .task 0, .actor "t"]

/-- The query is run again and subscribes to the row, then the removal is sent. -/
def subscribesFirst : List Cue :=
  [.task 0, .task 0, .task 0, .task 0, .task 0, .task 0, .actor "t", .actor "t"]

/-- The removal is sent and done, then the query is run again and subscribes to the row. -/
def subscribesLast : List Cue :=
  [.task 1, .task 1, .actor "t", .task 1, .task 0, .task 0, .task 0, .actor "t"]

/-- Plays a script up to the closing of the first connection, and another one from there. -/
def play (test : Database → Bool) (before after : List Cue) : Option (Database × Database) :=
  (Database.follow (fun _ => true) 60 before {}).bind fun s =>
    let left := s.leave (.connection 1)
    if test left then (left.follow test 60 after).map (Prod.mk s) else none

theorem of_play {test : Database → Bool} {before after : List Cue} {s t : Database}
    (h : play test before after = some (s, t)) :
    Reachable s ∧ Onward (fun _ => True) (test · = true) (s.leave (.connection 1)) t := by
  obtain ⟨u, hu, h⟩ := Option.bind_eq_some_iff.mp h
  dsimp only at h
  split at h
  next hok =>
    obtain ⟨v, hv, hpair⟩ := Option.map_eq_some_iff.mp h
    cases hpair
    exact ⟨Reachable.empty.follow hu, .of_follow (.start hok) hv⟩
  next => cases h

/-- Whether some listener of the first connection is left on the table. -/
def leftBehind (s : Database) : Bool :=
  ((s.engine.actor "t").listeners.subscriptions "t").any fun x => (Leaving.connection 1).covers x.listener

end Leaving.Sample

open Leaving.Sample in
/-- A connection that is closed while its query runs again leaves nothing if the query subscribes first. -/
theorem Onward.freeOf_leave_subscribesFirst : ∃ s t, Reachable s ∧ leftBehind s = true ∧
    Onward (fun _ => True) (Database.inTime (.connection 1) · = true) (s.leave (.connection 1)) t ∧
    t.isQuiet = true ∧ t.engine.FreeOf (.connection 1) := by
  have hplay : (play (Database.inTime (.connection 1)) pendingRerun subscribesFirst).any
      (fun (s, t) => leftBehind s && t.isQuiet) = true := by
    decide +kernel
  obtain ⟨⟨s, t⟩, hst, htest⟩ := (Option.any_eq_true _ _).mp hplay
  obtain ⟨hlistens, hquiet⟩ := Bool.and_eq_true_iff.mp htest
  obtain ⟨hs, honward⟩ := of_play hst
  exact ⟨s, t, hs, hlistens, honward, hquiet, Onward.freeOf_leave hs honward hquiet⟩

open Leaving.Sample in
/-- A query that is run again behind the removal leaves a listener of the closed connection. -/
theorem Onward.exists_left_behind : ∃ s t, Reachable s ∧
    Onward (fun _ => True) (fun _ => True) (s.leave (.connection 1)) t ∧ t.isQuiet = true ∧
    ¬t.engine.FreeOf (.connection 1) := by
  have hplay : (play (fun _ => true) pendingRerun subscribesLast).any
      (fun (_, t) => t.isQuiet && leftBehind t) = true := by
    decide +kernel
  obtain ⟨⟨s, t⟩, hst, htest⟩ := (Option.any_eq_true _ _).mp hplay
  obtain ⟨hquiet, hleft⟩ := Bool.and_eq_true_iff.mp htest
  obtain ⟨hs, honward⟩ := of_play hst
  refine ⟨s, t, hs, honward.mono (fun _ h => h) fun _ _ => trivial, hquiet, fun hfree => ?_⟩
  obtain ⟨x, hx, hcovers⟩ := List.any_eq_true.mp hleft
  exact Bool.false_ne_true ((hfree "t" x hx).symm.trans hcovers)

end LiveQuery
