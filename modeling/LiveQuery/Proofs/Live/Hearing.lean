import LiveQuery.Proofs.Live.Leaving
import LiveQuery.Proofs.Live.Replies

/-! # What a channel hears

A run from a state together with the messages that it hands over on one channel (`Heard`). A channel hears nothing
while all tasks are about other channels and no notice is for it (`Database.Silent`), and that goes on as long as no
write is published that calls for a notice for it (`Database.Silent.step`).

A channel that was given out is not given out again (`Database.Issued.move`), so what clients ask for later is about
other channels (`Move.aside`).
-/
namespace LiveQuery

def Notice.subscriber : Notice → Subscriber
  | .rerun l _ => l.subscriber
  | .deliver whom _ => whom

/-- The messages that a channel has in `t` behind those that it had in `s`. -/
def Database.handed (s t : Database) (u : Subscriber) : List Message :=
  (t.received u).drop (s.received u).length

/-- The states that are reached from `s`, with the messages that were handed over on a channel on the way; every
move passes a test, which looks at the messages so far. -/
inductive Heard (texts : String → Prop) (test : List Message → Database → Database → Prop) (u : Subscriber)
    (s : Database) : List Message → Database → Prop
  | start : Heard texts test u s [] s
  | move {ms : List Message} {t v : Database} (before : Heard texts test u s ms t) (h : Move texts t v)
      (passed : test ms t v) : Heard texts test u s (ms ++ t.handed v u) v

namespace Heard

variable {texts : String → Prop} {test : List Message → Database → Database → Prop} {u : Subscriber} {s t : Database}
  {ms : List Message}

theorem moves (h : Heard texts test u s ms t) : Relation.ReflTransGen (Move texts) s t := by
  induction h with
  | start => exact .refl
  | move _ h _ ih => exact ih.tail h

end Heard

/-- Makes the moves of a script as long as they pass the test, which is told whether the channel has heard anything,
and collects what it hears. -/
def Database.hear (test : Bool → Database → Bool) (u : Subscriber) (fuel : Nat) :
    List Cue → List Message → Database → Option (List Message × Database)
  | [], ms, s => some (ms, s)
  | c :: script, ms, s =>
    match s.cue fuel c with
    | none => none
    | some t =>
      match test ms.isEmpty s with
      | false => none
      | true =>
        match s.handed t u with
        | [] => t.hear test u fuel script ms
        | m :: more => t.hear test u fuel script (ms ++ m :: more)

theorem Heard.of_hear {test : Bool → Database → Bool} {u : Subscriber} {fuel : Nat} {script : List Cue}
    {s t v : Database} {ms ms' : List Message} {passes : List Message → Database → Database → Prop}
    (htest : ∀ ms s t, test ms.isEmpty s = true → passes ms s t) (h : Heard (fun _ => True) passes u s ms t)
    (hf : t.hear test u fuel script ms = some (ms', v)) : Heard (fun _ => True) passes u s ms' v := by
  induction script generalizing t ms with
  | nil => cases hf; exact h
  | cons c script ih =>
    have hreads : c.reads (fun _ => true) = true := by cases c <;> rfl
    simp only [Database.hear] at hf
    split at hf
    next => cases hf
    next w hw =>
      split at hf
      next => cases hf
      next hok =>
        have hmoved := h.move ((Move.of_cue hreads hw).mono fun _ _ => trivial) (htest _ _ _ hok)
        split at hf
        next hnone =>
          rw [hnone, List.append_nil] at hmoved
          exact ih hmoved hf
        next hmore => exact ih (hmore ▸ hmoved) hf

theorem Reachable.moves {texts : String → Prop} {s t : Database} (hs : Reachable s)
    (h : Relation.ReflTransGen (Move texts) s t) : Reachable t := by
  induction h with
  | refl => exact hs
  | tail _ h ih => exact ih.move (h.mono fun _ _ => trivial)

namespace Database

variable {s t : Database} {u : Subscriber}

theorem handed_of_closed (h : ¬t.IsOpen u.connection) : s.handed t u = [] := by
  rw [handed, received_of_closed h, List.drop_nil]

theorem handed_of_append {ms : List Message} (h : t.received u = s.received u ++ ms) : s.handed t u = ms := by
  rw [handed, h, List.drop_left]

theorem handed_of_eq (h : t.received u = s.received u) : s.handed t u = [] :=
  handed_of_append (h.trans (List.append_nil _).symm)

/-! ## Moves of clients -/

theorem Issued.move {texts : String → Prop} (h : Move texts s t) (hu : s.Issued u) : t.Issued u := by
  have hinsert : ∀ {k : Nat} {conn : Connection} {t : Database}, t.connections = Keyed.insert s.connections k conn →
      s.nextConnection ≤ t.nextConnection → (k = u.connection → u.channel < conn.nextChannel) → t.Issued u := by
    intro k conn t hconnections hnext hchannel
    refine ⟨Nat.lt_of_lt_of_le hu.1 hnext, fun conn' hconn' => ?_⟩
    rw [hconnections] at hconn'
    rcases Keyed.mem_of_mem_insert hconn' with heq | hconn'
    · obtain ⟨hk, rfl⟩ := Prod.mk.inj heq
      exact hchannel hk.symm
    · exact hu.2 conn' hconn'
  cases h with
  | step h => exact (Numbered.Keeps.step h).issued hu
  | connect => exact hinsert rfl (Nat.le_succ _) fun hk => absurd hu.1 (by rw [← hk]; exact Nat.lt_irrefl _)
  | call | closeChannel | disconnect => exact hu
  | run sent h =>
    obtain ⟨conn, hconn, rfl, rfl⟩ := run_eq h
    refine hinsert rfl (Nat.le_refl _) fun hk => Nat.lt_succ_of_lt (hu.2 conn ?_)
    rw [← hk]
    exact Keyed.mem_of_find? hconn
  | takeMessages c =>
    rcases s.takeMessages_cases c with ⟨conn, hconn, heq⟩ | heq <;> rw [heq]
    · refine hinsert rfl (Nat.le_refl _) fun hk => hu.2 conn ?_
      rw [← hk]
      exact Keyed.mem_of_find? hconn
    · exact hu

theorem aside_insert {k : Nat} {conn : Connection} (hconnections : t.connections = Keyed.insert s.connections k conn)
    (hopen : k = u.connection → s.IsOpen k) (hreceived : conn.received = [] ∨ conn.received = s.inboxOf k) :
    (t.IsOpen u.connection ↔ s.IsOpen u.connection) ∧ s.handed t u = [] := by
  by_cases hk : k = u.connection
  · subst hk
    have hinbox : t.inboxOf u.connection = conn.received := by
      rw [inboxOf, hconnections, Keyed.find?_insert_self]
      rfl
    refine ⟨⟨fun _ => hopen rfl, fun _ => by rw [IsOpen, hconnections, Keyed.find?_insert_self]; rfl⟩, ?_⟩
    rcases hreceived with hnil | hsame
    · have hnone : t.received u = [] := by rw [received, hinbox, hnil]; rfl
      rw [handed, hnone, List.drop_nil]
    · exact handed_of_eq (by rw [received, received, hinbox, hsame])
  · have hfind : Keyed.find? t.connections u.connection = Keyed.find? s.connections u.connection := by
      rw [hconnections, Keyed.find?_insert_of_ne _ _ hk]
    exact ⟨by rw [IsOpen, IsOpen, hfind], handed_of_eq (by rw [received, received, inboxOf, inboxOf, hfind])⟩

end Database

/-- What clients do without a step adds at most a task, which is about other channels than one that was given out, and
hands over nothing. -/
theorem Move.aside {texts : String → Prop} {s t : Database} {u : Subscriber} (hu : s.Issued u)
    (h : Move texts s t) : Step s t ∨ (t.engine = s.engine ∧
      (∃ asked, t.tasks = s.tasks ++ asked ∧ ∀ task ∈ asked, task.Concerns (· ≠ u)) ∧
      (t.IsOpen u.connection ↔ s.IsOpen u.connection) ∧ s.handed t u = []) := by
  have hadds : ∀ {task : Task}, task.Concerns (· ≠ u) →
      ∃ asked, s.tasks ++ [task] = s.tasks ++ asked ∧ ∀ task ∈ asked, task.Concerns (· ≠ u) := by
    intro task htask
    refine ⟨_, rfl, fun task' hmem => ?_⟩
    cases List.mem_singleton.mp hmem
    exact htask
  have hnone : ∃ asked, s.tasks = s.tasks ++ asked ∧ ∀ task ∈ asked, task.Concerns (· ≠ u) :=
    ⟨[], (List.append_nil _).symm, by simp⟩
  cases h with
  | step h => exact .inl h
  | connect =>
    refine .inr ⟨rfl, hnone, Database.aside_insert rfl (fun hk => absurd hu.1 ?_) (.inl rfl)⟩
    rw [← hk]
    exact Nat.lt_irrefl _
  | call => exact .inr ⟨rfl, hadds (by simp [Task.Concerns, Origin.subscriber?]), .rfl, Database.handed_of_eq rfl⟩
  | @run _ connection channel text sent h =>
    have hnew : ⟨connection, channel⟩ ≠ u := fun heq => Database.Numbered.not_issued h (heq ▸ hu)
    obtain ⟨conn, hconn, rfl, rfl⟩ := Database.run_eq h
    refine .inr ⟨rfl, hadds ?_, Database.aside_insert rfl (fun _ => ?_) (.inr ?_)⟩
    · rintro u' ⟨⟩
      exact hnew
    · rw [Database.IsOpen, hconn]
      rfl
    · rw [Database.inboxOf, hconn]
      rfl
  | closeChannel | disconnect =>
    exact .inr ⟨rfl, hadds (by simp [Task.Concerns, Action.Concerns, Post.Concerns]), .rfl,
      Database.handed_of_eq rfl⟩
  | takeMessages c =>
    rcases s.takeMessages_cases c with ⟨conn, hconn, heq⟩ | heq <;> rw [heq]
    · refine .inr ⟨rfl, hnone, Database.aside_insert rfl (fun _ => ?_) (.inl rfl)⟩
      rw [Database.IsOpen, hconn]
      rfl
    · exact .inr ⟨rfl, hnone, .rfl, Database.handed_of_eq rfl⟩

/-! ## Silence -/

theorem Action.Concerns.aside {u : Subscriber} {a : Action} (h : a.Concerns (· ≠ u)) :
    a.message? u = none ∧ ∀ table, a.joins (.channel u) table = false := by
  cases a with
  | deliver whom m => exact ⟨if_neg h, fun _ => rfl⟩
  | post name p =>
    refine ⟨rfl, fun table => ?_⟩
    cases p with
    | subscribe x =>
      have hcovers : (Leaving.channel u).covers x.listener = false := decide_eq_false h
      rw [Action.joins, hcovers, Bool.and_false]
    | event | remove => rfl
  | broadcast | answer | hangUp => exact ⟨rfl, fun _ => rfl⟩

namespace Database

variable {s t : Database} {u : Subscriber} {e : Option (String × Event)}

/-- The tasks are about other channels, and what waits in the inboxes calls for no notice for the channel. -/
structure Silent (u : Subscriber) (s : Database) : Prop where
  tasks : ∀ task ∈ s.tasks, task.Concerns (· ≠ u)
  posts : ∀ n ∈ s.engine.notices, n.subscriber ≠ u

def FreeAt (u : Subscriber) (s : Database) (table : String) : Prop :=
  ∀ x ∈ (s.engine.audience table).subscriptions table, (Leaving.channel u).covers x.listener = false

/-- A write that is published calls for no notice for the channel. -/
def Spares (u : Subscriber) (s : Database) (e : String × Event) : Prop :=
  ∀ n ∈ e.2.notices (s.engine.audience e.1), n.subscriber ≠ u

/-- A write to a table without listeners of the channel spares it. -/
theorem FreeAt.spares {e : String × Event} (hs : s.Wired) (h : s.FreeAt u e.1) : s.Spares u e := by
  intro n hn
  obtain ⟨x, hx, rfl | ⟨old, new, rfl⟩⟩ := Event.mem_notices (hs.engine.audience e.1) e.1 hn
  · exact of_decide_eq_false (h x hx)
  · exact of_decide_eq_false (h x hx)

theorem calls_spare {a : Action} (h : ∀ e ∈ a.event?, s.Spares u e) : ∀ n ∈ s.calls a, n.subscriber ≠ u := by
  cases a with
  | post table p =>
    cases p with
    | event e => exact h (table, e) rfl
    | subscribe | remove => simp [calls]
  | broadcast | deliver | answer | hangUp => simp [calls]

namespace Silent

theorem notices (h : s.Silent u) : ∀ n ∈ s.notices, n.subscriber ≠ u := by
  refine List.forall_mem_append.mpr ⟨fun n hn => ?_, h.posts⟩
  obtain ⟨task, htask, hn⟩ := List.mem_filterMap.mp hn
  cases task with
  | rerun l key => cases hn; exact h.tasks _ htask
  | statement | write | actions => cases hn

theorem posts_act {a : Action} (hs : s.engine.Ordered) (hspares : ∀ e ∈ a.event?, s.Spares u e)
    (h : ∀ n ∈ s.engine.notices, n.subscriber ≠ u) : ∀ n ∈ (s.act a).engine.notices, n.subscriber ≠ u := by
  intro n hn
  rcases List.mem_append.mp ((notices_act hs a).mem_iff.mp hn) with hn | hn
  · exact h n hn
  · exact calls_spare hspares n hn

theorem handed_turn {task : Task} {s' : Database} {next : Option Task} (hs : s.Wired)
    (hn : Keyed.Ordered s.connections) (htask : task ∈ s.tasks) (hconcerns : task.Concerns (· ≠ u))
    (h : Turn s task s' next) (hopen : s.IsOpen u.connection) (hopen' : s'.IsOpen u.connection) :
    s'.received u = s.received u := by
  cases h with
  | idle | done => rfl
  | starts h => rw [h.frame]; rfl
  | @acts rest a =>
    have haddressed : ∀ whom m, a = .deliver whom m → m.channel = whom.channel := fun whom m ha =>
      (hs.tasks _ htask).addressed whom m (ha ▸ List.mem_cons_self)
    have haside := (hconcerns a List.mem_cons_self).aside.1
    rw [received_act hopen (ne_hangUp_of_isOpen hn hopen') haddressed, haside]
    exact List.append_nil _

/-- Nothing is handed over on a channel about which all is silent, none of its listeners comes, and the silence goes
on. -/
theorem step (hs : s.Wired) (hn : Keyed.Ordered s.connections) (h : s.Silent u) (first : Emits s t e)
    (hspares : ∀ x ∈ e, s.Spares u x) :
    t.Silent u ∧ s.handed t u = [] ∧ ∀ table, s.FreeAt u table → t.FreeAt u table := by
  have hhanded : (s.IsOpen u.connection → t.IsOpen u.connection → t.received u = s.received u) →
      s.handed t u = [] := by
    intro hsame
    by_cases hopen : t.IsOpen u.connection
    · exact handed_of_eq (hsame (isOpen_of_step first.step hopen) hopen)
    · exact handed_of_closed hopen
  cases first with
  | task fuel order i hstep =>
    obtain ⟨task, s', next, hi, hadv, rfl⟩ := stepTask_at hstep
    have htask : task ∈ s.tasks := List.mem_of_getElem? hi
    have hconcerns := h.tasks task htask
    have hturn := turn_of_advance hadv
    rw [hi, Option.bind_some] at hspares
    refine ⟨⟨fun task' hmem => ?_, ?_⟩, hhanded fun hopen hopen' => ?_, fun table hfree => ?_⟩
    · rcases List.mem_append.mp hmem with hmem | hmem
      · rcases List.mem_append.mp hmem with hmem | hmem
        · exact h.tasks task' (List.mem_of_mem_take hmem)
        · exact hconcerns.turn hturn task' (Option.mem_toList.mp hmem)
      · exact h.tasks task' (List.mem_of_mem_drop hmem)
    · cases hturn with
      | idle | done => exact h.posts
      | starts hstarts => rw [hstarts.frame]; exact h.posts
      | acts => exact posts_act hs.engine hspares h.posts
    · have hsame : s'.received u = s.received u := handed_turn hs hn htask hconcerns hturn hopen hopen'
      exact hsame
    · cases hturn with
      | idle | done => exact hfree
      | starts hstarts => rw [hstarts.frame]; exact hfree
      | acts => exact Engine.free_act hs.engine ((hconcerns _ List.mem_cons_self).aside.2 table) hfree
  | actor table hstep =>
    obtain ⟨haudience, hpending, -, handed, hmessages, hperm, hreceived⟩ := stepActor_accounts hs.engine hstep
    have hall := fun n hn => h.notices n (hperm.mem_iff.mpr hn)
    refine ⟨⟨fun task hmem => ?_, fun n hn => ?_⟩, hhanded fun hopen _ => ?_, fun table hfree => ?_⟩
    · rcases (stepActor_rest hstep).2.2 task hmem with hmem' | ⟨l, key, rfl⟩
      · exact h.tasks task hmem'
      · exact hall (.rerun l key) (List.mem_append_right _ (List.mem_append_left _
          (List.mem_filterMap.mpr ⟨_, hmem, rfl⟩)))
    · exact hall n (List.mem_append_right _ (List.mem_append_right _ hn))
    · rw [hreceived u hopen]
      refine (congrArg _ (List.filterMap_eq_nil_iff.mpr fun n hn => ?_)).trans (List.append_nil _)
      have hne := hall n (List.mem_append_left _ hn)
      cases n with
      | rerun => rfl
      | deliver whom m => exact if_neg hne
    · rw [FreeAt, haudience]
      exact hfree

end Silent

end Database

end LiveQuery
