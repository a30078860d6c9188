import LiveQuery.Proofs.Live.Beside
import LiveQuery.Proofs.Live.Rounds

/-! # Replies

Who sent a statement hears of it once (`Database.Served.hears`). A statement that was run on a channel brings one
message, since the channel is new and nothing else is about it; one whose caller waits brings an answer under the
caller's ticket, since nobody else is to be answered (`Database.Answering`).
-/
namespace LiveQuery

/-- The message that replies to a statement on a channel. -/
def Subscriber.reply (u : Subscriber) : Except Fault Json → Message
  | .ok data => .result u.channel data
  | .error f => .error u.channel f.message

/-- Who sent a statement has heard of it, and on a channel of nothing else. -/
def Origin.Hears (o : Origin) (s : Database) (r : Except Fault Json) : Prop :=
  match o with
  | .caller ticket => Keyed.find? s.answers ticket = some r
  | .channel u => s.received u = [u.reply r]

/-- Whether an action is a reply to a statement. -/
def Action.RepliesTo : Origin → Action → Prop
  | .caller ticket, .answer ticket' _ => ticket' = ticket
  | .channel u, .deliver whom _ => whom = u
  | _, _ => False

/-- No statement is under way, and who sent one has nothing more to hear of it. -/
structure Database.IsOver (s : Database) (o : Origin) : Prop where
  settling : s.Settling
  replied : ∀ a ∈ s.pending, ¬a.RepliesTo o

/-! ## A new statement -/

namespace Asked

variable {texts : String → Prop} {o : Origin} {u : Subscriber} {s t : Database} {text : String}

/-- The channel of a new statement is open, and nothing else is about it. -/
theorem fresh (hs : Reachable s) (h : Asked texts s (.channel u) text t) :
    s.IsOpen u.connection ∧ s.Concerns (· ≠ u) := by
  cases h with
  | run sent hrun =>
    refine ⟨?_, hs.numbered.concerns_run hrun⟩
    obtain ⟨c, hc, -⟩ := Database.run_eq hrun
    rw [Database.IsOpen, hc]
    rfl

/-- What is there when a statement is sent goes on beside it. -/
theorem beside (hs : Reachable s) (settling : s.Settling) (unanswered : ∀ a ∈ s.pending, a.answer?.isSome = false)
    (stays : o.Stays s) (h : Asked texts s o text t) : Beside o { t with tasks := s.tasks } := by
  have hwired : s.Wired := hs.wired
  have hkeeps : { t with tasks := s.tasks } = { s with connections := t.connections } := by rw [h.frame]
  rw [hkeeps]
  refine ⟨settling, ⟨hwired.engine, hwired.tasks⟩, unanswered, fun u hu => ?_, fun u hu => ?_, stays⟩
  · cases o with
    | caller ticket => cases hu
    | channel u' =>
      cases hu
      obtain ⟨-, hconcerns⟩ := h.fresh hs
      refine ⟨hconcerns.listeners, hconcerns.inboxes, hconcerns.tasks, fun e he m hm => ?_⟩
      cases h with
      | run sent hrun =>
        obtain ⟨c, hc, rfl, rfl⟩ := Database.run_eq hrun
        rcases Keyed.mem_of_mem_insert he with rfl | he
        · exact hconcerns.received _ (Keyed.mem_of_find? hc) m hm
        · exact hconcerns.received e he m hm
  · cases o with
    | caller ticket => cases hu
    | channel u' => cases hu; exact ((h.received _).2.mpr (h.fresh hs).1)

end Asked

/-! ## For a caller -/

namespace Database

variable {s t : Database} {ticket : Nat} {r : Except Fault Json}

/-- A caller is the only one who is to be answered, or has the answer. -/
def Answering (ticket : Nat) (r : Except Fault Json) (s : Database) : Prop :=
  s.pending.filterMap Action.answer? = [(ticket, r)] ∨
    (s.pending.filterMap Action.answer? = [] ∧ Keyed.find? s.answers ticket = some r)

theorem Answering.congr (hpending : (t.pending.filterMap Action.answer?).Perm (s.pending.filterMap Action.answer?))
    (hanswers : t.answers = s.answers) (h : s.Answering ticket r) : t.Answering ticket r := by
  rcases h with h | ⟨hnone, hgiven⟩
  · rw [h] at hpending
    exact .inl (List.perm_singleton.mp hpending)
  · rw [hnone] at hpending
    exact .inr ⟨List.perm_nil.mp hpending, by rw [hanswers, hgiven]⟩

theorem answers_act {a : Action} (ha : a.answer? = none) : (s.act a).answers = s.answers := by
  cases a with
  | answer => cases ha
  | deliver whom m => rw [act, deliver_frame]
  | post | broadcast | hangUp => rfl

theorem filterMap_answer?_fanOut (s : Database) (order : Traversal) (a : Action) :
    (s.fanOut order a).filterMap Action.answer? = [] := by
  refine List.filterMap_eq_nil_iff.mpr fun b hb => ?_
  obtain ⟨table, -, p, -, rfl⟩ := mem_fanOut hb
  rfl

/-- The one action that answers a caller gives the answer, and no other one takes it back. -/
theorem Answering.act {rest : List Action} {a : Action} {order : Traversal} {others : List Task}
    (hbefore : s.pending.Perm (a :: rest ++ others.flatMap Task.pending))
    (hafter : t.pending.Perm (s.fanOut order a ++ rest ++ others.flatMap Task.pending))
    (ht : t.answers = (s.act a).answers) (h : s.Answering ticket r) : t.Answering ticket r := by
  have hwaiting := hbefore.filterMap Action.answer?
  have hleft := hafter.filterMap Action.answer?
  rw [List.cons_append, List.filterMap_cons] at hwaiting
  rw [List.append_assoc, List.filterMap_append, filterMap_answer?_fanOut, List.nil_append] at hleft
  cases ha : a.answer? with
  | none =>
    rw [ha] at hwaiting
    exact h.congr (hleft.trans hwaiting.symm) (ht.trans (answers_act ha))
  | some e =>
    rw [ha] at hwaiting
    rcases h with h | ⟨hnone, -⟩
    · rw [h] at hwaiting
      obtain ⟨rfl, hothers⟩ := List.cons.inj (List.singleton_perm.mp hwaiting).symm
      rw [hothers] at hleft
      obtain ⟨k, q, hk⟩ : ∃ k q, a = .answer k q := by cases a <;> cases ha; exact ⟨_, _, rfl⟩
      subst hk
      cases ha
      refine .inr ⟨List.perm_nil.mp hleft, ?_⟩
      rw [ht]
      exact Keyed.find?_insert_self _ _ _
    · rw [hnone] at hwaiting
      cases List.nil_perm.mp hwaiting

theorem Settling.step_answering (hs : s.Settling) (hstep : Step s t) (h : s.Answering ticket r) :
    t.Answering ticket r := by
  cases hstep with
  | task fuel order i hstep =>
    obtain ⟨task, others, s', next, htasks, hturn, htasks', ht⟩ := stepTask_split hstep
    have hbefore : s.pending.Perm (task.pending ++ others.flatMap Task.pending) := htasks.flatMap_right _
    have hafter : t.pending.Perm (next.toList.flatMap Task.pending ++ others.flatMap Task.pending) :=
      (htasks'.flatMap_right _).trans (List.Perm.of_eq List.flatMap_append)
    have hsettling := hs task (htasks.mem_iff.mpr List.mem_cons_self)
    cases hturn with
    | idle => exact h.congr ((hafter.trans hbefore.symm).filterMap _) (by rw [ht])
    | starts hstarts =>
      cases hstarts with
      | write | ended | selected | refused | committed => exact hsettling.elim
      | @resumed l key q x query fuel' run =>
        have hnone : (subscribeActions x.sent ++ updateActions l x.outcome).filterMap Action.answer? = [] := by
          refine List.filterMap_eq_nil_iff.mpr (List.forall_mem_append.mpr ⟨fun a ha => ?_, fun a ha => ?_⟩)
          · obtain ⟨y, -, rfl⟩ := List.mem_map.mp ha
            rfl
          · obtain ⟨m, rfl, -⟩ := mem_updateActions ha
            rfl
        refine h.congr ?_ (by rw [ht])
        have hafter := hafter.filterMap Action.answer?
        rw [Option.toList_some, List.flatMap_singleton, Task.pending, List.filterMap_append, hnone] at hafter
        exact hafter.trans (hbefore.filterMap _).symm
    | done => exact h.congr ((hafter.trans hbefore.symm).filterMap _) (by rw [ht])
    | acts order =>
      rw [pending_restTask] at hafter
      exact h.act hbefore hafter (by rw [ht])
  | actor table hstep =>
    obtain ⟨p, rest, -, rfl⟩ := stepActor_eq hstep
    rw [foldl_notice_frame]
    refine Answering.congr (s := s) (List.Perm.of_eq ?_) rfl h
    rw [pending, pending, List.flatMap_append, pending_tasks, List.append_nil]

theorem Settling.run_answering (hs : s.Settling) (h : s.Answering ticket r) (runs : Relation.ReflTransGen Step s t) :
    t.Answering ticket r := by
  induction runs using Relation.ReflTransGen.head_induction_on with
  | refl => exact h
  | head hstep _ ih => exact ih (hs.step hstep).1 (hs.step_answering hstep h)

end Database

/-! ## On a channel -/

theorem Origin.messages_finish (u : Subscriber) (r : Except Fault Json) :
    (Origin.finish (.channel u) r).filterMap (Action.message? u) = [u.reply r] := by
  cases r <;> simp [finish, List.filterMap_cons, Action.message?, Subscriber.reply]

theorem Origin.answer?_finish (u : Subscriber) (r : Except Fault Json) :
    ∀ a ∈ Origin.finish (.channel u) r, a.answer?.isSome = false := by
  cases r <;> simp [finish, Action.answer?]

namespace Database

variable {s w v : Database} {o : Origin} {text : String} {x : Service} {others : List Task}

theorem Concerns.received_eq {u : Subscriber} (h : s.Concerns (· ≠ u)) : s.received u = [] := by
  refine List.filter_eq_nil_iff.mpr fun m hm hchannel => ?_
  rw [inboxOf] at hm
  cases hc : Keyed.find? s.connections u.connection with
  | none => rw [hc] at hm; cases hm
  | some c =>
    rw [hc] at hm
    refine h.received _ (Keyed.mem_of_find? hc) m hm ?_
    rw [of_decide_eq_true hchannel]

namespace Served

/-- All that waits is what the statement has left to do and what the other tasks have. -/
theorem pending_perm (h : s.Served o text x others w) :
    w.pending.Perm (x.rest o ++ others.flatMap Task.pending) := by
  have hperm := h.tasks.flatMap_right Task.pending
  rwa [List.flatMap_cons] at hperm

theorem notices_perm (h : s.Served o text x others w) : w.notices.Perm (notices { w with tasks := others }) :=
  (h.tasks.filterMap Task.notice?).append_right _

theorem wired (h : s.Served o text x others w) : w.Wired := by
  refine ⟨h.beside.wired.engine, fun task htask => ?_⟩
  rcases List.mem_cons.mp (h.tasks.mem_iff.mp htask) with rfl | htask
  · exact (Task.Orderly.finish o x.reply).subscribeActions x.sent
  · exact h.beside.wired.tasks task htask

/-- The statement is the only one that is to be answered. -/
theorem answering {ticket : Nat} (h : s.Served (.caller ticket) text x others w) : w.Answering ticket x.reply := by
  have hothers : (others.flatMap Task.pending).filterMap Action.answer? = [] :=
    List.filterMap_eq_nil_iff.mpr fun a ha => by simpa using h.beside.unanswered a ha
  have hsent : (subscribeActions x.sent).filterMap Action.answer? = [] := by
    simp [subscribeActions, List.filterMap_map, Function.comp_def, Action.answer?]
  have hperm := h.pending_perm.filterMap Action.answer?
  rw [List.filterMap_append, hothers, List.append_nil, Service.rest, List.filterMap_append, hsent] at hperm
  exact .inl (List.perm_singleton.mp hperm)

theorem pending_all (h : s.Served o text x others w) {test : Action → Bool}
    (hsubscribe : ∀ table y, test (.post table (.subscribe y)) = false)
    (hfinish : ∀ a ∈ o.finish x.reply, test a = false)
    (hothers : ∀ a ∈ others.flatMap Task.pending, test a = false) : ∀ a ∈ w.pending, test a = false := by
  intro a ha
  rcases List.mem_append.mp (h.pending_perm.mem_iff.mp ha) with ha | ha
  · rcases List.mem_append.mp ha with ha | ha
    · obtain ⟨y, -, rfl⟩ := List.mem_map.mp ha
      exact hsubscribe _ y
    · exact hfinish a ha
  · exact hothers a ha

/-- Nobody is to be answered if the statement was run on a channel. -/
theorem unanswered {u : Subscriber} (h : s.Served (.channel u) text x others w) :
    ∀ a ∈ w.pending, a.answer?.isSome = false :=
  h.pending_all (fun _ _ => rfl) (Origin.answer?_finish u x.reply) h.beside.unanswered

/-- The connection of the statement is not hung up. -/
theorem stays {u : Subscriber} (h : s.Served (.channel u) text x others w) :
    ∀ a ∈ w.pending, a.hangsUp u.connection = false := by
  refine h.pending_all (fun _ _ => rfl) (fun a ha => ?_) (h.beside.stays u rfl)
  rcases Origin.mem_finish ha with ⟨ticket, rfl⟩ | ⟨u', -, rfl | ⟨m, rfl, -⟩⟩ <;> rfl

/-- All that is for the channel of the statement is the reply. -/
theorem incoming_eq {u : Subscriber} (h : s.Served (.channel u) text x others w) :
    w.incoming u = [u.reply x.reply] := by
  have hconcerns := h.beside.unconcerned u rfl
  have hothers : (others.flatMap Task.pending).filterMap (Action.message? u) = [] := by
    refine List.filterMap_eq_nil_iff.mpr fun a ha => ?_
    obtain ⟨task, htask, ha⟩ := List.mem_flatMap.mp ha
    have htask := hconcerns.tasks task htask
    cases task with
    | statement | write | rerun => cases ha
    | actions rest =>
      have haction := htask a ha
      cases a with
      | deliver whom m => exact if_neg haction
      | post | broadcast | answer | hangUp => rfl
  have hperm := h.pending_perm.filterMap (Action.message? u)
  rw [List.filterMap_append, hothers, List.append_nil, Service.rest, List.filterMap_append, incoming_of_posts,
    List.nil_append, Origin.messages_finish] at hperm
  exact List.perm_singleton.mp hperm

/-- A channel receives the reply to its statement and nothing else. -/
theorem received_eq {u : Subscriber} (h : s.Served (.channel u) text x others w)
    (runs : Relation.ReflTransGen Step w v) (done : v.IsOver (.channel u)) : v.received u = [u.reply x.reply] := by
  have hconcerns := h.beside.unconcerned u rfl
  have hnotices : ∀ n ∈ w.notices, n.Concerns (· ≠ u) := fun n hn =>
    hconcerns.notices h.beside.wired n (h.notices_perm.mem_iff.mp hn)
  have hmessages : ∀ {t : Database}, t.notices ⊆ w.notices →
      t.notices.flatMap (Notice.messages t.schema t.store u) = [] := by
    intro t hsubset
    refine List.flatMap_eq_nil_iff.mpr fun n hn => ?_
    have hn := hnotices n (hsubset hn)
    cases n with
    | rerun l key => exact if_neg hn
    | deliver whom m => exact if_neg hn.1
  have hforeseen : w.Foreseen u := foreseen_of_unconcerned fun l key hmem => hnotices _ hmem
  obtain ⟨-, -, ms, hms, hperm⟩ :=
    h.settling.run_due h.wired hforeseen (h.beside.isOpen u rfl) h.stays runs
  have hincoming : v.incoming u = [] := by
    refine List.filterMap_eq_nil_iff.mpr fun a ha => ?_
    have hreplied := done.replied a ha
    cases a with
    | deliver whom m => exact if_neg hreplied
    | post | broadcast | answer | hangUp => rfl
  rw [due, due, h.incoming_eq, hincoming, hmessages (List.Subset.refl _),
    hmessages (h.settling.run_notices_subset h.wired runs), List.append_nil, List.append_nil, List.append_nil] at hperm
  have hnone : w.received u = [] := hconcerns.received_eq
  rw [hms, hnone, List.nil_append, List.singleton_perm.mp hperm]

/-- Who sent a statement has heard of it once it is over, and nobody else is to be answered. -/
theorem hears (h : s.Served o text x others w) (runs : Relation.ReflTransGen Step w v) (done : v.IsOver o) :
    o.Hears v x.reply ∧ ∀ a ∈ v.pending, a.answer?.isSome = false := by
  cases o with
  | caller ticket =>
    rcases h.settling.run_answering h.answering runs with hpending | ⟨hnone, hgiven⟩
    · -- the answer would still have to be given
      have hmem : (ticket, x.reply) ∈ v.pending.filterMap Action.answer? := hpending ▸ List.mem_singleton.mpr rfl
      obtain ⟨a, ha, hanswer⟩ := List.mem_filterMap.mp hmem
      cases a with
      | answer ticket' r => cases hanswer; exact absurd rfl (done.replied _ ha)
      | post | broadcast | deliver | hangUp => cases hanswer
    · exact ⟨hgiven, fun a ha => by rw [List.filterMap_eq_nil_iff.mp hnone a ha]; rfl⟩
  | channel u =>
    exact ⟨h.received_eq runs done, h.settling.run_pending_all h.wired (fun _ _ => rfl) (fun _ _ => rfl)
      (fun _ _ => rfl) h.unanswered runs⟩

end Served

/-- Once all is quiet a statement is over. -/
theorem IsOver.of_quiet (quiet : s.isQuiet = true) (o : Origin) : s.IsOver o := by
  obtain ⟨htasks, -⟩ := idle_of_quiet quiet
  refine ⟨by rw [Settling, htasks]; simp, by rw [pending, htasks]; simp⟩

end Database

/-- Who sent a statement to a database at rest hears its reply. -/
theorem Asked.hears {texts : String → Prop} {s t v : Database} {o : Origin} {text : String} {x : Service}
    (asked : Asked texts s o text t) (hquiet : s.isQuiet = true) (hs : Reachable s) (serves : t.Serves o text x)
    (runs : Relation.ReflTransGen Step (x.opens t o) v) (quiet : v.isQuiet = true) : o.Hears v x.reply := by
  obtain ⟨htasks, -⟩ := Database.idle_of_quiet hquiet
  have hpending : s.pending = [] := by rw [Database.pending, htasks]; rfl
  have beside : Beside o { t with tasks := s.tasks } :=
    asked.beside hs (by rw [Database.Settling, htasks]; simp) (by rw [hpending]; simp)
      (by rw [Origin.Stays, hpending]; simp)
  rw [htasks] at beside
  have served : t.Served o text x [] (x.opens t o) := ⟨serves, rfl, rfl, List.Perm.refl _, beside.changes x⟩
  exact (served.hears runs (.of_quiet quiet o)).1

end LiveQuery
