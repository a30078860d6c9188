import LiveQuery.Proofs.Live.Attended
import LiveQuery.Proofs.Live.Interference

/-! # The stages of a live query

While rows are inserted into a database (`Inserting`), a live query that was sent on a channel waits, then begins with
a snapshot of the rows, then subscribes to its table, and from then on hears of the rows that are announced
(`Database.Stage`). Each move takes it on or leaves it where it is (`Stage.next`), and the accounts of its channel say
what has reached it so far.
-/
namespace LiveQuery

/-- A move of a database into which rows are inserted: a step, or the sending of an insertion. -/
inductive Inserting (texts : String → Prop) (s t : Database) : Prop
  | step (h : Step s t) (test : t.WellTyped)
  | sent {o : Origin} {text table : String} {row : Expr} (asked : Asked texts s o text t)
      (read : Statement.read text = .ok (.insert table row)) (test : t.WellTyped)

/-- Moves lead from `s` to `a`, where something holds, and the next step leads to `b`, where it does not. -/
structure Inserting.Ends (texts : String → Prop) (P : Database → Prop) (s a b : Database) : Prop where
  before : Relation.ReflTransGen (Inserting texts) s a
  holds : P a
  step : Step a b
  ends : ¬P b

variable {texts : String → Prop} {q : Query} {u : Subscriber} {s t v w : Database} {o : Origin} {text : String}

namespace Inserting

theorem move (h : Inserting texts s t) : Move texts s t := by
  cases h with
  | step h => exact .step h
  | sent asked => exact asked.move

theorem wellTyped (h : Inserting texts s t) : t.WellTyped := by
  cases h with
  | step _ test => exact test
  | sent _ _ test => exact test

theorem run (hs : Run texts Database.WellTyped s) (h : Relation.ReflTransGen (Inserting texts) s t) :
    Run texts Database.WellTyped t := by
  induction h with
  | refl => exact hs
  | tail _ h ih => exact ih.move h.move h.wellTyped

theorem issued (hu : s.Issued u) (h : Relation.ReflTransGen (Inserting texts) s t) : t.Issued u :=
  hu.moves (Relation.ReflTransGen.mono (fun _ _ => move) _ _ h)

/-- A connection that is open was open before. -/
theorem isOpen {c : Nat} (h : Relation.ReflTransGen (Inserting texts) s t) (hopen : t.IsOpen c) : s.IsOpen c := by
  induction h with
  | refl => exact hopen
  | tail _ h ih =>
    cases h with
    | step h => exact ih (Database.isOpen_of_step h hopen)
    | sent asked => exact ih ((asked.received ⟨c, 0⟩).2.mp hopen)

end Inserting

theorem Origin.eq_channel (ho : o.subscriber? = some u) : o = .channel u := by
  cases o with
  | caller ticket => cases ho
  | channel u' =>
    cases ho
    rfl

namespace Asked

/-- The channel of a statement is given out with it. -/
theorem issued (hs : Reachable s) (h : Asked texts s (.channel u) text t) : ¬s.Issued u ∧ t.Issued u := by
  have ht : Reachable t := hs.move (h.move.mono fun _ _ => trivial)
  have hmem : Task.statement (.channel u) text ∈ t.tasks := by
    rw [h.frame]
    exact List.mem_append_right _ (List.mem_singleton_self _)
  refine ⟨?_, ht.numbered.issued.tasks _ hmem u rfl⟩
  cases h with
  | run sent hrun => exact Database.Numbered.not_issued hrun

/-- A statement is not run on a channel that was given out, or that is yet to be given out. -/
theorem elsewhere (hs : Reachable s) (h : Asked texts s o text t) (hu : s.Issued u ∨ ¬t.Issued u) :
    o.subscriber? ≠ some u := by
  intro ho
  obtain rfl := Origin.eq_channel ho
  obtain ⟨hnot, hissued⟩ := h.issued hs
  exact hu.elim hnot fun hnone => hnone hissued

end Asked

namespace Database

/-- The statement on a channel has not begun. -/
def asks (u : Subscriber) (s : Database) : Prop := ∃ text, .statement (.channel u) text ∈ s.tasks

/-- A channel has yet to subscribe to the new rows of a table. -/
def opens (u : Subscriber) (table : String) (s : Database) : Prop :=
  ∃ x ∈ s.pending.flatMap (Action.subscriptions table), x.tells u = true

theorem opens_iff {table : String} : s.opens u table ↔ 0 < s.opening u table := List.countP_pos_iff.symm

theorem Attended.not_asks (h : s.Attended q u) : ¬s.asks u := by
  rintro ⟨text, hmem⟩
  exact (h.tasks _ hmem).1 rfl

/-- A move of which a channel keeps what it has to hear. -/
theorem Attended.inserting (h : s.Attended q u) (hs : Run texts WellTyped s) (hflat : q.isFlat = true)
    (hmove : Inserting texts s t) (hu : s.Issued u ∨ ¬t.Issued u) :
    t.Attended q u ∧ ∃ rows, Proceeds q u s t rows := by
  cases hmove with
  | step hstep test => exact h.step (.of_run hs) (.of_run (hs.move (.step hstep) test)) hflat hstep
  | sent asked read =>
    obtain ⟨hreceived, hopen⟩ := asked.received u
    obtain ⟨hattended, hproceeds⟩ := h.ask (asked.elsewhere (.of_run hs) hu) read (by rw [asked.frame]) asked.store
      asked.schema asked.engine (hopen.mpr h.isOpen) hreceived
    exact ⟨hattended, [], hproceeds⟩

/-! ## Before the live query -/

/-- A channel is attended to, and there is nothing for it. -/
structure Unheard (q : Query) (u : Subscriber) (s : Database) : Prop where
  attended : s.Attended q u
  hearing : s.hearing u q.table = 0
  opening : s.opening u q.table = 0
  mail : s.mail u = []

theorem Unheard.proceeds {rows : List Row} (h : s.Unheard q u) (ht : t.Attended q u) (hp : Proceeds q u s t rows) :
    t.Unheard q u := by
  have hlisteners := hp.listeners
  have hmail := hp.mail
  rw [h.hearing, h.opening] at hlisteners
  rw [h.hearing, h.mail] at hmail
  exact ⟨ht, by omega, by omega, hmail.eq_nil⟩

/-- A channel that is yet to be given out is unheard of. -/
theorem unheard_of_quiet (hs : Reachable s) (hquiet : s.isQuiet = true) (hu : ¬s.Issued u)
    (hopen : s.IsOpen u.connection) (hplanned : q.Planned s.schema) : s.Unheard q u := by
  obtain ⟨htasks, hpending, hnotices, hactors⟩ := quiet_accounts hs.wired hquiet
  have hconcerns : s.Concerns (· ≠ u) := hs.numbered.issued.mono fun _ hissued heq => hu (heq ▸ hissued)
  have hlisteners : ∀ table, ∀ x ∈ (s.engine.audience table).subscriptions table, x.listener.subscriber ≠ u := by
    intro table x hx
    rw [(hactors table).2] at hx
    exact hconcerns.listeners table x hx
  refine ⟨⟨hplanned, hopen, by simp [htasks], by simp [hpending], by simp [unannounced, hpending],
    fun table x hx hsubscriber => ?_, by simp [hnotices]⟩, ?_, by simp [Database.opening, hpending], ?_⟩
  · rw [watches, hpending, List.flatMap_nil, List.append_nil] at hx
    exact absurd hsubscriber (hlisteners table x hx)
  · refine List.countP_eq_zero.mpr fun x hx htells => hlisteners q.table x hx ?_
    exact of_decide_eq_true (Bool.and_eq_true_iff.mp htells).2
  · rw [Database.mail, hconcerns.received_eq, due_of_quiet hs.wired hquiet, List.nil_append]

/-- It remains so while rows are inserted. -/
theorem Unheard.inserting (h : s.Unheard q u) (hs : Run texts WellTyped s) (hflat : q.isFlat = true)
    (hmoves : Relation.ReflTransGen (Inserting texts) s t) (hu : ¬t.Issued u) : t.Unheard q u := by
  induction hmoves with
  | refl => exact h
  | @tail t v hbefore hmove ih =>
    have ht := ih fun hissued => hu (hissued.move hmove.move)
    obtain ⟨hattended, rows, hproceeds⟩ := ht.attended.inserting (Inserting.run hs hbefore) hflat hmove (.inr hu)
    exact ht.proceeds hattended hproceeds

/-! ## The live query begins -/

/-- What a live query of columns sends: a subscription to its table, and others to rows. -/
theorem sent_of_isFlat (hflat : q.isFlat = true) (schema : Schema) (store : Store) :
    ∃ records, q.sent schema store { subscriber := u } = q.subscription u none Path.root :: records ∧
      ∀ x ∈ records, x.isRecord = true := by
  refine ⟨_, rfl, fun x hx => ?_⟩
  obtain ⟨n, hn, hx⟩ := List.mem_flatMap.mp hx
  cases ht : Keyed.find? schema q.table with
  | none =>
    rw [Query.nodes_of_unknown ht] at hn
    cases hn
  | some table =>
    rw [Query.nodes_eq ht] at hn
    obtain ⟨r, -, rfl⟩ := List.mem_map.mp hn
    exact Query.isRecord_of_node hflat hx

/-- The actions that a live query of columns has to do. -/
def liveActions (q : Query) (u : Subscriber) (s : Database) : List Action :=
  subscribeActions (q.sent s.schema s.store { subscriber := u }) ++
    [.deliver u (.result u.channel (.arr (q.shown (s.store.rows q.table))))]

/-- What a live query on a channel turns into with its first step. -/
theorem actions_of_starts (hs : s.Grounded) (hflat : q.isFlat = true) (hmany : q.cardinality = .many)
    (hplanned : q.Planned s.schema) (read : Statement.read text = .ok (.select true q)) {s' : Database} {task : Task}
    (h : Starts s (.statement (.channel u) text) s' task) : s' = s ∧ task = .actions (liveActions q u s) := by
  cases h with
  | write w prepared =>
    cases prepared with
    | insert fuel read' | update read' | delete read' =>
      rw [read] at read'
      cases read'
  | ended store schema r changes unanchored => cases unanchored q read
  | selected read' anchored fuel run =>
    rw [read] at read'
    cases read'
    cases anchored
    obtain ⟨plan, hplan⟩ := (Plan.live_ok_iff hs.inOrder.schema).mpr hplanned
    obtain ⟨table, htable⟩ := hplanned.table
    have hresult : q.result s.schema s.store = .ok (.arr (q.shown (s.store.rows q.table))) := by
      rw [Query.result, hmany, ← Query.json_nodes hflat hs.inOrder.schema htable]
    rw [Evaluation.live_eq hs.inOrder.schema hs.inOrder.store hs.typed.rows (Query.levels_of_isFlat hflat) hplan run]
    refine ⟨rfl, ?_⟩
    rw [Except.bind, Query.answer_rows, hresult]
    rfl

theorem subscriptions_liveActions (q : Query) (u : Subscriber) (s : Database) (table : String) :
    (liveActions q u s).flatMap (Action.subscriptions table) =
      (q.sent s.schema s.store { subscriber := u }).filter (·.tableName = table) := by
  rw [liveActions, List.flatMap_append, watches_of_posts]
  exact List.append_nil _

/-- Of these a channel subscribes once to the new rows of the table. -/
theorem countP_liveActions (hflat : q.isFlat = true) (s : Database) :
    ((liveActions q u s).flatMap (Action.subscriptions q.table)).countP (Subscription.tells u) = 1 := by
  obtain ⟨records, hsent, hrecords⟩ := sent_of_isFlat (u := u) hflat s.schema s.store
  have htells : (q.subscription u none Path.root).tells u = true := decide_eq_true rfl
  have htable : (q.subscription u none Path.root).tableName = q.table := rfl
  rw [subscriptions_liveActions, hsent, List.filter_cons, if_pos (decide_eq_true htable),
    List.countP_cons_of_pos htells]
  refine congrArg (· + 1) (List.countP_eq_zero.mpr fun x hx htells => ?_)
  obtain ⟨hrecord, -⟩ := Bool.and_eq_true_iff.mp htells
  rw [hrecords x (List.mem_of_mem_filter hx)] at hrecord
  cases hrecord

/-- Nothing but subscriptions and the answer is among them. -/
theorem mem_liveActions {a : Action} (ha : a ∈ liveActions q u s) :
    (∃ x ∈ q.sent s.schema s.store { subscriber := u }, a = .post x.tableName (.subscribe x)) ∨
      a = .deliver u (.result u.channel (.arr (q.shown (s.store.rows q.table)))) := by
  rcases List.mem_append.mp ha with ha | ha
  · obtain ⟨x, hx, rfl⟩ := List.mem_map.mp ha
    exact .inl ⟨x, hx, rfl⟩
  · exact .inr (List.mem_singleton.mp ha)

theorem messages_liveActions (q : Query) (u : Subscriber) (s : Database) :
    (liveActions q u s).filterMap (Action.message? u) =
      [.result u.channel (.arr (q.shown (s.store.rows q.table)))] := by
  rw [liveActions, List.filterMap_append, incoming_of_posts]
  simp [Action.message?]

section Split

variable {rest : List Action} {others : List Task} (frame : w = { v with tasks := w.tasks })
  (htasks : w.tasks.Perm (.actions rest :: others))

include htasks

theorem pending_split : w.pending.Perm (rest ++ pending { v with tasks := others }) :=
  htasks.flatMap_right Task.pending

theorem subscriptions_split (table : String) : (w.pending.flatMap (Action.subscriptions table)).Perm
    (rest.flatMap (Action.subscriptions table) ++
      (pending { v with tasks := others }).flatMap (Action.subscriptions table)) := by
  rw [← List.flatMap_append]
  exact (pending_split htasks).flatMap_right _

include frame

theorem notices_split : w.notices.Perm (notices { v with tasks := others }) := by
  have hengine : w.engine = v.engine := by rw [frame]
  rw [notices, hengine]
  exact (htasks.filterMap Task.notice?).append_right _

theorem mail_split (u : Subscriber) :
    (w.mail u).Perm (mail { v with tasks := others } u ++ rest.filterMap (Action.message? u)) := by
  have hmessages := (pending_split (v := v) htasks).filterMap (Action.message? u)
  have hreruns := (notices_split frame htasks).flatMap_right (Notice.messages v.schema v.store u)
  have hconnections : w.connections = v.connections := by rw [frame]
  have hstore : w.store = v.store := by rw [frame]
  have hschema : w.schema = v.schema := by rw [frame]
  rw [List.filterMap_append] at hmessages
  rw [mail, received_congr hconnections, due, hschema, hstore]
  refine ((hmessages.append hreruns).append_left _).trans ?_
  rw [mail, List.append_assoc, List.append_assoc]
  exact List.perm_append_comm.append_left _

end Split

/-- A live query that begins subscribes to its table and answers with the rows that are stored. -/
theorem Unheard.begins {others : List Task} (h : Unheard q u { v with tasks := others }) (hflat : q.isFlat = true)
    (frame : w = { v with tasks := w.tasks }) (htasks : w.tasks.Perm (.actions (liveActions q u v) :: others)) :
    w.Attended q u ∧ w.hearing u q.table = 0 ∧ w.opening u q.table = 1 ∧
      (w.mail u).Perm [.result u.channel (.arr (q.shown (v.store.rows q.table)))] := by
  have hengine : w.engine = v.engine := by rw [frame]
  have hstore : w.store = v.store := by rw [frame]
  have hschema : w.schema = v.schema := by rw [frame]
  have hconnections : w.connections = v.connections := by rw [frame]
  have hpending := pending_split (v := v) htasks
  have hsubscriptions := subscriptions_split (v := v) htasks
  have hun : (w.unannounced q.table).Perm (unannounced { v with tasks := others } q.table) := by
    have hnone : (liveActions q u v).filterMap (Action.inserted? q.table) = [] := by
      refine List.filterMap_eq_nil_iff.mpr fun a ha => ?_
      rcases mem_liveActions ha with ⟨x, -, rfl⟩ | rfl <;> rfl
    have hwaiting := hpending.filterMap (Action.inserted? q.table)
    rwa [List.filterMap_append, hnone, List.nil_append] at hwaiting
  refine ⟨h.attended.next hschema (fun _ => hstore ▸ List.Subset.refl _)
    ((isOpen_congr hconnections).mpr h.attended.isOpen) (fun task hmem => ?_) (fun a ha => ?_)
    (hun.nodup_iff.mpr h.attended.once) (fun table x hx => ?_)
    (fun l key hmem => .inl ((notices_split frame htasks).mem_iff.mp hmem)), ?_, ?_, ?_⟩
  · rcases List.mem_cons.mp (htasks.mem_iff.mp hmem) with rfl | hmem
    · trivial
    · exact h.attended.tasks task hmem
  · rcases List.mem_append.mp (hpending.mem_iff.mp ha) with ha | ha
    · rcases mem_liveActions ha with ⟨x, -, rfl⟩ | rfl <;> exact .inr ⟨rfl, rfl, by simp⟩
    · exact .inl ha
  · rcases List.mem_append.mp hx with hx | hx
    · exact .inl (List.mem_append_left _ (hengine ▸ hx))
    · rcases List.mem_append.mp ((hsubscriptions table).mem_iff.mp hx) with hx | hx
      · obtain ⟨records, hsent, hrecords⟩ := sent_of_isFlat (u := u) hflat v.schema v.store
        rw [subscriptions_liveActions, hsent] at hx
        refine .inr fun _ => ?_
        rcases List.mem_cons.mp (List.mem_of_mem_filter hx) with rfl | hx
        · exact .inl rfl
        · exact .inr (hrecords x hx)
      · exact .inl (List.mem_append_right _ hx)
  · rw [Database.hearing, hengine]
    exact h.hearing
  · have hnone := h.opening
    rw [Database.opening] at hnone
    rw [Database.opening, (hsubscriptions q.table).countP_eq, List.countP_append, countP_liveActions hflat, hnone]
  · have hmail := mail_split frame htasks u
    rwa [h.mail, List.nil_append, messages_liveActions] at hmail

/-- How far a live query on a channel, which was sent with `t`, has come in `v`. -/
inductive Stage (texts : String → Prop) (q : Query) (u : Subscriber) (t v : Database) : Prop
  | asked {text : String} {others : List Task} (read : Statement.read text = .ok (.select true q))
      (moves : Relation.ReflTransGen (Inserting texts) t v)
      (tasks : v.tasks.Perm (.statement (.channel u) text :: others)) (unheard : Unheard q u { v with tasks := others })
  | begun {a b : Database} (begins : Inserting.Ends texts (asks u) t a b)
      (moves : Relation.ReflTransGen (Inserting texts) b v) (attended : v.Attended q u)
      (hearing : v.hearing u q.table = 0) (opening : v.opening u q.table = 1)
      (mail : (v.mail u).Perm [.result u.channel (.arr (q.shown (a.store.rows q.table)))])
  | subscribed {a b c d : Database} {new : List Row} (begins : Inserting.Ends texts (asks u) t a b)
      (subscribes : Inserting.Ends texts (opens u q.table) b c d) (moves : Relation.ReflTransGen (Inserting texts) d v)
      (attended : v.Attended q u) (hearing : v.hearing u q.table = 1) (opening : v.opening u q.table = 0)
      (announced : (v.announced q.table).Perm (d.announced q.table ++ new))
      (mail : (v.mail u).Perm (.result u.channel (.arr (q.shown (a.store.rows q.table))) :: q.told u new))

namespace Stage

/-- A statement that waits goes on waiting, or it begins. -/
theorem next_asked {others : List Task} (hv : Run texts WellTyped v) (hw : w.Grounded) (hflat : q.isFlat = true)
    (hmany : q.cardinality = .many) (read : Statement.read text = .ok (.select true q))
    (moves : Relation.ReflTransGen (Inserting texts) t v)
    (tasks : v.tasks.Perm (.statement (.channel u) text :: others)) (unheard : Unheard q u { v with tasks := others })
    (hmove : Inserting texts v w) (hu : v.Issued u) :
    Stage texts q u t w := by
  have hgrounded := (Grounded.of_run hv).tasks_of others fun task hmem =>
    tasks.mem_iff.mpr (List.mem_cons_of_mem _ hmem)
  cases hmove with
  | step hstep test =>
    obtain ⟨e, hemits⟩ := hstep.emits
    rcases hemits.beside tasks with ⟨-, fuel, order, s', next, hadvance, htasks, frame⟩ |
      ⟨others', hemits', htasks⟩
    · cases turn_of_advance hadvance with
      | starts hstarts =>
        obtain ⟨hsame, rfl⟩ := actions_of_starts (.of_run hv) hflat hmany unheard.attended.planned read hstarts
        rw [hsame] at frame
        obtain ⟨hattended, hhearing, hopening, hmail⟩ := unheard.begins hflat frame htasks
        have hasks : v.asks u := ⟨text, tasks.mem_iff.mpr List.mem_cons_self⟩
        exact .begun ⟨moves, hasks, hstep, hattended.not_asks⟩ .refl hattended hhearing hopening hmail
    · have hgrounded' := hw.tasks_of others' fun task hmem => htasks.mem_iff.mpr (List.mem_cons_of_mem _ hmem)
      obtain ⟨hattended, rows, hproceeds⟩ := unheard.attended.step hgrounded hgrounded' hflat hemits'.step
      exact .asked read (moves.tail (.step hstep test)) htasks (unheard.proceeds hattended hproceeds)
  | @sent o text' table row asked read' test =>
    obtain ⟨hreceived, hopen⟩ := asked.received u
    obtain ⟨hattended, hproceeds⟩ := unheard.attended.ask (t := { w with tasks := others ++ [.statement o text'] })
      (asked.elsewhere (.of_run hv) (.inl hu)) read' rfl asked.store asked.schema asked.engine
      (hopen.mpr unheard.attended.isOpen) hreceived
    refine .asked read (moves.tail (.sent asked read' test)) ?_ (unheard.proceeds hattended hproceeds)
    rw [asked.frame]
    exact tasks.append_right [.statement o text']

/-- Each move takes a live query on, or leaves it where it is. -/
theorem next (h : Stage texts q u t v) (hv : Run texts WellTyped v) (hflat : q.isFlat = true)
    (hmany : q.cardinality = .many) (hmove : Inserting texts v w) (hu : v.Issued u) : Stage texts q u t w := by
  have hw : w.Grounded := .of_run (hv.move hmove.move hmove.wellTyped)
  cases h with
  | asked read moves tasks unheard => exact next_asked hv hw hflat hmany read moves tasks unheard hmove hu
  | @begun a b begins moves attended hearing opening mail =>
    obtain ⟨hattended, rows, hproceeds⟩ := attended.inserting hv hflat hmove (.inl hu)
    have hlisteners := hproceeds.listeners
    have hfewer := hproceeds.opening
    have hmail := hproceeds.mail.trans (mail.append_right _)
    rw [hearing, List.replicate_zero, List.flatten_nil, List.append_nil] at hmail
    by_cases hopens : w.opening u q.table = 1
    · exact .begun begins (moves.tail hmove) hattended (by omega) hopens hmail
    · -- a statement that is sent has no subscriptions yet, so this is a step
      have hstep : Step v w := by
        cases hmove with
        | step hstep => exact hstep
        | sent asked =>
          have hpending := pending_of_statement (congrArg Database.tasks asked.frame)
          rw [Database.opening, hpending] at hopens
          exact absurd opening hopens
      have hsubscribes : Inserting.Ends texts (opens u q.table) b v w :=
        ⟨moves, opens_iff.mpr (by omega), hstep, fun hopens' => absurd (opens_iff.mp hopens') (by omega)⟩
      exact .subscribed begins hsubscribes .refl hattended (by omega) (by omega)
        (List.Perm.of_eq (List.append_nil _).symm) hmail
  | @subscribed a b c d new begins subscribes moves attended hearing opening announced mail =>
    obtain ⟨hattended, rows, hproceeds⟩ := attended.inserting hv hflat hmove (.inl hu)
    have hlisteners := hproceeds.listeners
    have hfewer := hproceeds.opening
    have hmail := hproceeds.mail.trans (mail.append_right _)
    rw [hearing, List.replicate_one, List.flatten_singleton, List.cons_append, ← Query.told_append] at hmail
    refine .subscribed begins subscribes (moves.tail hmove) hattended (by omega) (by omega) ?_ hmail
    rw [← List.append_assoc]
    exact (hproceeds.announced.trans List.perm_append_comm).trans (announced.append_right _)

/-- A live query that was just sent waits. -/
theorem of_asked (h : s.Unheard q u) (asked : Asked texts s (.channel u) text t)
    (read : Statement.read text = .ok (.select true q)) : Stage texts q u t t := by
  have htasks : t.tasks.Perm (.statement (.channel u) text :: s.tasks) := by
    rw [asked.frame]
    exact List.perm_append_comm
  have hframe : { t with tasks := s.tasks } = { s with connections := t.connections } := by rw [asked.frame]
  obtain ⟨hreceived, hopen⟩ := asked.received u
  obtain ⟨hplanned, hopened, htasks', hactions, honce, hwatches, hreruns⟩ := h.attended
  have hmail : Database.mail { s with connections := t.connections } u = s.mail u :=
    congrArg (· ++ s.due u) hreceived
  refine .asked read .refl htasks ?_
  rw [hframe]
  exact ⟨⟨hplanned, hopen.mpr hopened, htasks', hactions, honce, hwatches, hreruns⟩, h.hearing, h.opening,
    hmail.trans h.mail⟩

theorem inserting (h : Stage texts q u t v) (hv : Run texts WellTyped v) (hflat : q.isFlat = true)
    (hmany : q.cardinality = .many) (hu : v.Issued u) (hmoves : Relation.ReflTransGen (Inserting texts) v w) :
    Stage texts q u t w := by
  induction hmoves with
  | refl => exact h
  | tail hbefore hmove ih =>
    exact ih.next (Inserting.run hv hbefore) hflat hmany hmove (Inserting.issued hu hbefore)

end Stage

end Database

end LiveQuery
