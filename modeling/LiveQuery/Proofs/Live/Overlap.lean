import LiveQuery.Proofs.Live.Convergence
import LiveQuery.Proofs.Live.Stages

/-! # Insertions that overlap a live query

A live query takes its rows from a snapshot and subscribes to its table in a later step, and an insertion commits its
row and announces it in a later step. Its row reaches the client with the result if it was committed before the
snapshot, and with an update if it is announced after the subscription (`Inserting.reached_iff`). Both may be so, or
neither (`Inserting.exists_lost_and_doubled`).
-/
namespace LiveQuery

variable {texts : String → Prop} {q : Query} {u : Subscriber} {s t v w : Database}

/-! ## Every row once -/

/-- The rows that a message brings. -/
def Message.rows : Message → List Json
  | .result _ (.arr rows) => rows
  | .tableUpdate _ _ row => [row]
  | .result .. | .recordUpdate .. | .error .. => []

/-- The rows that have reached a channel. -/
def Database.reached (s : Database) (u : Subscriber) : List Json := (s.received u).flatMap Message.rows

/-- Rows are inserted into a database that is at rest in `s`. Meanwhile a live query of columns is sent on a channel, in
`v`, and all is quiet again in `w`. -/
structure Inserting.Meanwhile (texts : String → Prop) (q : Query) (u : Subscriber) (s v t w : Database) : Prop where
  run : Run texts Database.WellTyped s
  quiet : s.isQuiet = true
  before : Relation.ReflTransGen (Inserting texts) s v
  asked : ∃ text, Asked texts v (.channel u) text t ∧ Statement.read text = .ok (.select true q)
  test : t.WellTyped
  many : q.cardinality = .many
  flat : q.isFlat = true
  planned : q.Planned s.schema
  after : Relation.ReflTransGen (Inserting texts) t w
  rest : w.isQuiet = true

theorem Query.rows_told (rows : List Row) : (q.told u rows).flatMap Message.rows = q.shown rows := by
  rw [Query.told, List.flatMap_map]
  exact List.flatMap_singleton' _

theorem Database.reached_of_received {rows new : List Row}
    (h : (s.received u).Perm (.result u.channel (.arr (q.shown rows)) :: q.told u new)) :
    (s.reached u).Perm (q.shown rows ++ q.shown new) := by
  have hreached := h.flatMap_right Message.rows
  rwa [List.flatMap_cons, Query.rows_told] at hreached

namespace Inserting

/-- A live query answers with the rows that are stored when it begins, and tells of those that are announced after it
has subscribed. So every row reaches the channel once if and only if the former are the ones announced until then. -/
theorem reached_iff (h : Meanwhile texts q u s v t w) : ∃ a b c d new, Ends texts (Database.asks u) t a b ∧
    Ends texts (Database.opens u q.table) b c d ∧ Relation.ReflTransGen (Inserting texts) d w ∧
    (w.store.rows q.table).Perm (d.announced q.table ++ new) ∧
    (w.received u).Perm (.result u.channel (.arr (q.shown (a.store.rows q.table))) :: q.told u new) ∧
    ((w.reached u).Perm ((q.nodes w.schema w.store none).map Node.json) ↔
      (q.shown (a.store.rows q.table)).Perm (q.shown (d.announced q.table))) := by
  obtain ⟨text, asked, read⟩ := h.asked
  have hv := Inserting.run h.run h.before
  have ht : Run texts Database.WellTyped t := hv.move asked.move h.test
  have hw := Inserting.run ht h.after
  obtain ⟨hnot, hissued⟩ := asked.issued (.of_run hv)
  have hopen := Inserting.isOpen h.before (asked.fresh (.of_run hv)).1
  have hnew : ¬s.Issued u := fun hu => hnot (Inserting.issued hu h.before)
  have hunheard := (Database.unheard_of_quiet (.of_run h.run) h.quiet hnew hopen h.planned).inserting h.run h.flat
    h.before hnot
  obtain ⟨htasks, hpending, hnotices, -⟩ := Database.quiet_accounts (Reachable.of_run hw).wired h.rest
  cases (Database.Stage.of_asked hunheard asked read).inserting ht h.flat h.many hissued h.after with
  | asked _ _ tasks =>
    rw [htasks] at tasks
    cases tasks.nil_eq
  | begun _ _ _ _ opening =>
    rw [Database.opening, hpending] at opening
    cases opening
  | @subscribed a b c d new begins subscribes moves attended _ _ announced mail =>
    have hrows : w.announced q.table = w.store.rows q.table := by
      rw [Database.announced, Database.unannounced, hpending]
      exact List.filter_eq_self.mpr fun _ _ => rfl
    rw [hrows] at announced
    rw [Database.mail, Database.due_of_quiet (Reachable.of_run hw).wired h.rest, List.append_nil] at mail
    refine ⟨a, b, c, d, new, begins, subscribes, moves, announced, mail, ?_⟩
    have hreached := Database.reached_of_received mail
    obtain ⟨table, htable⟩ := attended.planned.table
    have hresult := Query.shown_perm (q := q) announced
    rw [Query.shown_append] at hresult
    rw [Query.json_nodes h.flat (Reachable.of_run hw).inOrder.schema htable]
    calc (w.reached u).Perm (q.shown (w.store.rows q.table))
      _ ↔ (q.shown (a.store.rows q.table) ++ q.shown new).Perm (q.shown (d.announced q.table) ++ q.shown new) :=
        ⟨fun h => (hreached.symm.trans h).trans hresult, fun h => (hreached.trans h).trans hresult.symm⟩
      _ ↔ (q.shown (a.store.rows q.table)).Perm (q.shown (d.announced q.table)) := List.perm_append_right_iff _

end Inserting

/-! ## Insertions that cross a live query -/

open Apart.Sample (admits wellTyped_of_run)
open Convergence.Sample (insertsRow liveMany? of_liveMany?)

/-- Whether the move is a step, or the sending of an insertion. -/
def Cue.inserts : Cue → Bool
  | .call text | .run _ text => insertsRow text
  | .task _ | .actor _ => true
  | .connect | .closeChannel _ | .disconnect _ | .takeMessages _ => false

/-- A script of insertions that can be followed is a sequence of such moves. -/
theorem Inserting.of_follow {fuel : Nat} {script : List Cue} (hs : Run (admits · = true) (·.store.fits = true) s)
    (hc : ∀ c ∈ script, c.inserts = true) (hf : s.follow (·.store.fits) fuel script = some t) :
    Relation.ReflTransGen (Inserting (admits · = true)) s t ∧ Run (admits · = true) (·.store.fits = true) t := by
  induction script generalizing s with
  | nil => cases hf; exact ⟨.refl, hs⟩
  | cons c script ih =>
    obtain ⟨hcue, hc⟩ := List.forall_mem_cons.mp hc
    simp only [Database.follow] at hf
    split at hf
    next v hv =>
      split at hf
      next hfits =>
        have hasked : ∀ {o text}, insertsRow text = true → (admits text = true → Asked (admits · = true) s o text v) →
            Inserting (admits · = true) s v ∧ Run (admits · = true) (·.store.fits = true) v := by
          intro o text hinserts hask
          obtain ⟨hadmits, hread⟩ := Bool.and_eq_true_iff.mp hinserts
          have hv' := hs.move (hask hadmits).move hfits
          split at hread
          next table row read => exact ⟨.sent (hask hadmits) read (wellTyped_of_run hv'), hv'⟩
          next => cases hread
        have hstep : Step s v → Inserting (admits · = true) s v ∧ Run (admits · = true) (·.store.fits = true) v := by
          intro hstep
          have hv' := hs.move (.step hstep) hfits
          exact ⟨.step hstep (wellTyped_of_run hv'), hv'⟩
        have hmove : Inserting (admits · = true) s v ∧ Run (admits · = true) (·.store.fits = true) v := by
          cases c with
          | call text => cases hv; exact hasked hcue fun hadmits => .call hadmits 0
          | run connection text =>
            obtain ⟨⟨channel, v⟩, hrun, rfl⟩ := Option.map_eq_some_iff.mp hv
            exact hasked hcue fun hadmits => .run hadmits hrun
          | task i => exact hstep (.task fuel default i hv)
          | actor name => exact hstep (.actor name hv)
          | connect | closeChannel | disconnect | takeMessages => cases hcue
        obtain ⟨hmoves, ht⟩ := ih hmove.2 hc hf
        exact ⟨.head hmove.1 hmoves, ht⟩
      next => cases hf
    next => cases hf

namespace Inserting.Sample

/-- A table and a connection. -/
def opened : List Cue := [.call "CREATE TABLE t (id int PRIMARY KEY, n int)", .connect]

/-- A query of the rows that have a certain number. -/
def live : String := "LIVE MANY t WHERE n = 1 \x7bid\x7d"

def insertion : Cue := .call "INSERT INTO t \x7bid: 2, n: 1\x7d"

/-- The insertion is sent first. It commits when the query has begun, and publishes when the query has subscribed. -/
def overlapping : List Cue × List Cue :=
  ([insertion],
    [.task 1, .task 0, .task 0, .task 1, .task 0, .task 0, .task 0, .actor "t", .actor "t", .task 0, .task 0, .task 0,
      .actor "t"])

/-- The query begins, and subscribes when the insertion is over. -/
def within : List Cue × List Cue :=
  ([], [.task 0, insertion, .task 1, .task 1, .task 1, .task 1, .task 0, .task 0, .actor "t", .actor "t"])

/-- The insertion commits, and publishes when the query is over. -/
def around : List Cue × List Cue :=
  ([insertion],
    [.task 0, .task 0, .task 1, .task 1, .task 1, .task 1, .task 0, .task 0, .actor "t", .actor "t", .actor "t",
      .task 0, .task 0, .task 0, .actor "t"])

/-- Plays a script before and after the live query is sent. -/
def play (script : List Cue × List Cue) : Option (Query × Database × Database × Nat × Database × Database) :=
  (liveMany? live).bind fun q => (Database.playRounds admits (·.store.fits) 60 opened ([], {})).bind fun (_, s) =>
    (s.follow (·.store.fits) 60 script.1).bind fun v => (v.run 1 live).bind fun (c, t) =>
      (t.follow (·.store.fits) 60 script.2).bind fun w =>
        if admits live && t.store.fits && q.isFlat && (Plan.live s.schema (Catalog.types s.schema) q).isOk &&
            w.isQuiet then
          some (q, s, v, c, t, w)
        else none

theorem of_play {script : List Cue × List Cue} (hc : ∀ c ∈ script.1 ++ script.2, c.inserts = true) {c : Nat}
    (h : play script = some (q, s, v, c, t, w)) : Meanwhile (admits · = true) q ⟨1, c⟩ s v t w := by
  obtain ⟨q', hq, h⟩ := Option.bind_eq_some_iff.mp h
  obtain ⟨⟨past, s'⟩, hs, h⟩ := Option.bind_eq_some_iff.mp h
  obtain ⟨v', hv, h⟩ := Option.bind_eq_some_iff.mp h
  obtain ⟨⟨c', t'⟩, hrun, h⟩ := Option.bind_eq_some_iff.mp h
  obtain ⟨w', hw, h⟩ := Option.bind_eq_some_iff.mp h
  split at h
  next hok =>
    cases h
    simp only [Bool.and_eq_true] at hok
    obtain ⟨⟨⟨⟨hadmits, hfits⟩, hflat⟩, hplan⟩, hquiet⟩ := hok
    obtain ⟨hread, hmany, -⟩ := of_liveMany? hq
    obtain ⟨hbefore, hafter⟩ := List.forall_mem_append.mp hc
    have hrounds : Rounds (admits · = true) (·.store.fits = true) past s := Rounds.start.play hs
    have hasked : Asked (admits · = true) v (.channel ⟨1, c⟩) live t := .run hadmits hrun
    obtain ⟨hmoves, hv⟩ := of_follow hrounds.run hbefore hv
    have ht := hv.move hasked.move hfits
    have hplanned : q.Planned s.schema := by
      refine (Plan.live_ok_iff (Reachable.of_run hrounds.run).inOrder.schema).mp ?_
      cases hlive : Plan.live s.schema (Catalog.types s.schema) q with
      | ok plan => exact ⟨plan, rfl⟩
      | error f => rw [hlive] at hplan; cases hplan
    exact ⟨(hrounds.strengthen fun _ => wellTyped_of_run).run, hrounds.quiet, hmoves, ⟨live, hasked, hread⟩,
      wellTyped_of_run ht, hmany, hflat, hplanned, (of_follow ht hafter hw).1, hquiet⟩
  next => cases h

/-- What has reached the channel, and what the query yields. -/
def outcome : Query × Database × Database × Nat × Database × Database → List Json × List Json
  | (q, _, _, c, _, w) => (w.reached ⟨1, c⟩, (q.nodes w.schema w.store none).map Node.json)

end Inserting.Sample

open Inserting.Sample in
/-- An insertion commits when the query has begun, and publishes when the query has subscribed: its row is told of. -/
theorem Inserting.reached_iff_overlapping : ∃ q u s v t w, Meanwhile (admits · = true) q u s v t w ∧
    ∃ a b c d new, Ends (admits · = true) (Database.asks u) t a b ∧
      Ends (admits · = true) (Database.opens u q.table) b c d ∧
      Relation.ReflTransGen (Inserting (admits · = true)) d w ∧
      (w.store.rows q.table).Perm (d.announced q.table ++ new) ∧
      (w.received u).Perm (.result u.channel (.arr (q.shown (a.store.rows q.table))) :: q.told u new) ∧
      (w.received u).length = 2 ∧ (w.reached u).Perm ((q.nodes w.schema w.store none).map Node.json) ∧
      (q.shown (a.store.rows q.table)).Perm (q.shown (d.announced q.table)) := by
  have hplay : (play overlapping).any (fun p => decide ((outcome p).1 = (outcome p).2) &&
      (p.2.2.2.2.2.received ⟨1, p.2.2.2.1⟩).length == 2) = true := by
    decide +kernel
  obtain ⟨⟨q, s, v, c, t, w⟩, hp, htest⟩ := (Option.any_eq_true _ _).mp hplay
  obtain ⟨hsame, hlength⟩ := Bool.and_eq_true_iff.mp htest
  have hmeanwhile := of_play (by decide +kernel) hp
  obtain ⟨a, b, c', d, new, hbegins, hsubscribes, hmoves, hrows, hreceived, hiff⟩ := Inserting.reached_iff hmeanwhile
  have honce : (w.reached ⟨1, c⟩).Perm ((q.nodes w.schema w.store none).map Node.json) :=
    List.Perm.of_eq (of_decide_eq_true hsame)
  exact ⟨q, ⟨1, c⟩, s, v, t, w, hmeanwhile, a, b, c', d, new, hbegins, hsubscribes, hmoves, hrows, hreceived,
    eq_of_beq hlength, honce, hiff.mp honce⟩

open Inserting.Sample in
/-- A row that is inserted after the query has begun and before it has subscribed never reaches the channel, and one
that is committed before the former and announced after the latter reaches it twice. -/
theorem Inserting.exists_lost_and_doubled :
    (∃ q u s v t w row, Meanwhile (admits · = true) q u s v t w ∧ w.reached u = [] ∧
      (q.nodes w.schema w.store none).map Node.json = [row]) ∧
    (∃ q u s v t w row, Meanwhile (admits · = true) q u s v t w ∧ w.reached u = [row, row] ∧
      (q.nodes w.schema w.store none).map Node.json = [row]) := by
  let row : Json := .obj [("id", .num 2)]
  have hlost : (play within).any (fun p => decide (outcome p = ([], [row]))) = true := by decide +kernel
  have hdoubled : (play around).any (fun p => decide (outcome p = ([row, row], [row]))) = true := by decide +kernel
  obtain ⟨⟨q, s, v, c, t, w⟩, hp, hlost⟩ := (Option.any_eq_true _ _).mp hlost
  obtain ⟨⟨q', s', v', c', t', w'⟩, hp', hdoubled⟩ := (Option.any_eq_true _ _).mp hdoubled
  obtain ⟨hnone, hrow⟩ := Prod.mk.inj (of_decide_eq_true hlost)
  obtain ⟨htwo, hrow'⟩ := Prod.mk.inj (of_decide_eq_true hdoubled)
  exact ⟨⟨q, ⟨1, c⟩, s, v, t, w, row, of_play (by decide +kernel) hp, hnone, hrow⟩,
    ⟨q', ⟨1, c'⟩, s', v', t', w', row, of_play (by decide +kernel) hp', htwo, hrow'⟩⟩

end LiveQuery
