import LiveQuery.Proofs.Live.Following

/-! # Histories

A `History` is the rounds of a session with what was asked in each of them, so that what a channel gets in a round
can be traced back to what it got before. Whatever begins a round, if a connection is open in the end, its channels
have got the messages that were due when the round opened, and their listeners are among those that were in prospect
then (`Database.Opened.settled`); a connection that is to be hung up is not open in the end
(`Database.closed_of_hangsUp`).
-/
namespace LiveQuery

/-- A round: the database at rest before and after it, and the statement that was sent, if it began with one. -/
structure Round where
  before : Database
  asked : Option (Origin × String)
  after : Database

/-- The messages that a channel got in a round. -/
def Round.received (r : Round) (u : Subscriber) : List Message :=
  (r.after.received u).drop (r.before.received u).length

/-- The rounds since the database was empty, the latest one first. -/
inductive History (texts : String → Prop) : List Round → Database → Prop
  | start : History texts [] {}
  | statement {log : List Round} {s t v : Database} {o : Origin} {text : String} (before : History texts log s)
      (asked : Asked texts s o text t) (test : t.WellTyped)
      (runs : Relation.ReflTransGen (StepIn Database.WellTyped) t v) (quiet : v.isQuiet = true) :
      History texts (⟨s, some (o, text), v⟩ :: log) v
  /-- Anything else that a client does. -/
  | other {log : List Round} {s t v : Database} (before : History texts log s) (moves : Move (fun _ => False) s t)
      (test : t.WellTyped) (runs : Relation.ReflTransGen (StepIn Database.WellTyped) t v) (quiet : v.isQuiet = true) :
      History texts (⟨s, none, v⟩ :: log) v

namespace History

variable {texts : String → Prop} {log : List Round} {s : Database}

theorem run (h : History texts log s) : Run texts Database.WellTyped s := by
  induction h with
  | start => exact .start
  | statement _ asked test runs _ ih => exact (ih.move asked.move test).steps runs
  | other _ moves test runs _ ih => exact (ih.move (moves.mono fun _ hf => hf.elim) test).steps runs

theorem quiet (h : History texts log s) : s.isQuiet = true := by
  cases h with
  | start => rfl
  | statement _ _ _ _ quiet => exact quiet
  | other _ _ _ _ quiet => exact quiet

end History

/-! ## Scripts -/

/-- The statement that a move sends, if it sends one. -/
def Database.asks? (s : Database) : Cue → Option (Origin × String)
  | .call text => some (.caller 0, text)
  | .run connection text => (s.run connection text).map fun sent => (.channel ⟨connection, sent.1⟩, text)
  | .connect | .task _ | .actor _ | .closeChannel _ | .disconnect _ | .takeMessages _ => none

/-- Plays rounds, each of which begins with a move of the script, and logs them. -/
def playHistory (texts : String → Bool) (test : Database → Bool) (fuel : Nat) :
    List Cue → List Round × Database → Option (List Round × Database)
  | [], played => some played
  | c :: script, (log, s) =>
    match s.cue fuel c with
    | none => none
    | some t =>
      if c.reads texts && test t then
        match t.settleIn test fuel 60 with
        | none => none
        | some v => playHistory texts test fuel script (⟨s, s.asks? c, v⟩ :: log, v)
      else none

/-- A move sends the statement that it asks for, or it sends none. -/
theorem Move.asks_of_cue {texts : String → Bool} {fuel : Nat} {s t : Database} {c : Cue} (hc : c.reads texts = true)
    (h : s.cue fuel c = some t) : (∃ o text, s.asks? c = some (o, text) ∧ Asked (texts · = true) s o text t) ∨
      (s.asks? c = none ∧ Move (fun _ => False) s t) := by
  cases c with
  | call text => cases h; exact .inl ⟨_, _, rfl, .call hc 0⟩
  | run connection text =>
    obtain ⟨⟨channel, t'⟩, hrun, rfl⟩ := Option.map_eq_some_iff.mp h
    exact .inl ⟨_, _, by rw [Database.asks?, hrun]; rfl, .run hc hrun⟩
  | connect => cases h; exact .inr ⟨rfl, .connect s⟩
  | task i => exact .inr ⟨rfl, .step (.task fuel default i h)⟩
  | actor table => exact .inr ⟨rfl, .step (.actor table h)⟩
  | closeChannel u => cases h; exact .inr ⟨rfl, .closeChannel s u⟩
  | disconnect connection => cases h; exact .inr ⟨rfl, .disconnect s connection⟩
  | takeMessages connection => cases h; exact .inr ⟨rfl, .takeMessages s connection⟩

/-- A script that can be played makes a history. -/
theorem History.play {texts : String → Bool} {test : Database → Bool} {fuel : Nat}
    (hwell : ∀ d, Run (texts · = true) (test · = true) d → d.WellTyped) {script : List Cue} {log log' : List Round}
    {s t : Database} (h : History (texts · = true) log s) (hs : Run (texts · = true) (test · = true) s)
    (hp : playHistory texts test fuel script (log, s) = some (log', t)) : History (texts · = true) log' t := by
  induction script generalizing log s with
  | nil => cases hp; exact h
  | cons c script ih =>
    rw [playHistory] at hp
    split at hp
    next => cases hp
    next v hv =>
      split at hp
      next hok =>
        obtain ⟨hreads, htest⟩ := Bool.and_eq_true_iff.mp hok
        split at hp
        next => cases hp
        next w hw =>
          obtain ⟨hsteps, hquiet⟩ := Database.steps_of_settleIn hw
          have hmoved := hs.move (.of_cue hreads hv) htest
          have hruns := StepIn.strengthen hwell hmoved hsteps
          rcases Move.asks_of_cue hreads hv with ⟨o, text, hasks, hasked⟩ | ⟨hasks, hmove⟩ <;> rw [hasks] at hp
          · exact ih (h.statement hasked (hwell _ hmoved) hruns hquiet) (hmoved.steps hsteps) hp
          · exact ih (h.other hmove (hwell _ hmoved) hruns hquiet) (hmoved.steps hsteps) hp
      next => cases hp

/-! ## Connections that are closed -/

namespace Database

variable {s t v w : Database} {u : Subscriber} {c : Nat} {conn : Connection}

theorem received_of_none (hc : Keyed.find? s.connections u.connection = some conn) (hnone : conn.received = []) :
    s.received u = [] := by
  rw [received, inboxOf, hc, Option.map_some, Option.getD_some, hnone]
  rfl

theorem received_of_find? (h : Keyed.find? t.connections u.connection = Keyed.find? s.connections u.connection) :
    t.received u = s.received u ∧ (t.IsOpen u.connection ↔ s.IsOpen u.connection) := by
  rw [received, received, inboxOf, inboxOf, IsOpen, IsOpen, h]
  exact ⟨rfl, Iff.rfl⟩

/-- A connection is to be hung up, or it is closed. -/
def Closing (c : Nat) (s : Database) : Prop := (∃ a ∈ s.pending, a.hangsUp c = true) ∨ ¬s.IsOpen c

theorem eq_hangUp {a : Action} (h : a.hangsUp c = true) : a = .hangUp c := by
  cases a with
  | hangUp c' => rw [eq_of_beq h]
  | post | broadcast | deliver | answer => cases h

theorem Closing.step (hs : Reachable s) (hstep : Step s t) (h : Closing c s) : Closing c t := by
  rcases h with ⟨a, ha, hhangs⟩ | h
  · cases progress hs.wired hstep with
    | begins mem starts frame pending notices =>
      exact .inl ⟨a, pending.mem_iff.mpr (List.mem_append_right _ ha), hhangs⟩
    | lapses query frame pending notices => exact .inl ⟨a, pending.mem_iff.mpr ha, hhangs⟩
    | ends mem frame pending notices => exact .inl ⟨a, pending.mem_iff.mpr ha, hhangs⟩
    | @acts rest others b order mem frame before after notices =>
      rw [List.cons_append] at before
      rcases List.mem_cons.mp (before.mem_iff.mp ha) with rfl | ha
      · refine .inr fun hopen => ?_
        rw [eq_hangUp hhangs] at frame
        exact not_isOpen_hangUp hs.numbered.connections c ((isOpen_congr (by rw [frame])).mp hopen)
      · rw [List.append_assoc] at after
        exact .inl ⟨a, after.mem_iff.mpr (List.mem_append_right _ ha), hhangs⟩
    | handles store schema audience pending open_iff messages notices received => exact .inl ⟨a, pending ▸ ha, hhangs⟩
  · exact .inr fun hopen => h (isOpen_of_step hstep hopen)

/-- When all is quiet a connection that was to be hung up is closed. -/
theorem closed_of_hangsUp (hs : Reachable s) (h : Closing c s) (hruns : Relation.ReflTransGen Step s v)
    (hquiet : v.isQuiet = true) : ¬v.IsOpen c := by
  induction hruns using Relation.ReflTransGen.head_induction_on with
  | refl =>
    rcases h with ⟨a, ha, -⟩ | h
    · rw [(quiet_accounts hs.wired hquiet).2.1] at ha
      cases ha
    · exact h
  | head hstep _ ih => exact ih (hs.move (.step hstep)) (h.step hs hstep)

end Database

/-! ## From the opening of a round to its end -/

section Rounds

variable {texts : String → Prop} {s t v w : Database}

/-- A connection that is open in the end was so before. -/
theorem Database.Opened.isOpen (h : Opened texts s t w v) {u : Subscriber} (hopen : v.IsOpen u.connection) :
    s.IsOpen u.connection :=
  (h.opening.received u).2.mp (isOpen_of_steps h.runs hopen)

/-- If its connection is open in the end, a channel has got what was due to it, and it has no listeners but those that
were in prospect. -/
theorem Database.Opened.settled (h : Opened texts s t w v) {u : Subscriber} (hcalm : w.Calm u)
    (hquiet : v.isQuiet = true) (hopen : v.IsOpen u.connection) : (∀ table, v.held u table ⊆ w.prospect u table) ∧
      ∃ ms, v.received u = s.received u ++ ms ∧ ms.Perm (w.due u) := by
  have hstays : ∀ a ∈ w.pending, a.hangsUp u.connection = false := by
    intro a ha
    rw [Bool.eq_false_iff]
    exact fun hhangs => closed_of_hangsUp h.reachable (.inl ⟨a, ha, hhangs⟩) h.runs hquiet hopen
  obtain ⟨hreceived, hopen_iff⟩ := h.opening.received u
  obtain ⟨hcalm', -, -, hprospect⟩ := hcalm.run_prospect h.runs
  obtain ⟨-, -, ms, hms, hdue⟩ :=
    hcalm.settling.run_due hcalm.wired hcalm.foreseen (hopen_iff.mpr (h.isOpen hopen)) hstays h.runs
  rw [due_of_quiet hcalm'.wired hquiet, List.append_nil] at hdue
  refine ⟨fun table x hx => ?_, ms, hreceived ▸ hms, hdue.symm⟩
  obtain ⟨gone, hperm, -⟩ := hprospect table
  rw [prospect_of_quiet hcalm'.wired hquiet] at hperm
  exact hperm.mem_iff.mpr (List.mem_append_right _ hx)

/-- What a client does at no cost to the database brings no messages, and a channel on a connection that it opens has no
listeners. -/
theorem Move.at_once (h : Move texts s t) (hs : Reachable s) (hquiet : s.isQuiet = true) (htasks : t.tasks = [])
    (u : Subscriber) : (t.IsOpen u.connection → s.IsOpen u.connection ∨ ∀ table, s.held u table = []) ∧
      (t.received u).drop (s.received u).length = [] := by
  obtain ⟨hnone, hidle⟩ := Database.idle_of_quiet hquiet
  have hlast : ∀ {task : Task}, s.tasks ++ [task] ≠ [] := by simp
  have hsame : Keyed.find? t.connections u.connection = Keyed.find? s.connections u.connection →
      (t.IsOpen u.connection → s.IsOpen u.connection ∨ ∀ table, s.held u table = []) ∧
        (t.received u).drop (s.received u).length = [] := by
    intro heq
    obtain ⟨hreceived, hopen⟩ := Database.received_of_find? heq
    rw [hreceived, hopen, List.drop_length]
    exact ⟨.inl, rfl⟩
  cases h with
  | step hstep => exact absurd hstep (Database.not_step_of_quiet hnone hidle)
  | connect =>
    by_cases hu : s.nextConnection = u.connection
    · refine ⟨fun _ => .inr fun table => List.filter_eq_nil_iff.mpr fun x hx hxu => ?_, ?_⟩
      · -- channels that have listeners are on connections that were opened before
        have hissued := hs.numbered.issued.listeners table x hx
        rw [of_decide_eq_true hxu] at hissued
        exact Nat.lt_irrefl _ (hu ▸ hissued.1)
      · have hfind : Keyed.find? s.connect.2.connections u.connection = some {} := by
          rw [← hu]
          exact Keyed.find?_insert_self _ _ _
        rw [Database.received_of_none hfind rfl]
        exact List.drop_nil
    · exact hsame (Keyed.find?_insert_of_ne _ _ hu)
  | call | closeChannel | disconnect => exact absurd htasks hlast
  | run sent hrun =>
    obtain ⟨c, -, rfl, rfl⟩ := Database.run_eq hrun
    exact absurd htasks hlast
  | takeMessages connection =>
    rcases s.takeMessages_cases connection with ⟨conn, hc, heq⟩ | heq
    · by_cases hu : connection = u.connection
      · refine ⟨fun _ => .inl (by rw [Database.IsOpen, ← hu, hc]; rfl), ?_⟩
        have hfind : Keyed.find? (s.takeMessages connection).2.connections u.connection =
            some { conn with received := [] } := by
          rw [heq, hu]
          exact Keyed.find?_insert_self _ _ _
        rw [Database.received_of_none hfind rfl]
        exact List.drop_nil
      · exact hsame (by rw [heq]; exact Keyed.find?_insert_of_ne _ _ hu)
    · exact hsame (by rw [heq])

end Rounds

end LiveQuery
