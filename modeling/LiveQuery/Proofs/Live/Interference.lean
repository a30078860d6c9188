import LiveQuery.Proofs.Live.Alike

/-! # Channels do not disturb each other

A session of `Requests`, each of which is served until all is quiet, is compared with one from which live queries of
other connections, closes of other channels and drops of other connections are left out (`Thins`). A channel gets
the same messages in both, round by round and up to their order in a round (`Requests.undisturbed`), and once it is
closed it gets no more (`Requests.deaf`).
-/
namespace LiveQuery

/-! ## Sessions -/

/-- A client does something to a database at rest, and then all becomes quiet, every state on the way in `P`. -/
inductive Database.Plays (texts : String → Bool) (P : Database → Prop) (s : Database) (c : Cue) (v : Database) : Prop
  | round {fuel : Nat} {t : Database} (asks : s.cue fuel c = some t) (reads : c.reads texts = true)
      (ends : Database.Ends P t v)

/-- The rounds of a session with what clients did in each of them, the latest one first. -/
inductive Requests (texts : String → Bool) (P : Database → Prop) : List (Cue × Round) → Database → Prop
  | start : Requests texts P [] {}
  | round {log : List (Cue × Round)} {s v : Database} {c : Cue} (before : Requests texts P log s)
      (plays : s.Plays texts P c v) : Requests texts P ((c, ⟨s, s.asks? c, v⟩) :: log) v

theorem Database.Plays.moves {texts : String → Bool} {P : Database → Prop} {s v : Database} {c : Cue}
    (h : s.Plays texts P c v) : Relation.ReflTransGen (Move (texts · = true)) s v := by
  obtain ⟨asks, reads, ends⟩ := h
  exact .head (.of_cue reads asks) ((StepIn.steps ends.runs).lift id fun _ _ => .step)

namespace Requests

variable {texts : String → Bool} {P : Database → Prop} {log : List (Cue × Round)} {s : Database}

theorem reachable (h : Requests texts P log s) : Reachable s := by
  induction h with
  | start => exact .empty
  | round _ plays ih => exact ih.moves plays.moves

theorem quiet (h : Requests texts P log s) : s.isQuiet = true := by
  cases h with
  | start => rfl
  | round _ plays => exact plays.rec fun _ _ ends => ends.quiet

theorem history (h : Requests texts Database.WellTyped log s) : History (texts · = true) (log.map Prod.snd) s := by
  induction h with
  | start => exact .start
  | round before plays ih =>
    obtain ⟨asks, reads, ends⟩ := plays
    rw [List.map_cons]
    rcases Move.asks_of_cue reads asks with ⟨o, text, hasks, asked⟩ | ⟨hasks, hmove⟩ <;> rw [hasks]
    · exact ih.statement asked ends.test ends.runs ends.quiet
    · exact ih.other hmove ends.test ends.runs ends.quiet

theorem atRest (h : Requests texts Database.WellTyped log s)
    (hlevels : ∀ text, texts text = true → ∀ q, Statement.read text = .ok (.select true q) → q.levels ≤ Plan.maxPoints)
    (u : Subscriber) : s.AtRest (texts · = true) u :=
  ⟨h.history.run, h.history.quiet, fun hopen => ⟨_, (h.history.accounted hlevels u).1 hopen⟩⟩

end Requests

/-- Whether a request is none of a channel's business: it is a live query on another connection, or it closes another
channel or drops another connection. -/
def Cue.isForeign (u : Subscriber) : Cue → Bool
  | .run connection text => connection != u.connection && (Statement.read text matches .ok (.select true _))
  | .closeChannel whom => decide (whom ≠ u)
  | .disconnect connection => connection != u.connection
  | .connect | .call _ | .task _ | .actor _ | .takeMessages _ => false

namespace Database

variable {texts : String → Bool} {s s' t v v' : Database} {c : Cue} {u : Subscriber}

/-- What is none of a channel's business brings it no messages, and it cannot tell that it happened. -/
theorem AtRest.foreign (hs : s.AtRest (texts · = true) u) (plays : s.Plays texts WellTyped c v)
    (hc : c.isForeign u = true) :
    Alike u s v ∧ s.handed v u = [] := by
  obtain ⟨asks, reads, ends⟩ := plays
  have hreachable : Reachable s := .of_run hs.run
  have runs := StepIn.steps ends.runs
  have htasks : s.tasks = [] := (idle_of_quiet hs.quiet).1
  cases c with
  | connect | call | task | actor | takeMessages => cases hc
  | run connection text =>
    obtain ⟨hne, hlive⟩ := Bool.and_eq_true_iff.mp hc
    have hne : connection ≠ u.connection := bne_iff_ne.mp hne
    obtain ⟨q, read⟩ : ∃ q, Statement.read text = .ok (.select true q) := by
      split at hlive
      next q read => exact ⟨q, read⟩
      next => cases hlive
    obtain ⟨⟨k, t⟩, hrun, rfl⟩ := Option.map_eq_some_iff.mp asks
    obtain ⟨x, h⟩ := hs.answered (.run reads hrun) ends
    obtain ⟨hstore, hschema, hevent⟩ : x.store = t.store ∧ x.schema = t.schema ∧ x.event = none := by
      rcases h.serves.of_select read with ⟨f, -, rfl⟩ | ⟨anchor, fuel, r, -, -, rfl⟩ <;> exact ⟨rfl, rfl, rfl⟩
    have ho : Origin.subscriber? (.channel ⟨connection, k⟩) ≠ some u := by
      rintro ⟨⟩
      exact hne rfl
    obtain ⟨hchannel, hconnection⟩ := h.nextChannel? runs
    rw [(nextChannel?_of_run hrun).2, if_neg hne] at hchannel
    refine ⟨⟨h.store.trans (hstore.trans h.asked.store), h.schema.trans (hschema.trans h.asked.schema), hconnection,
      hchannel, fun hopen table => ?_⟩, ?_⟩
    · have hheld := (h.elsewhere hopen ho).1 table
      rw [hevent] at hheld
      exact (List.append_nil _ ▸ hheld).symm
    · by_cases hopen : s.IsOpen u.connection
      · have hhanded := (h.elsewhere hopen ho).2
        rw [hevent] at hhanded
        exact List.perm_nil.mp hhanded
      · exact handed_of_closed (mt h.isOpen.mp hopen)
  | closeChannel whom =>
    cases asks
    have h := Removing.of_closeChannel hreachable hs.quiet ends
    exact ⟨h.alike (decide_eq_false (Ne.symm (of_decide_eq_true hc))) (by simp), h.handed u⟩
  | disconnect connection =>
    cases asks
    have h := Removing.of_disconnect hreachable hs.quiet ends
    have hne : connection ≠ u.connection := bne_iff_ne.mp hc
    refine ⟨h.alike (beq_eq_false_iff_ne.mpr hne.symm) (fun a ha => ?_), h.handed u⟩
    cases List.mem_singleton.mp ha
    exact beq_eq_false_iff_ne.mpr hne

theorem nextChannel?_connect (s : Database) (connection : Nat) :
    s.connect.2.nextChannel? connection =
      if s.nextConnection = connection then some 1 else s.nextChannel? connection := by
  have hinsert := nextChannel?_insert (s := s) (t := s.connect.2) (c := connection) rfl
  exact hinsert

theorem held_of_connect (hs : Reachable s) (hquiet : s.isQuiet = true) (hopen : s.connect.2.IsOpen u.connection)
    (hbefore : ¬s.IsOpen u.connection) (table : String) : s.connect.2.held u table = [] := by
  have hmove : Move (fun _ => False) s s.connect.2 := .connect s
  exact ((hmove.at_once hs hquiet (idle_of_quiet hquiet).1 u).1 hopen).resolve_left hbefore table

theorem Alike.connect (h : Alike u s s') (hs : s.AtRest (texts · = true) u) (hs' : s'.AtRest (texts · = true) u) :
    Alike u s.connect.2 s'.connect.2 := by
  have hchannel : s'.connect.2.nextChannel? u.connection = s.connect.2.nextChannel? u.connection := by
    rw [nextChannel?_connect, nextChannel?_connect, h.nextConnection, h.nextChannel]
  refine ⟨h.store, h.schema, congrArg (· + 1) h.nextConnection, hchannel, fun hopen table => ?_⟩
  by_cases hbefore : s.IsOpen u.connection
  · exact h.held hbefore table
  · have hopen' : s'.connect.2.IsOpen u.connection := by
      rwa [isOpen_iff_nextChannel?, hchannel, ← isOpen_iff_nextChannel?]
    rw [held_of_connect (.of_run hs.run) hs.quiet hopen hbefore,
      held_of_connect (.of_run hs'.run) hs'.quiet hopen' (mt h.isOpen.mp hbefore)]

theorem alike_takeMessages (s : Database) (u : Subscriber) (connection : Nat) :
    Alike u s (s.takeMessages connection).2 := by
  rcases s.takeMessages_cases connection with ⟨conn, hconn, heq⟩ | heq
  · rw [heq]
    refine ⟨rfl, rfl, rfl, ?_, fun _ _ => .refl _⟩
    rw [nextChannel?_insert (s := s) rfl]
    split
    next hc => rw [← hc, nextChannel?, hconn]; rfl
    next => rfl
  · rw [heq]
    exact .refl u s

theorem AtRest.handed_of_move (hs : s.AtRest (texts · = true) u) {texts' : String → Prop} (hmove : Move texts' s t)
    (htasks : t.tasks = s.tasks) : s.handed t u = [] :=
  (hmove.at_once (.of_run hs.run) hs.quiet (htasks.trans (idle_of_quiet hs.quiet).1) u).2

/-- What any client does brings a channel the same in states that look alike, and they look alike after it. -/
theorem Alike.plays (h : Alike u s s') (hs : s.AtRest (texts · = true) u) (hs' : s'.AtRest (texts · = true) u)
    (plays : s.Plays texts WellTyped c v) (plays' : s'.Plays texts WellTyped c v') :
    Alike u v v' ∧ (s.handed v u).Perm (s'.handed v' u) := by
  -- what is not noticed on either side, such as the close of another channel, is done with first
  have hforeign : c.isForeign u = true → Alike u v v' ∧ (s.handed v u).Perm (s'.handed v' u) := by
    intro hc
    obtain ⟨halike, hnone⟩ := hs.foreign plays hc
    obtain ⟨halike', hnone'⟩ := hs'.foreign plays' hc
    exact ⟨(halike.symm.trans h).trans halike', .of_eq (hnone.trans hnone'.symm)⟩
  obtain ⟨asks, reads, ends⟩ := plays
  obtain ⟨asks', reads', ends'⟩ := plays'
  obtain ⟨htasks, hidle⟩ := idle_of_quiet hs.quiet
  cases c with
  | task i => exact (not_step_of_quiet htasks hidle (.task _ _ i asks)).elim
  | actor table => exact (not_step_of_quiet htasks hidle (.actor table asks)).elim
  | connect =>
    cases asks
    cases asks'
    obtain rfl := ends.eq_of_quiet hs.quiet
    obtain rfl := ends'.eq_of_quiet hs'.quiet
    have hmove : ∀ s, Move (fun _ => False) s s.connect.2 := .connect
    refine ⟨h.connect hs hs', ?_⟩
    rw [hs.handed_of_move (hmove s) rfl, hs'.handed_of_move (hmove s') rfl]
  | takeMessages connection =>
    cases asks
    cases asks'
    have hkeeps : ∀ s : Database, (s.takeMessages connection).2.isQuiet = s.isQuiet ∧
        (s.takeMessages connection).2.tasks = s.tasks := by
      intro s
      rcases s.takeMessages_cases connection with ⟨conn, -, heq⟩ | heq <;> rw [heq] <;> exact ⟨rfl, rfl⟩
    obtain rfl := ends.eq_of_quiet ((hkeeps s).1.trans hs.quiet)
    obtain rfl := ends'.eq_of_quiet ((hkeeps s').1.trans hs'.quiet)
    have hmove : ∀ s, Move (fun _ => False) s (s.takeMessages connection).2 := fun s => .takeMessages s connection
    refine ⟨((alike_takeMessages s u connection).symm.trans h).trans (alike_takeMessages s' u connection), ?_⟩
    rw [hs.handed_of_move (hmove s) (hkeeps s).2, hs'.handed_of_move (hmove s') (hkeeps s').2]
  | call text =>
    cases asks
    cases asks'
    exact h.asked hs hs' (.call reads 0) (.call reads 0) ends ends' (.inl rfl) h.nextChannel
  | run connection text =>
    obtain ⟨⟨k, t⟩, hrun, rfl⟩ := Option.map_eq_some_iff.mp asks
    obtain ⟨⟨k', t'⟩, hrun', rfl⟩ := Option.map_eq_some_iff.mp asks'
    obtain ⟨hk, hchannel⟩ := nextChannel?_of_run hrun
    obtain ⟨hk', hchannel'⟩ := nextChannel?_of_run hrun'
    by_cases hconnection : connection = u.connection
    · subst hconnection
      obtain rfl : k' = k := Option.some.inj (hk'.symm.trans (h.nextChannel.trans hk))
      exact h.asked hs hs' (.run reads hrun) (.run reads' hrun') ends ends' (.inl rfl)
        (by rw [hchannel, hchannel', if_pos rfl, if_pos rfl])
    · have helse : ∀ k, Origin.subscriber? (.channel ⟨connection, k⟩) ≠ some u := by
        rintro k ⟨⟩
        exact hconnection rfl
      exact h.asked hs hs' (.run reads hrun) (.run reads' hrun') ends ends' (.inr ⟨helse k, helse k'⟩)
        (by rw [hchannel, hchannel', if_neg hconnection, if_neg hconnection, h.nextChannel])
  | closeChannel whom =>
    by_cases hwhom : whom = u
    swap
    · exact hforeign (decide_eq_true hwhom)
    subst hwhom
    cases asks
    cases asks'
    have hround := Removing.of_closeChannel (.of_run hs.run) hs.quiet ends
    have hround' := Removing.of_closeChannel (.of_run hs'.run) hs'.quiet ends'
    refine h.removing hround hround' ?_
    rw [hround.nextChannel? (by simp), hround'.nextChannel? (by simp), h.nextChannel]
  | disconnect connection =>
    by_cases hconnection : connection = u.connection
    swap
    · exact hforeign (bne_iff_ne.mpr hconnection)
    subst hconnection
    cases asks
    cases asks'
    have hround := Removing.of_disconnect (.of_run hs.run) hs.quiet ends
    have hround' := Removing.of_disconnect (.of_run hs'.run) hs'.quiet ends'
    refine h.removing hround hround' ?_
    rw [nextChannel?_eq_none (hround.closed List.mem_cons_self),
      nextChannel?_eq_none (hround'.closed List.mem_cons_self)]

end Database

/-! ## Two sessions -/

/-- The second script is the first one without some requests that are none of a channel's business. -/
inductive Thins (u : Subscriber) : List Cue → List Cue → Prop
  | nil : Thins u [] []
  | keep (c : Cue) {script script' : List Cue} (rest : Thins u script script') : Thins u (c :: script) (c :: script')
  | drop {c : Cue} {script script' : List Cue} (foreign : c.isForeign u = true) (rest : Thins u script script') :
      Thins u (c :: script) script'

/-- In each round of the first session a channel gets the same as in that of the second one, up to the order of the
messages in the round, or nothing, if the round is left out of the second one. -/
inductive Agrees (u : Subscriber) : List (Cue × Round) → List (Cue × Round) → Prop
  | nil : Agrees u [] []
  | keep (c : Cue) {r r' : Round} {log log' : List (Cue × Round)} (same : (r.received u).Perm (r'.received u))
      (rest : Agrees u log log') : Agrees u ((c, r) :: log) ((c, r') :: log')
  | drop {c : Cue} {r : Round} {log log' : List (Cue × Round)} (foreign : c.isForeign u = true)
      (none : r.received u = []) (rest : Agrees u log log') : Agrees u ((c, r) :: log) log'

/-- Whether a request closes a channel, or drops its connection. -/
def Cue.closes (u : Subscriber) : Cue → Bool
  | .closeChannel whom => decide (whom = u)
  | .disconnect connection => connection == u.connection
  | .connect | .call _ | .run .. | .task _ | .actor _ | .takeMessages _ => false

theorem Thins.filter (u : Subscriber) (script : List Cue) : Thins u script (script.filter (!·.isForeign u)) := by
  induction script with
  | nil => exact .nil
  | cons c script ih =>
    rw [List.filter_cons]
    split
    next => exact .keep c ih
    next hc => exact .drop (by simpa using hc) ih

theorem Agrees.perm {u : Subscriber} {log log' : List (Cue × Round)} (h : Agrees u log log') :
    (log.flatMap (·.2.received u)).Perm (log'.flatMap (·.2.received u)) := by
  induction h with
  | nil => exact .refl _
  | keep c same rest ih => exact same.append ih
  | drop foreign none rest ih =>
    rw [List.flatMap_cons, none]
    exact ih

namespace Requests

variable {texts : String → Bool} {log log' : List (Cue × Round)} {s s' : Database} {u : Subscriber}

theorem alike (h : Requests texts Database.WellTyped log s)
    (hlevels : ∀ text, texts text = true → ∀ q, Statement.read text = .ok (.select true q) → q.levels ≤ Plan.maxPoints)
    (h' : Requests texts Database.WellTyped log' s')
    (thins : Thins u (log.map Prod.fst) (log'.map Prod.fst)) : Database.Alike u s s' ∧ Agrees u log log' := by
  -- induction on what is left out: the latest round comes first in a log, and the states before it look alike
  generalize hscript : log.map Prod.fst = script at thins
  generalize hscript' : log'.map Prod.fst = script' at thins
  induction thins generalizing log log' s s' with
  | nil =>
    cases List.map_eq_nil_iff.mp hscript
    cases List.map_eq_nil_iff.mp hscript'
    cases h
    cases h'
    exact ⟨.refl u _, .nil⟩
  | keep c rest ih =>
    cases h with
    | start => cases hscript
    | round before plays =>
      cases h' with
      | start => cases hscript'
      | round before' plays' =>
        obtain ⟨rfl, hrest⟩ := List.cons.inj hscript
        obtain ⟨hcue, hrest'⟩ := List.cons.inj hscript'
        cases hcue
        obtain ⟨halike, hagrees⟩ := ih before before' hrest hrest'
        obtain ⟨halike', hsame⟩ := halike.plays (before.atRest hlevels u) (before'.atRest hlevels u) plays plays'
        exact ⟨halike', .keep _ hsame hagrees⟩
  | drop foreign rest ih =>
    cases h with
    | start => cases hscript
    | round before plays =>
      obtain ⟨rfl, hrest⟩ := List.cons.inj hscript
      obtain ⟨halike, hagrees⟩ := ih before h' hrest hscript'
      obtain ⟨halike', hnone⟩ := (before.atRest hlevels u).foreign plays foreign
      exact ⟨halike'.symm.trans halike, .drop foreign hnone hagrees⟩

end Requests

/-! ## Channels that are closed -/

namespace Database

variable {texts : String → Prop} {s t v : Database} {u : Subscriber}

/-- A channel that was given out and that nothing is about. -/
structure Deaf (u : Subscriber) (s : Database) : Prop where
  reachable : Reachable s
  issued : s.Issued u
  silent : s.Silent u
  free : ∀ table, s.FreeAt u table

theorem deaf_of_held (hs : Reachable s) (hquiet : s.isQuiet = true) (hu : s.Issued u)
    (hheld : ∀ table, s.held u table = []) :
    s.Deaf u := by
  obtain ⟨htasks, hidle⟩ := idle_of_quiet hquiet
  refine ⟨hs, hu, ⟨by rw [htasks]; simp, ?_⟩, fun table x hx => ?_⟩
  · rw [Engine.notices_of_idle hidle hs.wired.engine]
    simp
  · rw [Engine.audience, Actor.audience, hidle table] at hx
    exact decide_eq_false (of_decide_eq_false (Bool.eq_false_iff.mpr (List.filter_eq_nil_iff.mp (hheld table) x hx)))

theorem Deaf.move (h : s.Deaf u) (hmove : Move texts s t) : t.Deaf u ∧ s.handed t u = [] := by
  have ht : Reachable t := h.reachable.move (hmove.mono fun _ _ => trivial)
  have hissued := h.issued.move hmove
  rcases hmove.aside h.issued with hstep | ⟨hengine, ⟨asked, htasks, hasked⟩, -, hnone⟩
  · obtain ⟨e, first⟩ := hstep.emits
    obtain ⟨hsilent, hnone, hfree⟩ := h.silent.step h.reachable.wired h.reachable.numbered.connections first
      fun e _ => (h.free e.1).spares h.reachable.wired
    exact ⟨⟨ht, hissued, hsilent, fun table => hfree table (h.free table)⟩, hnone⟩
  · refine ⟨⟨ht, hissued, ⟨?_, hengine ▸ h.silent.posts⟩, fun table => ?_⟩, hnone⟩
    · rw [htasks]
      exact List.forall_mem_append.mpr ⟨h.silent.tasks, hasked⟩
    · rw [FreeAt, hengine]
      exact h.free table

theorem Issued.moves (hu : s.Issued u) (hmoves : Relation.ReflTransGen (Move texts) s t) : t.Issued u := by
  induction hmoves with
  | refl => exact hu
  | tail _ hmove ih => exact ih.move hmove

theorem handed_eq_nil : s.handed t u = [] ↔ (t.received u).length ≤ (s.received u).length := List.drop_eq_nil_iff

theorem Deaf.moves (h : s.Deaf u) (hmoves : Relation.ReflTransGen (Move texts) s t) : t.Deaf u ∧ s.handed t u = [] := by
  induction hmoves with
  | refl => exact ⟨h, List.drop_length⟩
  | tail _ hmove ih =>
    obtain ⟨hdeaf, hnone⟩ := ih.1.move hmove
    exact ⟨hdeaf, handed_eq_nil.mpr (Nat.le_trans (handed_eq_nil.mp hnone) (handed_eq_nil.mp ih.2))⟩

end Database

namespace Requests

variable {texts : String → Bool} {P : Database → Prop} {log later earlier : List (Cue × Round)} {s v : Database}
  {c : Cue} {r : Round} {u : Subscriber}

/-- After a channel was closed or its connection dropped nothing more is said on it. -/
theorem deaf (h : Requests texts P log s) (hlog : log = later ++ (c, r) :: earlier) (hc : c.closes u = true)
    (hu : r.before.Issued u) : s.Deaf u ∧ r.received u = [] ∧ ∀ e ∈ later, e.2.received u = [] := by
  induction h generalizing later with
  | start => exact absurd hlog.symm (by simp)
  | @round log s v c' before plays ih =>
    cases later with
    | nil =>
      cases hlog
      have hissued : v.Issued u := Database.Issued.moves hu plays.moves
      have hv : Reachable v := before.reachable.moves plays.moves
      obtain ⟨asks, reads, ends⟩ := plays
      have hdeaf : ∀ {d rest t}, Database.Removing d rest s t v → d.covers ⟨u, none, []⟩ = true →
          v.Deaf u ∧ s.handed v u = [] := fun hround hcovers =>
        ⟨Database.deaf_of_held hv ends.quiet hissued (hround.held_of_covers hcovers), hround.handed u⟩
      have hgone : v.Deaf u ∧ s.handed v u = [] := by
        cases c with
        | closeChannel whom =>
          cases asks
          exact hdeaf (.of_closeChannel before.reachable before.quiet ends) (decide_eq_true (of_decide_eq_true hc).symm)
        | disconnect connection =>
          cases asks
          exact hdeaf (.of_disconnect before.reachable before.quiet ends) (beq_iff_eq.mpr (beq_iff_eq.mp hc).symm)
        | connect | call | run | task | actor | takeMessages => cases hc
      exact ⟨hgone.1, hgone.2, by simp⟩
    | cons e later =>
      cases hlog
      obtain ⟨hdeaf, hnone, hlater⟩ := ih rfl
      obtain ⟨hdeaf', hnone'⟩ := hdeaf.moves plays.moves
      exact ⟨hdeaf', hnone, List.forall_mem_cons.mpr ⟨hnone', hlater⟩⟩

/-- Channels do not disturb each other: one hears the same in a session without some live queries, channel closes and
drops of others, up to the order of the messages of one round, and once it is closed it hears nothing more. -/
theorem undisturbed (h : Requests texts Database.WellTyped log s)
    (hlevels : ∀ text, texts text = true → ∀ q, Statement.read text = .ok (.select true q) → q.levels ≤ Plan.maxPoints)
    (u : Subscriber) :
    (∀ log' s', Requests texts Database.WellTyped log' s' → Thins u (log.map Prod.fst) (log'.map Prod.fst) →
      Agrees u log log') ∧
    ∀ later c r earlier, log = later ++ (c, r) :: earlier → c.closes u = true → r.before.Issued u →
      r.received u = [] ∧ ∀ e ∈ later, e.2.received u = [] :=
  ⟨fun _ _ h' thins => (h.alike hlevels h' thins).2, fun _ _ _ _ hlog hc hu => (h.deaf hlog hc hu).2⟩

end Requests

/-! ## Samples -/

/-- A script that can be played makes a session. -/
theorem Requests.play {texts : String → Bool} {test : Database → Bool} {fuel : Nat} {P : Database → Prop}
    (hwell : ∀ d, Run (texts · = true) (test · = true) d → P d) {script : List Cue} {log : List (Cue × Round)}
    {rounds : List Round} {s t : Database} (h : Requests texts P log s) (hs : Run (texts · = true) (test · = true) s)
    (hp : playHistory texts test fuel script (log.map Prod.snd, s) = some (rounds, t)) :
    ∃ log', Requests texts P log' t ∧ log'.map Prod.snd = rounds ∧
      log'.map Prod.fst = script.reverse ++ log.map Prod.fst := by
  induction script generalizing log s with
  | nil => cases hp; exact ⟨log, h, rfl, rfl⟩
  | cons c script ih =>
    rw [playHistory] at hp
    split at hp
    next => cases hp
    next v hv =>
      split at hp
      next hok =>
        obtain ⟨hreads, htest⟩ := Bool.and_eq_true_iff.mp hok
        split at hp
        next => cases hp
        next w hw =>
          obtain ⟨hsteps, hquiet⟩ := Database.steps_of_settleIn hw
          have hmoved := hs.move (.of_cue hreads hv) htest
          have ends : Database.Ends P v w := ⟨hwell _ hmoved, StepIn.strengthen hwell hmoved hsteps, hquiet⟩
          obtain ⟨log', h', hrounds, hscript⟩ := ih (h.round (.round hv hreads ends)) (hmoved.steps hsteps) hp
          refine ⟨log', h', hrounds, ?_⟩
          rw [hscript, List.reverse_cons, List.append_assoc]
          rfl
      next => cases hp

namespace Requests.Sample

open Apart.Sample (admits channel wellTyped_of_run)

/-- Two connections listen on a table; one of them is dropped, and then the channel of the other one is closed. -/
def shared : List Cue :=
  [.call "CREATE TABLE t (id int PRIMARY KEY)", .connect, .connect, .run 1 "LIVE MANY t \x7b id \x7d",
    .run 2 "LIVE MANY t \x7b id \x7d", .call "INSERT INTO t \x7bid: 1\x7d", .disconnect 2, .closeChannel channel,
    .call "INSERT INTO t \x7bid: 2\x7d"]

/-- One connection listens on a table and another one on the texts of a column, in which a record is stored. -/
def silencing : List Cue :=
  [.call "CREATE TABLE t (id int PRIMARY KEY, n string)", .connect, .connect, .run 1 "LIVE MANY t \x7b id \x7d",
    .run 2 "LIVE MANY t WHERE n = \"x\" \x7b id \x7d",
    .call "INSERT INTO t \x7bid: 1, n: do \x7b let f = fn(x: \x27A): \x27A => \x7b\x7d; f(\"x\") \x7d\x7d"]

/-- Plays a script, and then the script without what is none of the channel's business. -/
def playBoth (texts : String → Bool) (test : Database → Bool) (script : List Cue) :
    Option ((List Round × Database) × List Round × Database) :=
  (playHistory texts test 60 script ([], {})).bind fun played =>
    (playHistory texts test 60 (script.filter (!·.isForeign channel)) ([], {})).map fun played' => (played, played')

/-- Two sessions, of which the second one leaves out what is none of the channel's business. -/
structure Pair (texts : String → Bool) (P : Database → Prop) (script : List Cue) (log log' : List (Cue × Round)) :
    Prop where
  first : ∃ s, Requests texts P log s
  second : ∃ s, Requests texts P log' s
  script : log.map Prod.fst = script.reverse
  thins : Thins channel (log.map Prod.fst) (log'.map Prod.fst)

theorem of_playBoth {texts : String → Bool} {test : Database → Bool} {P : Database → Prop}
    (hwell : ∀ d, Run (texts · = true) (test · = true) d → P d) {script : List Cue} {rounds rounds' : List Round}
    {s s' : Database} (h : playBoth texts test script = some ((rounds, s), rounds', s')) :
    ∃ log log', Pair texts P script log log' ∧ log.map Prod.snd = rounds ∧ log'.map Prod.snd = rounds' := by
  obtain ⟨⟨rounds, s⟩, hplay, h⟩ := Option.bind_eq_some_iff.mp h
  obtain ⟨⟨rounds', s'⟩, hplay', h⟩ := Option.map_eq_some_iff.mp h
  cases h
  obtain ⟨log, hlog, hrounds, hscript⟩ := Requests.start.play hwell .start hplay
  obtain ⟨log', hlog', hrounds', hscript'⟩ := Requests.start.play hwell .start hplay'
  rw [List.map_nil, List.append_nil] at hscript hscript'
  refine ⟨log, log', ⟨⟨_, hlog⟩, ⟨_, hlog'⟩, hscript, ?_⟩, hrounds, hrounds'⟩
  rw [hscript, hscript', ← List.filter_reverse]
  exact .filter channel _

/-- The number of messages that the channel gets in some rounds. -/
def heard (rounds : List Round) : Nat := (rounds.flatMap (Round.received · channel)).length

theorem heard_map (log : List (Cue × Round)) :
    heard (log.map Prod.snd) = (log.flatMap (·.2.received channel)).length := by
  rw [heard, List.flatMap_map]

/-- Whether the channel was given out before the last round but one. -/
def issued : List Round → Bool
  | _ :: r :: _ => decide (channel.connection < r.before.nextConnection) && r.before.connections.all fun e =>
      !decide (e.1 = channel.connection) || decide (channel.channel < e.2.nextChannel)
  | _ => false

theorem issued_of_issued {r r' : Round} {rounds : List Round} (h : issued (r' :: r :: rounds) = true) :
    r.before.Issued channel := by
  obtain ⟨hconnection, hchannels⟩ := Bool.and_eq_true_iff.mp h
  refine ⟨of_decide_eq_true hconnection, fun conn hconn => ?_⟩
  have hchannel := List.all_eq_true.mp hchannels _ hconn
  simpa using hchannel

end Requests.Sample

open Requests.Sample Apart.Sample in
/-- A channel gets its result and an update whether another connection listens and is dropped or not, and nothing once
it is closed. -/
theorem Requests.undisturbed_shared : ∃ log log', Pair admits Database.WellTyped shared log log' ∧
    Agrees channel log log' ∧ (log.flatMap (·.2.received channel)).length = 2 ∧
      ∃ e r earlier, log = e :: (.closeChannel channel, r) :: earlier ∧ r.before.Issued channel ∧
        r.received channel = [] ∧ e.2.received channel = [] := by
  have hplay : (playBoth admits (·.store.fits) shared).any (fun p =>
      decide (heard p.1.1 = 2) && issued p.1.1) = true := by
    decide +kernel
  obtain ⟨⟨⟨rounds, s⟩, rounds', s'⟩, hplay, htest⟩ := (Option.any_eq_true _ _).mp hplay
  obtain ⟨hheard, hissued⟩ := Bool.and_eq_true_iff.mp htest
  obtain ⟨log, log', pair, rfl, rfl⟩ := of_playBoth (fun _ => wellTyped_of_run) hplay
  obtain ⟨s, h⟩ := pair.first
  obtain ⟨s', h'⟩ := pair.second
  obtain ⟨hagrees, hdeaf⟩ := Requests.undisturbed h levels_of_admits channel
  obtain ⟨e, log₁, rfl, -, hscript⟩ := List.map_eq_cons_iff.mp pair.script
  obtain ⟨⟨c, r⟩, earlier, rfl, hc, -⟩ := List.map_eq_cons_iff.mp hscript
  obtain rfl : c = .closeChannel channel := hc
  have hissued := issued_of_issued hissued
  obtain ⟨hnone, hlater⟩ := hdeaf [e] _ r earlier rfl rfl hissued
  exact ⟨_, log', pair, hagrees log' s' h' pair.thins, heard_map _ ▸ of_decide_eq_true hheard, e, r, earlier, rfl,
    hissued, hnone, hlater e List.mem_cons_self⟩

open Requests.Sample Apart.Sample in
/-- With a row of another type than that of its table, a live query silences a channel on another connection. -/
theorem Requests.exists_silenced : ∃ log log', Pair (fun _ => true) (fun _ => True) silencing log log' ∧
    ¬Agrees channel log log' := by
  have hplay : (playBoth (fun _ => true) (fun _ => true) silencing).any (fun p =>
      decide (heard p.1.1 ≠ heard p.2.1)) = true := by
    decide +kernel
  obtain ⟨⟨⟨rounds, s⟩, rounds', s'⟩, hplay, htest⟩ := (Option.any_eq_true _ _).mp hplay
  obtain ⟨log, log', pair, rfl, rfl⟩ := of_playBoth (fun _ _ => trivial) hplay
  refine ⟨log, log', pair, fun hagrees => of_decide_eq_true htest ?_⟩
  rw [heard_map, heard_map]
  exact hagrees.perm.length_eq

end LiveQuery
