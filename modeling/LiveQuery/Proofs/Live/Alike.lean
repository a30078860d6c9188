import LiveQuery.Proofs.Database.Determined
import LiveQuery.Proofs.Live.Shares

/-! # States that look alike

Two databases at rest look alike to a channel if they have the same tables and rows, give out the same numbers next and
have the same listeners of the channel (`Database.Alike`). A statement, or a removal, brings the channel the same in
both, and they look alike after it (`Database.Alike.asked`, `Database.Alike.removing`). A removal of others is not
noticed at all (`Database.Removing.alike`).
-/
namespace LiveQuery

namespace Database

variable {texts : String → Prop} {s s' t t' v v' w : Database} {c : Nat} {u : Subscriber}

/-- The channel of the next statement on a connection, if it is open. -/
def nextChannel? (s : Database) (c : Nat) : Option Nat := (Keyed.find? s.connections c).map Connection.nextChannel

theorem isOpen_iff_nextChannel? : s.IsOpen c ↔ (s.nextChannel? c).isSome = true := by
  rw [IsOpen, nextChannel?, Option.isSome_map]

theorem nextChannel?_eq_none (h : ¬s.IsOpen c) : s.nextChannel? c = none := by
  rwa [isOpen_iff_nextChannel?, Bool.not_eq_true, Option.isSome_eq_false_iff, Option.isNone_iff_eq_none] at h

theorem nextChannel?_insert {k : Nat} {conn : Connection} (h : t.connections = Keyed.insert s.connections k conn) :
    t.nextChannel? c = if k = c then some conn.nextChannel else s.nextChannel? c := by
  rw [nextChannel?, h, Keyed.find?_insert]
  split <;> rfl

theorem Numbered.Keeps.steps (h : Relation.ReflTransGen Step s t) : Numbered.Keeps s t := by
  induction h with
  | refl => exact .of_eq rfl rfl
  | tail _ hstep ih => exact ih.trans (.step hstep)

theorem nextChannel?_of_steps (hs : Keyed.Ordered s.connections) (h : Relation.ReflTransGen Step s t)
    (hstays : s.IsOpen c → t.IsOpen c) : t.nextChannel? c = s.nextChannel? c := by
  by_cases hopen : t.IsOpen c
  · obtain ⟨conn, hconn⟩ := isOpen_iff_mem.mp hopen
    have hkeeps := Numbered.Keeps.steps h
    obtain ⟨conn', hconn', hnext⟩ := hkeeps.mem c conn hconn
    rw [nextChannel?, nextChannel?, (hkeeps.connections hs).find?_iff.mpr hconn, hs.find?_iff.mpr hconn',
      Option.map_some, Option.map_some, hnext]
  · have hclosed : ¬s.IsOpen c := fun h => hopen (hstays h)
    rw [nextChannel?_eq_none hopen, nextChannel?_eq_none hclosed]

/-- Two states at rest that a channel cannot tell apart: tables and rows, the numbers that are given out next, and the
listeners of the channel up to their order. -/
structure Alike (u : Subscriber) (s s' : Database) : Prop where
  store : s'.store = s.store
  schema : s'.schema = s.schema
  nextConnection : s'.nextConnection = s.nextConnection
  nextChannel : s'.nextChannel? u.connection = s.nextChannel? u.connection
  held : s.IsOpen u.connection → ∀ table, (s.held u table).Perm (s'.held u table)

namespace Alike

theorem refl (u : Subscriber) (s : Database) : Alike u s s := ⟨rfl, rfl, rfl, rfl, fun _ _ => .refl _⟩

theorem isOpen (h : Alike u s s') : s'.IsOpen u.connection ↔ s.IsOpen u.connection := by
  rw [isOpen_iff_nextChannel?, isOpen_iff_nextChannel?, h.nextChannel]

theorem symm (h : Alike u s s') : Alike u s' s :=
  ⟨h.store.symm, h.schema.symm, h.nextConnection.symm, h.nextChannel.symm,
    fun hopen table => (h.held (h.isOpen.mp hopen) table).symm⟩

theorem trans (h : Alike u s t) (h' : Alike u t v) : Alike u s v :=
  ⟨h'.store.trans h.store, h'.schema.trans h.schema, h'.nextConnection.trans h.nextConnection,
    h'.nextChannel.trans h.nextChannel,
    fun hopen table => (h.held hopen table).trans (h'.held (h.isOpen.mpr hopen) table)⟩

theorem called (h : Alike u s s') (hopen : s.IsOpen u.connection) (event : Option (String × Event)) :
    (s.called u event).Perm (s'.called u event) := by
  cases event with
  | none => exact .refl _
  | some e => exact Event.calls_perm (h.held hopen e.1)

end Alike

/-! ## Rounds with a removal -/

/-- A round in which some leave. -/
structure Removing (d : Leaving) (rest : List Action) (s t v : Database) : Prop where
  reachable : Reachable s
  quiet : s.isQuiet = true
  frame : t = { s with tasks := [.actions (.broadcast (.remove d) :: rest)] }
  hangs : ∀ a ∈ rest, ∃ c, a = .hangUp c
  after : Reachable t
  runs : Relation.ReflTransGen Step t v
  ended : v.isQuiet = true

theorem Removing.of_closeChannel {P : Database → Prop} {whom : Subscriber} (hs : Reachable s)
    (hquiet : s.isQuiet = true) (ends : Ends P (s.closeChannel whom) v) :
    Removing (.channel whom) [] s (s.closeChannel whom) v := by
  refine ⟨hs, hquiet, ?_, by simp, hs.move (.closeChannel s whom), StepIn.steps ends.runs, ends.quiet⟩
  rw [closeChannel, (idle_of_quiet hquiet).1]
  rfl

theorem Removing.of_disconnect {P : Database → Prop} (hs : Reachable s) (hquiet : s.isQuiet = true)
    (ends : Ends P (s.disconnect c) v) : Removing (.connection c) [.hangUp c] s (s.disconnect c) v := by
  refine ⟨hs, hquiet, ?_, by simp, hs.move (.disconnect s c), StepIn.steps ends.runs, ends.quiet⟩
  rw [disconnect, (idle_of_quiet hquiet).1]
  rfl

theorem Ends.eq_of_quiet (ends : Ends WellTyped t v) (hquiet : t.isQuiet = true) : v = t := by
  rcases Relation.ReflTransGen.cases_head (StepIn.steps ends.runs) with rfl | ⟨w, hstep, -⟩
  · rfl
  · obtain ⟨htasks, hidle⟩ := idle_of_quiet hquiet
    exact absurd hstep (not_step_of_quiet htasks hidle)

namespace Removing

variable {d : Leaving} {rest : List Action} (h : Removing d rest s t v)
include h

theorem removals : ∀ a ∈ Action.broadcast (.remove d) :: rest, (∃ d, a = .broadcast (.remove d)) ∨ ∃ c, a = .hangUp c :=
  List.forall_mem_cons.mpr ⟨.inl ⟨d, rfl⟩, fun a ha => .inr (h.hangs a ha)⟩

theorem opening : Opening (fun _ => False) s t t := .removes h.frame h.removals

theorem pending : t.pending = .broadcast (.remove d) :: rest := pending_of_tasks (by rw [h.frame])

theorem notices : t.notices = [] :=
  h.opening.notices_of_engine h.quiet h.reachable.wired (by rw [h.frame])

theorem changes : v.store = s.store ∧ v.schema = s.schema ∧ v.nextConnection = s.nextConnection := by
  obtain ⟨hstore, hschema⟩ := h.opening.settling.run h.runs
  exact ⟨by rw [hstore, h.frame], by rw [hschema, h.frame], by rw [(Numbered.Keeps.steps h.runs).next, h.frame]⟩

/-- Those that leave have no listeners any more, and all others have those that they had. -/
theorem held (u : Subscriber) (table : String) :
    v.held u table = (s.held u table).filter fun x => !d.covers x.listener := by
  have halone : t.Alone := ⟨h.opening.settling, h.notices, by rw [h.frame]; exact Nat.le_refl 1⟩
  have hnone : rest.flatMap (Action.posts table) = [] := by
    refine List.flatMap_eq_nil_iff.mpr fun a ha => ?_
    obtain ⟨c, rfl⟩ := h.hangs a ha
    rfl
  have hafter : (v.engine.actor table).listeners = (s.engine.actor table).listeners.remove d := by
    rw [halone.listeners_eq h.after.wired h.runs h.ended, hereafter, h.opening.audience h.quiet, h.pending,
      List.flatMap_cons, hnone]
    rfl
  rw [Database.held, hafter, Audience.subscriptions_remove, List.filter_comm]
  rfl

theorem received (hopen : s.IsOpen u.connection) (hstays : ∀ a ∈ rest, a.hangsUp u.connection = false) :
    v.IsOpen u.connection ∧ v.received u = s.received u := by
  obtain ⟨hreceived, hopen_iff⟩ := h.opening.received u
  have hforeseen : t.Foreseen u := foreseen_of_unconcerned fun l key hmem => by rw [h.notices] at hmem; cases hmem
  have hpending : ∀ a ∈ t.pending, a.hangsUp u.connection = false := by
    rw [h.pending]
    exact List.forall_mem_cons.mpr ⟨rfl, hstays⟩
  have hdue : t.due u = [] := by
    rw [due, h.notices, incoming, h.pending, List.filterMap_eq_nil_iff.mpr]
    · rfl
    · intro a ha
      rcases h.removals a ha with ⟨d, rfl⟩ | ⟨c, rfl⟩ <;> rfl
  obtain ⟨hopen', -, ms, hms, hperm⟩ :=
    h.opening.settling.run_due h.after.wired hforeseen (hopen_iff.mpr hopen) hpending h.runs
  rw [hdue] at hperm
  rw [hms, (List.append_eq_nil_iff.mp (List.nil_perm.mp hperm)).1, List.append_nil]
  exact ⟨hopen', hreceived⟩

theorem nextChannel? (hstays : ∀ a ∈ rest, a.hangsUp u.connection = false) :
    v.nextChannel? u.connection = s.nextChannel? u.connection := by
  have hsame : t.nextChannel? u.connection = s.nextChannel? u.connection := by rw [h.frame]; rfl
  rw [← hsame]
  refine nextChannel?_of_steps h.after.numbered.connections h.runs fun hopen => ?_
  exact (h.received ((h.opening.received u).2.mp hopen) hstays).1

theorem handed (u : Subscriber) : s.handed v u = [] := by
  by_cases hopen : v.IsOpen u.connection
  · refine handed_of_eq (h.received ((h.opening.received u).2.mp (isOpen_of_steps h.runs hopen)) fun a ha => ?_).2
    -- who is hung up is not open in the end
    have hmem : a ∈ t.pending := by rw [h.pending]; exact List.mem_cons_of_mem _ ha
    rw [Bool.eq_false_iff]
    exact fun hhangs => closed_of_hangsUp h.after (.inl ⟨a, hmem, hhangs⟩) h.runs h.ended hopen
  · exact handed_of_closed hopen

/-- A channel that does not leave cannot tell. -/
theorem alike (hcovers : d.covers ⟨u, none, []⟩ = false) (hstays : ∀ a ∈ rest, a.hangsUp u.connection = false) :
    Alike u s v := by
  obtain ⟨hstore, hschema, hnext⟩ := h.changes
  refine ⟨hstore, hschema, hnext, h.nextChannel? hstays, fun _ table => .of_eq ?_⟩
  rw [h.held, List.filter_eq_self.mpr]
  intro x hx
  rw [Leaving.covers_eq, of_decide_eq_true (List.mem_filter.mp hx).2, hcovers]
  rfl

theorem closed (hmem : .hangUp c ∈ rest) : ¬v.IsOpen c := by
  have hpending : .hangUp c ∈ t.pending := by rw [h.pending]; exact List.mem_cons_of_mem _ hmem
  exact closed_of_hangsUp h.after (.inl ⟨_, hpending, beq_self_eq_true c⟩) h.runs h.ended

theorem held_of_covers (hcovers : d.covers ⟨u, none, []⟩ = true) (table : String) : v.held u table = [] := by
  rw [h.held, List.filter_eq_nil_iff]
  intro x hx
  rw [Leaving.covers_eq, of_decide_eq_true (List.mem_filter.mp hx).2, hcovers]
  exact Bool.false_ne_true

end Removing

theorem Alike.removing {d : Leaving} {rest : List Action} (h : Alike u s s') (hround : Removing d rest s t v)
    (hround' : Removing d rest s' t' v') (hchannel : v'.nextChannel? u.connection = v.nextChannel? u.connection) :
    Alike u v v' ∧ (s.handed v u).Perm (s'.handed v' u) := by
  obtain ⟨hstore, hschema, hnext⟩ := hround.changes
  obtain ⟨hstore', hschema', hnext'⟩ := hround'.changes
  refine ⟨⟨by rw [hstore, hstore', h.store], by rw [hschema, hschema', h.schema],
    by rw [hnext, hnext', h.nextConnection], hchannel, fun hopen table => ?_⟩, by rw [hround.handed, hround'.handed]⟩
  rw [hround.held, hround'.held]
  exact (h.held ((hround.opening.received u).2.mp (isOpen_of_steps hround.runs hopen)) table).filter _

/-! ## Rounds with a statement -/

section Statements

variable {k : Nat} {o o' : Origin} {text : String} {x x' : Service}

theorem nextChannel?_of_run (h : s.run c text = some (k, t)) :
    s.nextChannel? c = some k ∧ ∀ c', t.nextChannel? c' = if c = c' then some (k + 1) else s.nextChannel? c' := by
  obtain ⟨conn, hconn, rfl, rfl⟩ := run_eq h
  refine ⟨by rw [nextChannel?, hconn]; rfl, fun c' => ?_⟩
  rw [nextChannel?, Keyed.find?_insert]
  split <;> rfl

theorem Answered.nextChannel? (h : Answered texts u s t v o text x) (hruns : Relation.ReflTransGen Step t v) :
    v.nextChannel? u.connection = t.nextChannel? u.connection ∧ v.nextConnection = s.nextConnection := by
  have ht : Reachable t := h.reachable.move (h.asked.move.mono fun _ _ => trivial)
  have hopen : t.IsOpen u.connection → v.IsOpen u.connection := fun hopen =>
    h.isOpen.mpr ((h.asked.received u).2.mp hopen)
  refine ⟨nextChannel?_of_steps ht.numbered.connections hruns hopen, ?_⟩
  rw [(Numbered.Keeps.steps hruns).next, h.asked.frame]

/-- A statement brings a channel the same in states that look alike, if it was sent on the same channel, or elsewhere
in both. -/
theorem Alike.answered (h : Alike u s s') (hx : Answered texts u s t v o text x)
    (hx' : Answered texts u s' t' v' o' text x')
    (ho : o' = o ∨ (o.subscriber? ≠ some u ∧ o'.subscriber? ≠ some u)) :
    (v.IsOpen u.connection → ∀ table, (v.held u table).Perm (v'.held u table)) ∧
      (s.handed v u).Perm (s'.handed v' u) ∧ x'.store = x.store ∧ x'.schema = x.schema := by
  have hstore : t'.store = t.store := by rw [hx.asked.store, hx'.asked.store, h.store]
  have hschema : t'.schema = t.schema := by rw [hx.asked.schema, hx'.asked.schema, h.schema]
  have serves' : t.Serves o' text x' := hx'.serves.congr hstore hschema
  obtain ⟨hsame, hsame', hevent⟩ := hx.serves.same_changes serves'
  rw [hx.isOpen]
  by_cases hopen : s.IsOpen u.connection
  swap
  · rw [handed_of_closed (mt hx.isOpen.mp hopen), handed_of_closed (mt hx'.isOpen.mp (mt h.isOpen.mp hopen))]
    exact ⟨fun hopen' => absurd hopen' hopen, .refl _, hsame, hsame'⟩
  by_cases hu : o.subscriber? = some u
  · obtain rfl : o' = o := ho.resolve_right fun helse => helse.1 hu
    obtain rfl : x' = x := hx.serves.unique serves'
    cases o' with
    | caller ticket => cases hu
    | channel u' =>
      cases hu
      obtain ⟨hhanded, hheld⟩ := hx.here
      obtain ⟨hhanded', hheld'⟩ := hx'.here
      refine ⟨fun _ table => (hheld table).trans (hheld' table).symm, ?_, rfl, rfl⟩
      rw [hhanded, hhanded']
  · have hu' : o'.subscriber? ≠ some u := by
      rcases ho with rfl | ⟨-, hu'⟩
      · exact hu
      · exact hu'
    obtain ⟨hheld, hhanded⟩ := hx.elsewhere hopen hu
    obtain ⟨hheld', hhanded'⟩ := hx'.elsewhere (h.isOpen.mpr hopen) hu'
    have hcalled := h.called hopen x.event
    rw [hsame, hsame', hevent] at hheld' hhanded'
    refine ⟨fun _ table => ?_, ?_, hsame, hsame'⟩
    · exact ((hheld table).trans ((h.held hopen table).append (hcalled.flatMap_right _))).trans (hheld' table).symm
    · exact (hhanded.trans (hcalled.flatMap_right _)).trans hhanded'.symm

theorem Alike.asked (h : Alike u s s') (hs : s.AtRest texts u) (hs' : s'.AtRest texts u)
    (asked : Asked texts s o text t) (asked' : Asked texts s' o' text t') (ends : Ends WellTyped t v)
    (ends' : Ends WellTyped t' v') (ho : o' = o ∨ (o.subscriber? ≠ some u ∧ o'.subscriber? ≠ some u))
    (hchannel : t'.nextChannel? u.connection = t.nextChannel? u.connection) :
    Alike u v v' ∧ (s.handed v u).Perm (s'.handed v' u) := by
  obtain ⟨x, hx⟩ := hs.answered asked ends
  obtain ⟨x', hx'⟩ := hs'.answered asked' ends'
  obtain ⟨hheld, hhanded, hstore, hschema⟩ := h.answered hx hx' ho
  obtain ⟨hkept, hnext⟩ := hx.nextChannel? (StepIn.steps ends.runs)
  obtain ⟨hkept', hnext'⟩ := hx'.nextChannel? (StepIn.steps ends'.runs)
  exact ⟨⟨by rw [hx'.store, hstore, hx.store], by rw [hx'.schema, hschema, hx.schema],
    by rw [hnext', h.nextConnection, hnext], by rw [hkept', hchannel, hkept], hheld⟩, hhanded⟩

end Statements

end Database

end LiveQuery
