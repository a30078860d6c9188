import LiveQuery.Proofs.Live.Rounds
import LiveQuery.Proofs.Live.Scattered
import Mathlib.Data.List.Flatten

/-! # Listeners apart

As long as no row is stored under a key from which one was deleted, the listeners of a channel stay scattered over
its result (`Rounds.spaced`): what a round adds is for a row whose key no listener has been below. So no list has two
listeners with the same channel and the same path, and a write has one message at most for a channel and a path
(`Rounds.apart`). A row that is deleted and inserted again breaks both.
-/
namespace LiveQuery

/-- The channel of a listener and its place in the result. -/
def Listener.place (l : Listener) : Subscriber × Path := (l.subscriber, l.path)

/-- No list has two listeners with the same channel and the same path. -/
structure Audience.Apart (t : Audience) : Prop where
  whole : (t.whole.map Listener.place).Nodup
  values : ∀ c ∈ t.byValue, ∀ e ∈ c.2, (e.2.map Listener.place).Nodup
  rows : ∀ e ∈ t.byRow, (e.2.map Listener.place).Nodup

/-- The list of rows or the row in a result that a message changes. -/
def Message.site? : Message → Option (Bool × Path)
  | .tableUpdate _ path _ => some (false, path)
  | .recordUpdate _ path _ _ => some (true, path)
  | .result .. | .error .. => none

/-- The databases, the latest one first, have no row under a key from which one was deleted before. -/
def NoReturn : List Database → Prop
  | t :: s :: past => (∀ table key, t.store.Has table key → ¬s.store.Has table key →
      ∀ d ∈ past, ¬d.store.Has table key) ∧ NoReturn (s :: past)
  | [_] | [] => True

/-- Whether some of the databases have a row under a key. -/
def Known (ds : List Database) (table : String) (key : Literal) : Prop := ∃ d ∈ ds, d.store.Has table key

/-- The listeners of a channel are at sites of their own, among rows whose keys are known. -/
def Database.Spaced (known : String → Literal → Prop) (s : Database) (u : Subscriber) : Prop :=
  ∃ xs, Scattered known xs ∧ ∀ table, (s.held u table).Subperm (xs.filter (·.tableName = table))

theorem Subscription.isRecord_of_awaits {x : Subscription} {row : Value} (h : x.awaits row = true) :
    x.isRecord = false := by
  cases x with
  | table => rfl
  | record => cases h

theorem Subscription.isRecord_of_isOn {x : Subscription} {key : Bytes} (h : x.isOn key = true) :
    x.isRecord = true := by
  cases x with
  | table => cases h
  | record => rfl

/-! ## Lists of listeners -/

/-- A list has no duplicates if the part with each first component has none. -/
theorem nodup_of_parts {α β γ : Type} [DecidableEq β] {f : α → β} {g : α → γ} {xs : List α}
    (h : ∀ b, ((xs.filter fun x => f x = b).map g).Nodup) : (xs.map fun x => (f x, g x)).Nodup := by
  induction xs with
  | nil => exact List.nodup_nil
  | cons x xs ih =>
    refine List.nodup_cons.mpr ⟨fun hmem => ?_, ih fun b => ?_⟩
    · obtain ⟨y, hy, heq⟩ := List.mem_map.mp hmem
      obtain ⟨hf, hg⟩ := Prod.mk.inj heq
      have hx := h (f x)
      rw [List.filter_cons_of_pos (by simp), List.map_cons] at hx
      exact (List.nodup_cons.mp hx).1 (List.mem_map.mpr ⟨y, by simp [hy, hf], hg⟩)
    · exact ((List.sublist_cons_self x xs).filter _ |>.map g).nodup (h b)

theorem sublist_flatMap {α β : Type} (f : α → List β) {a : α} {xs : List α} (h : a ∈ xs) :
    (f a).Sublist (xs.flatMap f) := by
  rw [List.flatMap_def]
  exact List.sublist_flatten_of_mem (List.mem_map_of_mem h)

namespace Audience

variable {t : Audience} {name : String}

theorem apart_of_sites (h : ∀ u, (((t.subscriptions name).filter (·.listener.subscriber = u)).map
    Subscription.site).Nodup) : t.Apart := by
  have hall := nodup_of_parts h
  have hlist : ∀ (f : Listener → Subscription) (ls : List Listener) (b : Bool),
      (∀ l, (f l).listener = l ∧ (f l).isRecord = b) → (ls.map f).Sublist (t.subscriptions name) →
        (ls.map Listener.place).Nodup := by
    intro f ls b hf hsub
    have hsites := (hsub.map _).nodup hall
    rw [List.map_map] at hsites
    refine List.Nodup.of_map (fun p : Subscriber × Path => (p.1, b, p.2)) ?_
    rw [List.map_map]
    refine (List.map_congr_left fun l _ => ?_) ▸ hsites
    obtain ⟨hl, hb⟩ := hf l
    simp [Subscription.site, Subscription.path, Listener.place, hl, hb]
  refine ⟨?_, fun c hc e he => ?_, fun e he => ?_⟩
  · refine hlist (.table name none) t.whole false (fun l => ⟨rfl, rfl⟩) ?_
    rw [subscriptions, List.append_assoc]
    exact List.sublist_append_left _ _
  · refine hlist (.table name (some (c.1, e.1))) e.2 false (fun l => ⟨rfl, rfl⟩) ?_
    have hvalue := sublist_flatMap (fun e => e.2.map (Subscription.table name (some (c.1, e.1)))) he
    have hcolumn := sublist_flatMap (columnSubscriptions name) hc
    exact ((hvalue.trans hcolumn).trans (List.sublist_append_right _ _)).trans (List.sublist_append_left _ _)
  · refine hlist (.record name e.1) e.2 true (fun l => ⟨rfl, rfl⟩) ?_
    exact (sublist_flatMap (fun e => e.2.map (Subscription.record name e.1)) he).trans (List.sublist_append_right _ _)

end Audience

/-! ## Rounds -/

namespace Database.Spaced

variable {known known' : String → Literal → Prop} {s : Database} {u : Subscriber}

theorem mono (h : s.Spaced known u) (hk : ∀ table key, known table key → known' table key) : s.Spaced known' u := by
  obtain ⟨xs, hxs, hheld⟩ := h
  exact ⟨xs, hxs.mono hk, hheld⟩

/-- The listeners of a channel on one table are at sites of their own. -/
theorem sites (h : s.Spaced known u) (table : String) : ((s.held u table).map Subscription.site).Nodup := by
  obtain ⟨xs, hxs, hheld⟩ := h
  exact hxs.apart_of_subperm ((hheld table).trans List.filter_sublist.subperm)

end Database.Spaced

namespace Opening

variable {texts : String → Prop} {known : String → Literal → Prop} {s t w : Database} {u : Subscriber}
  {xs : List Subscription}

/-- The listeners of a channel that await a new row. -/
theorem awaiting (hxs : Scattered known xs)
    (hheld : ∀ table, (s.held u table).Subperm (xs.filter (·.tableName = table))) (table : String) (row : Value) :
    ((s.held u table).filter (Subscription.awaits row)).Subperm xs ∧
      ∀ z ∈ (s.held u table).filter (Subscription.awaits row), z.isRecord = false ∧ z.tableName = table ∧
        z.listener.subscriber = u ∧ ∃ q, z.listener.query = some q ∧ q.table = table ∧ q.levels ≤ Plan.maxPoints := by
  have hsub : ((s.held u table).filter (Subscription.awaits row)).Subperm xs :=
    List.filter_sublist.subperm.trans ((hheld table).trans List.filter_sublist.subperm)
  refine ⟨hsub, fun z hz => ?_⟩
  obtain ⟨hmem, hawaits⟩ := List.mem_filter.mp hz
  obtain ⟨hlisted, hu⟩ := List.mem_filter.mp hmem
  have hrecord := Subscription.isRecord_of_awaits hawaits
  have hname := Audience.tableName_of_mem hlisted
  obtain ⟨q, hq, htable, hlevels⟩ := hxs.queries z (hsub.subset hz) hrecord
  exact ⟨hrecord, hname, of_decide_eq_true hu, q, hq, htable.trans hname, hlevels⟩

/-- The queries that a round runs again for a channel are those of its listeners. -/
theorem calm_of_queries (hquiet : s.isQuiet = true) (hwired : s.Wired) (hw : Reachable w)
    (hrows : RowsTyped w.schema w.store) (h : Opening texts s t w)
    (hqueries : ∀ table, ∀ x ∈ s.held u table, x.isRecord = false → ∀ q ∈ x.listener.query, q.levels ≤ Plan.maxPoints) :
    w.Calm u := by
  refine ⟨h.settling, hw.wired, hw.inOrder, hrows, fun l k hmem hu q hq => ?_⟩
  cases h.calls hquiet hwired with
  | silent notices =>
    rw [notices] at hmem
    cases hmem
  | @inserted table key row new stored notices =>
    obtain ⟨x, hx, heq⟩ := List.mem_map.mp (notices.mem_iff.mp hmem)
    cases heq
    obtain ⟨hx, hawaits⟩ := List.mem_filter.mp hx
    exact hqueries table x (List.mem_filter.mpr ⟨hx, decide_eq_true hu⟩) (Subscription.isRecord_of_awaits hawaits) q hq
  | changed notices =>
    obtain ⟨x, -, heq⟩ := List.mem_map.mp (notices.mem_iff.mp hmem)
    cases heq

theorem calm (hquiet : s.isQuiet = true) (hwired : s.Wired) (hw : Reachable w) (hrows : RowsTyped w.schema w.store)
    (h : Opening texts s t w) (hs : s.Spaced known u) : w.Calm u := by
  obtain ⟨xs, hxs, hheld⟩ := hs
  refine h.calm_of_queries hquiet hwired hw hrows fun table x hx hrecord q hq => ?_
  obtain ⟨q', hq', -, hlevels⟩ := hxs.queries x (List.mem_of_mem_filter ((hheld table).subset hx)) hrecord
  rw [hq'] at hq
  cases hq
  exact hlevels

/-- The listeners that a channel will have after a round are at sites of their own, if the round stores no row under a
key that is known. -/
theorem spaced_prospect (hquiet : s.isQuiet = true) (hs : Reachable s) (hw : w.InOrder)
    (hrows : RowsTyped w.schema w.store) (hkeys : RowsKeyed w.schema w.store)
    (hlevels : ∀ text, texts text → ∀ q, Statement.read text = .ok (.select true q) → q.levels ≤ Plan.maxPoints)
    (hnew : ∀ table key, w.store.Has table key → ¬s.store.Has table key → ¬known table key)
    (h : Opening texts s t w) (hspaced : s.Spaced known u) :
    ∃ ys, Scattered (fun table key => known table key ∨ w.store.Has table key) ys ∧
      ∀ table, (w.prospect u table).Subperm (ys.filter (·.tableName = table)) := by
  obtain ⟨xs, hxs, hheld⟩ := hspaced
  have hxs' : Scattered (fun table key => known table key ∨ w.store.Has table key) xs := hxs.mono fun _ _ => .inl
  have hprospect := h.prospect hquiet u
  cases h.sends hquiet hs hw hrows hlevels u with
  | @query text q asked read held notices pending =>
    refine ⟨q.sent w.schema w.store { subscriber := u },
      (Query.sent_scattered hw.schema hw.store hkeys (hlevels text asked.sent q read) Path.root).mono fun _ _ => .inr,
      fun table => ?_⟩
    rw [hprospect, held, pending, notices, List.nil_append, List.flatMap_nil, List.append_nil]
  | nothing pending =>
    simp only [hprospect, pending, List.append_nil]
    cases h.calls hquiet hs.wired with
    | silent notices =>
      refine ⟨xs, hxs', fun table => ?_⟩
      rw [notices, List.flatMap_nil, List.append_nil]
      exact hheld table
    | @changed name key old new notices =>
      refine ⟨xs, hxs', fun table => ?_⟩
      have hnone := notices.flatMap_right (Notice.sent w.schema w.store u table)
      rw [sent_delivers] at hnone
      rw [List.perm_nil.mp hnone, List.append_nil]
      exact hheld table
    | @inserted name key row new stored notices =>
      obtain ⟨hsub, hzs⟩ := awaiting hxs hheld name row
      refine ⟨xs ++ ((s.held u name).filter (Subscription.awaits row)).flatMap fun z =>
        z.listener.sent w.schema w.store key, ?_, fun table => ?_⟩
      · refine hxs'.append_reruns key hsub (fun z hz => (hzs z hz).1) (fun z hz => ?_) fun z hz x hx hle => ?_
        · obtain ⟨-, hname, -, q, hq, htable, hlevel⟩ := hzs z hz
          obtain ⟨hscattered, hbelow⟩ := Listener.sent_scattered hw.schema hw.store hkeys hq hlevel key
          refine ⟨hscattered.mono fun _ _ => .inr, fun y hy => ?_⟩
          obtain ⟨hhas, hprefix⟩ := hbelow y hy
          exact ⟨.inr (by rw [hname, ← htable]; exact hhas), hprefix⟩
        · -- a listener below the new row would know its key
          obtain ⟨hrecord, hname, -⟩ := hzs z hz
          obtain ⟨k, hk, hknown⟩ := hxs.rows z (hsub.subset hz) x hx _ hrecord hle
          rw [hname, ← Literal.json_injective hk] at hknown
          refine hnew name key stored ?_ hknown
          rw [Store.Has, new]
          exact Bool.false_ne_true
      · have hsent := notices.flatMap_right (Notice.sent w.schema w.store u table)
        rw [sent_reruns, List.filter_comm] at hsent
        rw [List.filter_append]
        exact (hheld table).append hsent.subperm

/-- What a round hands over before its notices changes no part of a result. -/
theorem sites_incoming (h : Opening texts s t w) (u : Subscriber) : (w.incoming u).filterMap Message.site? = [] := by
  have hfinish : ∀ (o : Origin) (r : Except Fault Json),
      ((o.finish r).filterMap (Action.message? u)).filterMap Message.site? = [] := by
    intro o r
    refine List.filterMap_eq_nil_iff.mpr fun m hm => ?_
    obtain ⟨a, ha, hm⟩ := List.mem_filterMap.mp hm
    obtain rfl := Action.message?_eq_some.mp hm
    cases o with
    | caller ticket => cases r <;> cases List.mem_singleton.mp ha
    | channel v =>
      cases r with
      | ok data =>
        cases List.mem_singleton.mp ha
        rfl
      | error f =>
        rcases List.mem_cons.mp ha with heq | ha
        · cases heq
        · cases List.mem_singleton.mp ha
          rfl
  cases h with
  | @removes rest frame removal =>
    have hnone : rest.filterMap (Action.message? u) = [] := by
      refine List.filterMap_eq_nil_iff.mpr fun a ha => ?_
      rcases removal a ha with ⟨d, rfl⟩ | ⟨c, rfl⟩ <;> rfl
    rw [Database.incoming, Database.pending, frame, List.flatMap_singleton, Task.pending, hnone]
    rfl
  | ended | refused | kept | published =>
    rw [Database.incoming, Database.pending, List.flatMap_singleton]
    exact hfinish _ _
  | selected =>
    rw [Database.incoming, Database.pending, List.flatMap_singleton, Task.pending, List.filterMap_append,
      Database.incoming_of_posts]
    exact hfinish _ _

/-- The messages that are due to a channel in a round are about different parts of its result. -/
theorem sites_due (hquiet : s.isQuiet = true) (hwired : s.Wired) (hw : w.InOrder) (hkeys : RowsKeyed w.schema w.store)
    (h : Opening texts s t w) (hspaced : s.Spaced known u) : ((w.due u).filterMap Message.site?).Nodup := by
  rw [Database.due, List.filterMap_append, h.sites_incoming u, List.nil_append]
  cases h.calls hquiet hwired with
  | silent notices =>
    rw [notices]
    exact List.nodup_nil
  | @changed name key old new notices =>
    have hmessages := notices.flatMap_right (Notice.messages w.schema w.store u)
    rw [messages_delivers, List.filter_comm] at hmessages
    refine (hmessages.filterMap Message.site?).nodup_iff.mpr ?_
    have hsites : (((s.held u name).filter (Subscription.isOn key)).map
        fun x => x.listener.recordUpdate old new).filterMap Message.site? =
          ((s.held u name).filter (Subscription.isOn key)).map Subscription.site := by
      rw [List.filterMap_map, ← List.filterMap_eq_map]
      refine List.filterMap_congr fun x hx => ?_
      simp only [Function.comp_apply, Subscription.site, Subscription.isRecord_of_isOn (List.mem_filter.mp hx).2]
      rfl
    exact hsites ▸ (List.filter_sublist.map _).nodup (hspaced.sites name)
  | @inserted name key row new stored notices =>
    obtain ⟨xs, hxs, hheld⟩ := hspaced
    obtain ⟨hsub, hzs⟩ := awaiting hxs hheld name row
    have hmessages := notices.flatMap_right (Notice.messages w.schema w.store u)
    rw [messages_reruns, List.filter_comm] at hmessages
    refine (hmessages.filterMap Message.site?).nodup_iff.mpr ?_
    have hdistinct := hxs.apart_of_subperm hsub
    -- a query has one row at most for the key
    have hsites : ∀ z ∈ (s.held u name).filter (Subscription.awaits row),
        ((z.listener.messages w.schema w.store key).filterMap Message.site?).Sublist [z.site] := by
      intro z hz
      obtain ⟨hrecord, -, -, q, hq, -, hlevel⟩ := hzs z hz
      simp only [Listener.messages, hq]
      cases hrenewed : q.renewed w.schema w.store key with
      | error f => exact List.nil_sublist _
      | ok rows =>
        have hlength := (Query.renewed_sound hw.schema hw.store hkeys hlevel hrenewed).1
        rcases rows with _ | ⟨n, _ | ⟨m, rest⟩⟩
        · exact List.nil_sublist _
        · simp only [List.map_singleton, Listener.update, Subscription.site, hrecord]
          exact List.Sublist.refl _
        · exact absurd hlength (by simp)
    refine List.Sublist.nodup ?_ hdistinct
    rw [List.filterMap_flatMap, ← List.flatMap_singleton' (List.map _ _), List.flatMap_map]
    exact List.Sublist.flatMap_right _ hsites

end Opening

namespace Rounds

variable {texts : String → Prop} {past : List Database} {s : Database}

/-- After every round the listeners of every channel are at sites of their own, among rows that there are or were. -/
theorem spaced (h : Rounds texts Database.WellTyped past s)
    (hlevels : ∀ text, texts text → ∀ q, Statement.read text = .ok (.select true q) → q.levels ≤ Plan.maxPoints)
    (hnew : NoReturn (s :: past)) (u : Subscriber) : s.Spaced (Known (s :: past)) u := by
  induction h with
  | start => exact ⟨[], Scattered.nil, fun table => List.Subperm.refl _⟩
  | @round past s t v before asks test runs quiet ih =>
    obtain ⟨hnew, hpast⟩ := hnew
    have hspaced := ih hpast
    have hknown : ∀ table key, Known (s :: past) table key → Known (v :: s :: past) table key :=
      fun table key ⟨d, hd, hhas⟩ => ⟨d, List.mem_cons_of_mem _ hd, hhas⟩
    have hsteps := StepIn.steps runs
    have hrun : Run texts Database.WellTyped v := (before.run.move asks test).steps runs
    cases Database.standing before.quiet asks hsteps with
    | rest same store schema engine tasks =>
      obtain ⟨xs, hxs, hheld⟩ := hspaced.mono hknown
      refine ⟨xs, hxs, fun table => ?_⟩
      rw [Database.held, same, engine]
      exact hheld table
    | waiting engine connections tasks =>
      rw [(Database.idle_of_quiet quiet).1] at tasks
      cases tasks
    | @opened w opening hbefore hafter =>
      have hs := before.reachable
      have ht : Reachable t := hs.move (asks.mono fun _ _ => trivial)
      have hw : Reachable w := ht.steps hbefore
      -- from the opening on no row changes, so what is known of the rows at the end holds there already
      obtain ⟨hstore, hschema⟩ := opening.settling.run hafter
      have hrows : RowsTyped w.schema w.store := hstore ▸ hschema ▸ hrun.wellTyped.rows
      have hkeys : RowsKeyed w.schema w.store := hstore ▸ hschema ▸ hrun.fitting.rowsKeyed
      have hcalm := opening.calm before.quiet hs.wired hw hrows hspaced
      have hfresh : ∀ table key, w.store.Has table key → ¬s.store.Has table key → ¬Known (s :: past) table key := by
        rintro table key hhas hnot ⟨d, hd, hknows⟩
        rcases List.mem_cons.mp hd with rfl | hd
        · exact hnot hknows
        · exact hnew table key (hstore ▸ hhas) hnot d hd hknows
      obtain ⟨ys, hys, hprospect⟩ :=
        opening.spaced_prospect before.quiet hs hw.inOrder hrows hkeys hlevels hfresh hspaced
      refine ⟨ys, hys.mono fun table key => ?_, fun table => ?_⟩
      · rintro (hk | hk)
        · exact hknown table key hk
        · exact ⟨v, List.mem_cons_self, hstore ▸ hk⟩
      · obtain ⟨hcalm', -, -, hkeeps⟩ := hcalm.run_prospect hafter
        obtain ⟨gone, hperm, -⟩ := hkeeps table
        rw [Database.prospect_of_quiet hcalm'.wired quiet] at hperm
        exact ((List.sublist_append_right gone _).subperm.trans hperm.symm.subperm).trans (hprospect table)

/-- No list has two listeners with the same channel and path, and what a channel gets in a round has one message at
most for each list of rows and for each row of its result, as long as no row is stored under a key from which one was
deleted. -/
theorem apart (h : Rounds texts Database.WellTyped past s)
    (hlevels : ∀ text, texts text → ∀ q, Statement.read text = .ok (.select true q) → q.levels ≤ Plan.maxPoints)
    (hnew : NoReturn (s :: past)) : (∀ table, (s.engine.actor table).listeners.Apart) ∧
      ∀ o text t u, Asked texts s o text t → t.WellTyped → Relation.ReflTransGen (StepIn Database.WellTyped) t u →
        ∀ v : Subscriber, s.IsOpen v.connection →
          ∃ ms, u.received v = s.received v ++ ms ∧ (ms.filterMap Message.site?).Nodup := by
  have hspaced := h.spaced hlevels hnew
  refine ⟨fun table => Audience.apart_of_sites fun u => (hspaced u).sites table, ?_⟩
  intro o text t u asked test runs v hopen
  obtain ⟨hsame, hopen_iff⟩ := asked.received v
  have hsteps := StepIn.steps runs
  have hrun : Run texts Database.WellTyped u := (h.run.move asked.move test).steps runs
  cases Database.standing_of_asked h.quiet asked hsteps with
  | rest same store schema engine tasks =>
    rw [asked.frame] at tasks
    exact absurd tasks (by simp)
  | waiting engine connections tasks =>
    refine ⟨[], ?_, List.nodup_nil⟩
    rw [Database.received_congr connections, hsame, List.append_nil]
  | @opened w opening hbefore hafter =>
    have hw : Reachable w := (h.reachable.move (asked.move.mono fun _ _ => trivial)).steps hbefore
    obtain ⟨hstore, hschema⟩ := opening.settling.run hafter
    have hrows : RowsTyped w.schema w.store := hstore ▸ hschema ▸ hrun.wellTyped.rows
    have hkeys : RowsKeyed w.schema w.store := hstore ▸ hschema ▸ hrun.fitting.rowsKeyed
    have hcalm := opening.calm h.quiet h.reachable.wired hw hrows (hspaced v)
    obtain ⟨-, -, ms, hreceived, hdue⟩ := hcalm.settling.run_due hcalm.wired hcalm.foreseen
      ((Database.isOpen_congr opening.connections).mpr (hopen_iff.mpr hopen)) (opening.stays asked _) hafter
    refine ⟨ms, ?_, ?_⟩
    · rw [hreceived, Database.received_congr opening.connections, hsame]
    · have hsites := opening.sites_due h.quiet h.reachable.wired hw.inOrder hkeys (hspaced v)
      have hall := (hdue.filterMap Message.site?).nodup_iff.mp hsites
      rw [List.filterMap_append] at hall
      exact (List.nodup_append.mp hall).1

end Rounds

namespace Apart.Sample

/-- Whether a text inserts by an expression without type variables or asks for no more levels than can be numbered. -/
def admits (text : String) : Bool :=
  groundInsert text && match Statement.read text with
    | .ok (.select true q) => q.levels ≤ Plan.maxPoints
    | _ => true

theorem levels_of_admits (text : String) (h : admits text = true) (q : Query)
    (hq : Statement.read text = .ok (.select true q)) : q.levels ≤ Plan.maxPoints := by
  have hlevels := (Bool.and_eq_true_iff.mp h).2
  rw [hq] at hlevels
  exact of_decide_eq_true hlevels

theorem wellTyped_of_run {s : Database} (h : Run (admits · = true) (·.store.fits = true) s) : s.WellTyped :=
  .of_run (h.mono (fun _ hadmits => (Bool.and_eq_true_iff.mp hadmits).1) fun _ hfits => Store.fits_iff hfits)

/-- Whether no row is stored under a key from which one was deleted. -/
def noReturn : List Database → Bool
  | t :: s :: past => (t.store.buckets.all fun b => b.2.all fun e => (s.store.get? b.1 e.1).isSome ||
      past.all fun d => (d.store.get? b.1 e.1).isNone) && noReturn (s :: past)
  | [_] | [] => true

theorem noReturn_sound : (ds : List Database) → noReturn ds = true → NoReturn ds
  | [], _ | [_], _ => trivial
  | t :: s :: past, h => by
    obtain ⟨hkeys, hpast⟩ := Bool.and_eq_true_iff.mp h
    refine ⟨fun table key hhas hnot d hd hknows => ?_, noReturn_sound (s :: past) hpast⟩
    obtain ⟨bytes, hbytes⟩ := Option.isSome_iff_exists.mp hhas
    have hbucket : (table, t.store.entries table) ∈ t.store.buckets := by
      rw [Store.get?, Store.entries, Store.bucket?] at hbytes
      rw [Store.entries, Store.bucket?]
      cases hfind : Keyed.find? t.store.buckets table with
      | none => rw [hfind] at hbytes; cases hbytes
      | some b => exact Keyed.mem_of_find? hfind
    have hentry := List.all_eq_true.mp (List.all_eq_true.mp hkeys _ hbucket) _ (Keyed.mem_of_find? hbytes)
    rcases Bool.or_eq_true_iff.mp hentry with hsame | hnew
    · exact hnot hsame
    · rw [Store.Has, Option.isSome_iff_ne_none] at hknows
      exact hknows (Option.isNone_iff_eq_none.mp (List.all_eq_true.mp hnew d hd))

/-- A live query, and a row that it is told of. -/
def watched : List Cue :=
  [.call "CREATE TABLE t (id int PRIMARY KEY, n int)", .connect, .run 1 "LIVE MANY t {id}",
    .call "INSERT INTO t {id: 1, n: 1}"]

/-- Another row. -/
def second : List Cue := [.call "INSERT INTO t {id: 2, n: 1}", .takeMessages 1]

/-- The row is deleted, and another one is stored under its key. -/
def replaced : List Cue :=
  [.call "DELETE FROM t WHERE id = 1", .call "INSERT INTO t {id: 1, n: 2}", .takeMessages 1]

/-- A change of the row. -/
def change : String := "UPDATE t SET n = 3 WHERE id = 1"

/-- The channel of the live query. -/
def channel : Subscriber := ⟨1, 1⟩

/-- Plays rounds and then the change. -/
def playAndChange (script : List Cue) : Option ((List Database × Database) × Database) :=
  (Database.playRounds admits (·.store.fits) 60 script ([], {})).bind fun played =>
    if admits change && (played.2.call 0 change).store.fits then
      ((played.2.call 0 change).settleIn (·.store.fits) 60 60).map fun t => (played, t)
    else none

theorem of_playAndChange {script : List Cue} {past : List Database} {s t : Database} 
    (h : playAndChange script = some ((past, s), t)) :
    Rounds (admits · = true) Database.WellTyped past s ∧
      Asked (admits · = true) s (.caller 0) change (s.call 0 change) ∧ (s.call 0 change).WellTyped ∧
        Relation.ReflTransGen (StepIn Database.WellTyped) (s.call 0 change) t := by
  obtain ⟨⟨past', s'⟩, hplayed, h⟩ := Option.bind_eq_some_iff.mp h
  dsimp only at h
  split at h
  next hok =>
    obtain ⟨hadmits, hfits⟩ := Bool.and_eq_true_iff.mp hok
    obtain ⟨t', ht, heq⟩ := Option.map_eq_some_iff.mp h
    cases heq
    have hrounds : Rounds (admits · = true) (·.store.fits = true) past s := Rounds.start.play hplayed
    have hasked : Asked (admits · = true) s (.caller 0) change (s.call 0 change) := .call hadmits 0
    have hcalled := hrounds.run.move hasked.move hfits
    exact ⟨hrounds.strengthen fun _ => wellTyped_of_run, hasked, wellTyped_of_run hcalled,
      StepIn.strengthen (fun _ => wellTyped_of_run) hcalled (Database.steps_of_settleIn ht).1⟩
  next => cases h

/-- Whether there are two listeners of one channel on the row under 1. -/
def areTwins : List Listener → Bool
  | [⟨u, _, [.row (.num 1)]⟩, ⟨v, _, [.row (.num 1)]⟩] => decide (u = v)
  | _ => false

/-- Whether there are two messages about the row under 1. -/
def tellTwice : List Message → Bool
  | [.recordUpdate _ [.row (.num 1)] _ _, .recordUpdate _ [.row (.num 1)] _ _] => true
  | _ => false

theorem not_nodup_of_areTwins {ls : List Listener} (h : areTwins ls = true) : ¬(ls.map Listener.place).Nodup := by
  unfold areTwins at h
  split at h
  next => simp [Listener.place, of_decide_eq_true h]
  next => cases h

theorem not_nodup_of_tellTwice {ms : List Message} (h : tellTwice ms = true) :
    ¬(ms.filterMap Message.site?).Nodup := by
  unfold tellTwice at h
  split at h
  next => simp [Message.site?]
  next => cases h

end Apart.Sample

open Apart.Sample in
/-- A channel with listeners on a table and on two of its rows gets one message when one of the rows is changed. -/
theorem Rounds.apart_second : ∃ past s t, Rounds (admits · = true) Database.WellTyped past s ∧
    NoReturn (s :: past) ∧ s.engine.countListeners "t" = 3 ∧ (∀ table, (s.engine.actor table).listeners.Apart) ∧
      Asked (admits · = true) s (.caller 0) change (s.call 0 change) ∧
        Relation.ReflTransGen (StepIn Database.WellTyped) (s.call 0 change) t ∧
          ∃ ms, t.received channel = s.received channel ++ ms ∧ ms ≠ [] ∧ (ms.filterMap Message.site?).Nodup := by
  have hplay : (playAndChange (watched ++ second)).any (fun ((past, s), t) => noReturn (s :: past) &&
      (decide (s.engine.countListeners "t" = 3) && ((Keyed.find? s.connections 1).isSome &&
        ((s.received channel).isEmpty && !(t.received channel).isEmpty)))) = true := by
    decide +kernel
  obtain ⟨⟨⟨past, s⟩, t⟩, hst, htest⟩ := (Option.any_eq_true _ _).mp hplay
  simp only [Bool.and_eq_true, decide_eq_true_iff] at htest
  obtain ⟨hreturn, hcount, hopen, hbefore, hafter⟩ := htest
  obtain ⟨hrounds, hasked, htyped, hsteps⟩ := of_playAndChange hst
  have hnew := noReturn_sound _ hreturn
  obtain ⟨hapart, htold⟩ := Rounds.apart hrounds levels_of_admits hnew
  obtain ⟨ms, hms, hnodup⟩ := htold _ _ _ t hasked htyped hsteps channel hopen
  refine ⟨past, s, t, hrounds, hnew, hcount, hapart, hasked, hsteps, ms, hms, ?_, hnodup⟩
  rintro rfl
  rw [hms, List.append_nil, hbefore] at hafter
  cases hafter

open Apart.Sample in
/-- A row that is deleted and inserted again gets a second listener with the same channel and path, and a change of it
is told twice. -/
theorem Rounds.exists_together : ∃ past s t, Rounds (admits · = true) Database.WellTyped past s ∧
    ¬(s.engine.actor "t").listeners.Apart ∧ Asked (admits · = true) s (.caller 0) change (s.call 0 change) ∧
      Relation.ReflTransGen (StepIn Database.WellTyped) (s.call 0 change) t ∧
        ∃ ms, t.received channel = s.received channel ++ ms ∧ ¬(ms.filterMap Message.site?).Nodup := by
  have hplay : (playAndChange (watched ++ replaced)).any (fun ((_, s), t) =>
      ((s.engine.actor "t").listeners.byRow.any fun e => areTwins e.2) && ((s.received channel).isEmpty &&
        tellTwice (t.received channel))) = true := by
    decide +kernel
  obtain ⟨⟨⟨past, s⟩, t⟩, hst, htest⟩ := (Option.any_eq_true _ _).mp hplay
  simp only [Bool.and_eq_true] at htest
  obtain ⟨htwins, hbefore, htold⟩ := htest
  obtain ⟨hrounds, hasked, -, hsteps⟩ := of_playAndChange hst
  obtain ⟨e, he, htwins⟩ := List.any_eq_true.mp htwins
  refine ⟨past, s, t, hrounds, fun hapart => not_nodup_of_areTwins htwins (hapart.rows e he), hasked, hsteps,
    t.received channel, ?_, not_nodup_of_tellTwice htold⟩
  rw [List.isEmpty_iff.mp hbefore, List.nil_append]

end LiveQuery
