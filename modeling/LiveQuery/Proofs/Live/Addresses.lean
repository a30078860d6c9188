import LiveQuery.Proofs.Live.History
import LiveQuery.Proofs.Live.Visible

/-! # Addresses of updates

A RecordUpdate says with a path which row of a result has changed. It is sent to the listeners on the row, so the
path is that of a row for which the channel subscribed in an earlier round: in its live query, or when a query of
the channel was run again for a new row. Such a row was shown to the channel in that round (`Round.Shows`), with one
exception: a live query for one row subscribes for all rows that it reads and shows the first one
(`Round.LeavesOut`). So a channel is told of changes of rows that it got earlier and of those that its query left
out (`History.addressed`), and it does get updates for rows of the latter kind (`History.exists_unseen`).
-/
namespace LiveQuery

/-- In a round a channel gets data with the row at `p` in it: the result of its live query, or a TableUpdate with a row
that was stored in the round. -/
inductive Round.Shows (r : Round) (u : Subscriber) (p : Path) : Prop
  | result {text : String} {q : Query} {data : Json} (asked : r.asked = some (.channel u, text))
      (read : Statement.read text = .ok (.select true q)) (answer : q.result r.after.schema r.after.store = .ok data)
      (received : .result u.channel data ∈ r.received u)
      (visible : p ∈ nodesVisible q.cardinality Path.root (q.nodes r.after.schema r.after.store none))
  | update {q : Query} {place : Path} {x : Subscription} {n : Node} (listens : x ∈ r.before.held u q.table)
      (listener : x.listener = ⟨u, some q, place⟩) (row : n ∈ q.nodes r.after.schema r.after.store none)
      (new : ¬r.before.store.Has q.table n.key ∧ r.after.store.Has q.table n.key)
      (received : .tableUpdate u.channel place n.json ∈ r.received u) (visible : p ∈ n.visible place)

/-- In a round a live query for one row reads the row at `p` and does not show it, as it is not, nor is it in, the first
one. -/
def Round.LeavesOut (r : Round) (u : Subscriber) (p : Path) : Prop :=
  ∃ text q, r.asked = some (.channel u, text) ∧ Statement.read text = .ok (.select true q) ∧ q.cardinality = .one ∧
    p ∈ nodesVisible .many Path.root ((q.nodes r.after.schema r.after.store none).drop 1)

/-- In some round a channel was shown the row at `p`, or its query left the row out. -/
def Addressed (log : List Round) (u : Subscriber) (p : Path) : Prop := ∃ r ∈ log, r.Shows u p ∨ r.LeavesOut u p

/-- The listeners of a channel are on rows that it was shown or that its query left out, and on tables, for queries
whose levels can be numbered. -/
structure Database.Accounted (log : List Round) (s : Database) (u : Subscriber) : Prop where
  rows : ∀ table, ∀ x ∈ s.held u table, x.isRecord = true → Addressed log u x.path
  queries : ∀ table, ∀ x ∈ s.held u table, x.isRecord = false →
    ∃ q, x.listener.query = some q ∧ q.table = table ∧ q.levels ≤ Plan.maxPoints

theorem Addressed.cons {log : List Round} {u : Subscriber} {p : Path} (h : Addressed log u p) (r : Round) :
    Addressed (r :: log) u p := by
  obtain ⟨r', hr', h⟩ := h
  exact ⟨r', List.mem_cons_of_mem _ hr', h⟩

/-! ## Rows that a channel comes to listen on -/

section Rows

variable {schema : Schema} {store : Store} {u : Subscriber}

/-- The rows of a query for one key are rows of the query. -/
theorem Query.mem_nodes_of_restrict {q : Query} {column : String} {value : Literal} {n : Node}
    (hn : n ∈ (q.restrict column value).nodes schema store none) : n ∈ q.nodes schema store none := by
  cases ht : Keyed.find? schema q.table with
  | none =>
    rw [Query.nodes_of_unknown (q := q.restrict column value) ht] at hn
    cases hn
  | some t =>
    rw [Query.nodes_eq (q := q.restrict column value) ht] at hn
    rw [Query.nodes_eq ht]
    obtain ⟨r, hr, rfl⟩ := List.mem_map.mp hn
    obtain ⟨hr, hmeets⟩ := List.mem_filter.mp hr
    refine List.mem_map_of_mem (List.mem_filter.mpr ⟨hr, ?_⟩)
    rw [Query.restrict, Query.filters_mk, List.append_assoc, List.all_append, Bool.and_eq_true] at hmeets
    rw [Option.toList_none, List.append_nil]
    exact hmeets.1

/-- A row for which a live query subscribes is visible in what the query shows, or it is left out of it. -/
theorem Query.visible_of_sent (hs : schema.Valid) (hstore : store.Ordered) (hkeys : RowsKeyed schema store) {q : Query}
    (hlevels : q.levels ≤ Plan.maxPoints) (hq : q.Planned schema) {x : Subscription}
    (hx : x ∈ q.sent schema store { subscriber := u }) (hrecord : x.isRecord = true) :
    (∃ data, q.result schema store = .ok data ∧
      x.path ∈ nodesVisible q.cardinality Path.root (q.nodes schema store none)) ∨
    (q.cardinality = .one ∧ x.path ∈ nodesVisible .many Path.root ((q.nodes schema store none).drop 1)) := by
  rcases List.mem_append.mp hx with hx | hx
  · cases List.mem_singleton.mp hx
    cases hrecord
  · obtain ⟨n, hn, hx⟩ := List.mem_flatMap.mp hx
    have hpath := Query.path_visible hs hstore hkeys hlevels hq hn hx hrecord
    unfold Query.result
    cases hone : q.cardinality with
    | many => exact .inl ⟨_, rfl, nodesVisible_many _ _ ▸ List.mem_flatMap.mpr ⟨n, hn, hpath⟩⟩
    | one =>
      cases hrows : q.nodes schema store none with
      | nil => rw [hrows] at hn; cases hn
      | cons first rest =>
        rcases List.mem_cons.mp (hrows ▸ hn) with rfl | hn
        · exact .inl ⟨_, rfl, List.mem_append_left _ hpath⟩
        · exact .inr ⟨rfl, nodesVisible_many _ _ ▸ List.mem_flatMap.mpr ⟨n, hn, hpath⟩⟩

/-- A row for which a listener's query subscribes when it is run again is in a row that the listener is told of. -/
theorem Listener.visible_of_sent (hs : schema.Valid) (hstore : store.Ordered) (hkeys : RowsKeyed schema store)
    {l : Listener} {q : Query} (hq : l.query = some q) (hlevels : q.levels ≤ Plan.maxPoints) {key : Literal}
    {x : Subscription} (hx : x ∈ l.sent schema store key) (hrecord : x.isRecord = true) :
    ∃ n ∈ q.nodes schema store none, n.key = key ∧ l.update n ∈ l.messages schema store key ∧
      x.path ∈ n.visible l.path := by
  simp only [Listener.sent, Listener.messages, hq] at hx ⊢
  cases hrenewed : q.renewed schema store key with
  | error f => rw [hrenewed] at hx; cases hx
  | ok rows =>
    rw [hrenewed] at hx
    obtain ⟨n, hn, hbelow⟩ := List.mem_flatMap.mp hx
    have hkey := (Query.renewed_sound hs hstore hkeys hlevels hrenewed).2.1 n hn
    obtain ⟨t, plan, -, hplan, rfl⟩ := Query.renewed_ok hrenewed
    have hplanned := (Plan.live_ok_iff hs).mp ⟨plan, hplan⟩
    exact ⟨n, Query.mem_nodes_of_restrict hn, hkey, List.mem_map_of_mem hn,
      Query.path_visible hs hstore hkeys (by rwa [Query.levels_restrict]) hplanned hn hbelow hrecord⟩

/-- A listener whose query is run again is told of rows or of a failure. -/
theorem Listener.not_recordUpdate_of_mem {l : Listener} {key : Literal} {c : Nat} {p : Path} {old new : Json} :
    .recordUpdate c p old new ∉ l.messages schema store key := by
  intro hm
  unfold Listener.messages at hm
  split at hm
  next => cases hm
  next =>
    split at hm
    next =>
      obtain ⟨n, -, hn⟩ := List.mem_map.mp hm
      cases hn
    next => cases List.mem_singleton.mp hm

end Rows

/-! ## Rounds -/

/-- How a channel comes by a listener in a round: it has it, its live query subscribes for it, or one of its listeners
runs its query again for a row that is stored in the round. -/
inductive Opening.Joins (texts : String → Prop) (s t w v : Database) (u : Subscriber) (table : String)
    (x : Subscription) : Prop
  | held (held : x ∈ s.held u table)
  | query {text : String} {q : Query} (asked : Asked texts s (.channel u) text t)
      (read : Statement.read text = .ok (.select true q)) (levels : q.levels ≤ Plan.maxPoints)
      (planned : q.Planned w.schema) (sent : x ∈ q.sent w.schema w.store { subscriber := u })
      (name : x.tableName = table) (reply : v.received u = [u.reply (q.result w.schema w.store)])
  | rerun {q : Query} {z : Subscription} {key : Literal} (listens : z ∈ s.held u q.table)
      (listener : z.listener = ⟨u, some q, z.path⟩) (levels : q.levels ≤ Plan.maxPoints)
      (new : ¬s.store.Has q.table key ∧ w.store.Has q.table key) (sent : x ∈ z.listener.sent w.schema w.store key)
      (name : x.tableName = table) (told : z.listener.messages w.schema w.store key ⊆ w.due u)

section Rounds

variable {texts : String → Prop} {log : List Round} {s t v w : Database} {u : Subscriber} {table : String}
  {x : Subscription} {what : Option (Origin × String)}

namespace Database.Accounted

/-- What awaits a row on a channel is a listener of a query. -/
theorem query_of_awaits (hacc : s.Accounted log u) {row : Value}
    (hx : x ∈ (s.held u table).filter (Subscription.awaits row)) :
    x ∈ s.held u table ∧ ∃ q, x.listener = ⟨u, some q, x.path⟩ ∧ q.table = table ∧ q.levels ≤ Plan.maxPoints := by
  obtain ⟨hheld, hawaits⟩ := List.mem_filter.mp hx
  obtain ⟨q, hq, htable, hlevels⟩ := hacc.queries table x hheld (Subscription.isRecord_of_awaits hawaits)
  have hu : x.listener.subscriber = u := of_decide_eq_true (List.mem_filter.mp hheld).2
  exact ⟨hheld, q, by rw [← hu, ← hq]; rfl, htable, hlevels⟩

theorem calm (hacc : s.Accounted log u) (hquiet : s.isQuiet = true) (hs : Reachable s) (h : Opened texts s t w v) :
    w.Calm u := by
  refine h.opening.calm_of_queries hquiet hs.wired h.reachable h.rows fun table x hx hrecord q hq => ?_
  obtain ⟨q', hq', -, hlevels⟩ := hacc.queries table x hx hrecord
  rw [hq'] at hq
  cases hq
  exact hlevels

/-- The listeners that a channel will have after a round. -/
theorem joins (hacc : s.Accounted log u) (hquiet : s.isQuiet = true) (hs : Reachable s) (h : Opened texts s t w v)
    (hlevels : ∀ text, texts text → ∀ q, Statement.read text = .ok (.select true q) → q.levels ≤ Plan.maxPoints)
    (hquiet' : v.isQuiet = true) (hx : x ∈ w.prospect u table) : Opening.Joins texts s t w v u table x := by
  rw [h.opening.prospect hquiet u table] at hx
  rcases List.mem_append.mp hx with hx | hx
  · rcases List.mem_append.mp hx with hx | hx
    · exact .held hx
    · cases h.opening.sends hquiet hs h.reachable.inOrder h.rows hlevels u with
      | nothing pending =>
        rw [pending] at hx
        cases hx
      | query asked read held notices pending =>
        obtain ⟨hsent, hname⟩ := List.mem_filter.mp (pending table ▸ hx)
        have hlevel := hlevels _ asked.sent _ read
        rcases h.queried hs hquiet asked read hlevel hquiet' with ⟨f, hpending, -⟩ | ⟨hplanned, -, hreply⟩
        · -- a query that has no plan subscribes for nothing
          rw [hpending, Opening.subscriptions_finish] at hx
          cases hx
        · exact .query asked read hlevel hplanned hsent (of_decide_eq_true hname) hreply
  · cases h.opening.calls hquiet hs.wired with
    | silent notices =>
      rw [notices] at hx
      cases hx
    | @changed name key old new notices =>
      have hx := (notices.flatMap_right (Notice.sent w.schema w.store u table)).mem_iff.mp hx
      rw [sent_delivers] at hx
      cases hx
    | @inserted name key row new stored notices =>
      have hx := (notices.flatMap_right (Notice.sent w.schema w.store u table)).mem_iff.mp hx
      rw [sent_reruns, List.filter_comm] at hx
      obtain ⟨hx, hname⟩ := List.mem_filter.mp hx
      obtain ⟨z, hz, hsent⟩ := List.mem_flatMap.mp hx
      obtain ⟨hheld, q, hlistener, rfl, hlevel⟩ := hacc.query_of_awaits hz
      refine .rerun hheld hlistener hlevel ⟨?_, stored⟩ hsent (of_decide_eq_true hname) fun m hm => ?_
      · rw [Store.Has, new]
        exact Bool.false_ne_true
      · refine List.mem_append_right _ ((notices.flatMap_right (Notice.messages w.schema w.store u)).mem_iff.mpr ?_)
        rw [messages_reruns, List.filter_comm]
        exact List.mem_flatMap.mpr ⟨z, hz, hm⟩

/-- A RecordUpdate is due to a channel for a row that it listens on. -/
theorem recordUpdate_of_due (hacc : s.Accounted log u) (hquiet : s.isQuiet = true) (hs : Reachable s)
    (h : Opening texts s t w) {c : Nat} {p : Path} {old new : Json} (hm : .recordUpdate c p old new ∈ w.due u) :
    Addressed log u p := by
  rcases List.mem_append.mp hm with hm | hm
  · -- what is handed over before the notices is a result or an error
    have hsite : (true, p) ∈ (w.incoming u).filterMap Message.site? := List.mem_filterMap.mpr ⟨_, hm, rfl⟩
    rw [h.sites_incoming u] at hsite
    cases hsite
  · cases h.calls hquiet hs.wired with
    | silent notices =>
      rw [notices] at hm
      cases hm
    | @inserted name key row new stored notices =>
      have hm := (notices.flatMap_right (Notice.messages w.schema w.store u)).mem_iff.mp hm
      rw [messages_reruns] at hm
      obtain ⟨z, -, hm⟩ := List.mem_flatMap.mp hm
      exact absurd hm Listener.not_recordUpdate_of_mem
    | @changed name key old' new' notices =>
      have hm := (notices.flatMap_right (Notice.messages w.schema w.store u)).mem_iff.mp hm
      rw [messages_delivers, List.filter_comm] at hm
      obtain ⟨z, hz, heq⟩ := List.mem_map.mp hm
      cases heq
      obtain ⟨hheld, hon⟩ := List.mem_filter.mp hz
      exact hacc.rows name z hheld (Subscription.isRecord_of_isOn hon)

end Database.Accounted

namespace Opening.Joins

/-- A row that a channel comes to listen on was addressed before, or it is so in the round. -/
theorem row_addressed (hjoins : Opening.Joins texts s t w v u table x) (hacc : s.Accounted log u) (hs : Reachable s)
    (h : Database.Opened texts s t w v) (hwhat : ∀ o text, Asked texts s o text t → what = some (o, text))
    (hreceived : ∃ ms, v.received u = s.received u ++ ms ∧ ms.Perm (w.due u)) (hrecord : x.isRecord = true) :
    Addressed (⟨s, what, v⟩ :: log) u x.path := by
  obtain ⟨ms, hms, hdue⟩ := hreceived
  have hgot : (⟨s, what, v⟩ : Round).received u = ms := by
    rw [Round.received, hms, List.drop_left]
  have hw := h.reachable.inOrder
  cases hjoins with
  | held held => exact (hacc.rows table x held hrecord).cons _
  | @query text q asked read levels planned sent name reply =>
    refine ⟨_, List.mem_cons_self, ?_⟩
    rcases Query.visible_of_sent hw.schema hw.store h.keys levels planned sent hrecord with
      ⟨data, hdata, hvisible⟩ | ⟨hone, hleft⟩
    · have hnone : s.received u = [] := (asked.fresh hs).2.received_eq
      rw [reply, hdata, hnone, List.nil_append] at hms
      rw [← h.schema, ← h.store] at hdata hvisible
      refine .inl (.result (hwhat _ _ asked) read hdata ?_ hvisible)
      rw [hgot, ← hms]
      exact List.mem_singleton_self _
    · rw [← h.schema, ← h.store] at hleft
      exact .inr ⟨text, q, hwhat _ _ asked, read, hone, hleft⟩
  | @rerun q z key listens listener levels new sent name told =>
    obtain ⟨n, hn, rfl, hmessage, hvisible⟩ :=
      Listener.visible_of_sent hw.schema hw.store h.keys (by rw [listener]) levels sent hrecord
    have hupdate : z.listener.update n = .tableUpdate u.channel z.path n.json := by rw [Listener.update, listener]
    rw [← h.schema, ← h.store] at hn
    rw [← h.store] at new
    refine ⟨_, List.mem_cons_self, .inl (.update listens listener hn new ?_ hvisible)⟩
    rw [hgot, ← hupdate]
    exact hdue.mem_iff.mpr (told hmessage)

/-- A list that a channel comes to listen on is that of a query whose levels can be numbered. -/
theorem query_of_table (hjoins : Opening.Joins texts s t w v u table x) (hacc : s.Accounted log u)
    (h : Database.Opened texts s t w v) (hrecord : x.isRecord = false) :
    ∃ q, x.listener.query = some q ∧ q.table = table ∧ q.levels ≤ Plan.maxPoints := by
  have hw := h.reachable.inOrder
  cases hjoins with
  | held held => exact hacc.queries table x held hrecord
  | @query text q asked read levels planned sent name reply =>
    have hscattered := Query.sent_scattered (u := u) hw.schema hw.store h.keys levels Path.root
    exact name ▸ hscattered.queries x sent hrecord
  | @rerun q z key listens listener levels new sent name told =>
    have hscattered := Listener.sent_scattered (l := z.listener) hw.schema hw.store h.keys (by rw [listener]) levels key
    exact name ▸ hscattered.1.queries x sent hrecord

end Opening.Joins

theorem Database.Accounted.cons {r : Round} (hacc : s.Accounted log u)
    (heq : ∀ table, v.held u table = s.held u table) :
    v.Accounted (r :: log) u :=
  ⟨fun table x hx hrecord => (hacc.rows table x (heq table ▸ hx) hrecord).cons r,
    fun table x hx => hacc.queries table x (heq table ▸ hx)⟩

/-- A round keeps that the listeners of a channel are accounted for, and the RecordUpdates that the channel gets in it
are about rows that were addressed before. -/
theorem Database.Accounted.round {texts' : String → Prop} (hs : Reachable s) (hquiet : s.isQuiet = true)
    (hmove : Move texts s t) (hruns : Relation.ReflTransGen Step t v) (hv : Run texts' Database.WellTyped v)
    (hlevels : ∀ text, texts text → ∀ q, Statement.read text = .ok (.select true q) → q.levels ≤ Plan.maxPoints)
    (hwhat : ∀ o text, Asked texts s o text t → what = some (o, text)) (hquiet' : v.isQuiet = true)
    (hopen : v.IsOpen u.connection) (hacc : s.IsOpen u.connection → s.Accounted log u) :
    v.Accounted (⟨s, what, v⟩ :: log) u ∧
      ∀ c p old new, .recordUpdate c p old new ∈ (⟨s, what, v⟩ : Round).received u → Addressed log u p := by
  have ht : Reachable t := hs.move (hmove.mono fun _ _ => trivial)
  rcases Database.opened_of_move ht hv hquiet hmove hruns hquiet' with ⟨rfl, hengine, htasks⟩ | ⟨w, h⟩
  · obtain ⟨hopens, hnone⟩ := hmove.at_once hs hquiet htasks u
    have hheld : ∀ table, v.held u table = s.held u table := fun table => by rw [held, hengine]; rfl
    refine ⟨?_, fun c p old new hm => ?_⟩
    · rcases hopens hopen with hopen | hempty
      · exact (hacc hopen).cons hheld
      · refine ⟨fun table x hx => ?_, fun table x hx => ?_⟩ <;> rw [hheld, hempty] at hx <;> cases hx
    · rw [Round.received, hnone] at hm
      cases hm
  · have hacc := hacc (h.isOpen hopen)
    obtain ⟨hheld, hreceived⟩ := h.settled (hacc.calm hquiet hs h) hquiet' hopen
    have hjoins : ∀ table, ∀ x ∈ v.held u table, Opening.Joins texts s t w v u table x := fun table x hx =>
      hacc.joins hquiet hs h hlevels hquiet' (hheld table hx)
    refine ⟨⟨fun table x hx => (hjoins table x hx).row_addressed hacc hs h hwhat hreceived,
      fun table x hx => (hjoins table x hx).query_of_table hacc h⟩, fun c p old new hm => ?_⟩
    obtain ⟨ms, hms, hdue⟩ := hreceived
    rw [Round.received, hms, List.drop_left] at hm
    exact hacc.recordUpdate_of_due hquiet hs h.opening (hdue.mem_iff.mp hm)

end Rounds

/-! ## Histories -/

namespace History

variable {texts : String → Prop} {log : List Round} {s : Database}

/-- What a channel is told of in each round was addressed in the rounds before it. -/
def Told (log : List Round) (u : Subscriber) : Prop :=
  ∀ later r earlier, log = later ++ r :: earlier → ∀ c p old new, .recordUpdate c p old new ∈ r.received u →
    Addressed earlier u p

theorem Told.cons {u : Subscriber} {r : Round} (h : Told log u)
    (hr : ∀ c p old new, .recordUpdate c p old new ∈ r.received u → Addressed log u p) : Told (r :: log) u := by
  intro later r' earlier heq
  cases later with
  | nil =>
    cases heq
    exact hr
  | cons r'' later =>
    cases heq
    exact h later r' earlier rfl

/-- In a history the listeners of a channel whose connection is open are accounted for, and what the channel is told of
was addressed before. -/
theorem accounted (h : History texts log s)
    (hlevels : ∀ text, texts text → ∀ q, Statement.read text = .ok (.select true q) → q.levels ≤ Plan.maxPoints)
    (u : Subscriber) : (s.IsOpen u.connection → s.Accounted log u) ∧ Told log u := by
  have hround : ∀ {log : List Round} {s v : Database} {what : Option (Origin × String)}, Told log u →
      (v.IsOpen u.connection → v.Accounted (⟨s, what, v⟩ :: log) u ∧
        ∀ c p old new, .recordUpdate c p old new ∈ (⟨s, what, v⟩ : Round).received u → Addressed log u p) →
      (v.IsOpen u.connection → v.Accounted (⟨s, what, v⟩ :: log) u) ∧ Told (⟨s, what, v⟩ :: log) u := by
    intro log s v what htold hkeeps
    refine ⟨fun hopen => (hkeeps hopen).1, htold.cons fun c p old new hm => ?_⟩
    by_cases hopen : v.IsOpen u.connection
    · exact (hkeeps hopen).2 c p old new hm
    · rw [Round.received, Database.received_of_closed hopen, List.drop_nil] at hm
      cases hm
  induction h with
  | start =>
    refine ⟨fun hopen => absurd hopen Bool.false_ne_true, fun later r earlier heq => ?_⟩
    exact absurd heq.symm (by simp)
  | @statement log s t v o text before asked test runs quiet ih =>
    refine hround ih.2 fun hopen => Database.Accounted.round (.of_run before.run) before.quiet asked.move
      (StepIn.steps runs) (before.statement asked test runs quiet).run hlevels (fun o' text' asked' => ?_) quiet
      hopen ih.1
    obtain ⟨rfl, rfl⟩ := asked.unique asked'
    rfl
  | @other log s t v before moves test runs quiet ih =>
    exact hround ih.2 fun hopen => Database.Accounted.round (.of_run before.run) before.quiet moves (StepIn.steps runs)
      (before.other moves test runs quiet).run (fun _ hf => hf.elim) (fun _ _ asked' => asked'.sent.elim) quiet
      hopen ih.1

/-- Every RecordUpdate that a channel gets is about a row that the channel was shown in an earlier round, in its result
or in a TableUpdate, or that its query for one row left out. -/
theorem addressed (h : History texts log s)
    (hlevels : ∀ text, texts text → ∀ q, Statement.read text = .ok (.select true q) → q.levels ≤ Plan.maxPoints)
    {later earlier : List Round} {r : Round} (hr : log = later ++ r :: earlier) {u : Subscriber} {c : Nat} {p : Path}
    {old new : Json} (hm : .recordUpdate c p old new ∈ r.received u) :
    ∃ r' ∈ earlier, r'.Shows u p ∨ r'.LeavesOut u p :=
  (h.accounted hlevels u).2 later r earlier hr c p old new hm

end History

namespace Addresses.Sample

open Apart.Sample (admits channel wellTyped_of_run)

/-- One person is watched with those who report to them, and one of these gets another boss. -/
def reporting : List Cue :=
  [.call "CREATE TABLE people (id int PRIMARY KEY, boss int REFERENCES people)",
    .call "INSERT INTO people \x7bid: 1, boss: 1\x7d", .connect,
    .run 1 "LIVE ONE people \x7bid, reports: MANY people \x7bid\x7d\x7d",
    .call "INSERT INTO people \x7bid: 2, boss: 1\x7d", .call "UPDATE people SET boss = 2 WHERE id = 2"]

/-- One row of two is asked for, and the other one is changed. -/
def choosing : List Cue :=
  [.call "CREATE TABLE t (id int PRIMARY KEY, n int)", .call "INSERT INTO t \x7bid: 1, n: 1\x7d",
    .call "INSERT INTO t \x7bid: 2, n: 1\x7d", .connect, .run 1 "LIVE ONE t \x7bid\x7d",
    .call "UPDATE t SET n = 2 WHERE id = 2"]

/-- The history of a script that has rounds: the latest one, those before and the database in the end. -/
def playLatest (script : List Cue) : Option ((Round × List Round) × Database) :=
  match playHistory admits (·.store.fits) 60 script ([], {}) with
  | some (r :: earlier, s) => some ((r, earlier), s)
  | _ => none

theorem of_playLatest {script : List Cue} {r : Round} {earlier : List Round} {s : Database}
    (h : playLatest script = some ((r, earlier), s)) : History (admits · = true) (r :: earlier) s := by
  unfold playLatest at h
  split at h
  next r' earlier' s' hplayed =>
    cases h
    exact History.start.play (fun _ => wellTyped_of_run) .start hplayed
  next => cases h

/-- Whether a message says that the row at `p` has changed. -/
def changes (p : Path) : Message → Bool
  | .recordUpdate _ q _ _ => decide (q = p)
  | .tableUpdate .. | .result .. | .error .. => false

theorem exists_of_changes {p : Path} {ms : List Message} (h : ms.any (changes p) = true) :
    ∃ c old new, .recordUpdate c p old new ∈ ms := by
  obtain ⟨m, hm, h⟩ := List.any_eq_true.mp h
  cases m with
  | recordUpdate c q old new =>
    cases of_decide_eq_true h
    exact ⟨c, old, new, hm⟩
  | tableUpdate | result | error => cases h

/-- Whether a channel gets no TableUpdates in a round, and the result of its live query has no row at `p`. -/
def hides (p : Path) (r : Round) : Bool :=
  (r.received channel).all (fun | .tableUpdate .. => false | _ => true) &&
    match r.asked with
    | some (.channel _, text) =>
      match Statement.read text with
      | .ok (.select true q) =>
        decide (p ∉ nodesVisible q.cardinality Path.root (q.nodes r.after.schema r.after.store none))
      | _ => true
    | _ => true

theorem not_shows_of_hides {p : Path} {r : Round} (h : hides p r = true) : ¬r.Shows channel p := by
  obtain ⟨hnone, hresult⟩ := Bool.and_eq_true_iff.mp h
  intro hshows
  cases hshows with
  | result asked read answer received visible =>
    rw [asked] at hresult
    dsimp only at hresult
    rw [read] at hresult
    exact of_decide_eq_true hresult visible
  | update listens listener row new received visible =>
    exact absurd (List.all_eq_true.mp hnone _ received) Bool.false_ne_true

end Addresses.Sample

open Addresses.Sample Apart.Sample in
/-- One of the reports was shown in a TableUpdate before its boss is changed. -/
theorem History.addressed_report : ∃ r earlier s c old new, History (admits · = true) (r :: earlier) s ∧
    .recordUpdate c [.row (.num 1), .selection "reports", .row (.num 2)] old new ∈ r.received channel ∧
      ∃ r' ∈ earlier, r'.Shows channel [.row (.num 1), .selection "reports", .row (.num 2)] ∨
        r'.LeavesOut channel [.row (.num 1), .selection "reports", .row (.num 2)] := by
  have hplay : (playLatest reporting).any (fun ((r, _), _) => (r.received channel).any
      (changes [.row (.num 1), .selection "reports", .row (.num 2)])) = true := by
    decide +kernel
  obtain ⟨⟨⟨r, earlier⟩, s⟩, hst, htold⟩ := (Option.any_eq_true _ _).mp hplay
  obtain ⟨c, old, new, hm⟩ := exists_of_changes htold
  exact ⟨r, earlier, s, c, old, new, of_playLatest hst, hm,
    History.addressed (of_playLatest hst) levels_of_admits (List.nil_append (r :: earlier)).symm hm⟩

open Addresses.Sample Apart.Sample in
/-- A channel that got the row under 1 as its result, and nothing else, is told of a change of the row under 2. -/
theorem History.exists_unseen : ∃ r earlier s c old new, History (admits · = true) (r :: earlier) s ∧
    .recordUpdate c [.row (.num 2)] old new ∈ r.received channel ∧
      earlier.flatMap (Round.received · channel) = [.result channel.channel (.obj [("id", .num 1)])] ∧
        ∀ r' ∈ earlier, ¬r'.Shows channel [.row (.num 2)] := by
  have hplay : (playLatest choosing).any (fun ((r, earlier), _) => (r.received channel).any (changes [.row (.num 2)]) &&
      (decide (earlier.flatMap (Round.received · channel) = [.result channel.channel (.obj [("id", .num 1)])]) &&
        earlier.all (hides [.row (.num 2)]))) = true := by
    decide +kernel
  obtain ⟨⟨⟨r, earlier⟩, s⟩, hst, htest⟩ := (Option.any_eq_true _ _).mp hplay
  simp only [Bool.and_eq_true, decide_eq_true_iff] at htest
  obtain ⟨htold, hgot, hhidden⟩ := htest
  obtain ⟨c, old, new, hm⟩ := exists_of_changes htold
  exact ⟨r, earlier, s, c, old, new, of_playLatest hst, hm, hgot, fun r' hr' =>
    not_shows_of_hides (List.all_eq_true.mp hhidden r' hr')⟩

end LiveQuery
