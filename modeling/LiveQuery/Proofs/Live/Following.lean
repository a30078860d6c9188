import LiveQuery.Proofs.Live.Apart
import LiveQuery.Proofs.Live.Deliveries
import LiveQuery.Proofs.Live.Replies

/-! # Following a result

A channel follows a query if its listeners are those of the result that the query has now (`Database.Follows`). A live
query that succeeds makes its channel follow it (`Database.Follows.of_live`). A round in which a row is inserted keeps
that, and tells the channel of the rows that the result gains (`Inserts.told`): each listener that the row calls for
runs its query again, and what these queries subscribe to are the lists and rows in what is new.
-/
namespace LiveQuery

/-- The listeners of a channel are those of the rows that a query has. -/
structure Database.Follows (q : Query) (u : Subscriber) (s : Database) : Prop where
  planned : q.Planned s.schema
  isOpen : s.IsOpen u.connection
  held : ∀ table, (s.held u table).Perm
    ((q.sent s.schema s.store { subscriber := u }).filter (·.tableName = table))

/-- A round in which a client has a row inserted. -/
inductive Inserts (texts : String → Prop) (s t : Database) : Prop
  | round {o : Origin} {text table : String} {row : Expr} {v : Database} (asked : Asked texts s o text v)
      (read : Statement.read text = .ok (.insert table row)) (test : v.WellTyped)
      (runs : Relation.ReflTransGen (StepIn Database.WellTyped) v t) (quiet : t.isQuiet = true)

/-- The row is one of its list in the result that a query has now, and its key was not stored before. -/
def Told.IsNew (q : Query) (s t : Database) (a : Told) : Prop :=
  a.spot ∈ q.spot.below (q.spot.rows t.schema t.store) ∧ a.row ∈ a.spot.rows t.schema t.store ∧
    ¬s.store.Has a.spot.query.table a.row.key

/-! ## From an opening on -/

namespace Database

variable {texts : String → Prop} {s t v w : Database} {u : Subscriber} {o : Origin} {r : Except Fault Json}

/-- What there is between the opening of a round on a well-typed database and its end. -/
structure Opened (texts : String → Prop) (s t w v : Database) : Prop where
  opening : Opening texts s t w
  reachable : Reachable w
  runs : Relation.ReflTransGen Step w v
  store : v.store = w.store
  schema : v.schema = w.schema
  rows : RowsTyped w.schema w.store
  keys : RowsKeyed w.schema w.store
  fits : w.store.Fits

theorem opened_of_opening {texts' : String → Prop} (ht : Reachable t) (hv : Run texts' WellTyped v)
    (opening : Opening texts s t w) (before : Relation.ReflTransGen Step t w)
    (runs : Relation.ReflTransGen Step w v) : Opened texts s t w v := by
  -- From the opening on no row changes, so what is known of the rows at the end holds there already.
  obtain ⟨hstore, hschema⟩ := opening.settling.run runs
  exact ⟨opening, ht.steps before, runs, hstore, hschema, hstore ▸ hschema ▸ hv.wellTyped.rows,
    hstore ▸ hschema ▸ hv.fitting.rowsKeyed, hstore ▸ hv.wellTyped.fits⟩

/-- A round is over at once, or it has an opening. -/
theorem opened_of_move {texts' : String → Prop} (ht : Reachable t) (hv : Run texts' WellTyped v)
    (hquiet : s.isQuiet = true) (hmove : Move texts s t) (hruns : Relation.ReflTransGen Step t v)
    (hquiet' : v.isQuiet = true) : (v = t ∧ t.engine = s.engine ∧ t.tasks = []) ∨ ∃ w, Opened texts s t w v := by
  cases standing hquiet hmove hruns with
  | rest same store schema engine tasks => exact .inl ⟨same, engine, tasks⟩
  | waiting engine connections tasks =>
    rw [(idle_of_quiet hquiet').1] at tasks
    cases tasks
  | opened opening before runs => exact .inr ⟨_, opened_of_opening ht hv opening before runs⟩

theorem opened_of_asked {text : String} (hrun : Run texts WellTyped s) (hquiet : s.isQuiet = true)
    (asked : Asked texts s o text t) (test : t.WellTyped) (hruns : Relation.ReflTransGen (StepIn WellTyped) t v)
    (hquiet' : v.isQuiet = true) : Run texts WellTyped v ∧ ∃ w, Opened texts s t w v := by
  have hv : Run texts WellTyped v := (hrun.move asked.move test).steps hruns
  have ht : Reachable t := (Reachable.of_run hrun).move (asked.move.mono fun _ _ => trivial)
  refine ⟨hv, (opened_of_move ht hv hquiet asked.move (StepIn.steps hruns) hquiet').resolve_left ?_⟩
  rintro ⟨-, -, tasks⟩
  rw [asked.frame] at tasks
  exact absurd tasks (by simp)

/-- From an opening on that takes no listener of a channel away, the channel gets the listeners and the messages that
were in prospect. -/
theorem Calm.settled (hw : w.Calm u) (hopen : w.IsOpen u.connection)
    (hstays : ∀ a ∈ w.pending, a.hangsUp u.connection = false) (hkept : ∀ a ∈ w.pending, a.dismisses u = false)
    (hruns : Relation.ReflTransGen Step w v) (hquiet : v.isQuiet = true) :
    v.IsOpen u.connection ∧ (∀ table, (v.held u table).Perm (w.prospect u table)) ∧
      ∃ ms, v.received u = w.received u ++ ms ∧ ms.Perm (w.due u) := by
  obtain ⟨hcalm, -, -, hprospect⟩ := hw.run_prospect hruns
  obtain ⟨hopen', -, ms, hreceived, hdue⟩ := hw.settling.run_due hw.wired hw.foreseen hopen hstays hruns
  refine ⟨hopen', fun table => ?_, ms, hreceived, ?_⟩
  · obtain ⟨gone, hperm, hnone⟩ := hprospect table
    rw [(hnone hkept).1, List.nil_append, prospect_of_quiet hcalm.wired hquiet] at hperm
    exact hperm.symm
  · rw [due_of_quiet hcalm.wired hquiet, List.append_nil] at hdue
    exact hdue.symm

theorem pending_of_tasks {rest : List Action} (htasks : w.tasks = [.actions rest]) : w.pending = rest := by
  rw [pending, htasks, List.flatMap_singleton]
  rfl

theorem finish_elsewhere (ho : o.subscriber? ≠ some u) :
    ∀ a ∈ o.finish r, a.message? u = none ∧ a.dismisses u = false := by
  intro a ha
  have hother : ∀ u', o.subscriber? = some u' → u' ≠ u := fun u' hu heq => ho (heq ▸ hu)
  rcases Origin.mem_finish ha with ⟨ticket, rfl⟩ | ⟨u', hu, rfl | ⟨m, rfl, -⟩⟩
  · exact ⟨rfl, rfl⟩
  · exact ⟨rfl, decide_eq_false (hother u' hu).symm⟩
  · exact ⟨if_neg (hother u' hu), rfl⟩

end Database

namespace Asked

variable {texts : String → Prop} {s t : Database}

theorem unique {o o' : Origin} {text text' : String} (h : Asked texts s o text t) (h' : Asked texts s o' text' t) :
    o = o' ∧ text = text' := by
  have htasks := congrArg Database.tasks (h.frame.symm.trans h'.frame)
  simpa using htasks

end Asked

/-! ## Insertions -/

/-- Every column of a row is a literal, which is a key. -/
theorem Row.toKey_of_member {r : Row} {column : String} {v : Value} (hv : r.value.member column = .ok v) :
    ∃ bytes, v.toKey = .ok bytes := by
  rw [Row.value, Value.member, Row.find?_value] at hv
  cases hfound : Keyed.find? r column with
  | none => rw [hfound] at hv; cases hv
  | some l =>
    rw [hfound] at hv
    cases hv
    exact ⟨_, Literal.toKey_value l⟩

/-- Where the round of an insertion opens. -/
inductive Opening.Insertion (s t w : Database) (o : Origin) : Prop
  | failed (r : Except Fault Json) (frame : w = { t with tasks := [.actions (o.finish r)] })
  | made (r : Except Fault Json) {table : Table} {key : Literal} {bytes : Bytes}
      (found : Keyed.find? s.schema table.name = some table) (new : s.store.get? table.name key.keyBytes = none)
      (keyed : bytes.length < 2 ^ 62 → table.HasKey key bytes)
      (frame : w = { t with
        store := s.store.put table.name key.keyBytes bytes
        engine := s.engine.post table.name (.event { key, old := none, new := some bytes })
        tasks := [.actions (o.finish r)] })

namespace Opening

variable {texts : String → Prop} {s t w : Database} {o : Origin} {text : String}

/-- A checked insertion names a table and the key of its row. -/
theorem insert_of_continues {table : String} {row : Expr} {write : Write} (hs : t.schema.Valid)
    (read : Statement.read text = .ok (.insert table row))
    (prepared : Database.Continues t (.statement o text) (.write o write)) : ∃ t' : Table, ∃ key bytes,
      write = .insert t'.name key bytes ∧ Keyed.find? t.schema t'.name = some t' ∧
        (bytes.length < 2 ^ 62 → t'.HasKey key bytes) := by
  have hkeeps := keepsKeys_of_continues hs prepared
  cases prepared with
  | insert fuel read' prepared =>
    unfold prepareInsert at prepared
    split at prepared
    next => cases prepared
    next t' ht' =>
      split at prepared
      next => cases prepared
      next =>
        split at prepared
        next => cases prepared
        next =>
          dsimp only at prepared
          split at prepared
          next => cases prepared
          next => cases prepared
          next =>
            obtain ⟨⟨key, bytes⟩, -, hw⟩ := ok_of_bind (Option.some.inj prepared)
            cases hw
            obtain ⟨t'', ht'', hkeyed⟩ := hkeeps
            cases (hs.find?_self (findTable_ok ht')).symm.trans ht''
            exact ⟨t', key, bytes, rfl, ht'', hkeyed⟩
  | update read' | delete read' =>
    rw [read] at read'
    cases read'

/-- The round of an insertion fails without a change or publishes its row. -/
theorem insertion {table : String} {row : Expr} (hs : s.schema.Valid) (asked : Asked texts s o text t)
    (read : Statement.read text = .ok (.insert table row)) (h : Opening texts s t w) : Insertion s t w o := by
  cases h with
  | removes frame => exact absurd frame (asked.frame_ne _)
  | @ended o' text' store schema r asked' changes =>
    obtain ⟨rfl, rfl⟩ := asked.unique asked'
    cases changes with
    | none store schema =>
      dsimp only at store schema
      exact .failed r (by rw [store, schema])
    | create read' =>
      rw [read] at read'
      cases read'
  | selected asked' read' =>
    obtain ⟨rfl, rfl⟩ := asked.unique asked'
    rw [read] at read'
    cases read'
  | refused asked' =>
    obtain ⟨rfl, rfl⟩ := asked.unique asked'
    exact .failed _ rfl
  | kept asked' prepared made silent =>
    obtain ⟨rfl, rfl⟩ := asked.unique asked'
    obtain ⟨t', key, bytes, rfl, -⟩ := insert_of_continues (asked.schema ▸ hs) read prepared
    simp only [Write.commit] at made
    split at made <;> cases made
    cases silent
  | published asked' prepared made event =>
    obtain ⟨rfl, rfl⟩ := asked.unique asked'
    obtain ⟨t', key, bytes, rfl, hfound, hkeyed⟩ := insert_of_continues (asked.schema ▸ hs) read prepared
    simp only [Write.commit] at made
    split at made
    next => cases made
    next hnone =>
      cases made
      cases event
      refine .made (.ok (Write.answerOf "inserted" key.json)) (asked.schema ▸ hfound) (asked.store ▸ hnone) hkeyed ?_
      rw [asked.store, asked.engine]

/-- A store with a row under a new key has the rows that there were and the new row. -/
theorem gains_of_put {schema : Schema} {store : Store} {table : Table} {key : Literal} {bytes : Bytes}
    (ht : Keyed.find? schema table.name = some table) (hstore : store.Ordered)
    (hrows : RowsTyped schema (store.put table.name key.keyBytes bytes))
    (hfits : (store.put table.name key.keyBytes bytes).Fits) (hnew : store.get? table.name key.keyBytes = none)
    (hkeyed : bytes.length < 2 ^ 62 → table.HasKey key bytes) :
    ∃ r : Row, Row.ofBytes? bytes = some r ∧ r.key table = key ∧
      store.Gains (store.put table.name key.keyBytes bytes) table.name r := by
  have hperm := (hstore.entries table.name).insert_perm key.keyBytes bytes
  rw [Keyed.erase_of_find?_eq_none hnew] at hperm
  have hentries := Store.entries_put_self store table.name key.keyBytes bytes
  have hmem : (key.keyBytes, bytes) ∈ (store.put table.name key.keyBytes bytes).entries table.name :=
    hentries ▸ Keyed.mem_insert_self _ _ _
  obtain ⟨r, hr, -⟩ := Row.ofBytes?_of_holds (hrows _ (Keyed.mem_of_find? ht) _ hmem)
  refine ⟨r, hr, Row.key_of_hasKey (hkeyed (hfits _ _ hmem)) hr, ?_, fun name hne => ?_⟩
  · rw [Store.rows, hentries]
    have hrows' := hperm.filterMap fun e : Bytes × Bytes => Row.ofBytes? e.2
    simp only [List.filterMap_cons, hr] at hrows'
    exact hrows'
  · rw [Store.rows, Store.entries_put_of_ne _ _ _ hne.symm]
    rfl

/-- Who is called for by an insertion: those who await its row. -/
theorem notices_of_post (hquiet : s.isQuiet = true) (hwired : s.Wired) {table : Table} {key : Literal}
    {bytes : Bytes} {r : Row} {r' : Except Fault Json} (hdecode : Value.decode bytes = .ok r.value)
    (hengine : w.engine = s.engine.post table.name (.event { key, old := none, new := some bytes }))
    (htasks : w.tasks = [.actions (o.finish r')]) :
    w.notices.Perm ((((s.engine.actor table.name).listeners.subscriptions table.name).filter
      (Subscription.awaits r.value)).map fun x => .rerun x.listener key) := by
  obtain ⟨-, hidle⟩ := Database.idle_of_quiet hquiet
  have hposted := Engine.notices_post hwired.engine table.name (.event { key, old := none, new := some bytes })
  rw [Engine.notices_of_idle hidle hwired.engine, Engine.audience, Actor.audience, hidle table.name] at hposted
  rw [Database.notices, htasks, hengine]
  refine hposted.trans (List.Perm.of_eq ?_)
  simp only [List.nil_append, List.foldl_nil, Actor.handle, Event.notices, hdecode]
  rw [Audience.forNewRow_of_keys (hwired.engine.listeners table.name) table.name, List.map_map]
  · rfl
  · exact fun column v hv => Row.toKey_of_member hv

end Opening

/-! ## Channels that follow -/

namespace Database.Follows

variable {texts : String → Prop} {q : Query} {u : Subscriber} {s t v : Database}

/-- The listeners of a channel that follows a query are at sites of their own. -/
theorem spaced (h : s.Follows q u) (hs : s.InOrder) (hkeys : RowsKeyed s.schema s.store)
    (hlevels : q.levels ≤ Plan.maxPoints) : s.Spaced s.store.Has u :=
  ⟨_, Query.sent_scattered hs.schema hs.store hkeys hlevels Path.root, fun table => (h.held table).subperm⟩

/-- A statement on a connection is not run on a channel that follows a query. -/
theorem elsewhere (h : s.Follows q u) (hs : Reachable s) {o : Origin} {text : String} (asked : Asked texts s o text t) :
    o.subscriber? ≠ some u := by
  intro ho
  cases o with
  | caller ticket => cases ho
  | channel u' =>
    cases ho
    have hroot : q.subscription u none Path.root ∈ s.held u q.table :=
      (h.held q.table).mem_iff.mpr (List.mem_filter.mpr ⟨List.mem_append_left _ List.mem_cons_self, decide_eq_true rfl⟩)
    rw [Opening.held_of_asked hs asked q.table] at hroot
    cases hroot

/-- The listeners of a channel on a table that await a row are those of lists of the result. -/
theorem awaiting (h : s.Follows q u) (table : String) (row : Value) :
    ((s.held u table).filter (Subscription.awaits row)).Perm
      (((q.spot.below (q.spot.rows s.schema s.store)).map (Spot.subscription u)).filter fun z =>
        decide (z.tableName = table) && z.awaits row) := by
  refine ((h.held table).filter _).trans ?_
  rw [List.filter_filter]
  simp only [Bool.and_comm (Subscription.awaits row _)]
  refine ((Query.sent_perm q).filter _).trans (List.Perm.of_eq ?_)
  rw [List.filter_append]
  have hrecords : ((q.spot.entries (q.spot.rows s.schema s.store)).map fun e : Entry =>
      Subscription.record e.table e.key.keyBytes ⟨u, none, e.path⟩).filter (fun z =>
        decide (z.tableName = table) && z.awaits row) = [] := by
    refine List.filter_eq_nil_iff.mpr fun z hz => ?_
    obtain ⟨e, -, rfl⟩ := List.mem_map.mp hz
    rw [Subscription.awaits, Bool.and_false]
    exact Bool.false_ne_true
  rw [hrecords, List.append_nil]

/-- A row that is inserted adds what is in the rows that lists gain to the subscriptions of a query. -/
theorem sent_perm {schema : Schema} {store store' : Store} (hs : schema.Valid) {table : Table} {r : Row}
    (ht : Keyed.find? schema table.name = some table) (h : store.Gains store' table.name r) :
    (q.sent schema store' { subscriber := u }).Perm (q.sent schema store { subscriber := u } ++
      (Spot.gains schema store' table r (q.spot.below (q.spot.rows schema store))).flatMap
        (Entry.subscriptions u)) := by
  have hgrown := (Spot.entries_rows hs ht h q.spot).flatMap_right (Entry.subscriptions u)
  rw [List.flatMap_append] at hgrown
  refine ((Query.sent_entries q).trans (hgrown.cons _)).trans ?_
  exact (Query.sent_entries q).symm.append_right _

end Database.Follows

/-- What was handed over in some order is the image of what there was in some order. -/
theorem exists_of_perm_map {α β : Type} {f : α → β} {bs : List β} {as : List α} (h : bs.Perm (as.map f)) :
    ∃ as' : List α, as'.Perm as ∧ bs = as'.map f := by
  have hrel : List.Forall₂ (fun b a => b = f a) (as.map f) as :=
    List.forall₂_map_left_iff.mpr (List.forall₂_same.mpr fun _ _ => rfl)
  obtain ⟨as', has', hperm⟩ := List.perm_comp_forall₂ h hrel
  refine ⟨as', hperm, ?_⟩
  have heq : List.Forall₂ Eq bs (as'.map f) := List.forall₂_map_right_iff.mpr has'
  rwa [List.forall₂_eq_eq_eq] at heq

/-! ## What an insertion brings -/

/-- A list of a result is one of the result that has all its rows and more. -/
theorem Spot.mem_below_of_perm {x y : Spot} {rows rows' : List Node} {more : List Entry}
    (h : (x.entries rows').Perm (x.entries rows ++ more)) (hy : y ∈ x.below rows) : y ∈ x.below rows' := by
  rcases List.mem_cons.mp hy with heq | hy
  · exact heq ▸ List.mem_cons_self
  · obtain ⟨e, he, hspot⟩ := List.mem_flatMap.mp hy
    exact List.mem_cons_of_mem _ (List.mem_flatMap.mpr ⟨e, h.mem_iff.mpr (List.mem_append_left _ he), hspot⟩)

/-- What a round brings to a channel that follows a query: the listeners of the result, messages with the rows that are
new in it, and nothing else. -/
structure Brings (q : Query) (u : Subscriber) (s w : Database) (told : List Told) : Prop where
  schema : w.schema = s.schema
  messages : (w.due u).Perm (told.map (Told.message u))
  listeners : ∀ table, (w.prospect u table).Perm
    ((q.sent w.schema w.store { subscriber := u }).filter (·.tableName = table))
  gained : (q.spot.entries (q.spot.rows w.schema w.store)).Perm
    (q.spot.entries (q.spot.rows s.schema s.store) ++ told.flatMap Told.entries)
  known : ∀ a ∈ told, a.spot ∈ q.spot.below (q.spot.rows s.schema s.store)
  new : ∀ a ∈ told, a.row ∈ a.spot.rows w.schema w.store ∧ ¬s.store.Has a.spot.query.table a.row.key

namespace Opening

variable {texts : String → Prop} {q : Query} {u : Subscriber} {s t w : Database} {o : Origin} {text : String}

/-- A row that is inserted brings the rows that the lists of the result gain by it. -/
theorem brings_of_made (hs : Reachable s) (hquiet : s.isQuiet = true) (hrows : RowsTyped s.schema s.store)
    (h : s.Follows q u) (hordered : w.store.Ordered) (hrows' : RowsTyped w.schema w.store)
    (hkeys : RowsKeyed w.schema w.store) (hfits : w.store.Fits) (hschema : w.schema = s.schema)
    {r : Except Fault Json} (htasks : w.tasks = [.actions (o.finish r)]) {table : Table} {key : Literal} {bytes : Bytes}
    (found : Keyed.find? s.schema table.name = some table) (new : s.store.get? table.name key.keyBytes = none)
    (keyed : bytes.length < 2 ^ 62 → table.HasKey key bytes)
    (hstore : w.store = s.store.put table.name key.keyBytes bytes)
    (hengine : w.engine = s.engine.post table.name (.event { key, old := none, new := some bytes }))
    (hdue : w.due u = w.notices.flatMap (Notice.messages w.schema w.store u))
    (hprospect : ∀ name, w.prospect u name =
      s.held u name ++ w.notices.flatMap (Notice.sent w.schema w.store u name)) :
    ∃ told, Brings q u s w told := by
  have hvalid := hs.inOrder.schema
  rw [hschema] at hrows' hkeys hdue
  simp only [hschema] at hprospect
  obtain ⟨row, hrow, rfl, hgains⟩ :=
    gains_of_put found hs.inOrder.store (hstore ▸ hrows') (hstore ▸ hfits) new keyed
  rw [← hstore] at hgains
  have hlists := Spot.Fits.below hvalid hrows h.planned.spot_fits
  have hnotices := notices_of_post hquiet hs.wired (Row.decode_of_ofBytes? hrow) hengine htasks
  -- those who are called for on this channel are the listeners of lists
  have hcalled := h.awaiting table.name row.value
  have hgrown := Spot.entries_rows hvalid found hgains q.spot
  refine ⟨Spot.news s.schema w.store table row (q.spot.below (q.spot.rows s.schema s.store)), hschema, ?_,
    fun name => ?_, ?_, fun a ha => (Spot.of_mem_news hvalid found hgains ha).1, fun a ha => ?_⟩
  · have hmessages := hnotices.flatMap_right (Notice.messages s.schema w.store u)
    rw [messages_reruns, List.filter_comm] at hmessages
    rw [hdue, ← Spot.messages_awaiting hvalid hordered hrows' hkeys hgains found hlists]
    exact hmessages.trans (hcalled.flatMap_right _)
  · have hsent := hnotices.flatMap_right (Notice.sent s.schema w.store u name)
    rw [sent_reruns, List.filter_comm] at hsent
    have hnews := ((hcalled.flatMap_right _).trans
      (Spot.sent_awaiting hvalid hordered hrows' hkeys hgains found hlists)).filter (·.tableName = name)
    have hall := (Database.Follows.sent_perm (q := q) (u := u) hvalid found hgains).filter (·.tableName = name)
    rw [List.filter_append] at hall
    rw [hprospect, hschema]
    exact ((h.held name).append (hsent.trans hnews)).trans hall.symm
  · rw [hschema, Spot.entries_news]
    exact hgrown
  · obtain ⟨-, hname, hkey, hmem⟩ := Spot.of_mem_news hvalid found hgains ha
    rw [hschema, hname, hkey, Store.Has, new]
    exact ⟨hmem, Bool.false_ne_true⟩

/-- The round of an insertion opens with all that it brings to a channel that follows a query. -/
theorem brings (hs : Reachable s) (hquiet : s.isQuiet = true) (hrows : RowsTyped s.schema s.store) (h : s.Follows q u)
    (hordered : w.store.Ordered) (hrows' : RowsTyped w.schema w.store) (hkeys : RowsKeyed w.schema w.store)
    (hfits : w.store.Fits) (asked : Asked texts s o text t) {table : String} {row : Expr}
    (read : Statement.read text = .ok (.insert table row)) (hw : Opening texts s t w) :
    (∀ a ∈ w.pending, a.dismisses u = false) ∧ ∃ told, Brings q u s w told := by
  have hinsertion := hw.insertion hs.inOrder.schema asked read
  -- what is left of the statement concerns another channel
  have helsewhere := h.elsewhere hs asked
  obtain ⟨r, htasks⟩ : ∃ r, w.tasks = [.actions (o.finish r)] := by
    cases hinsertion with
    | failed r frame => exact ⟨r, by rw [frame]⟩
    | made r found new keyed frame => exact ⟨r, by rw [frame]⟩
  have hpending := Database.pending_of_tasks htasks
  have hdue : w.due u = w.notices.flatMap (Notice.messages w.schema w.store u) := by
    have hincoming : w.incoming u = [] := by
      rw [Database.incoming, hpending]
      exact List.filterMap_eq_nil_iff.mpr fun a ha => (Database.finish_elsewhere helsewhere a ha).1
    rw [Database.due, hincoming, List.nil_append]
  have hprospect := hw.prospect hquiet u
  simp only [hpending, subscriptions_finish, List.filter_nil, List.append_nil] at hprospect
  refine ⟨fun a ha => (Database.finish_elsewhere helsewhere a (hpending ▸ ha)).2, ?_⟩
  cases hinsertion with
  | failed r' frame =>
    have hnone : w.notices = [] := hw.notices_of_engine hquiet hs.wired (by rw [frame]; exact asked.engine)
    have hstore : w.store = s.store := by rw [frame]; exact asked.store
    have hschema : w.schema = s.schema := by rw [frame]; exact asked.schema
    refine ⟨[], hschema, ?_, fun name => ?_, ?_, by simp, by simp⟩
    · rw [hdue, hnone]
      exact List.Perm.refl _
    · rw [hprospect, hnone, List.flatMap_nil, List.append_nil, hschema, hstore]
      exact h.held name
    · rw [hschema, hstore, List.flatMap_nil, List.append_nil]
  | made r' found new keyed frame =>
    exact brings_of_made hs hquiet hrows h hordered hrows' hkeys hfits (by rw [frame]; exact asked.schema) htasks
      found new keyed (by rw [frame]) (by rw [frame]) hdue hprospect

end Opening

/-- A round of an insertion tells a channel that follows a query of the rows that the result gains, and the channel
follows the query still. -/
theorem Inserts.told {texts : String → Prop} {q : Query} {u : Subscriber} {s t : Database}
    (hrun : Run texts Database.WellTyped s) (hquiet : s.isQuiet = true) (hlevels : q.levels ≤ Plan.maxPoints)
    (h : s.Follows q u) (hround : Inserts texts s t) :
    Run texts Database.WellTyped t ∧ t.isQuiet = true ∧ t.Follows q u ∧ ∃ told : List Told,
      t.received u = s.received u ++ told.map (Told.message u) ∧ (∀ a ∈ told, a.IsNew q s t) ∧
        (∀ a ∈ told, a.spot ∈ q.spot.below (q.spot.rows s.schema s.store)) ∧
          (q.spot.entries (q.spot.rows t.schema t.store)).Perm
            (q.spot.entries (q.spot.rows s.schema s.store) ++ told.flatMap Told.entries) := by
  obtain @⟨o, text, table, row, v, asked, read, test, runs, quiet⟩ := hround
  have hs := Reachable.of_run hrun
  obtain ⟨ht, w, hw⟩ := Database.opened_of_asked hrun hquiet asked test runs quiet
  obtain ⟨hkept, told, hbrings⟩ := hw.opening.brings hs hquiet hrun.wellTyped.rows h hw.reachable.inOrder.store hw.rows
    hw.keys hw.fits asked read
  have hcalm := hw.opening.calm hquiet hs.wired hw.reachable hw.rows
    (h.spaced hs.inOrder hrun.fitting.rowsKeyed hlevels)
  obtain ⟨hsame, hopen⟩ := hw.opening.received u
  obtain ⟨hopen', hheld, ms, hms, hdue⟩ :=
    hcalm.settled (hopen.mpr h.isOpen) (hw.opening.stays asked _) hkept hw.runs quiet
  rw [hsame] at hms
  obtain ⟨told', hperm, rfl⟩ := exists_of_perm_map (hdue.trans hbrings.messages)
  refine ⟨ht, quiet, ⟨?_, hopen', fun name => ?_⟩, told', hms, fun a ha => ?_, fun a ha => ?_, ?_⟩
  · rw [hw.schema, hbrings.schema]
    exact h.planned
  · rw [hw.store, hw.schema]
    exact (hheld name).trans (hbrings.listeners name)
  · have hmem := hperm.mem_iff.mp ha
    obtain ⟨hrow, hnew⟩ := hbrings.new a hmem
    rw [Told.IsNew, hw.store, hw.schema]
    exact ⟨Spot.mem_below_of_perm hbrings.gained (hbrings.known a hmem), hrow, hnew⟩
  · exact hbrings.known a (hperm.mem_iff.mp ha)
  · rw [hw.store, hw.schema]
    exact hbrings.gained.trans ((hperm.symm.flatMap_right _).append_left _)

/-! ## The round of a live query -/

namespace Opening

variable {texts : String → Prop} {q : Query} {u : Subscriber} {s t w : Database} {text : String}

/-- The round of a live query opens with its subscriptions. -/
theorem live_query (asked : Asked texts s (.channel u) text t) (read : Statement.read text = .ok (.select true q))
    (h : Opening texts s t w) : ∃ fuel r, select fuel t.schema t.store q (some { subscriber := u }) = some r ∧
      w = { t with tasks :=
        [.actions (subscribeActions r.sent ++ Origin.finish (.channel u) (r.outcome.bind q.answer))] } := by
  have hprepared : ∀ {write : Write},
      ¬Database.Continues t (.statement (.channel u) text) (.write (.channel u) write) := by
    intro write prepared
    cases prepared with
    | insert fuel read' | update read' | delete read' =>
      rw [read] at read'
      cases read'
  cases h with
  | removes frame => exact absurd frame (asked.frame_ne _)
  | ended asked' changes unanchored =>
    obtain ⟨rfl, rfl⟩ := asked.unique asked'
    cases unanchored q read
  | selected asked' read' anchored fuel run =>
    obtain ⟨rfl, rfl⟩ := asked.unique asked'
    rw [read] at read'
    cases read'
    cases anchored
    exact ⟨fuel, _, run, rfl⟩
  | refused asked' prepared =>
    obtain ⟨rfl, rfl⟩ := asked.unique asked'
    exact absurd prepared hprepared
  | kept asked' prepared =>
    obtain ⟨rfl, rfl⟩ := asked.unique asked'
    exact absurd prepared hprepared
  | published asked' prepared =>
    obtain ⟨rfl, rfl⟩ := asked.unique asked'
    exact absurd prepared hprepared

end Opening

/-- A live query is planned, sends what its rows call for and ends with its result, or it has no plan and only says
why. -/
theorem Database.Opened.queried {texts : String → Prop} {q : Query} {u : Subscriber} {s t w v : Database}
    {text : String} (h : Opened texts s t w v) (hs : Reachable s) (hquiet : s.isQuiet = true)
    (asked : Asked texts s (.channel u) text t) (read : Statement.read text = .ok (.select true q))
    (hlevels : q.levels ≤ Plan.maxPoints)
    (hquiet' : v.isQuiet = true) :
    (∃ f, w.pending = Origin.finish (.channel u) (.error f) ∧ v.received u = [u.reply (.error f)]) ∨
    (q.Planned w.schema ∧ w.pending = subscribeActions (q.sent w.schema w.store { subscriber := u }) ++
      Origin.finish (.channel u) (q.result w.schema w.store) ∧
        v.received u = [u.reply (q.result w.schema w.store)]) := by
  obtain ⟨fuel, r, hselect, frame⟩ := h.opening.live_query asked read
  have hpending := Database.pending_of_tasks (w := w) (by rw [frame])
  have hruns := h.runs
  rw [frame] at hruns
  have hreceived : v.received u = [u.reply (r.outcome.bind q.answer)] :=
    asked.hears hquiet hs (.selected read rfl fuel hselect) hruns hquiet'
  have hschema : t.schema = w.schema := by rw [frame]
  have hstore : t.store = w.store := by rw [frame]
  rw [hschema, hstore] at hselect
  have hordered := h.reachable.inOrder
  cases hplan : Plan.live w.schema (Catalog.types w.schema) q with
  | error f =>
    rw [Evaluation.live_of_error hplan hselect] at hpending hreceived
    exact .inl ⟨.plan f, hpending, hreceived⟩
  | ok plan =>
    rw [Evaluation.live_eq hordered.schema hordered.store h.rows hlevels hplan hselect] at hpending hreceived
    rw [Except.bind, Query.answer_rows] at hpending hreceived
    exact .inr ⟨(Plan.live_ok_iff hordered.schema).mp ⟨plan, hplan⟩, hpending, hreceived⟩

/-- What a live query sends is for its channel. -/
theorem Query.subscriber_of_sent {schema : Schema} {store : Store} {q : Query} {u : Subscriber} {x : Subscription}
    (h : x ∈ q.sent schema store { subscriber := u }) : x.listener.subscriber = u := by
  rcases List.mem_append.mp ((Query.sent_perm q).mem_iff.mp h) with h | h <;>
    obtain ⟨y, -, rfl⟩ := List.mem_map.mp h <;> rfl

/-- A live query that gets a result makes its channel follow it, and the result is its rows. -/
theorem Database.Follows.of_live {texts : String → Prop} {q : Query} {u : Subscriber} {s t v : Database} {text : String}
    {data : Json} (hrun : Run texts Database.WellTyped s) (hquiet : s.isQuiet = true)
    (hlevels : q.levels ≤ Plan.maxPoints) (asked : Asked texts s (.channel u) text t)
    (read : Statement.read text = .ok (.select true q)) (hmany : q.cardinality = .many) (test : t.WellTyped)
    (runs : Relation.ReflTransGen (StepIn Database.WellTyped) t v) (quiet : v.isQuiet = true)
    (answered : .result u.channel data ∈ v.received u) : Run texts Database.WellTyped v ∧ v.Follows q u ∧
      v.received u = [.result u.channel data] ∧ data = .arr ((q.nodes v.schema v.store none).map Node.json) := by
  have hs := Reachable.of_run hrun
  obtain ⟨hv, w, hw⟩ := Database.opened_of_asked hrun hquiet asked test runs quiet
  have hheld := Opening.held_of_asked hs asked
  have hspaced : s.Spaced (fun _ _ => False) u :=
    ⟨[], Scattered.nil, fun table => by rw [hheld]; exact List.Subperm.refl _⟩
  have hcalm := hw.opening.calm hquiet hs.wired hw.reachable hw.rows hspaced
  obtain ⟨hopen, -⟩ := asked.fresh hs
  have hopen' : w.IsOpen u.connection := (hw.opening.received u).2.mpr hopen
  rcases hw.queried hs hquiet asked read hlevels quiet with ⟨f, -, hreceived⟩ | ⟨hplanned, hpending, hreceived⟩
  · rw [hreceived] at answered
    cases List.mem_singleton.mp answered
  · have hresult : q.result w.schema w.store = .ok (.arr ((q.nodes w.schema w.store none).map Node.json)) := by
      rw [Query.result, hmany]
    rw [hresult] at hpending hreceived
    rw [hreceived] at answered ⊢
    cases List.mem_singleton.mp answered
    have hkept : ∀ a ∈ w.pending, a.dismisses u = false := by
      rw [hpending]
      refine List.forall_mem_append.mpr ⟨fun a ha => ?_, by simp [Origin.finish, Action.dismisses]⟩
      obtain ⟨x, -, rfl⟩ := List.mem_map.mp ha
      rfl
    have hnotices : w.notices = [] := by
      obtain ⟨fuel, r, -, frame⟩ := hw.opening.live_query asked read
      exact hw.opening.notices_of_engine hquiet hs.wired (by rw [frame]; exact asked.engine)
    obtain ⟨hopen'', hnow, -⟩ := hcalm.settled hopen' (hw.opening.stays asked _) hkept hw.runs quiet
    refine ⟨hv, ⟨hw.schema ▸ hplanned, hopen'', fun table => ?_⟩, rfl, by rw [hw.schema, hw.store]⟩
    refine (hnow table).trans (List.Perm.of_eq ?_)
    rw [hw.opening.prospect hquiet u, hheld, hnotices, hpending, List.flatMap_append, Database.watches_of_posts,
      Opening.subscriptions_finish, List.append_nil, List.nil_append, List.flatMap_nil, List.append_nil, hw.schema,
      hw.store]
    exact List.filter_eq_self.mpr fun x hx => decide_eq_true (Query.subscriber_of_sent (List.mem_of_mem_filter hx))

end LiveQuery
