import LiveQuery.Proofs.Encoding.Words
import LiveQuery.Proofs.Live.Scattered
import LiveQuery.Proofs.Plan.Planned
import LiveQuery.Proofs.Query.Growth

/-! # What a new row calls for

A live query has a listener on each list of rows of its result, narrowed by one of the conditions that the rows of the
list meet. A new row calls for a listener if it meets that condition, and the query of the listener is run again for
the row's key, without the condition that ties the list to the row around it. Both tests together are that the row
belongs in the list (`Spot.renewed_of_awaits`, `Spot.gain_of_not_awaits`), so what is told on a new row is what the
result gains by it (`Spot.messages_awaiting`), and what is subscribed to are the rows and lists that are new
(`Spot.sent_awaiting`).
-/
namespace LiveQuery

/-- The list of all the rows of a query. -/
def Query.spot (q : Query) : Spot := ⟨q, none, Path.root⟩

/-- The query of a list has a plan, and the condition that ties its rows compares a column with a value of its type. -/
structure Spot.Fits (schema : Schema) (x : Spot) : Prop where
  planned : x.query.Planned schema
  tied : ∀ t, Keyed.find? schema x.query.table = some t → ∀ f ∈ x.link, t.Compares f

theorem Query.Planned.spot_fits {schema : Schema} {q : Query} (h : q.Planned schema) : q.spot.Fits schema :=
  ⟨h, fun _ _ _ hf => by cases hf⟩

namespace Told

/-- The message with the row. -/
def message (u : Subscriber) (a : Told) : Message := .tableUpdate u.channel a.spot.path a.row.json

end Told

/-- The rows that lists gain by a new row of `t`. -/
def Spot.news (schema : Schema) (store : Store) (t : Table) (r : Row) (xs : List Spot) : List Told :=
  xs.flatMap fun x => (x.gain schema store t r).map (Told.mk x)

/-! ## What lists gain -/

section News

variable {schema : Schema} {store store' : Store} {t : Table} {r : Row}

theorem Spot.entries_news (xs : List Spot) :
    (news schema store t r xs).flatMap Told.entries = gains schema store t r xs := by
  rw [news, gains, List.flatMap_assoc]
  refine List.flatMap_congr fun x _ => ?_
  rw [List.flatMap_map, entries, nodeEntries_eq]
  refine List.flatMap_congr fun n _ => ?_
  rw [Told.entries, entries, nodeEntries_eq, List.flatMap_singleton]

/-- A row that a list gains is the new row, and it belongs in the list. -/
theorem Spot.of_mem_news (hs : schema.Valid) (ht : Keyed.find? schema t.name = some t)
    (h : store.Gains store' t.name r) {xs : List Spot} {a : Told} (ha : a ∈ news schema store' t r xs) :
    a.spot ∈ xs ∧ a.spot.query.table = t.name ∧ a.row.key = r.key t ∧ a.row ∈ a.spot.rows schema store' := by
  obtain ⟨x, hx, ha⟩ := List.mem_flatMap.mp ha
  obtain ⟨n, hn, rfl⟩ := List.mem_map.mp ha
  have hgain := hn
  rw [gain] at hgain
  split at hgain
  next htakes =>
    have hname : x.query.table = t.name := of_decide_eq_true (Bool.and_eq_true_iff.mp htakes).1
    refine ⟨hx, hname, ?_, (rows_gain hs ht h (hname ▸ ht)).mem_iff.mpr (List.mem_append_left _ hn)⟩
    rw [List.mem_singleton.mp hgain]
    rfl
  next => cases hgain

end News

/-! ## Lists that fit -/

section Fits

variable {schema : Schema} {store : Store} {t : Table} {r : Row}

theorem Table.compares_of_mem (ht : t.Valid) {c : Column} (hc : c ∈ t.columns) {v : Literal} (hty : v.ty = c.type.ty) :
    t.Compares ⟨c.name, v⟩ := ⟨c, ht.column?_of_mem hc, hty⟩

/-- The condition that ties the rows of a nested query compares values of one type. -/
theorem Table.Relates.compares {inner : Table} {q : Query} (h : t.Relates inner q.cardinality) (ht : t.Valid)
    (hinner : inner.Valid) (hfind : Keyed.find? schema q.table = some inner) (hr : t.Fits r) {f : Filter}
    (hf : f ∈ q.link schema t r) : inner.Compares f := by
  rw [Query.link, hfind] at hf
  cases hc : q.cardinality with
  | many =>
    rw [hc] at h hf
    obtain ⟨c, href, htype⟩ := h
    simp only [Option.bind_eq_bind, Option.bind_some, href, Option.pure_def, Option.mem_def, Option.some.injEq] at hf
    subst hf
    exact compares_of_mem hinner (List.mem_of_find?_eq_some href) (htype ▸ (hr.find? ht ht.columns_spec.2).2)
  | one =>
    rw [hc] at h hf
    obtain ⟨c, href, htype⟩ := h
    simp only [Option.bind_eq_bind, Option.bind_some, href, Option.pure_def, Option.mem_def, Option.some.injEq] at hf
    subst hf
    exact compares_of_mem hinner hinner.columns_spec.2 (htype ▸ (hr.find? ht (List.mem_of_find?_eq_some href)).2)

theorem selectionsPlanned_nested {selections : List Selection} (h : selectionsPlanned schema t selections)
    {name : String} {q : Query} (hq : .nested name q ∈ selections) :
    (∃ inner, Keyed.find? schema q.table = some inner ∧ t.Relates inner q.cardinality) ∧ q.Planned schema := by
  induction selections with
  | nil => cases hq
  | cons s rest ih =>
    cases s with
    | column label =>
      rcases List.mem_cons.mp hq with heq | hq
      · cases heq
      · exact ih h.2 hq
    | nested label q' =>
      rcases List.mem_cons.mp hq with heq | hq
      · cases heq
        exact ⟨h.1, h.2.1⟩
      · exact ih h.2.2 hq

/-- The queries in a query with a plan have plans, and their tables are related to its own. -/
theorem Query.Planned.nested {q inner : Query} {name : String} (h : q.Planned schema)
    (ht : Keyed.find? schema q.table = some t) (hq : .nested name inner ∈ q.selections) :
    (∃ t', Keyed.find? schema inner.table = some t' ∧ t.Relates t' inner.cardinality) ∧ inner.Planned schema := by
  obtain ⟨c, table, filters, selections⟩ := q
  obtain ⟨t', ht', -, -, hselections⟩ := h
  rw [Query.table_mk, ht'] at ht
  cases ht
  exact selectionsPlanned_nested hselections hq

theorem Query.Planned.table {q : Query} (h : q.Planned schema) : ∃ t, Keyed.find? schema q.table = some t := by
  obtain ⟨c, table, filters, selections⟩ := q
  obtain ⟨t, ht, -⟩ := h
  exact ⟨t, ht⟩

theorem Spot.below_rows {x y : Spot} (ht : Keyed.find? schema x.query.table = some t)
    (h : y ∈ x.below (x.rows schema store)) : y = x ∨ ∃ r ∈ store.rows t.name, ∃ name label q,
      .nested label q ∈ x.query.selections ∧ ∃ z : Spot, z.query = q ∧ z.link = q.link schema t r ∧
        z.path = (x.path.row (r.key t).json).selection name ∧ y ∈ z.below (z.rows schema store) := by
  rcases Spot.below_cases h with rfl | ⟨key, fields, hrow, name, q, link, rows, hfield, hy⟩
  · exact .inl rfl
  refine .inr ?_
  rw [Spot.rows, Query.nodes_eq ht] at hrow
  obtain ⟨r, hr, heq⟩ := List.mem_map.mp hrow
  rw [Row.node_eq] at heq
  cases heq
  obtain ⟨⟨name', s⟩, hs, heq⟩ := List.mem_map.mp hfield
  cases s with
  | column label => cases heq
  | nested label q' =>
    cases heq
    exact ⟨r, List.mem_of_mem_filter hr, _, label, _, Selection.mem_of_named hs,
      ⟨_, _, (x.path.row (r.key t).json).selection _⟩, rfl, rfl, rfl, hy⟩

/-- All lists of the result of a query with a plan fit. -/
theorem Spot.Fits.below (hs : schema.Valid) (hrows : RowsTyped schema store) {x : Spot} (hx : x.Fits schema) :
    ∀ y ∈ x.below (x.rows schema store), y.Fits schema := by
  suffices hall : ∀ q : Query, ∀ x : Spot, x.query = q → x.Fits schema → ∀ y ∈ x.below (x.rows schema store),
      y.Fits schema from hall _ x rfl hx
  refine Query.nested_induction fun q ih x hq hx y hy => ?_
  obtain ⟨t, ht⟩ := hx.planned.table
  rcases Spot.below_rows ht hy with rfl | ⟨r, hr, name, label, q', hq', z, hz, hlink, -, hy⟩
  · exact hx
  obtain ⟨⟨inner, hinner, hrelates⟩, hplanned⟩ := hx.planned.nested ht hq'
  refine ih label q' (hq ▸ hq') z hz ⟨hz ▸ hplanned, fun t' ht' f hf => ?_⟩ y hy
  rw [hz, hinner] at ht'
  cases ht'
  rw [hlink] at hf
  exact hrelates.compares (hs.find? ht).1 (hs.find? hinner).1 hinner
    ((hrows.forall₂_rows (hs.find?_self ht)).2 r hr) hf

end Fits

/-! ## The listener of a list -/

section Listeners

variable {schema : Schema} {store store' : Store} {t : Table} {r : Row} {u : Subscriber} {x : Spot}

/-- A row that has a column's value as its key bytes meets the condition on it. -/
theorem Table.Compares.meets {f : Filter} (h : t.Compares f) (ht : t.Valid) (hr : t.Fits r) :
    ∃ v, r.value.member f.column = .ok v ∧ decide (v.toKey = .ok f.value.keyBytes) = r.meets f := by
  obtain ⟨c, hc, hty⟩ := h
  obtain ⟨hmem, hname⟩ := Table.mem_of_column? hc
  refine ⟨_, hname ▸ hr.member ht hmem, ?_⟩
  have hvalue := (hr.find? ht hmem).2
  rw [hname] at hvalue
  rw [Literal.toKey_value, Row.meets]
  refine decide_eq_decide.mpr ⟨fun heq => ?_, fun heq => by rw [heq]⟩
  exact Literal.eq_of_keyBytes (hvalue.trans hty.symm) (Except.ok.inj heq)

/-- A new row calls for the listener of a list if it meets the condition by which the listener is narrowed. -/
theorem Spot.awaits_subscription (hs : schema.Valid) (hx : x.Fits schema)
    (ht : Keyed.find? schema x.query.table = some t) (hr : t.Fits r) :
    (x.subscription u).awaits r.value = (x.link.or x.query.filters.head?).all fun f => r.meets f := by
  have hnarrow : ∀ f, x.link.or x.query.filters.head? = some f → t.Compares f := by
    intro f hf
    cases hlink : x.link with
    | some f' =>
      rw [hlink] at hf
      cases hf
      exact hx.tied t ht f hlink
    | none =>
      rw [hlink, Option.none_or] at hf
      exact hx.planned.compares ht f (List.mem_of_head? hf)
  rw [Spot.subscription, Query.subscription]
  cases hf : x.link.or x.query.filters.head? with
  | none => rfl
  | some f =>
    obtain ⟨v, hv, hmeets⟩ := (hnarrow f hf).meets (hs.find? ht).1 hr
    simp only [Option.map_some, Subscription.awaits, hv, hmeets, Option.all_some]

/-- A row belongs in a list if it meets the condition by which the listener is narrowed and the query's own. -/
theorem Spot.takes_eq (hx : x.query.table = t.name) :
    x.takes t r =
      ((x.link.or x.query.filters.head?).all (fun f => r.meets f) && x.query.filters.all fun f => r.meets f) := by
  rw [Spot.takes, decide_eq_true hx, Bool.true_and, List.all_append]
  cases x.link with
  | some f =>
    rw [Option.toList_some, List.all_cons, List.all_nil, Bool.and_true, Bool.and_comm]
    rfl
  | none =>
    rw [Option.toList_none, List.all_nil, Bool.and_true, Option.none_or]
    cases x.query.filters with
    | nil => rfl
    | cons f filters =>
      rw [List.head?_cons, Option.all_some, List.all_cons, ← Bool.and_assoc, Bool.and_self]

/-- One row has the key of a row, so of the rows under that key it alone may pass a test. -/
theorem filter_key {rows : List Row} (hkeys : (rows.map (·.key t)).Nodup) (hr : r ∈ rows) (test : Row → Bool) :
    rows.filter (fun r' => test r' && r'.meets ⟨t.primaryKey.name, r.key t⟩) = if test r then [r] else [] := by
  have hmeets : ∀ r' : Row, r'.meets ⟨t.primaryKey.name, r.key t⟩ = decide (r'.key t = r.key t) := fun _ => rfl
  induction rows with
  | nil => cases hr
  | cons r' rows ih =>
    obtain ⟨hnew, hkeys⟩ := List.nodup_cons.mp hkeys
    rw [List.filter_cons, hmeets]
    rcases List.mem_cons.mp hr with rfl | hr
    · have hothers : rows.filter (fun r' => test r' && r'.meets ⟨t.primaryKey.name, r.key t⟩) = [] := by
        refine List.filter_eq_nil_iff.mpr fun r' hr' => ?_
        rw [hmeets, decide_eq_false fun heq => hnew (List.mem_map.mpr ⟨r', hr', heq⟩), Bool.and_false]
        exact Bool.false_ne_true
      rw [hothers, decide_eq_true rfl, Bool.and_true]
    · have hne : r'.key t ≠ r.key t := fun heq => hnew (List.mem_map.mpr ⟨r, hr, heq.symm⟩)
      rw [decide_eq_false hne, Bool.and_false, if_neg Bool.false_ne_true]
      exact ih hkeys hr

/-- A query that is run again for a stored row yields the row if the row meets its conditions. -/
theorem Query.renewed_of_mem {q : Query} (hs : schema.Valid) (hstore : store.Ordered) (hrows : RowsTyped schema store)
    (hkeys : RowsKeyed schema store) (hr : r ∈ store.rows t.name) (ht : Keyed.find? schema t.name = some t)
    (hplanned : q.Planned schema) (hname : q.table = t.name) : q.renewed schema store (r.key t) =
      .ok (if q.filters.all (fun f => r.meets f) then [r.node schema store t q.selections] else []) := by
  have hfind : Keyed.find? schema q.table = some t := hname ▸ ht
  have htv : t.Valid := (hs.find? ht).1
  have hfits : t.Fits r := (hrows.forall₂_rows ht).2 r hr
  have hkey : t.Compares ⟨t.primaryKey.name, r.key t⟩ :=
    Table.compares_of_mem htv htv.columns_spec.2 (hfits.find? htv htv.columns_spec.2).2
  obtain ⟨plan, hplan⟩ := (Plan.live_ok_iff hs).mpr (hplanned.restrict hfind hkey)
  have htest : ∀ r' : Row, ((q.restrict t.primaryKey.name (r.key t)).filters ++ none.toList).all r'.meets =
      (q.filters.all (fun f => r'.meets f) && r'.meets ⟨t.primaryKey.name, r.key t⟩) := by
    intro r'
    rw [Query.restrict, Query.filters_mk, Option.toList_none, List.append_nil, List.all_append, List.all_cons,
      List.all_nil, Bool.and_true]
  have hall := filter_key (hkeys.nodup_keys hstore ht) hr fun r' => q.filters.all fun f => r'.meets f
  have hrows' : (q.restrict t.primaryKey.name (r.key t)).nodes schema store none =
      if q.filters.all (fun f => r.meets f) then [r.node schema store t q.selections] else [] := by
    rw [Query.nodes_eq (q := q.restrict t.primaryKey.name (r.key t)) hfind]
    simp only [htest, hall]
    split <;> rfl
  simp only [Query.renewed, hfind, hplan, hrows']

/-- The query of a listener that a new row calls for is run again, and yields what its list gains. -/
theorem Spot.renewed_of_awaits (hs : schema.Valid) (hstore : store'.Ordered) (hrows : RowsTyped schema store')
    (hkeys : RowsKeyed schema store') (hgains : store.Gains store' t.name r) (ht : Keyed.find? schema t.name = some t)
    (hx : x.Fits schema) (hname : x.query.table = t.name) (hawaits : (x.subscription u).awaits r.value = true) :
    x.query.renewed schema store' (r.key t) = .ok (x.gain schema store' t r) := by
  have hmem : r ∈ store'.rows t.name := hgains.rows.mem_iff.mpr List.mem_cons_self
  rw [Spot.awaits_subscription hs hx (hname ▸ ht) ((hrows.forall₂_rows ht).2 r hmem)] at hawaits
  rw [Query.renewed_of_mem hs hstore hrows hkeys hmem ht hx.planned hname]
  simp only [Spot.gain, Spot.takes_eq hname, hawaits, Bool.true_and]

/-- A list gains nothing if its listener is not called for. -/
theorem Spot.gain_of_not_awaits (hs : schema.Valid) (hr : t.Fits r) (ht : Keyed.find? schema t.name = some t)
    (hx : x.Fits schema) (h : ¬(x.query.table = t.name ∧ (x.subscription u).awaits r.value = true)) :
    x.gain schema store t r = [] := by
  rw [Spot.gain, if_neg]
  intro htakes
  have hname : x.query.table = t.name := of_decide_eq_true (Bool.and_eq_true_iff.mp htakes).1
  rw [Spot.takes_eq hname, ← Spot.awaits_subscription (u := u) hs hx (hname ▸ ht) hr] at htakes
  exact h ⟨hname, (Bool.and_eq_true_iff.mp htakes).1⟩

end Listeners

/-! ## All listeners -/

theorem flatMap_filter_map {α β γ : Type} {xs : List α} {f : α → β} {test : β → Bool} {g : β → List γ} {h : α → List γ}
    (hin : ∀ x ∈ xs, test (f x) = true → g (f x) = h x) (hout : ∀ x ∈ xs, test (f x) = false → h x = []) :
    ((xs.map f).filter test).flatMap g = xs.flatMap h := by
  induction xs with
  | nil => rfl
  | cons x xs ih =>
    obtain ⟨hx, hin⟩ := List.forall_mem_cons.mp hin
    obtain ⟨hx', hout⟩ := List.forall_mem_cons.mp hout
    rw [List.map_cons, List.filter_cons, List.flatMap_cons]
    cases htest : test (f x) with
    | true => rw [if_pos rfl, List.flatMap_cons, hx htest, ih hin hout]
    | false => rw [if_neg Bool.false_ne_true, hx' htest, List.nil_append, ih hin hout]

section Lists

variable {schema : Schema} {store store' : Store} {t : Table} {r : Row} {u : Subscriber} {xs : List Spot}

/-- What the listeners do that a new row calls for is up to what their lists gain. -/
theorem Spot.flatMap_awaiting (hs : schema.Valid) (hstore : store'.Ordered) (hrows : RowsTyped schema store')
    (hkeys : RowsKeyed schema store') (hgains : store.Gains store' t.name r) (ht : Keyed.find? schema t.name = some t)
    (hfits : ∀ x ∈ xs, x.Fits schema) {γ : Type} {g : Subscription → List γ} {h : Spot → List Node → List γ}
    (hg : ∀ x, ∀ rows, x.query.renewed schema store' (r.key t) = .ok rows → g (x.subscription u) = h x rows)
    (hnil : ∀ x, h x [] = []) :
    ((xs.map (Spot.subscription u)).filter fun z => decide (z.tableName = t.name) && z.awaits r.value).flatMap g =
      xs.flatMap fun x => h x (x.gain schema store' t r) := by
  have hr : t.Fits r := (hrows.forall₂_rows ht).2 r (hgains.rows.mem_iff.mpr List.mem_cons_self)
  refine flatMap_filter_map (fun x hx htest => ?_) fun x hx htest => ?_
  · obtain ⟨hname, hawaits⟩ := Bool.and_eq_true_iff.mp htest
    exact hg x _ (Spot.renewed_of_awaits hs hstore hrows hkeys hgains ht (hfits x hx) (of_decide_eq_true hname) hawaits)
  · rw [Spot.gain_of_not_awaits (u := u) hs hr ht (hfits x hx), hnil]
    rintro ⟨hname, hawaits⟩
    have hname : (x.subscription u).tableName = t.name := hname
    rw [decide_eq_true hname, hawaits] at htest
    cases htest

/-- What the listeners of lists are told on a new row is what the lists gain. -/
theorem Spot.messages_awaiting (hs : schema.Valid) (hstore : store'.Ordered) (hrows : RowsTyped schema store')
    (hkeys : RowsKeyed schema store') (hgains : store.Gains store' t.name r) (ht : Keyed.find? schema t.name = some t)
    (hfits : ∀ x ∈ xs, x.Fits schema) :
    ((xs.map (Spot.subscription u)).filter fun z => decide (z.tableName = t.name) && z.awaits r.value).flatMap
        (fun z => z.listener.messages schema store' (r.key t)) =
      (Spot.news schema store' t r xs).map (Told.message u) := by
  rw [Spot.news, List.map_flatMap]
  simp only [List.map_map]
  exact Spot.flatMap_awaiting hs hstore hrows hkeys hgains ht hfits
    (h := fun x rows => rows.map (Told.message u ∘ Told.mk x))
    (fun x rows hrenewed => by
      simp only [Spot.subscription, Query.subscription, Subscription.listener, Listener.messages, hrenewed]
      rfl)
    fun _ => rfl

/-- What is subscribed to on a new row is what there is in the rows that lists gain. -/
theorem Spot.sent_awaiting (hs : schema.Valid) (hstore : store'.Ordered) (hrows : RowsTyped schema store')
    (hkeys : RowsKeyed schema store') (hgains : store.Gains store' t.name r) (ht : Keyed.find? schema t.name = some t)
    (hfits : ∀ x ∈ xs, x.Fits schema) :
    (((xs.map (Spot.subscription u)).filter fun z => decide (z.tableName = t.name) && z.awaits r.value).flatMap
      fun z => z.listener.sent schema store' (r.key t)).Perm
        ((Spot.gains schema store' t r xs).flatMap (Entry.subscriptions u)) := by
  rw [Spot.flatMap_awaiting hs hstore hrows hkeys hgains ht hfits
    (h := fun x rows => nodeSubscriptions u x.query.table x.path rows) (fun x rows hrenewed => by
      simp only [Spot.subscription, Query.subscription, Subscription.listener, Listener.sent, hrenewed,
        nodeSubscriptions_eq])
    fun _ => rfl, Spot.gains, List.flatMap_assoc]
  exact List.Perm.flatMap_left _ fun x _ => subscriptions_perm _ _ _

end Lists

/-! ## The result of a live query -/

section Results

variable {schema : Schema} {store : Store} {u : Subscriber}

/-- The subscriptions of a live query: to the list of all its rows, and row by row. -/
theorem Query.sent_entries (q : Query) : (q.sent schema store { subscriber := u }).Perm
    (q.spot.subscription u :: (q.spot.entries (q.spot.rows schema store)).flatMap (Entry.subscriptions u)) := by
  have hentries := subscriptions_perm (u := u) (q.spot.rows schema store) q.table Path.root
  rw [nodeSubscriptions_eq] at hentries
  rw [Query.sent, if_neg Bool.false_ne_true]
  exact hentries.cons _

/-- The subscriptions of a live query: to the lists of its result, and to the rows. -/
theorem Query.sent_perm (q : Query) : (q.sent schema store { subscriber := u }).Perm
    ((q.spot.below (q.spot.rows schema store)).map (Spot.subscription u) ++
      (q.spot.entries (q.spot.rows schema store)).map fun e => .record e.table e.key.keyBytes ⟨u, none, e.path⟩) := by
  have hsplit : (q.spot.entries (q.spot.rows schema store)).flatMap (Entry.subscriptions u) |>.Perm
      ((q.spot.entries (q.spot.rows schema store)).flatMap (fun e => e.spots.map (Spot.subscription u)) ++
        (q.spot.entries (q.spot.rows schema store)).flatMap fun e =>
          [.record e.table e.key.keyBytes ⟨u, none, e.path⟩]) :=
    flatMap_perm_of_append fun e _ => @List.perm_append_comm _ [_] _
  rw [← List.map_eq_flatMap] at hsplit
  rw [Spot.below, List.map_cons, List.map_flatMap]
  exact (Query.sent_entries q).trans (hsplit.cons _)

mutual

theorem names_of_node {known : String → Literal → Prop} : (n : Node) → (table : String) → (p : Path) →
    n.Sound known table → ∀ e ∈ n.entries table p, (Keyed.keys e.shown).Nodup
  | .mk key fields, table, p, ⟨_, hnames, hfields⟩, e, he => by
    rcases List.mem_cons.mp he with rfl | he
    · rw [Keyed.keys, Keyed.mapValues, List.map_map]
      exact hnames
    · exact names_of_fields fields _ hfields e he

theorem names_of_fields {known : String → Literal → Prop} : (fields : List (String × Field)) → (p : Path) →
    fieldsSound known fields → ∀ e ∈ fieldEntries p fields, (Keyed.keys e.shown).Nodup
  | [], _, _, _, he => absurd he List.not_mem_nil
  | (_, .column _) :: rest, p, ⟨_, hrest⟩, e, he => names_of_fields rest p hrest e he
  | (name, .nested q _ rows) :: rest, p, ⟨⟨_, _, hrows⟩, hrest⟩, e, he => by
    rcases List.mem_append.mp he with he | he
    · exact names_of_nodes rows q.table _ hrows e he
    · exact names_of_fields rest p hrest e he

theorem names_of_nodes {known : String → Literal → Prop} : (rows : List Node) → (table : String) → (p : Path) →
    nodesSound known table rows → ∀ e ∈ nodeEntries table p rows, (Keyed.keys e.shown).Nodup
  | [], _, _, _, _, he => absurd he List.not_mem_nil
  | n :: rest, table, p, ⟨hn, hrest⟩, e, he => by
    rcases List.mem_append.mp he with he | he
    · exact names_of_node n table p hn e he
    · exact names_of_nodes rest table p hrest e he

end

/-- No two rows of a result have one path. -/
theorem Spot.distinct_rows (hs : schema.Valid) (hstore : store.Ordered) (hkeys : RowsKeyed schema store) (x : Spot)
    (hlevels : x.query.levels ≤ Plan.maxPoints) : Entry.Distinct (x.entries (x.rows schema store)) := by
  obtain ⟨hnodup, hsound⟩ := nodes_sound hs hstore hkeys x.query hlevels x.link
  refine ⟨?_, names_of_nodes _ _ _ hsound⟩
  -- each row has a subscription of its own
  have hsites := (nodes_scattered (u := default) _ x.query.table x.path hnodup hsound).1.apart
  have hperm := subscriptions_perm (u := default) (x.rows schema store) x.query.table x.path
  have hall := (hperm.map Subscription.site).nodup_iff.mp hsites
  have hsub : ((x.entries (x.rows schema store)).map fun e : Entry =>
      Subscription.record e.table e.key.keyBytes ⟨default, none, e.path⟩).Sublist
        ((x.entries (x.rows schema store)).flatMap (Entry.subscriptions default)) := by
    rw [← List.flatMap_singleton' (List.map _ _), List.flatMap_map]
    exact List.Sublist.flatMap_right _ fun e _ => List.singleton_sublist.mpr List.mem_cons_self
  have hown := (hsub.map Subscription.site).nodup hall
  rw [List.map_map] at hown
  refine List.Nodup.of_map (Prod.mk true) ?_
  rw [List.map_map]
  exact hown

end Results

end LiveQuery
