import LiveQuery.Proofs.Live.Following
import LiveQuery.Proofs.Live.Hearing

/-! # Rows that are announced

An insertion commits its row first and announces it afterwards, when its event is posted. Between the two the row is
stored and nobody has been called for it (`Database.unannounced`).
-/
namespace LiveQuery

/-! ## Queries of columns -/

def Selection.isColumn : Selection → Bool
  | .column _ => true
  | .nested .. => false

namespace Query

variable {schema : Schema} {store : Store} {t : Table} {q : Query} {u : Subscriber} {r : Row} {rows : List Row}

/-- Whether the query shows columns only, so that its rows are those of one table. -/
def isFlat (q : Query) : Bool := q.selections.all Selection.isColumn

/-- What is shown of a row, where nothing but columns is. -/
def display (q : Query) (r : Row) : Json :=
  .obj (Keyed.ofList (q.selections.map fun s => (s.name, (r.get s.name).json)))

/-- Whether a row meets the conditions of the query. -/
def holds (q : Query) (r : Row) : Bool := q.filters.all fun f => r.meets f

/-- The rows that the query yields among some, as they are shown. -/
def shown (q : Query) (rows : List Row) : List Json := (rows.filter q.holds).map q.display

/-- The messages with the rows that the query yields among some. -/
def told (q : Query) (u : Subscriber) (rows : List Row) : List Message :=
  (q.shown rows).map (.tableUpdate u.channel Path.root)

theorem shown_append (rows rows' : List Row) : q.shown (rows ++ rows') = q.shown rows ++ q.shown rows' := by
  rw [shown, List.filter_append, List.map_append]
  rfl

theorem told_append (rows rows' : List Row) : q.told u (rows ++ rows') = q.told u rows ++ q.told u rows' := by
  rw [told, shown_append, List.map_append]
  rfl

theorem shown_perm {rows rows' : List Row} (h : rows.Perm rows') : (q.shown rows).Perm (q.shown rows') :=
  (h.filter _).map _

theorem isColumn_of_named (hflat : q.isFlat = true) {name : String} {s : Selection}
    (h : (name, s) ∈ Selection.named q.selections) : ∃ column, s = .column column := by
  have hcolumn := List.all_eq_true.mp hflat s (Selection.mem_of_named h)
  cases s with
  | column column => exact ⟨column, rfl⟩
  | nested => cases hcolumn

theorem levels_of_isFlat (hflat : q.isFlat = true) : q.levels ≤ Plan.maxPoints := by
  obtain ⟨c, table, filters, selections⟩ := q
  have hnone : ∀ selections : List Selection, selections.all Selection.isColumn = true →
      selectionLevels selections = 0 := by
    intro selections h
    induction selections with
    | nil => rfl
    | cons s rest ih =>
      obtain ⟨hs, hrest⟩ := Bool.and_eq_true_iff.mp h
      cases s with
      | column => exact ih hrest
      | nested => cases hs
  rw [levels, hnone selections hflat]
  decide

theorem json_node (hflat : q.isFlat = true) : (r.node schema store t q.selections).json = q.display r := by
  rw [Row.node, Node.json, Node.jsonWith, fieldJsons_eq, Keyed.mapValues_ofList, display, selectedFields_eq]
  refine congrArg (fun fields => Json.obj (Keyed.ofList fields)) ?_
  rw [Keyed.mapValues, List.map_map]
  refine List.map_congr_left fun s hs => ?_
  have hcolumn := List.all_eq_true.mp hflat s hs
  cases s with
  | column => rfl
  | nested => cases hcolumn

/-- The rows of a query of columns are those that meet its conditions. -/
theorem json_nodes (hflat : q.isFlat = true) (hs : schema.Valid) (ht : Keyed.find? schema q.table = some t) :
    (q.nodes schema store none).map Node.json = q.shown (store.rows q.table) := by
  have hholds : (fun r : Row => (q.filters ++ none.toList).all r.meets) = q.holds := by
    funext r
    rw [Option.toList_none, List.append_nil, holds]
  rw [nodes_eq ht, hholds, (hs.find? ht).2, List.map_map, shown]
  exact List.map_congr_left fun r _ => json_node hflat

/-- A row of a query of columns is all that is subscribed to for it. -/
theorem isRecord_of_node (hflat : q.isFlat = true) {path : Path} {x : Subscription}
    (hx : x ∈ (r.node schema store t q.selections).subscriptions u q.table path) : x.isRecord = true := by
  have hcolumn : ∀ f ∈ Keyed.mapValues (Selection.field schema store t r) (Selection.named q.selections),
      ∃ v, f.2 = .column v := by
    intro f hf
    obtain ⟨⟨name, s⟩, hs, rfl⟩ := List.mem_map.mp hf
    obtain ⟨column, rfl⟩ := isColumn_of_named hflat hs
    exact ⟨_, rfl⟩
  rw [Row.node_eq, Node.subscriptions, fieldSubscriptions_eq] at hx
  rcases List.mem_cons.mp hx with rfl | hx
  · rfl
  · rcases List.mem_append.mp hx with hx | hx
    all_goals
      obtain ⟨⟨name, f⟩, hf, hx⟩ := List.mem_flatMap.mp hx
      obtain ⟨v, rfl⟩ := hcolumn _ hf
      cases hx

/-- A query of columns that is run again for a stored row tells of it if the row meets its conditions. -/
theorem renewed_of_isFlat (hflat : q.isFlat = true) (hs : schema.Valid) (hstore : store.Ordered)
    (hrows : RowsTyped schema store) (hkeys : RowsKeyed schema store) (hplanned : q.Planned schema)
    (ht : Keyed.find? schema q.table = some t) (hr : r ∈ store.rows q.table) :
    Listener.messages schema store ⟨u, some q, Path.root⟩ (r.key t) = q.told u [r] ∧
      ∀ x ∈ Listener.sent schema store ⟨u, some q, Path.root⟩ (r.key t), x.isRecord = true := by
  have hname : t.name = q.table := (hs.find? ht).2
  have hrenewed := Query.renewed_of_mem hs hstore hrows hkeys (hname ▸ hr) (hname ▸ ht) hplanned hname.symm
  rw [Listener.messages, Listener.sent]
  simp only [hrenewed]
  cases hholds : q.filters.all fun f => r.meets f with
  | false =>
    rw [if_neg Bool.false_ne_true, told, shown, List.filter_cons, holds, hholds, if_neg Bool.false_ne_true]
    exact ⟨rfl, by simp⟩
  | true =>
    rw [if_pos rfl, told, shown, List.filter_cons, holds, hholds, if_pos rfl, List.flatMap_singleton]
    exact ⟨by rw [List.map_singleton, Listener.update, json_node hflat]; rfl, fun x => isRecord_of_node hflat⟩

/-- A row that a listener on the query does not await is not one that the query yields. -/
theorem told_of_not_awaits (hs : schema.Valid) (hrows : RowsTyped schema store) (hplanned : q.Planned schema)
    (ht : Keyed.find? schema q.table = some t) (hr : r ∈ store.rows q.table)
    (h : ¬(q.subscription u none Path.root).awaits r.value = true) : q.told u [r] = [] := by
  have hname : t.name = q.table := (hs.find? ht).2
  have hfits : t.Fits r := (hrows.forall₂_rows (hname ▸ ht)).2 r (hname ▸ hr)
  have hawaits := Spot.awaits_subscription (u := u) hs hplanned.spot_fits ht hfits
  have hfirst : ¬(q.filters.head?.all fun f => r.meets f) = true := fun hfirst => h (hawaits.trans hfirst)
  have hholds : q.holds r = false := by
    rw [holds]
    cases hfilters : q.filters with
    | nil =>
      rw [hfilters] at hfirst
      exact absurd rfl hfirst
    | cons f filters =>
      rw [hfilters, List.head?_cons, Option.all_some, Bool.not_eq_true] at hfirst
      rw [List.all_cons, hfirst, Bool.false_and]
  rw [told, shown, List.filter_cons, hholds, if_neg Bool.false_ne_true]
  rfl

end Query

/-! ## Insertions that wait to be announced -/

/-- The row that an event tells of, if it was inserted. -/
def Event.inserted? (e : Event) : Option Row :=
  if e.old.isSome then none else e.new.bind Row.ofBytes?

/-- The inserted row that an action has to announce in a table. -/
def Action.inserted? (table : String) : Action → Option Row
  | .post name (.event e) => if name = table then e.inserted? else none
  | .post .. | .broadcast _ | .deliver .. | .answer .. | .hangUp _ => none

namespace Database

variable {s t : Database} {table : String}

/-- The rows of a table that are inserted, and whose insertion nobody has been told of. -/
def unannounced (s : Database) (table : String) : List Row := s.pending.filterMap (Action.inserted? table)

/-- The stored rows of a table whose insertion is not one that waits to be announced. -/
def announced (s : Database) (table : String) : List Row :=
  (s.store.rows table).filter fun r => r ∉ s.unannounced table

/-- Announcing rows adds them to those that are announced. -/
theorem announced_of_post {rows : List Row} (hrows : t.store.rows table = s.store.rows table)
    (hun : (s.unannounced table).Perm (rows ++ t.unannounced table)) (hnodup : (s.store.rows table).Nodup)
    (honce : (s.unannounced table).Nodup) (hstored : s.unannounced table ⊆ s.store.rows table) :
    (t.announced table).Perm (rows ++ s.announced table) := by
  have hsplit := List.nodup_append.mp (hun.nodup_iff.mp honce)
  have hmem : ∀ r, r ∈ s.unannounced table ↔ r ∈ rows ∨ r ∈ t.unannounced table :=
    fun r => hun.mem_iff.trans List.mem_append
  have hnew : ∀ r ∈ rows, r ∉ s.announced table := by
    intro r hr hold
    have htest := of_decide_eq_true (List.mem_filter.mp hold).2
    exact htest ((hmem r).mpr (.inl hr))
  have hnodup' : (t.announced table).Nodup := by
    rw [announced, hrows]
    exact hnodup.filter _
  refine (List.perm_ext_iff_of_nodup hnodup' ?_).mpr fun r => ?_
  · refine List.nodup_append.mpr ⟨hsplit.1, hnodup.filter _, ?_⟩
    rintro r hr _ hold rfl
    exact hnew r hr hold
  · simp only [announced, List.mem_append, List.mem_filter, decide_eq_true_iff, hrows, hmem, not_or]
    constructor
    · rintro ⟨hr, hwaits⟩
      by_cases hin : r ∈ rows
      · exact .inl hin
      · exact .inr ⟨hr, hin, hwaits⟩
    · rintro (hr | ⟨hr, -, hwaits⟩)
      · exact ⟨hstored ((hmem r).mpr (.inl hr)), fun hwaits => hsplit.2.2 r hr r hwaits rfl⟩
      · exact ⟨hr, hwaits⟩

/-- Rows that are committed wait to be announced. -/
theorem announced_of_commit {rows : List Row} (hrows : (t.store.rows table).Perm (rows ++ s.store.rows table))
    (hun : (t.unannounced table).Perm (rows ++ s.unannounced table)) (hnodup : (t.store.rows table).Nodup) :
    (t.announced table).Perm (s.announced table) := by
  obtain ⟨-, hnodup', hnew⟩ := List.nodup_append.mp (hrows.nodup_iff.mp hnodup)
  refine (List.perm_ext_iff_of_nodup (hnodup.filter _) (hnodup'.filter _)).mpr fun r => ?_
  simp only [List.mem_filter, decide_eq_true_iff, hrows.mem_iff, hun.mem_iff, List.mem_append, not_or]
  constructor
  · rintro ⟨hr | hr, hnone, hwaits⟩
    · exact absurd hr hnone
    · exact ⟨hr, hwaits⟩
  · rintro ⟨hr, hwaits⟩
    exact ⟨.inr hr, fun hin => hnew r hin r hr rfl, hwaits⟩

end Database

end LiveQuery
