import LiveQuery.Proofs.Query.Arrange

/-! # Which queries have a plan

A query has a live plan if and only if it is `Query.Planned` in the schema: the tables, columns and references that it
names are there, each filter has a value of its column's type, and the two sides of each reference have one type
(`Plan.live_ok_iff`). Nothing in that is about the place of the query, so a query that was planned inside of another
one has a plan of its own, and so has one with a filter more (`Query.Planned.restrict`).
-/
namespace LiveQuery

/-- A column of one table refers to the primary key of the other one and has its type. -/
def Table.Relates (outer inner : Table) : Cardinality → Prop
  | .many => ∃ c, inner.foreignKey? outer.name = some c ∧ c.type = outer.primaryKey.type
  | .one => ∃ c, outer.foreignKey? inner.name = some c ∧ c.type = inner.primaryKey.type

/-- The filter compares a column of the table with a value of its type. -/
def Table.Compares (t : Table) (f : Filter) : Prop := ∃ c, t.column? f.column = some c ∧ f.value.ty = c.type.ty

mutual

/-- What the planner asks of a query. -/
def Query.Planned (schema : Schema) : Query → Prop
  | .mk _ name filters selections => ∃ t, Keyed.find? schema name = some t ∧ (∀ f ∈ filters, t.Compares f) ∧
      (selections.map Selection.name).Nodup ∧ selectionsPlanned schema t selections

/-- What the planner asks of the selections from rows of `t`. -/
def selectionsPlanned (schema : Schema) (t : Table) : List Selection → Prop
  | [] => True
  | .column name :: rest => (∃ c, t.column? name = some c) ∧ selectionsPlanned schema t rest
  | .nested _ q :: rest => (∃ inner, Keyed.find? schema q.table = some inner ∧ t.Relates inner q.cardinality) ∧
      q.Planned schema ∧ selectionsPlanned schema t rest

end

theorem ColumnType.ty_injective : Function.Injective ColumnType.ty := by
  intro a b h
  cases a <;> cases b <;> first | rfl | cases h

namespace Query.Planned

variable {schema : Schema} {q : Query} {t : Table}

theorem compares (h : q.Planned schema) (ht : Keyed.find? schema q.table = some t) : ∀ f ∈ q.filters, t.Compares f := by
  obtain ⟨c, name, filters, selections⟩ := q
  obtain ⟨t', ht', hfilters, -⟩ := h
  rw [Query.table_mk, ht'] at ht
  cases ht
  exact hfilters

/-- One more filter does not matter if it compares a column with a value of its type. -/
theorem restrict (h : q.Planned schema) (ht : Keyed.find? schema q.table = some t) {column : String} {value : Literal}
    (hvalue : t.Compares ⟨column, value⟩) : (q.restrict column value).Planned schema := by
  obtain ⟨c, name, filters, selections⟩ := q
  obtain ⟨t', ht', hfilters, hselections⟩ := h
  rw [Query.table_mk, ht'] at ht
  cases ht
  refine ⟨t, ht', fun f hf => ?_, hselections⟩
  rcases List.mem_append.mp hf with hf | hf
  · exact hfilters f hf
  · rw [List.mem_singleton.mp hf]
    exact hvalue

end Query.Planned

namespace Plan

variable {schema : Schema} {live : Bool} {types : TypeScope}

/-! ## What has a plan is well-formed -/

theorem compares_of_filterTest {t : Table} {row : String} {f : Filter} {e : Expr} (h : filterTest t row f = .ok e) :
    t.Compares f := by
  obtain ⟨c, hc, hty, -⟩ := filterTest_ok h
  exact ⟨c, hc, hty⟩

/-- If the outer side of a join has the type of the inner one, the tables are related. -/
theorem relates_of_between {outer inner : Table} {row : String} {c : Cardinality} {j : Join} (houter : outer.Valid)
    (hrow : types.lookup row = .ok outer.rowType) (h : Join.between outer row inner c = .ok j)
    (hagrees : j.outer.infer types = .ok j.type.ty) : outer.Relates inner c := by
  rcases between_ok h with ⟨rfl, r, hr, rfl⟩ | ⟨rfl, r, hr, rfl⟩
  · refine ⟨r, hr, ?_⟩
    have hinfer := infer_column houter hrow houter.columns_spec.2
    exact ColumnType.ty_injective (Except.ok.inj (hagrees.symm.trans hinfer))
  · refine ⟨r, hr, ?_⟩
    have hmem : r ∈ outer.columns := List.mem_of_find?_eq_some hr
    have hinfer := infer_column houter hrow hmem
    exact (ColumnType.ty_injective (Except.ok.inj (hagrees.symm.trans hinfer))).symm

mutual

theorem planned_of_level (hs : schema.Valid) : (q : Query) → {place : Place} → {points points' : List Point} →
    {e : Expr} → {u : Ty} → Sees schema place.types → (level schema live place q).run points = .ok (e, points') →
    e.infer place.types = .ok u → q.Planned schema
  | .mk c name filters selections, place, points, points', e, u, hsees, h, he => by
    obtain ⟨t, tests, fields, result, ht, htests, hfields, hinfer, rfl⟩ := level_ok h
    obtain ⟨hnodup, -, -⟩ := distinct_of_fieldsOf selections hfields
    refine ⟨t, ht, fun f hf => ?_, hnodup, ?_⟩
    · obtain ⟨e, -, he⟩ := exists_of_forall₂ (forall₂_of_mapM htests).flip f hf
      exact compares_of_filterTest he
    · exact planned_of_fieldsOf hs selections hsees.inner (hs.find? ht).1 lookup_innerTypes_self hfields
        (Expr.infer_of_record hinfer)

theorem planned_of_fieldsOf (hs : schema.Valid) : (selections : List Selection) → {t : Table} → {place : Place} →
    {points points' : List Point} → {fields final : List (String × Expr)} → Sees schema place.types → t.Valid →
    place.types.lookup (rowName place.level) = .ok t.rowType →
    (fieldsOf schema live t place fields selections).run points = .ok (final, points') →
    (∀ f ∈ final, ∃ u, f.2.infer place.types = .ok u) → selectionsPlanned schema t selections
  | [], _, _, _, _, _, _, _, _, _, _, _ => trivial
  | .column name :: rest, t, place, points, points', fields, final, hsees, ht, hrow, h, hinfer => by
    obtain ⟨-, hc, hrest⟩ := fieldsOf_column_ok h
    exact ⟨hc, planned_of_fieldsOf hs rest hsees ht hrow hrest hinfer⟩
  | .nested name q :: rest, t, place, points, points', fields, final, hsees, ht, hrow, h, hinfer => by
    obtain ⟨-, inner, join, e, points₁, hinner, hjoin, he, hrest⟩ := fieldsOf_nested_ok h
    obtain ⟨u, hu⟩ := hinfer (name, e) (subset_of_fieldsOf hrest (Keyed.mem_insert_self _ _ _))
    have hagrees : (place.inside join name).Agrees :=
      agrees_of_level hsees (joins_inside name hs hinner hjoin) he hu
    have hinside : Sees schema (place.inside join name).types := hsees
    refine ⟨⟨inner, hinner, relates_of_between ht hrow hjoin (hagrees join rfl)⟩,
      planned_of_level hs q hinside he hu, ?_⟩
    exact planned_of_fieldsOf hs rest hsees ht hrow hrest hinfer

end

/-! ## What is well-formed has a plan -/

theorem filterTests_of_compares {t : Table} (row : String) {filters : List Filter} (h : ∀ f ∈ filters, t.Compares f) :
    ∃ tests, filters.mapM (filterTest t row) = .ok tests := by
  induction filters with
  | nil => exact ⟨[], rfl⟩
  | cons f filters ih =>
    obtain ⟨⟨c, hc, hty⟩, hrest⟩ := List.forall_mem_cons.mp h
    obtain ⟨tests, htests⟩ := ih hrest
    refine ⟨equals c.type (.member (.var row) c.name) f.value.expr :: tests, ?_⟩
    have hf : filterTest t row f = .ok (equals c.type (.member (.var row) c.name) f.value.expr) := by
      rw [filterTest, column, hc]
      exact if_neg fun hne => hne hty
    rw [List.mapM_cons, hf, htests]
    rfl

theorem infer_record {fields : List (String × Expr)} (h : ∀ f ∈ fields, ∃ u, f.2.infer types = .ok u) :
    ∃ u, (Expr.record fields).infer types = .ok u := by
  suffices hfields : ∃ ts, Expr.inferFields types fields = .ok ts by
    obtain ⟨ts, hts⟩ := hfields
    exact ⟨.record ts, by rw [Expr.infer, hts]; rfl⟩
  induction fields with
  | nil => exact ⟨[], rfl⟩
  | cons f fields ih =>
    obtain ⟨⟨u, hu⟩, hrest⟩ := List.forall_mem_cons.mp h
    obtain ⟨ts, hts⟩ := ih hrest
    exact ⟨(f.1, u) :: ts, by rw [Expr.inferFields, hu, hts]; rfl⟩

/-- Related tables are joined, and the two sides of the join have one type. -/
theorem between_of_relates {outer inner : Table} {row : String} {c : Cardinality} (houter : outer.Valid)
    (hrow : types.lookup row = .ok outer.rowType) (h : outer.Relates inner c) :
    ∃ j, Join.between outer row inner c = .ok j ∧ j.outer.infer types = .ok j.type.ty := by
  cases c with
  | many =>
    obtain ⟨r, hr, htype⟩ := h
    refine ⟨⟨r.name, r.type, .member (.var row) outer.primaryKey.name⟩, by rw [Join.between]; simp only [hr], ?_⟩
    rw [infer_column houter hrow houter.columns_spec.2, htype]
  | one =>
    obtain ⟨r, hr, htype⟩ := h
    refine ⟨⟨inner.primaryKey.name, inner.primaryKey.type, .member (.var row) r.name⟩,
      by rw [Join.between]; simp only [hr], ?_⟩
    have hmem : r ∈ outer.columns := List.mem_of_find?_eq_some hr
    rw [infer_column houter hrow hmem, htype]

/-- A name that is not selected again is new after another one was added. -/
theorem insert_new {fields : List (String × Expr)} {name : String} {e : Expr} {rest : List Selection}
    (hname : name ∉ rest.map Selection.name) (h : ∀ s ∈ rest, Keyed.find? fields s.name = none) :
    ∀ s ∈ rest, Keyed.find? (Keyed.insert fields name e) s.name = none := by
  intro s hs
  have hne : name ≠ s.name := fun heq => hname (heq ▸ List.mem_map_of_mem hs)
  rw [Keyed.find?_insert_of_ne fields e hne]
  exact h s hs

theorem forall_insert {P : Expr → Prop} {fields : List (String × Expr)} {name : String} {e : Expr}
    (h : ∀ f ∈ fields, P f.2) (he : P e) : ∀ f ∈ Keyed.insert fields name e, P f.2 := by
  intro f hf
  rcases Keyed.mem_of_mem_insert hf with rfl | hf
  · exact he
  · exact h f hf

theorem run_bind_of_ok {α β : Type} {x : Planner α} {f : α → Planner β} {points points' : List Point} {a : α}
    (h : x.run points = .ok (a, points')) : (x >>= f).run points = (f a).run points' := by
  rw [StateT.run_bind, h]
  rfl

theorem run_liftM_of_ok {α : Type} {r : Except PlanFault α} {points : List Point} {a : α} (h : r = .ok a) :
    (liftM r : Planner α).run points = .ok (a, points) := by
  rw [h]
  rfl

theorem table_of_find? {name : String} {t : Table} (h : Keyed.find? schema name = some t) :
    table schema name = .ok t := by
  rw [table, h]

theorem fieldsOf_column {t : Table} {place : Place} {fields : List (String × Expr)} {name : String} {c : Column}
    {rest : List Selection} {points : List Point} (hfree : Keyed.find? fields name = none)
    (hc : t.column? name = some c) : (fieldsOf schema live t place fields (.column name :: rest)).run points =
      (fieldsOf schema live t place (Keyed.insert fields name (.member (.var (rowName place.level)) name)) rest).run
        points := by
  have hnew : Keyed.contains fields name = false := by rw [Keyed.contains, hfree]; rfl
  have hcolumn : column t name = .ok c := by rw [column, hc]
  rw [fieldsOf, hnew, hcolumn]
  rfl

theorem fieldsOf_nested {t inner : Table} {place : Place} {fields : List (String × Expr)} {name : String} {q : Query}
    {join : Join} {e : Expr} {rest : List Selection} {points points₁ : List Point}
    (hfree : Keyed.find? fields name = none) (hinner : Keyed.find? schema q.table = some inner)
    (hjoin : Join.between t (rowName place.level) inner q.cardinality = .ok join)
    (he : (level schema live (place.inside join name) q).run points = .ok (e, points₁)) :
    (fieldsOf schema live t place fields (.nested name q :: rest)).run points =
      (fieldsOf schema live t place (Keyed.insert fields name e) rest).run points₁ := by
  have hnew : Keyed.contains fields name = false := by rw [Keyed.contains, hfree]; rfl
  rw [fieldsOf, hnew]
  refine (run_bind_of_ok (run_liftM_of_ok (table_of_find? hinner))).trans ?_
  refine (run_bind_of_ok (run_liftM_of_ok hjoin)).trans ?_
  exact run_bind_of_ok he

theorem level_of_fieldsOf {q : Query} {place : Place} {points points' : List Point} {t : Table} {tests : List Expr}
    {fields : List (String × Expr)} {result : Ty} (ht : Keyed.find? schema q.table = some t)
    (htests : q.filters.mapM (filterTest t (rowName place.level)) = .ok tests)
    (hfields : (fieldsOf schema live t { place with types := innerTypes t place } [] q.selections).run
      (points ++ if live then [point q t place] else []) = .ok (fields, points'))
    (hinfer : (Expr.record fields).infer (innerTypes t place) = .ok result) :
    (level schema live place q).run points = .ok (.callOf Builtin.map.name [rowsAt live q t place tests points,
      .lambda [(rowName place.level, t.rowType)] result (.record fields)], points') := by
  obtain ⟨c, name, filters, selections⟩ := q
  rw [level]
  refine (run_bind_of_ok (run_liftM_of_ok (table_of_find? ht))).trans ?_
  refine (run_bind_of_ok (run_liftM_of_ok htests)).trans ?_
  let rows := filteredRows t (rowName place.level) (testsAt place tests)
  have htype : (Expr.record fields).infer (Links.child place.types [(rowName place.level, t.rowType)]) = .ok result :=
    hinfer
  cases live with
  | true =>
    have hrows : (listenRows (.mk c name filters selections) t place rows).run points =
      .ok (rowsAt true (.mk c name filters selections) t place tests points,
        points ++ [point (.mk c name filters selections) t place]) := rfl
    refine (run_bind_of_ok hrows).trans ?_
    refine (run_bind_of_ok hfields).trans ?_
    dsimp only
    rw [htype]
    rfl
  | false =>
    rw [if_neg Bool.false_ne_true, List.append_nil] at hfields
    have hrows : (pure rows : Planner Expr).run points = .ok (rows, points) := rfl
    refine (run_bind_of_ok hrows).trans ?_
    refine (run_bind_of_ok hfields).trans ?_
    dsimp only
    rw [htype]
    rfl

mutual

theorem level_of_planned (hs : schema.Valid) : (q : Query) → (place : Place) → Sees schema place.types →
    (∀ t, Keyed.find? schema q.table = some t → place.Joins t) → place.Agrees → q.Planned schema →
    ∀ points, ∃ e points', (level schema live place q).run points = .ok (e, points') ∧
      ∃ u, e.infer place.types = .ok u
  | .mk c name filters selections, place, hsees, hjoins, hagrees, ⟨t, ht, hfilters, hnodup, hselections⟩, points => by
    obtain ⟨htv, -⟩ := hs.find? ht
    obtain ⟨tests, htests⟩ := filterTests_of_compares (rowName place.level) hfilters
    obtain ⟨fields, points', hfields, hall⟩ := fieldsOf_of_planned hs selections
      { place with types := innerTypes t place } hsees.inner htv lookup_innerTypes_self hnodup
      (fun s _ => rfl) hselections (fun f hf => absurd hf List.not_mem_nil)
      (points ++ if live then [point (.mk c name filters selections) t place] else [])
    obtain ⟨result, hinfer⟩ := infer_record hall
    have hproper := proper_of_body place hs hsees htv hfields hinfer
    exact ⟨_, points', level_of_fieldsOf ht htests hfields hinfer, .iterator result,
      infer_level hsees hs (hs.find?_self ht) (hjoins t ht) hagrees htests hinfer hproper⟩

theorem fieldsOf_of_planned (hs : schema.Valid) : (selections : List Selection) → {t : Table} → (place : Place) →
    {fields : List (String × Expr)} → Sees schema place.types → t.Valid →
    place.types.lookup (rowName place.level) = .ok t.rowType → (selections.map Selection.name).Nodup →
    (∀ s ∈ selections, Keyed.find? fields s.name = none) → selectionsPlanned schema t selections →
    (∀ f ∈ fields, ∃ u, f.2.infer place.types = .ok u) → ∀ points, ∃ final points',
      (fieldsOf schema live t place fields selections).run points = .ok (final, points') ∧
        ∀ f ∈ final, ∃ u, f.2.infer place.types = .ok u
  | [], t, place, fields, _, _, _, _, _, _, hall, points => ⟨fields, points, rfl, hall⟩
  | .column name :: rest, t, place, fields, hsees, ht, hrow, hnodup, hnew, ⟨⟨c, hc⟩, hrest⟩, hall, points => by
    obtain ⟨hname, hnodup⟩ := List.nodup_cons.mp hnodup
    obtain ⟨hfree, hnew⟩ := List.forall_mem_cons.mp hnew
    have hfree : Keyed.find? fields name = none := hfree
    obtain ⟨hmem, hc'⟩ := Table.mem_of_column? hc
    have hinfer := infer_column ht hrow hmem
    rw [hc'] at hinfer
    obtain ⟨final, points', hfinal, hfields⟩ := fieldsOf_of_planned hs rest place hsees ht hrow hnodup
      (insert_new hname hnew) hrest (forall_insert (P := fun e => ∃ u, e.infer place.types = .ok u) hall ⟨_, hinfer⟩)
      points
    exact ⟨final, points', by rw [fieldsOf_column hfree hc]; exact hfinal, hfields⟩
  | .nested name q :: rest, t, place, fields, hsees, ht, hrow, hnodup, hnew, ⟨⟨inner, hinner, hrelates⟩, hq, hrest⟩,
    hall, points => by
    obtain ⟨hname, hnodup⟩ := List.nodup_cons.mp hnodup
    obtain ⟨hfree, hnew⟩ := List.forall_mem_cons.mp hnew
    have hfree : Keyed.find? fields name = none := hfree
    obtain ⟨join, hjoin, hagrees⟩ := between_of_relates ht hrow hrelates
    have hinside : Sees schema (place.inside join name).types := hsees
    obtain ⟨e, points₁, he, hinfer⟩ := level_of_planned hs q (place.inside join name) hinside
      (joins_inside name hs hinner hjoin) (by rintro j ⟨⟩; exact hagrees) hq points
    obtain ⟨final, points', hfinal, hfields⟩ := fieldsOf_of_planned hs rest place hsees ht hrow hnodup
      (insert_new hname hnew) hrest (forall_insert (P := fun e => ∃ u, e.infer place.types = .ok u) hall hinfer) points₁
    exact ⟨final, points', by rw [fieldsOf_nested hfree hinner hjoin he]; exact hfinal, hfields⟩

end

/-- The queries with a live plan are those that are well-formed in the schema. -/
theorem live_ok_iff (hs : schema.Valid) {q : Query} :
    (∃ plan, Plan.live schema (Catalog.types schema) q = .ok plan) ↔ q.Planned schema := by
  have hsees : Sees schema (Catalog.types schema) := fun _ _ => rfl
  constructor
  · rintro ⟨⟨e, points⟩, h⟩
    obtain ⟨u, hu⟩ := infer_root hs h
    exact planned_of_level hs q hsees h hu
  · intro h
    obtain ⟨e, points, hlevel, -⟩ := level_of_planned hs q
      { types := Catalog.types schema } hsees (fun _ _ j hj => absurd hj (by simp))
      (fun j hj => absurd hj (by simp)) h []
    exact ⟨(e, points), hlevel⟩

/-- A query that is well-formed in the schema can be run once, too. -/
theorem select_of_planned (hs : schema.Valid) {q : Query} (h : q.Planned schema) :
    ∃ e, Plan.select schema (Catalog.types schema) q = .ok e := by
  have hlevel : ∃ e points, (level schema false { types := Catalog.types schema } q).run [] = .ok (e, points) ∧
      ∃ u, e.infer (Catalog.types schema) = .ok u :=
    level_of_planned hs q _ (fun _ _ => rfl) (fun _ _ j hj => absurd hj (by simp))
      (fun j hj => absurd hj (by simp)) h []
  obtain ⟨e, points, hlevel, -⟩ := hlevel
  exact ⟨e, by rw [Plan.select, hlevel]; rfl⟩

end Plan

end LiveQuery
