import LiveQuery.Proofs.Database.References
import LiveQuery.Proofs.Plan.Planned
import LiveQuery.Proofs.Query.Growth

/-! # Valid queries

What a client has to know to write a query that is accepted: tables and columns by name, the types of columns, and which
table refers to which (`Query.Valid`). In a database that has grown from an empty one the valid queries are those that
have a plan, and the type of the plan is that of what is selected (`Grown.select_valid`). The planner itself does not
compare the two sides of a join; that they have one type is what the catalog sees to when a table is made.
-/
namespace LiveQuery

/-- A column of one of the tables refers to the other one: many rows inside refer to the row around them, or the row
around refers to the one row inside. -/
def Table.Refers (outer inner : Table) : Cardinality → Prop
  | .many => ∃ c ∈ inner.columns, c.references = some outer.name
  | .one => ∃ c ∈ outer.columns, c.references = some inner.name

/-- The tables, columns and references that a query names are there, a filter has a value of its column's type, and
what is selected of a row has different names. -/
inductive Query.Valid (schema : Schema) : Query → Prop
  | mk {c : Cardinality} {name : String} {filters : List Filter} {selections : List Selection} {t : Table}
      (table : Keyed.find? schema name = some t) (compares : ∀ f ∈ filters, t.Compares f)
      (columns : ∀ n, .column n ∈ selections → ∃ c, t.column? n = some c)
      (names : (selections.map Selection.name).Nodup)
      (references : ∀ n q, .nested n q ∈ selections →
        ∃ inner, Keyed.find? schema q.table = some inner ∧ t.Refers inner q.cardinality)
      (nested : ∀ n q, .nested n q ∈ selections → q.Valid schema) : (Query.mk c name filters selections).Valid schema

mutual

/-- The type of a row of a query as it is shown. -/
def Query.shownType (schema : Schema) : Query → Ty
  | .mk _ name _ selections => Ty.recordOf (((Keyed.find? schema name).map (shownTypes schema selections)).getD [])

/-- The types of what is selected of the rows of `t`, by name. -/
def shownTypes (schema : Schema) : List Selection → Table → List (String × Ty)
  | [], _ => []
  | .column name :: rest, t =>
    ((t.column? name).map fun c => (name, c.type.ty)).toList ++ shownTypes schema rest t
  | .nested name q :: rest, t => (name, .iterator (q.shownType schema)) :: shownTypes schema rest t

end

/-! ## Valid queries and planned ones -/

namespace Schema.Linked

variable {schema : Schema} {outer inner : Table} {c : Cardinality}

/-- A table that refers to another one does so by a column of the type of the other one's primary key. -/
theorem foreignKey? (h : schema.Linked) {t : Table} (ht : Keyed.find? schema t.name = some t) {target : String}
    {u : Table} (hu : Keyed.find? schema target = some u) (hrefers : ∃ c ∈ t.columns, c.references = some target) :
    ∃ c, t.foreignKey? target = some c ∧ c.type = u.primaryKey.type := by
  obtain ⟨c, hc, htarget⟩ := hrefers
  cases hfound : t.foreignKey? target with
  | none => exact absurd (decide_eq_true htarget) (List.find?_eq_none.mp hfound c hc)
  | some c' =>
    have htarget' : c'.references = some target := by simpa using List.find?_some hfound
    obtain ⟨u', hu', htype⟩ := h _ (Keyed.mem_of_find? ht) c' (List.mem_of_find?_eq_some hfound) target htarget'
    rw [hu] at hu'
    cases hu'
    exact ⟨c', rfl, htype.symm⟩

/-- Tables of which one refers to the other one are related. -/
theorem relates (h : schema.Linked) (houter : Keyed.find? schema outer.name = some outer)
    (hinner : Keyed.find? schema inner.name = some inner) (hrefers : outer.Refers inner c) : outer.Relates inner c := by
  cases c with
  | many => exact h.foreignKey? hinner houter hrefers
  | one => exact h.foreignKey? houter hinner hrefers

end Schema.Linked

theorem Table.Relates.refers {outer inner : Table} {c : Cardinality} (h : outer.Relates inner c) :
    outer.Refers inner c := by
  cases c with
  | many =>
    obtain ⟨r, hr, -⟩ := h
    exact ⟨r, List.mem_of_find?_eq_some hr, by simpa using List.find?_some hr⟩
  | one =>
    obtain ⟨r, hr, -⟩ := h
    exact ⟨r, List.mem_of_find?_eq_some hr, by simpa using List.find?_some hr⟩

theorem selectionsPlanned_iff {schema : Schema} {t : Table} {selections : List Selection} :
    selectionsPlanned schema t selections ↔ (∀ n, .column n ∈ selections → ∃ c, t.column? n = some c) ∧
      ∀ n q, .nested n q ∈ selections →
        (∃ inner, Keyed.find? schema q.table = some inner ∧ t.Relates inner q.cardinality) ∧ q.Planned schema := by
  induction selections with
  | nil => simp [selectionsPlanned]
  | cons s rest ih =>
    cases s with
    | column name =>
      rw [selectionsPlanned, ih]
      simp only [List.mem_cons, Selection.column.injEq, reduceCtorEq, false_or]
      constructor
      · rintro ⟨hname, hcolumns, hnested⟩
        refine ⟨fun n hn => ?_, hnested⟩
        rcases hn with rfl | hn
        · exact hname
        · exact hcolumns n hn
      · rintro ⟨hcolumns, hnested⟩
        exact ⟨hcolumns name (.inl rfl), fun n hn => hcolumns n (.inr hn), hnested⟩
    | nested name q =>
      rw [selectionsPlanned, ih]
      simp only [List.mem_cons, Selection.nested.injEq, reduceCtorEq, false_or]
      constructor
      · rintro ⟨hrelates, hq, hcolumns, hnested⟩
        refine ⟨hcolumns, fun n q' hn => ?_⟩
        rcases hn with ⟨rfl, rfl⟩ | hn
        · exact ⟨hrelates, hq⟩
        · exact hnested n q' hn
      · rintro ⟨hcolumns, hnested⟩
        obtain ⟨hrelates, hq⟩ := hnested name q (.inl ⟨rfl, rfl⟩)
        exact ⟨hrelates, hq, hcolumns, fun n q' hn => hnested n q' (.inr hn)⟩

/-- If references have the types of primary keys, the planner asks no more of a query than that it is valid. -/
theorem Query.planned_iff_valid {schema : Schema} (hs : schema.Valid) (hlinked : schema.Linked) (q : Query) :
    q.Planned schema ↔ q.Valid schema := by
  induction q using Query.nested_induction with
  | step q ih =>
  obtain ⟨c, name, filters, selections⟩ := q
  have ih : ∀ n q, .nested n q ∈ selections → (q.Planned schema ↔ q.Valid schema) := ih
  constructor
  · rintro ⟨t, ht, hfilters, hnames, hselections⟩
    obtain ⟨hcolumns, hnested⟩ := selectionsPlanned_iff.mp hselections
    refine .mk ht hfilters hcolumns hnames (fun n q hq => ?_) fun n q hq => (ih n q hq).mp (hnested n q hq).2
    obtain ⟨⟨inner, hinner, hrelates⟩, -⟩ := hnested n q hq
    exact ⟨inner, hinner, hrelates.refers⟩
  · rintro (⟨ht, hfilters, hcolumns, hnames, hreferences, hnested⟩)
    refine ⟨_, ht, hfilters, hnames, selectionsPlanned_iff.mpr ⟨hcolumns, fun n q hq => ⟨?_, ?_⟩⟩⟩
    · obtain ⟨inner, hinner, hrefers⟩ := hreferences n q hq
      exact ⟨inner, hinner, hlinked.relates (hs.find?_self ht) (hs.find?_self hinner) hrefers⟩
    · exact (ih n q hq).mpr (hnested n q hq)

/-! ## The type of a plan -/

namespace Plan

variable {schema : Schema} {live : Bool} {types : TypeScope}

/-- A field has a type. -/
def HasType (types : TypeScope) (f : String × Expr) (u : String × Ty) : Prop := f.1 = u.1 ∧ f.2.infer types = .ok u.2

theorem HasType.insert {fields : List (String × Expr)} {ts : List (String × Ty)} {name : String} {e : Expr} {u : Ty}
    (h : List.Forall₂ (HasType types) fields ts) (he : e.infer types = .ok u) :
    List.Forall₂ (HasType types) (Keyed.insert fields name e) (Keyed.insert ts name u) :=
  Keyed.forall₂_insert (R := fun _ (e : Expr) u => e.infer types = .ok u) h he

theorem HasType.unique {fields : List (String × Expr)} {ts ts' : List (String × Ty)}
    (h : List.Forall₂ (HasType types) fields ts) (h' : List.Forall₂ (HasType types) fields ts') : ts = ts' := by
  induction h generalizing ts' with
  | nil => cases h'; rfl
  | @cons f u fields ts hf _ ih =>
    cases h' with
    | @cons _ u' _ ts' hf' hrest =>
      obtain ⟨hname, htype⟩ := hf
      obtain ⟨hname', htype'⟩ := hf'
      have hty : u.2 = u'.2 := Except.ok.inj (htype.symm.trans htype')
      rw [ih hrest, Prod.ext (hname.symm.trans hname') hty]

/-- What is known of a level that has a type: it is that of an iterator over its records. -/
theorem level_typed_ok {q : Query} {place : Place} {points points' : List Point} {e : Expr} {u : Ty} (hs : schema.Valid)
    (hsees : Sees schema place.types) (hjoins : ∀ t, Keyed.find? schema q.table = some t → place.Joins t)
    (h : (level schema live place q).run points = .ok (e, points')) (he : e.infer place.types = .ok u) :
    ∃ t tests fields result, Keyed.find? schema q.table = some t ∧
      q.filters.mapM (filterTest t (rowName place.level)) = .ok tests ∧
      (fieldsOf schema live t { place with types := innerTypes t place } [] q.selections).run
        (points ++ if live then [point q t place] else []) = .ok (fields, points') ∧
      (Expr.record fields).infer (innerTypes t place) = .ok result ∧
      e = .callOf Builtin.map.name [rowsAt live q t place tests points,
        .lambda [(rowName place.level, t.rowType)] result (.record fields)] ∧ u = .iterator result := by
  have hagrees := agrees_of_level hsees hjoins h he
  obtain ⟨t, tests, fields, result, ht, htests, hfields, hinfer, rfl⟩ := level_ok h
  have hresult := proper_of_body place hs hsees (hs.find? ht).1 hfields hinfer
  exact ⟨t, tests, fields, result, ht, htests, hfields, hinfer, rfl, Except.ok.inj
    (he.symm.trans (infer_level hsees hs (hs.find?_self ht) (hjoins t ht) hagrees htests hinfer hresult))⟩

mutual

/-- A level is an iterator over rows as they are shown. -/
theorem infer_shown (hs : schema.Valid) : (q : Query) → {place : Place} → {points points' : List Point} → {e : Expr} →
    {u : Ty} → Sees schema place.types → (∀ t, Keyed.find? schema q.table = some t → place.Joins t) →
    (level schema live place q).run points = .ok (e, points') → e.infer place.types = .ok u →
    u = .iterator (q.shownType schema)
  | .mk c name filters selections, place, points, points', e, u, hsees, hjoins, h, he => by
    obtain ⟨t, tests, fields, result, ht, -, hfields, hinfer, -, rfl⟩ := level_typed_ok hs hsees hjoins h he
    obtain ⟨htv, -⟩ := hs.find? ht
    have ht' : Keyed.find? schema name = some t := ht
    obtain ⟨ts, hts, hrecord⟩ := ok_of_bind hinfer
    have hshown : List.Forall₂ (HasType (innerTypes t place)) fields
        (Keyed.ofList (shownTypes schema selections t)) :=
      infer_shownFields hs selections hsees.inner htv lookup_innerTypes_self .nil hfields (Expr.infer_of_record hinfer)
    obtain rfl := HasType.unique (Expr.forall₂_of_inferFields hts) hshown
    cases hrecord
    rw [Query.shownType, ht']
    rfl

theorem infer_shownFields (hs : schema.Valid) : (selections : List Selection) → {t : Table} → {place : Place} →
    {points points' : List Point} → {fields final : List (String × Expr)} → {ts : List (String × Ty)} →
    Sees schema place.types → t.Valid → place.types.lookup (rowName place.level) = .ok t.rowType →
    List.Forall₂ (HasType place.types) fields ts →
    (fieldsOf schema live t place fields selections).run points = .ok (final, points') →
    (∀ f ∈ final, ∃ u, f.2.infer place.types = .ok u) → List.Forall₂ (HasType place.types) final
      ((shownTypes schema selections t).foldl (fun m u => Keyed.insert m u.1 u.2) ts)
  | [], _, _, _, _, _, _, _, _, _, _, hts, h, _ => by
    cases h
    exact hts
  | .column name :: rest, t, place, points, points', fields, final, ts, hsees, ht, hrow, hts, h, hinfer => by
    obtain ⟨-, ⟨c, hc⟩, hrest⟩ := fieldsOf_column_ok h
    obtain ⟨hmem, rfl⟩ := Table.mem_of_column? hc
    rw [shownTypes, hc]
    exact infer_shownFields hs rest hsees ht hrow (HasType.insert hts (infer_column ht hrow hmem)) hrest hinfer
  | .nested name q :: rest, t, place, points, points', fields, final, ts, hsees, ht, hrow, hts, h, hinfer => by
    obtain ⟨-, inner, join, e, points₁, hinner, hjoin, he, hrest⟩ := fieldsOf_nested_ok h
    obtain ⟨u, hu⟩ := hinfer (name, e) (subset_of_fieldsOf hrest (Keyed.mem_insert_self _ _ _))
    have hinside : Sees schema (place.inside join name).types := hsees
    have htype : u = .iterator (q.shownType schema) :=
      infer_shown hs q hinside (joins_inside name hs hinner hjoin) he hu
    rw [shownTypes]
    exact infer_shownFields hs rest hsees ht hrow (HasType.insert hts (htype ▸ hu)) hrest hinfer

end

variable {q : Query} {e : Expr}

/-- What has a plan is well-formed in the schema, and the plan is an iterator over rows as they are shown. -/
theorem planned_of_select (hs : schema.Valid) (h : select schema (Catalog.types schema) q = .ok e) :
    q.Planned schema ∧ e.infer (Catalog.types schema) = .ok (.iterator (q.shownType schema)) := by
  obtain ⟨⟨e', points⟩, hlevel, heq⟩ := ok_of_bind h
  cases heq
  have hsees : Sees schema (Catalog.types schema) := fun _ _ => rfl
  have hjoins : ∀ t, Keyed.find? schema q.table = some t → Place.Joins { types := Catalog.types schema } t := by
    rintro t - j ⟨⟩
  obtain ⟨u, hu⟩ := infer_root hs hlevel
  refine ⟨planned_of_level hs q hsees hlevel hu, ?_⟩
  rw [hu, infer_shown hs q hsees hjoins hlevel hu]

end Plan

/-- The queries that have a plan are the valid ones, and the plan is an iterator over rows of the type that is
selected, so that the check of the plan never fails. -/
theorem Grown.select_valid {s : Database} (h : Grown s) (q : Query) :
    ((∃ e, Plan.select s.schema (Catalog.types s.schema) q = .ok e) ↔ q.Valid s.schema) ∧
      ∀ e, Plan.select s.schema (Catalog.types s.schema) q = .ok e →
        e.infer (Catalog.types s.schema) = .ok (.iterator (q.shownType s.schema)) := by
  have hs := h.keepsCatalog.catalog.valid
  refine ⟨?_, fun e he => (Plan.planned_of_select hs he).2⟩
  rw [← q.planned_iff_valid hs h.linked]
  constructor
  · rintro ⟨e, he⟩
    exact (Plan.planned_of_select hs he).1
  · intro hplanned
    exact Plan.select_of_planned hs hplanned

namespace Query.Valid.Sample

/-- A table that refers to itself is made, and the database is opened again. -/
def opened : Option Database :=
  (Database.follow (fun _ => true) 30
    [.call "CREATE TABLE people (id int PRIMARY KEY, boss int REFERENCES people)", .task 0, .task 0] {}).bind fun s =>
      (Database.ofStore s.store).toOption

/-- One of the people with those who report to them, and with each of these the boss. -/
def staff : Query :=
  .mk .many "people" [⟨"id", .int 1⟩] [.column "id", .nested "reports" (.mk .many "people" []
    [.column "id", .nested "boss" (.mk .one "people" [] [.column "boss"])])]

/-- The type of a row of it. -/
def staffType : Ty :=
  .record [("id", .int),
    ("reports", .iterator (.record [("boss", .iterator (.record [("boss", .int)])), ("id", .int)]))]

theorem grown_of_opened {s : Database} (h : opened = some s) : Grown s := by
  obtain ⟨u, hu, h⟩ := Option.bind_eq_some_iff.mp h
  have hgrown : Grown u := Grown.start.onward (.of_follow (.start rfl) hu)
  cases hload : Database.ofStore u.store with
  | error f => rw [hload] at h; cases h
  | ok t =>
    rw [hload] at h
    cases h
    exact hgrown.reopen hload

end Query.Valid.Sample

open Query.Valid.Sample in
/-- A table is joined with itself in both directions. -/
theorem Grown.select_valid_staff : ∃ s, Grown s ∧ staff.Valid s.schema ∧
    ∃ e, Plan.select s.schema (Catalog.types s.schema) staff = .ok e ∧
      e.infer (Catalog.types s.schema) = .ok (.iterator staffType) := by
  have hplay : opened.any (fun s => (Plan.select s.schema (Catalog.types s.schema) staff).toOption.isSome &&
      decide (staff.shownType s.schema = staffType)) = true := by
    decide +kernel
  obtain ⟨s, hs, htest⟩ := (Option.any_eq_true _ _).mp hplay
  obtain ⟨hsome, htype⟩ := Bool.and_eq_true_iff.mp htest
  have hgrown := grown_of_opened hs
  obtain ⟨hvalid, hinfer⟩ := Grown.select_valid hgrown staff
  cases hplan : Plan.select s.schema (Catalog.types s.schema) staff with
  | error f => rw [hplan] at hsome; cases hsome
  | ok e => exact ⟨s, hgrown, hvalid.mp ⟨e, hplan⟩, e, hplan, of_decide_eq_true htype ▸ hinfer e hplan⟩

end LiveQuery
