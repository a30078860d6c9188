import LiveQuery.Proofs.Plan.Steps
import LiveQuery.Proofs.Query.Rows
import LiveQuery.Proofs.Typing.Accepted
import LiveQuery.Proofs.Typing.Inlining

/-! # Types of plans

Under the types of a catalog and of the rows around it (`Plan.Sees`), a level of a plan is an iterator over
the type of its record (`Plan.infer_level`). What the planner leaves to inference is that the two sides of a
join have one type; it is read off the type of the record around the level (`Plan.agrees_of_level`).
-/
namespace LiveQuery

namespace Plan

/-! ## Names of rows -/

theorem take_rowName (k : Nat) : (rowName k).toList.take 3 = ['r', 'o', 'w'] := by
  rw [rowName, String.toList_append]
  rfl

theorem rowName_injective {j k : Nat} (h : rowName j = rowName k) : j = k := by
  have hdigits : (toString j).toList = (toString k).toList := by
    have happend := congrArg String.toList h
    rw [rowName, rowName, String.toList_append, String.toList_append] at happend
    exact List.append_cancel_left happend
  have hrepr : Nat.toDigits 10 j = Nat.toDigits 10 k := by
    simpa [Nat.toString_eq_repr, Nat.toList_repr] using hdigits
  have hvalue := congrArg (Nat.ofDigitChars 10 · 0) hrepr
  simpa using hvalue

/-- A name that is not the name of a row. -/
def NoRow (name : String) : Prop := name.toList.take 3 ≠ ['r', 'o', 'w']

instance (name : String) : Decidable (NoRow name) := inferInstanceAs (Decidable (_ ≠ _))

theorem NoRow.ne {name : String} (h : NoRow name) (k : Nat) : name ≠ rowName k := by
  rintro rfl
  exact h (take_rowName k)

theorem noRow_tables : NoRow "tables" := by decide

theorem noRow_builtin (b : Builtin) : NoRow b.name := by
  cases b <;> decide

/-! ## Types in scope -/

/-- Names that are not the names of rows have the types that they have in the scope of a catalog. -/
def Sees (schema : Schema) (types : TypeScope) : Prop :=
  ∀ name, NoRow name → types.lookup name = (Catalog.types schema).lookup name

variable {schema : Schema} {types : TypeScope} {t : Table} {place : Place}

theorem lookup_innerTypes {name : String} (h : name ≠ rowName place.level) :
    (innerTypes t place).lookup name = place.types.lookup name := by
  have hnone : name ∉ [(rowName place.level, t.rowType)].map Prod.fst := by
    simpa using h
  rw [innerTypes, TypeScope.lookup, Links.find?_child_of_not_mem _ hnone]
  rfl

theorem lookup_innerTypes_self : (innerTypes t place).lookup (rowName place.level) = .ok t.rowType := by
  have hfind : Keyed.find? (Keyed.ofList [(rowName place.level, t.rowType)]) (rowName place.level) =
      some t.rowType := Keyed.find?_ofList_of_mem (List.nodup_singleton _) List.mem_cons_self
  rw [innerTypes, TypeScope.lookup, Links.child, Links.find?, hfind]

namespace Sees

theorem inner (h : Sees schema place.types) : Sees schema (innerTypes t place) :=
  fun name hname => (lookup_innerTypes (hname.ne _)).trans (h name hname)

theorem builtin (h : Sees schema types) (b : Builtin) : types.lookup b.name = .ok b.ty := by
  rw [h b.name (noRow_builtin b)]
  cases b <;> rfl

theorem truth (h : Sees schema types) (b : Bool) : types.lookup (if b then "true" else "false") =
    .ok .bool := by
  cases b with
  | true => exact h "true" (by decide)
  | false => exact h "false" (by decide)

theorem literal (h : Sees schema types) (l : Literal) : l.expr.infer types = .ok l.ty := by
  cases l with
  | int n => rfl
  | str s => rfl
  | bool b => exact h.truth b

/-- The handle on the rows of a table has the type that the table announces. -/
theorem index (h : Sees schema types) (hs : schema.Valid) (ht : Keyed.find? schema t.name = some t) :
    (Expr.member (.member (.var "tables") t.name) t.primaryKey.name).infer types = .ok t.indexType := by
  have htables : types.lookup "tables" = .ok (handlesType schema) := h "tables" noRow_tables
  have htable : (Expr.member (.var "tables") t.name).infer types =
      .ok (.record [(t.primaryKey.name, t.indexType)]) :=
    Expr.infer_member htables (hs.find?_ofList (fun t => Ty.record [(t.primaryKey.name, t.indexType)]) ht)
  exact Expr.infer_member htable (if_pos rfl)

end Sees

/-! ## Tests -/

theorem infer_column (ht : t.Valid) {row : String} (hrow : types.lookup row = .ok t.rowType) {c : Column}
    (hc : c ∈ t.columns) : (Expr.member (.var row) c.name).infer types = .ok c.type.ty :=
  Expr.infer_member hrow (ht.find?_fieldTypes hc)

theorem infer_equals (h : Sees schema types) {type : ColumnType} {a b : Expr}
    (ha : a.infer types = .ok type.ty) (hb : b.infer types = .ok type.ty) :
    (equals type a b).infer types = .ok .bool := by
  refine Expr.infer_callOf (h.builtin _) (.cons ha (.cons hb .nil)) ?_
  cases type <;> exact Builtin.accepts_declared rfl

theorem infer_filterTest (h : Sees schema types) (ht : t.Valid) {row : String}
    (hrow : types.lookup row = .ok t.rowType) {f : Filter} {e : Expr} (he : filterTest t row f = .ok e) :
    e.infer types = .ok .bool := by
  obtain ⟨c, hc, hty, rfl⟩ := filterTest_ok he
  refine infer_equals h (infer_column ht hrow (Table.mem_of_column? hc).1) ?_
  rw [h.literal, hty]

theorem eq_of_matchArg {type : ColumnType} {v : Ty} {bs bs' : Bindings}
    (h : Expr.matchArg type.ty v bs = .ok bs') : v = type.ty := by
  have hmatch := Expr.matchFrom_of_matchArg h
  cases type <;> cases v <;> first | rfl | simp [ColumnType.ty, Ty.matchFrom] at hmatch

/-- The right side of an equality that has a type is of the column's type. -/
theorem infer_of_equals (h : Sees schema types) {type : ColumnType} {a b : Expr} {u : Ty}
    (he : (equals type a b).infer types = .ok u) : b.infer types = .ok type.ty := by
  obtain ⟨⟨params, result⟩, hsignature, he⟩ := ok_of_bind he
  have hparams : params = [type.ty, type.ty] := by
    simp only [Expr.signature, h.builtin] at hsignature
    cases type <;> (cases hsignature; rfl)
  subst hparams
  simp only [List.length_cons, List.length_nil, ne_eq, not_true_eq_false, if_false] at he
  obtain ⟨bs, hbs, -⟩ := ok_of_bind he
  simp only [Expr.inferArgs] at hbs
  obtain ⟨u, -, hbs⟩ := ok_of_bind hbs
  obtain ⟨bs₁, -, hbs⟩ := ok_of_bind hbs
  obtain ⟨v, hv, hbs⟩ := ok_of_bind hbs
  obtain ⟨bs₂, hmatch, -⟩ := ok_of_bind hbs
  rw [hv, eq_of_matchArg hmatch]

theorem infer_allOf? (h : Sees schema types) {tests : List Expr} {e : Expr} (he : allOf? tests = some e)
    (htests : ∀ a ∈ tests, a.infer types = .ok .bool) : e.infer types = .ok .bool := by
  cases tests with
  | nil => cases he
  | cons a tests =>
    cases he
    induction tests generalizing a with
    | nil => exact htests a List.mem_cons_self
    | cons b tests ih =>
      obtain ⟨ha, hrest⟩ := List.forall_mem_cons.mp htests
      obtain ⟨hb, hrest⟩ := List.forall_mem_cons.mp hrest
      refine ih (.callOf Builtin.and.name [a, b]) (List.forall_mem_cons.mpr ⟨?_, hrest⟩)
      exact Expr.infer_callOf (h.builtin .and) (.cons ha (.cons hb .nil)) (Builtin.accepts_declared rfl)

theorem infer_of_allOf? {tests : List Expr} {e : Expr} (he : allOf? tests = some e) {u : Ty}
    (h : e.infer types = .ok u) : ∀ a ∈ tests, ∃ u, a.infer types = .ok u := by
  cases tests with
  | nil => cases he
  | cons a tests =>
    cases he
    induction tests generalizing a with
    | nil => exact List.forall_mem_singleton.mpr ⟨u, h⟩
    | cons b tests ih =>
      obtain ⟨hcall, htests⟩ := List.forall_mem_cons.mp (ih _ h)
      obtain ⟨v, hcall⟩ := hcall
      have hargs := Expr.infer_of_callOf hcall
      exact List.forall_mem_cons.mpr ⟨hargs a (by simp), List.forall_mem_cons.mpr ⟨hargs b (by simp), htests⟩⟩

/-! ## Joins -/

/-- A join holds a column of `t` against one of a row further out than `level`. -/
structure Inside (j : Join) (t : Table) (level : Nat) : Prop where
  column : ∃ c ∈ t.columns, c.name = j.column ∧ c.type = j.type
  outer : ∃ k < level, ∃ name, j.outer = .member (.var (rowName k)) name

/-- The join of a place is one for rows of `t`. -/
def Place.Joins (place : Place) (t : Table) : Prop := ∀ j, place.join = some j → Inside j t place.level

/-- The outer side of the join of a place has the type of the inner one. -/
def Place.Agrees (place : Place) : Prop := ∀ j, place.join = some j → j.outer.infer place.types =
    .ok j.type.ty

theorem inside_of_between {outer inner : Table} {level : Nat} {c : Cardinality} {j : Join} (hinner :
    inner.Valid)
    (h : Join.between outer (rowName level) inner c = .ok j) : Inside j inner (level + 1) := by
  rcases between_ok h with ⟨-, r, hr, rfl⟩ | ⟨-, r, hr, rfl⟩
  · exact ⟨⟨r, List.mem_of_find?_eq_some hr, rfl, rfl⟩, level, Nat.lt_succ_self _, _, rfl⟩
  · exact ⟨⟨_, hinner.columns_spec.2, rfl, rfl⟩, level, Nat.lt_succ_self _, _, rfl⟩

/-- The join that the planner makes for a nested query is one for the rows of its table. -/
theorem joins_inside (name : String) (hs : schema.Valid) {outer inner : Table} {q : Query} {j : Join}
    (hinner : Keyed.find? schema q.table = some inner)
    (hj : Join.between outer (rowName place.level) inner q.cardinality = .ok j) :
    ∀ t, Keyed.find? schema q.table = some t → (place.inside j name).Joins t := by
  intro t ht j' hj'
  rw [hinner] at ht
  cases ht
  cases hj'
  exact inside_of_between (hs.find? hinner).1 hj

theorem infer_outer {j : Join} (h : Inside j t place.level) :
    j.outer.infer (innerTypes t place) = j.outer.infer place.types := by
  obtain ⟨k, hk, name, hj⟩ := h.outer
  have hne : rowName k ≠ rowName place.level := fun heq => Nat.ne_of_lt hk (rowName_injective heq)
  simp only [hj, Expr.infer, lookup_innerTypes hne]

/-! ## Rows -/

theorem infer_testsAt (h : Sees schema place.types) (ht : t.Valid) {filters : List Filter} {tests : List Expr}
    (htests : filters.mapM (filterTest t (rowName place.level)) = .ok tests) (hjoins : place.Joins t)
    (hagrees : place.Agrees) : ∀ e ∈ testsAt place tests, e.infer (innerTypes t place) = .ok .bool := by
  intro e he
  rcases List.mem_append.mp he with he | he
  · obtain ⟨f, -, hf⟩ := exists_of_forall₂ (forall₂_of_mapM htests) e he
    exact infer_filterTest h.inner ht lookup_innerTypes_self hf
  · rw [Option.mem_toList, Option.map_eq_some_iff] at he
    obtain ⟨j, hj, rfl⟩ := he
    obtain ⟨c, hc, hname, htype⟩ := (hjoins j hj).column
    refine infer_equals h.inner ?_ ((infer_outer (hjoins j hj)).trans (hagrees j hj))
    rw [← hname, ← htype]
    exact infer_column ht lookup_innerTypes_self hc

section Rows

variable {tests : List Expr} {points : List Point} {q : Query} {live : Bool}

theorem infer_filteredRows (h : Sees schema place.types) (hs : schema.Valid)
    (ht : Keyed.find? schema t.name = some t)
    (htests : ∀ e ∈ tests, e.infer (innerTypes t place) = .ok .bool) :
    (filteredRows t (rowName place.level) tests).infer place.types = .ok (.iterator t.rowType) := by
  have hrow : t.rowType.Proper := t.proper_rowType
  have hscan : (Expr.callOf Builtin.scan.name [.member (.member
    (.var "tables") t.name) t.primaryKey.name]).infer
      place.types = .ok (.iterator t.rowType) :=
    Expr.infer_callOf (h.builtin .scan) (.cons (h.index hs ht) .nil)
      (Builtin.accepts_scan (ColumnType.proper_ty _) hrow)
  simp only [filteredRows]
  split
  next test htest =>
    have hbody : test.infer (Links.child place.types [(rowName place.level, t.rowType)]) = .ok .bool :=
      infer_allOf? h.inner htest htests
    have hbool : Ty.bool.Sorted := trivial
    have hlambda := Expr.infer_lambda hbool hbody
    exact Expr.infer_callOf (h.builtin .filter) (.cons hscan (.cons hlambda .nil))
      (Builtin.accepts_filter hrow)
  next => exact hscan

/-- The tests on rows that have a type have types. -/
theorem infer_of_filteredRows {u : Ty}
    (h : (filteredRows t (rowName place.level) tests).infer place.types = .ok u) :
    ∀ e ∈ tests, ∃ u, e.infer (innerTypes t place) = .ok u := by
  simp only [filteredRows] at h
  split at h
  next test htest =>
    obtain ⟨v, hv⟩ := Expr.infer_of_callOf h _ (List.mem_cons_of_mem _ List.mem_cons_self)
    obtain ⟨w, hw⟩ := Expr.infer_of_lambda hv
    exact infer_of_allOf? htest hw
  next hnone =>
    cases tests with
    | nil => simp
    | cons a tests => cases hnone

theorem infer_narrowing (h : Sees schema place.types) (hagrees : place.Agrees) {filters : List Filter}
    {column : String} {e : Expr} (he : narrowing filters place.join = some (column, e)) :
    ∃ u, e.infer place.types = .ok u ∧ u.Proper := by
  cases hj : place.join with
  | some j =>
    rw [hj] at he
    cases he
    exact ⟨_, hagrees j hj, ColumnType.proper_ty _⟩
  | none =>
    cases filters with
    | nil =>
      rw [hj] at he
      cases he
    | cons f filters =>
      rw [hj] at he
      cases he
      exact ⟨_, h.literal f.value, by cases f.value <;> exact ⟨rfl, trivial⟩⟩

theorem infer_rowsAt (h : Sees schema place.types) (hs : schema.Valid) (ht : Keyed.find? schema t.name =
    some t)
    (hagrees : place.Agrees) (htests : ∀ e ∈ testsAt place tests, e.infer (innerTypes t place) = .ok .bool) :
    (rowsAt live q t place tests points).infer place.types = .ok (.iterator t.rowType) := by
  have hrows := infer_filteredRows h hs ht htests
  have hrow : t.rowType.Proper := t.proper_rowType
  simp only [rowsAt, listenCall]
  split
  next =>
    cases hn : narrowing q.filters place.join with
    | none =>
      exact Expr.infer_callOf (h.builtin .listen) (.cons hrows (.cons rfl .nil)) (Builtin.accepts_listen hrow)
    | some narrowed =>
      obtain ⟨column, e⟩ := narrowed
      obtain ⟨u, hu, hproper⟩ := infer_narrowing h hagrees hn
      exact Expr.infer_callOf (h.builtin .listenWhere) (.cons hrows (.cons rfl (.cons hu .nil)))
        (Builtin.accepts_listenWhere hrow hproper)
  next => exact hrows

theorem infer_of_rowsAt {u : Ty} (h : (rowsAt live q t place tests points).infer place.types = .ok u) :
    ∀ e ∈ testsAt place tests, ∃ u, e.infer (innerTypes t place) = .ok u := by
  simp only [rowsAt, listenCall] at h
  split at h
  next =>
    split at h
    next =>
      obtain ⟨v, hv⟩ := Expr.infer_of_callOf h _ List.mem_cons_self
      exact infer_of_filteredRows hv
    next =>
      obtain ⟨v, hv⟩ := Expr.infer_of_callOf h _ List.mem_cons_self
      exact infer_of_filteredRows hv
  next => exact infer_of_filteredRows h

end Rows

/-! ## Levels -/

section Levels

variable {live : Bool} {points points' : List Point} {e : Expr}

/-- The two sides of a join have one type if the level has a type. -/
theorem agrees_of_level {q : Query} {u : Ty} (hsees : Sees schema place.types)
    (hjoins : ∀ t, Keyed.find? schema q.table = some t → place.Joins t)
    (h : (level schema live place q).run points = .ok (e, points')) (he : e.infer place.types = .ok u) :
    place.Agrees := by
  obtain ⟨t, tests, fields, result, ht, -, -, -, rfl⟩ := level_ok h
  intro j hj
  obtain ⟨v, hv⟩ := Expr.infer_of_callOf he _ List.mem_cons_self
  have hmem : joinTest (rowName place.level) j ∈ testsAt place tests := by
    rw [testsAt, hj]
    exact List.mem_append_right _ List.mem_cons_self
  obtain ⟨w, hw⟩ := infer_of_rowsAt hv _ hmem
  rw [← infer_outer (hjoins t ht j hj)]
  exact infer_of_equals hsees.inner hw

theorem keys_eq_of_forall₂ {α β : Type} {R : String × α → String × β → Prop} {as : List (String × α)}
    {bs : List (String × β)} (hR : ∀ a b, R a b → a.1 = b.1) (h : List.Forall₂ R as bs) :
    Keyed.keys as = Keyed.keys bs := by
  induction h with
  | nil => rfl
  | cons hab _ ih => exact congrArg₂ List.cons (hR _ _ hab) ih

/-- The fields have proper types as far as they have types. -/
def ProperFields (types : TypeScope) (fields : List (String × Expr)) : Prop :=
  ∀ f ∈ fields, ∀ u, f.2.infer types = .ok u → u.Proper

theorem proper_record {fields : List (String × Expr)} {u : Ty} (hordered : Keyed.Ordered fields)
    (hfields : ProperFields types fields) (h : (Expr.record fields).infer types = .ok u) : u.Proper := by
  obtain ⟨ts, hts, h⟩ := ok_of_bind h
  cases h
  have hall := Expr.forall₂_of_inferFields hts
  have heach : ∀ u ∈ ts, u.2.Proper := by
    intro u hu
    obtain ⟨f, hf, -, hinfer⟩ := exists_of_forall₂ hall u hu
    exact hfields f hf u.2 hinfer
  refine ⟨Ty.groundFields_iff.mpr fun u hu => (heach u hu).ground, ?_,
    Ty.sortedFields_iff.mpr fun u hu => (heach u hu).sorted⟩
  rw [Keyed.ordered_iff_keys, ← keys_eq_of_forall₂ (fun _ _ hfu => hfu.1) hall, ← Keyed.ordered_iff_keys]
  exact hordered

theorem ProperFields.insert {fields : List (String × Expr)} {name : String} (h : ProperFields types fields)
    (he : ∀ u, e.infer types = .ok u → u.Proper) : ProperFields types (Keyed.insert fields name e) := by
  intro f hf
  rcases Keyed.mem_of_mem_insert hf with rfl | hf
  · exact he
  · exact h f hf

/-- A level is an iterator over the type of its record. -/
theorem infer_level {q : Query} {tests : List Expr} {fields : List (String × Expr)} {result : Ty}
    (hsees : Sees schema place.types) (hs : schema.Valid) (ht : Keyed.find? schema t.name = some t)
    (hjoins : place.Joins t) (hagrees : place.Agrees)
    (htests : q.filters.mapM (filterTest t (rowName place.level)) = .ok tests)
    (hinfer : (Expr.record fields).infer (innerTypes t place) = .ok result) (hresult : result.Proper) :
    (Expr.callOf Builtin.map.name [rowsAt live q t place tests points,
      .lambda [(rowName place.level, t.rowType)] result (.record fields)]).infer place.types =
      .ok (.iterator result) := by
  have hall := infer_testsAt hsees (hs.find? ht).1 htests hjoins hagrees
  have hrows : (rowsAt live q t place tests points).infer place.types = .ok (.iterator t.rowType) :=
    infer_rowsAt hsees hs ht hagrees hall
  exact Expr.infer_callOf (hsees.builtin .map)
    (.cons hrows (.cons (Expr.infer_lambda hresult.sorted hinfer) .nil))
    (Builtin.accepts_map t.proper_rowType hresult)

mutual

/-- The type of a level is proper. -/
theorem proper_of_level (hs : schema.Valid) : (q : Query) → {place : Place} → {points points' : List Point} →
    {e : Expr} → {u : Ty} → Sees schema place.types →
    (∀ t, Keyed.find? schema q.table = some t → place.Joins t) →
    (level schema live place q).run points = .ok (e, points') → e.infer place.types = .ok u → u.Proper
  | .mk c name filters selections, place, points, points', e, u, hsees, hjoins, h, he => by
    have hagrees := agrees_of_level hsees hjoins h he
    obtain ⟨t, tests, fields, result, ht, htests, hfields, hinfer, rfl⟩ := level_ok h
    have hordered := ordered_of_fieldsOf List.Pairwise.nil hfields
    have hproper : ProperFields (innerTypes t place) fields :=
      proper_of_fieldsOf hs selections hsees.inner (hs.find? ht).1
        lookup_innerTypes_self (fun f hf => absurd hf List.not_mem_nil) hfields
    have hresult := proper_record hordered hproper hinfer
    have hlevel : Except.ok u = Except.ok (.iterator result) :=
      he.symm.trans (infer_level hsees hs (hs.find?_self ht) (hjoins t ht) hagrees htests hinfer hresult)
    cases hlevel
    exact hresult.iterator

theorem proper_of_fieldsOf (hs : schema.Valid) : (selections : List Selection) → {t : Table} →
    {place : Place} → {points points' : List Point} → {fields final : List (String × Expr)} →
    Sees schema place.types → t.Valid → place.types.lookup (rowName place.level) = .ok t.rowType →
    ProperFields place.types fields →
    (fieldsOf schema live t place fields selections).run points = .ok (final, points') →
    ProperFields place.types final
  | [], _, _, _, _, _, _, _, _, _, hproper, h => by
    cases h
    exact hproper
  | .column name :: rest, t, place, points, points', fields, final, hsees, ht, hrow, hproper, h => by
    obtain ⟨-, ⟨c, hc⟩, hrest⟩ := fieldsOf_column_ok h
    refine proper_of_fieldsOf hs rest hsees ht hrow (hproper.insert fun u hu => ?_) hrest
    obtain ⟨hmem, rfl⟩ := Table.mem_of_column? hc
    rw [infer_column ht hrow hmem] at hu
    cases hu
    exact c.type.proper_ty
  | .nested name q :: rest, t, place, points, points', fields, final, hsees, ht, hrow, hproper, h => by
    obtain ⟨-, inner, join, e, points₁, hinner, hjoin, he, hrest⟩ := fieldsOf_nested_ok h
    refine proper_of_fieldsOf hs rest hsees ht hrow (hproper.insert fun u hu => ?_) hrest
    have hinside : Sees schema (place.inside join name).types := hsees
    exact proper_of_level hs q hinside (joins_inside name hs hinner hjoin) he hu

end

/-- The type of the record of a level is proper. -/
theorem proper_of_body (place : Place) (hs : schema.Valid) (hsees : Sees schema place.types) (ht : t.Valid)
    {selections : List Selection} {fields : List (String × Expr)} {result : Ty}
    (hfields : (fieldsOf schema live t { place with types := innerTypes t place } [] selections).run points =
      .ok (fields, points')) (hinfer : (Expr.record fields).infer (innerTypes t place) = .ok result) :
    result.Proper :=
  proper_record (ordered_of_fieldsOf List.Pairwise.nil hfields)
    (proper_of_fieldsOf hs selections hsees.inner ht lookup_innerTypes_self
      (fun _ hf => absurd hf List.not_mem_nil) hfields) hinfer

/-- What is planned for the root of a query has a type. -/
theorem infer_root {q : Query} (hs : schema.Valid)
    (h : (level schema live { types := Catalog.types schema } q).run points = .ok (e, points')) :
    ∃ t, e.infer (Catalog.types schema) = .ok t := by
  have hsees : Sees schema (Catalog.types schema) := fun _ _ => rfl
  obtain ⟨t, tests, fields, result, ht, htests, hfields, hinfer, rfl⟩ := level_ok h
  have hresult := proper_of_body { types := Catalog.types schema } hs hsees (hs.find? ht).1 hfields hinfer
  exact ⟨_, infer_level hsees hs (hs.find?_self ht) (fun j hj => absurd hj (by simp))
    (fun j hj => absurd hj (by simp)) htests hinfer hresult⟩

end Levels

end Plan

end LiveQuery
