import LiveQuery.Plan
import LiveQuery.Proofs.Keyed
import LiveQuery.Proofs.Outcome

/-! # Steps of the planner

What the planner has found out when it has a plan: for a level (`Plan.level_ok`) and for the selections in it
(`Plan.fieldsOf_column_ok`, `Plan.fieldsOf_nested_ok`). Later proofs do not look into the planner.
-/
namespace LiveQuery

namespace Plan

variable {schema : Schema} {live : Bool}

theorem ok_of_run_bind {α β : Type} {x : Planner α} {f : α → Planner β} {points points' : List Point} {b : β}
    (h : (x >>= f).run points = .ok (b, points')) :
    ∃ a points₁, x.run points = .ok (a, points₁) ∧ (f a).run points₁ = .ok (b, points') := by
  obtain ⟨⟨a, points₁⟩, hx, hf⟩ := ok_of_bind h
  exact ⟨a, points₁, hx, hf⟩

theorem ok_of_run_liftM {α : Type} {r : Except PlanFault α} {points points' : List Point} {a : α}
    (h : (liftM r : Planner α).run points = .ok (a, points')) : r = .ok a ∧ points = points' := by
  obtain ⟨a', hr, h⟩ := ok_of_bind h
  cases h
  exact ⟨hr, rfl⟩

/-- The point of a level. -/
def point (q : Query) (t : Table) (place : Place) : Point where
  table := t.name
  primaryKey := t.primaryKey.name
  filterColumn := (narrowing q.filters place.join).map Prod.fst
  selection := place.selection
  query := q
  isRoot := place.level = 0

/-- The tests on the rows of a level. -/
def testsAt (place : Place) (tests : List Expr) : List Expr :=
  tests ++ (place.join.map (joinTest (rowName place.level))).toList

/-- The rows of a level, watched in a live query. -/
def rowsAt (live : Bool) (q : Query) (t : Table) (place : Place) (tests : List Expr) (points : List Point) :
    Expr :=
  let rows := filteredRows t (rowName place.level) (testsAt place tests)
  if live then listenCall rows points.length ((narrowing q.filters place.join).map Prod.snd) else rows

/-- The place of a nested query. -/
def Place.inside (place : Place) (join : Join) (name : String) : Place where
  level := place.level + 1
  types := place.types
  join := some join
  selection := some name

/-- The types of the names in the rows of a level. -/
def innerTypes (t : Table) (place : Place) : TypeScope :=
  Links.child place.types [(rowName place.level, t.rowType)]

theorem table_ok {name : String} {t : Table} (h : table schema name = .ok t) :
    Keyed.find? schema name = some t := by
  unfold table at h
  split at h
  next heq => cases h; exact heq
  next => cases h

/-- What follows the rows of a level. -/
theorem level_rest {t : Table} {place : Place} {selections : List Selection} {rows e : Expr}
    {points points' : List Point}
    (h : (fieldsOf schema live t { place with types := innerTypes t place } [] selections >>= fun fields =>
      match (Expr.record fields).infer (innerTypes t place) with
      | .error f => throw (.typing f)
      | .ok result => return .callOf Builtin.map.name [rows,
          .lambda [(rowName place.level, t.rowType)] result (.record fields)]).run points = .ok (e,
          points')) :
    ∃ fields result,
      (fieldsOf schema live t { place with types := innerTypes t place } [] selections).run points =
        .ok (fields, points') ∧
      (Expr.record fields).infer (innerTypes t place) = .ok result ∧
      e = .callOf Builtin.map.name [rows,
        .lambda [(rowName place.level, t.rowType)] result (.record fields)] := by
  obtain ⟨fields, points₁, hfields, h⟩ := ok_of_run_bind h
  split at h
  next => cases h
  next result hinfer =>
    cases h
    exact ⟨fields, result, hfields, hinfer, rfl⟩

theorem level_ok {q : Query} {place : Place} {points points' : List Point} {e : Expr}
    (h : (level schema live place q).run points = .ok (e, points')) :
    ∃ t tests fields result, Keyed.find? schema q.table = some t ∧
      q.filters.mapM (filterTest t (rowName place.level)) = .ok tests ∧
      (fieldsOf schema live t { place with types := innerTypes t place } [] q.selections).run
        (points ++ if live then [point q t place] else []) = .ok (fields, points') ∧
      (Expr.record fields).infer (innerTypes t place) = .ok result ∧
      e = .callOf Builtin.map.name [rowsAt live q t place tests points,
        .lambda [(rowName place.level, t.rowType)] result (.record fields)] := by
  obtain ⟨c, name, filters, selections⟩ := q
  simp only [level] at h
  obtain ⟨t, points₁, hrun, h⟩ := ok_of_run_bind h
  obtain ⟨ht, rfl⟩ := ok_of_run_liftM hrun
  obtain ⟨tests, points₂, hrun, h⟩ := ok_of_run_bind h
  obtain ⟨htests, rfl⟩ := ok_of_run_liftM hrun
  refine ⟨t, tests, ?_⟩
  cases live with
  | true =>
    obtain ⟨rows, points₃, hrows, h⟩ := ok_of_run_bind h
    cases hrows
    obtain ⟨fields, result, hfields, hinfer, he⟩ := level_rest h
    exact ⟨fields, result, table_ok ht, htests, hfields, hinfer, he⟩
  | false =>
    obtain ⟨rows, points₃, hrows, h⟩ := ok_of_run_bind h
    cases hrows
    obtain ⟨fields, result, hfields, hinfer, he⟩ := level_rest h
    refine ⟨fields, result, table_ok ht, htests, ?_, hinfer, he⟩
    rw [if_neg Bool.false_ne_true, List.append_nil]
    exact hfields

theorem fieldsOf_column_ok {t : Table} {place : Place} {fields final : List (String × Expr)} {name : String}
    {rest : List Selection} {points points' : List Point}
    (h : (fieldsOf schema live t place fields (.column name :: rest)).run points = .ok (final, points')) :
    Keyed.find? fields name = none ∧ (∃ c, t.column? name = some c) ∧
      (fieldsOf schema live t place
        (Keyed.insert fields name (.member (.var (rowName place.level)) name)) rest).run points =
        .ok (final, points') := by
  simp only [fieldsOf] at h
  split at h
  next => cases h
  next hnew =>
    obtain ⟨c, points₁, hrun, h⟩ := ok_of_run_bind h
    obtain ⟨hc, rfl⟩ := ok_of_run_liftM hrun
    refine ⟨by simpa [Keyed.contains] using hnew, ⟨c, ?_⟩, h⟩
    unfold column at hc
    split at hc
    next heq => cases hc; exact heq
    next => cases hc

theorem fieldsOf_nested_ok {t : Table} {place : Place} {fields final : List (String × Expr)} {name : String}
    {q : Query} {rest : List Selection} {points points' : List Point}
    (h : (fieldsOf schema live t place fields (.nested name q :: rest)).run points = .ok (final, points')) :
    Keyed.find? fields name = none ∧ ∃ inner join e points₁, Keyed.find? schema q.table = some inner ∧
      Join.between t (rowName place.level) inner q.cardinality = .ok join ∧
      (level schema live (place.inside join name) q).run points = .ok (e, points₁) ∧
      (fieldsOf schema live t place (Keyed.insert fields name e) rest).run points₁ = .ok (final, points') :=
        by
  simp only [fieldsOf] at h
  split at h
  next => cases h
  next hnew =>
    obtain ⟨inner, points₁, hrun, h⟩ := ok_of_run_bind h
    obtain ⟨hinner, rfl⟩ := ok_of_run_liftM hrun
    obtain ⟨join, points₂, hrun, h⟩ := ok_of_run_bind h
    obtain ⟨hjoin, rfl⟩ := ok_of_run_liftM hrun
    obtain ⟨e, points₃, he, h⟩ := ok_of_run_bind h
    exact ⟨by simpa [Keyed.contains] using hnew, inner, join, e, points₃, table_ok hinner, hjoin, he, h⟩

/-- The planner keeps the fields that it has. -/
theorem subset_of_fieldsOf {t : Table} {place : Place} {fields final : List (String × Expr)}
    {selections : List Selection} {points points' : List Point}
    (h : (fieldsOf schema live t place fields selections).run points = .ok (final, points')) :
    fields ⊆ final := by
  induction selections generalizing fields points with
  | nil =>
    cases h
    exact List.Subset.refl _
  | cons s rest ih =>
    cases s with
    | column name =>
      obtain ⟨hnew, -, hrest⟩ := fieldsOf_column_ok h
      exact fun f hf => ih hrest (Keyed.mem_insert_of_mem _ hnew hf)
    | nested name q =>
      obtain ⟨hnew, inner, join, e, points₁, -, -, -, hrest⟩ := fieldsOf_nested_ok h
      exact fun f hf => ih hrest (Keyed.mem_insert_of_mem _ hnew hf)

theorem ordered_of_fieldsOf {t : Table} {place : Place} {fields final : List (String × Expr)}
    {selections : List Selection} {points points' : List Point} (hfields : Keyed.Ordered fields)
    (h : (fieldsOf schema live t place fields selections).run points = .ok (final, points')) :
    Keyed.Ordered final := by
  induction selections generalizing fields points with
  | nil =>
    cases h
    exact hfields
  | cons s rest ih =>
    cases s with
    | column name =>
      obtain ⟨-, -, hrest⟩ := fieldsOf_column_ok h
      exact ih (hfields.insert _ _) hrest
    | nested name q =>
      obtain ⟨-, inner, join, e, points₁, -, -, -, hrest⟩ := fieldsOf_nested_ok h
      exact ih (hfields.insert _ _) hrest

mutual

/-- The points so far stay in front, and that of a level comes next. -/
theorem prefix_of_level : (q : Query) → {place : Place} → {points points' : List Point} → {e : Expr} →
    (level schema live place q).run points = .ok (e, points') →
    ∀ t, Keyed.find? schema q.table = some t →
      (points ++ if live then [point q t place] else []) <+: points'
  | .mk c name filters selections, place, points, points', e, h, t, ht => by
    obtain ⟨t', tests, fields, result, ht', -, hfields, -, -⟩ := level_ok h
    rw [ht] at ht'
    cases ht'
    exact prefix_of_fieldsOf selections hfields

theorem prefix_of_fieldsOf : (selections : List Selection) → {t : Table} → {place : Place} →
    {points points' : List Point} → {fields final : List (String × Expr)} →
    (fieldsOf schema live t place fields selections).run points = .ok (final, points') → points <+: points'
  | [], _, _, _, _, _, _, h => by
    cases h
    exact List.prefix_refl _
  | .column name :: rest, t, place, points, points', fields, final, h => by
    obtain ⟨-, -, hrest⟩ := fieldsOf_column_ok h
    exact prefix_of_fieldsOf rest hrest
  | .nested name q :: rest, t, place, points, points', fields, final, h => by
    obtain ⟨-, inner, join, e, points₁, hinner, -, he, hrest⟩ := fieldsOf_nested_ok h
    have hlevel := (List.prefix_append _ _).trans (prefix_of_level q he inner hinner)
    exact hlevel.trans (prefix_of_fieldsOf rest hrest)

end

/-- The test of a filter compares a column of its type. -/
theorem filterTest_ok {t : Table} {row : String} {f : Filter} {e : Expr} (h : filterTest t row f = .ok e) :
    ∃ c, t.column? f.column = some c ∧ f.value.ty = c.type.ty ∧
      e = equals c.type (.member (.var row) c.name) f.value.expr := by
  obtain ⟨c, hc, h⟩ := ok_of_bind h
  dsimp only at h
  split at h
  next => cases h
  next hty =>
    cases h
    refine ⟨c, ?_, by simpa using hty, rfl⟩
    unfold column at hc
    split at hc
    next heq => cases hc; exact heq
    next => cases hc

theorem forall₂_of_mapM {α β ε : Type} {f : α → Except ε β} {as : List α} {bs : List β}
    (h : as.mapM f = .ok bs) : List.Forall₂ (fun a b => f a = .ok b) as bs := by
  induction as generalizing bs with
  | nil =>
    cases h
    exact .nil
  | cons a as ih =>
    rw [List.mapM_cons] at h
    obtain ⟨b, hb, h⟩ := ok_of_bind h
    obtain ⟨bs', hbs, h⟩ := ok_of_bind h
    cases h
    exact .cons hb (ih hbs)

theorem exists_of_forall₂ {α β : Type} {R : α → β → Prop} {as : List α} {bs : List β}
    (h : List.Forall₂ R as bs) : ∀ b ∈ bs, ∃ a ∈ as, R a b := by
  induction h with
  | nil => simp
  | @cons a b as bs hab _ ih =>
    refine List.forall_mem_cons.mpr ⟨⟨a, List.mem_cons_self, hab⟩, fun c hc => ?_⟩
    obtain ⟨a', ha', hac⟩ := ih c hc
    exact ⟨a', List.mem_cons_of_mem _ ha', hac⟩

theorem between_ok {outer inner : Table} {row : String} {c : Cardinality} {j : Join}
    (h : Join.between outer row inner c = .ok j) :
    (c = .many ∧ ∃ r, inner.foreignKey? outer.name = some r ∧
      j = ⟨r.name, r.type, .member (.var row) outer.primaryKey.name⟩) ∨
    (c = .one ∧ ∃ r, outer.foreignKey? inner.name = some r ∧
      j = ⟨inner.primaryKey.name, inner.primaryKey.type, .member (.var row) r.name⟩) := by
  unfold Join.between at h
  split at h
  · split at h
    next r hr => cases h; exact Or.inl ⟨rfl, r, hr, rfl⟩
    next => cases h
  · split at h
    next r hr => cases h; exact Or.inr ⟨rfl, r, hr, rfl⟩
    next => cases h

end Plan

end LiveQuery
