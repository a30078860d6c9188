import LiveQuery.Proofs.Query.Select

/-! # Arranged results

Arranging the rows of a query gives what its nodes are shown as (`Query.arrange_rawRows`): nested queries for
one row become that row or null. What is selected must have different names, which the planner checks
(`Plan.distinct_of_level`).
-/
namespace LiveQuery

/-! ## Names of selections -/

mutual

/-- What a query selects has different names, at every level. -/
def Query.Distinct : Query → Prop
  | .mk _ _ _ selections => (selections.map Selection.name).Nodup ∧ NestedDistinct selections

def NestedDistinct : List Selection → Prop
  | [] => True
  | .column _ :: rest => NestedDistinct rest
  | .nested _ q :: rest => q.Distinct ∧ NestedDistinct rest

end

namespace Plan

variable {schema : Schema} {live : Bool}

theorem new_names {fields : List (String × Expr)} {name : String} {e : Expr} {rest : List Selection}
    (h : ∀ s ∈ rest, Keyed.find? (Keyed.insert fields name e) s.name = none) :
    name ∉ rest.map Selection.name ∧ ∀ s ∈ rest, Keyed.find? fields s.name = none := by
  have hne : ∀ s ∈ rest, name ≠ s.name := by
    intro s hs heq
    have hnone := h s hs
    rw [← heq, Keyed.find?_insert_self] at hnone
    cases hnone
  refine ⟨fun hmem => ?_, fun s hs => ?_⟩
  · obtain ⟨s, hs, hname⟩ := List.mem_map.mp hmem
    exact hne s hs hname.symm
  · rw [← Keyed.find?_insert_of_ne fields e (hne s hs)]
    exact h s hs

mutual

/-- The planner accepts different names only. -/
theorem distinct_of_level : (q : Query) → {place : Place} → {points points' : List Point} → {e : Expr} →
    (level schema live place q).run points = .ok (e, points') → q.Distinct
  | .mk c name filters selections, place, points, points', e, h => by
    obtain ⟨t, tests, fields, result, -, -, hfields, -, -⟩ := level_ok h
    obtain ⟨hnodup, -, hnested⟩ := distinct_of_fieldsOf selections hfields
    exact ⟨hnodup, hnested⟩

theorem distinct_of_fieldsOf : (selections : List Selection) → {t : Table} → {place : Place} →
    {points points' : List Point} → {fields final : List (String × Expr)} →
    (fieldsOf schema live t place fields selections).run points = .ok (final, points') →
    (selections.map Selection.name).Nodup ∧ (∀ s ∈ selections, Keyed.find? fields s.name = none) ∧
      NestedDistinct selections
  | [], _, _, _, _, _, _, _ => ⟨List.nodup_nil, by simp, trivial⟩
  | .column name :: rest, t, place, points, points', fields, final, h => by
    obtain ⟨hnew, -, hrest⟩ := fieldsOf_column_ok h
    obtain ⟨hnodup, hnone, hnested⟩ := distinct_of_fieldsOf rest hrest
    obtain ⟨hname, hnone⟩ := new_names hnone
    exact ⟨List.nodup_cons.mpr ⟨hname, hnodup⟩, List.forall_mem_cons.mpr ⟨hnew, hnone⟩, hnested⟩
  | .nested name q :: rest, t, place, points, points', fields, final, h => by
    obtain ⟨hnew, inner, join, e, points₁, -, -, he, hrest⟩ := fieldsOf_nested_ok h
    obtain ⟨hnodup, hnone, hnested⟩ := distinct_of_fieldsOf rest hrest
    obtain ⟨hname, hnone⟩ := new_names hnone
    exact ⟨List.nodup_cons.mpr ⟨hname, hnodup⟩, List.forall_mem_cons.mpr ⟨hnew, hnone⟩,
      distinct_of_level q he, hnested⟩

end

end Plan

/-! ## Arranging -/

/-- What becomes of the rows of a nested query. -/
def Query.finish (q : Query) (rows : Json) : Json :=
  match q.cardinality with
  | .many => q.arrange rows
  | .one => firstOrNull (q.arrange rows)

/-- What becomes of the field `name` of a row. -/
def finishField (name : String) : List Selection → Json → Json
  | [], v => v
  | .column _ :: rest, v => finishField name rest v
  | .nested n q :: rest, v => finishField name rest (if name = n then q.finish v else v)

theorem arrangeRow_obj (selections : List Selection) (fields : List (String × Json)) :
    arrangeRow selections (.obj fields) = .obj (fields.map fun f => (f.1,
    finishField f.1 selections f.2)) := by
  induction selections generalizing fields with
  | nil => simp [arrangeRow, finishField]
  | cons s rest ih =>
    cases s with
    | column name =>
      rw [arrangeRow, ih]
      rfl
    | nested name q =>
      rw [arrangeRow, updateField, ih, List.map_map]
      refine congrArg Json.obj (List.map_congr_left fun f _ => ?_)
      simp only [Function.comp_apply, finishField]
      split
      next => rfl
      next => rfl

theorem finishField_of_not_mem {name : String} {selections : List Selection}
    (h : name ∉ selections.map Selection.name) (v : Json) : finishField name selections v = v := by
  induction selections generalizing v with
  | nil => rfl
  | cons s rest ih =>
    obtain ⟨hs, hrest⟩ := not_or.mp (mt List.mem_cons.mpr h)
    cases s with
    | column n => exact ih hrest v
    | nested n q =>
      have hne : name ≠ n := hs
      rw [finishField, if_neg hne]
      exact ih hrest v

variable {schema : Schema} {store : Store}

theorem name_of_selectedFields {t : Table} {r : Row} {selections : List Selection} {f : String × Field}
    (h : f ∈ selectedFields schema store t r selections) : f.1 ∈ selections.map Selection.name := by
  induction selections with
  | nil => cases h
  | cons s rest ih =>
    cases s with
    | column n =>
      rcases List.mem_cons.mp h with rfl | h
      · exact List.mem_cons_self
      · exact List.mem_cons_of_mem _ (ih h)
    | nested n q =>
      rcases List.mem_cons.mp h with rfl | h
      · exact List.mem_cons_self
      · exact List.mem_cons_of_mem _ (ih h)

/-- The rows of a nested query, arranged for its cardinality. -/
theorem finish_eq {q : Query} {rows : Json} {shown : List Json} (h : q.arrange rows = .arr shown) :
    q.finish rows = q.cardinality.shape shown := by
  rw [Query.finish, h]
  cases q.cardinality with
  | many => rfl
  | one => cases shown <;> rfl

mutual

theorem arrange_nodes : (q : Query) → q.Distinct → (link : Option Filter) →
    q.arrange (.arr ((q.nodes schema store link).map (Node.jsonWith rawShape))) =
      .arr ((q.nodes schema store link).map Node.json)
  | .mk c name filters selections, ⟨hnodup, hnested⟩, link => by
    rw [Query.arrange, updateRows, List.map_map]
    refine congrArg Json.arr (List.map_congr_left fun n hn => ?_)
    rw [Query.nodes] at hn
    split at hn
    next => cases hn
    next t ht =>
      obtain ⟨r, -, rfl⟩ := List.mem_map.mp hn
      have hfields := finish_selectedFields t r selections hnodup hnested
      rw [Function.comp_apply, Node.jsonWith, Node.json, Node.jsonWith, arrangeRow_obj, fieldJsons_eq,
        fieldJsons_eq,
        Keyed.mapValues, Keyed.mapValues, List.map_map]
      refine congrArg Json.obj (List.map_congr_left fun f hf => ?_)
      exact congrArg (Prod.mk f.1) (hfields f (Keyed.mem_of_mem_ofList hf))

theorem finish_selectedFields (t : Table) (r : Row) : (selections : List Selection) →
    (selections.map Selection.name).Nodup → NestedDistinct selections →
    ∀ f ∈ selectedFields schema store t r selections,
      finishField f.1 selections (f.2.jsonWith rawShape) = f.2.jsonWith Cardinality.shape
  | [], _, _, f, hf => absurd hf List.not_mem_nil
  | .column name :: rest, hnodup, hnested, f, hf => by
    obtain ⟨hname, hnodup⟩ := List.nodup_cons.mp hnodup
    rcases List.mem_cons.mp hf with rfl | hf
    · exact finishField_of_not_mem hname _
    · exact finish_selectedFields t r rest hnodup hnested f hf
  | .nested name q :: rest, hnodup, ⟨hq, hnested⟩, f, hf => by
    obtain ⟨hname, hnodup⟩ := List.nodup_cons.mp hnodup
    have hname : name ∉ rest.map Selection.name := hname
    rcases List.mem_cons.mp hf with rfl | hf
    · dsimp only
      rw [finishField, if_pos rfl, finishField_of_not_mem hname, Field.jsonWith, Field.jsonWith, nodeJsons_eq,
        nodeJsons_eq]
      exact finish_eq (arrange_nodes q hq _)
    · have hne : f.1 ≠ name := fun heq => hname (heq ▸ name_of_selectedFields hf)
      rw [finishField, if_neg hne]
      exact finish_selectedFields t r rest hnodup hnested f hf

end

/-- Arranging the rows of a query gives its nodes as they are shown. -/
theorem Query.arrange_rawRows {q : Query} (h : q.Distinct) :
    q.arrange (q.rawRows schema store) = .arr ((q.nodes schema store none).map Node.json) :=
  arrange_nodes q h none

/-- The answer from the rows of a query is its result. -/
theorem Query.answer_rows (q : Query) :
    q.answer (.arr ((q.nodes schema store none).map Node.json)) = q.result schema store := by
  rw [Query.answer, Query.result]
  cases q.cardinality with
  | many => rfl
  | one => cases q.nodes schema store none <;> rfl

end LiveQuery
