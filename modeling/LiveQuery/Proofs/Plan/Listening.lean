import LiveQuery.Proofs.Plan.Alike
import LiveQuery.Proofs.Plan.Valid

/-! # Listening calls

A live plan is the plain one with a listening call around the rows of each level: without these calls
(`Expr.unwatched`) it is the plain one (`Plan.unwatched_level`). Filters, joins and the values that narrow a listener
listen at nothing themselves.

* `Expr.unwatched` is an expression with its listening calls replaced by their rows.
* `Expr.listening` are the listening calls in an expression.
-/
namespace LiveQuery

namespace Expr

/-- The rows that a call with these arguments listens at, if it is a listening one. -/
def rows? (name : String) : List Expr → Option Expr
  | [rows, _] => if name = Builtin.listen.name then some rows else none
  | [rows, _, _] => if name = Builtin.listenWhere.name then some rows else none
  | _ => none

/-- Whether an expression is a call with the number `n` in the place of a point. -/
def isNumbered (n : Nat) : Expr → Bool
  | .call _ (_ :: .int m :: _) _ => m.toInt = n
  | _ => false

mutual

/-- The expression with each listening call replaced by its rows. -/
def unwatched : Expr → Expr
  | .record fields => .record (unwatchedFields fields)
  | .lambda params result body => .lambda params result body.unwatched
  | .call name args site => (rows? name (unwatchedArgs args)).getD (.call name (unwatchedArgs args) site)
  | .member e name => .member e.unwatched name
  | .block bindings result => .block (unwatchedFields bindings) result.unwatched
  | .int n => .int n
  | .str s => .str s
  | .var name => .var name
  | .index i => .index i
  | .value v => .value v

def unwatchedFields : List (String × Expr) → List (String × Expr)
  | [] => []
  | (name, e) :: rest => (name, e.unwatched) :: unwatchedFields rest

def unwatchedArgs : List Expr → List Expr
  | [] => []
  | e :: rest => e.unwatched :: unwatchedArgs rest

end

mutual

/-- The listening calls in an expression. -/
def listening : Expr → List Expr
  | .record fields => listeningFields fields
  | .lambda _ _ body => body.listening
  | .call name args site =>
    (if (rows? name args).isSome then [.call name args site] else []) ++ listeningArgs args
  | .member e _ => e.listening
  | .block bindings result => listeningFields bindings ++ result.listening
  | .int _ | .str _ | .var _ | .index _ | .value _ => []

def listeningFields : List (String × Expr) → List Expr
  | [] => []
  | (_, e) :: rest => e.listening ++ listeningFields rest

def listeningArgs : List Expr → List Expr
  | [] => []
  | e :: rest => e.listening ++ listeningArgs rest

end

theorem listeningFields_eq (fields : List (String × Expr)) :
    listeningFields fields = fields.flatMap fun f => f.2.listening := by
  induction fields with
  | nil => rfl
  | cons f fields ih => rw [listeningFields, ih, List.flatMap_cons]

theorem unwatchedFields_eq (fields : List (String × Expr)) :
    unwatchedFields fields = Keyed.mapValues unwatched fields := by
  induction fields with
  | nil => rfl
  | cons f fields ih => rw [unwatchedFields, ih]; rfl

mutual

/-- Where nothing listens nothing is taken away. -/
theorem unwatched_of_listening : (e : Expr) → e.listening = [] → e.unwatched = e
  | .record fields, h => by
    rw [unwatched, unwatchedFields_of_listening fields h]
  | .lambda params result body, h => by
    rw [unwatched, unwatched_of_listening body h]
  | .call name args site, h => by
    obtain ⟨hnone, hargs⟩ := List.append_eq_nil_iff.mp h
    have hrows : rows? name args = none := by
      cases hrows : rows? name args with
      | none => rfl
      | some rows => rw [hrows] at hnone; cases hnone
    rw [unwatched, unwatchedArgs_of_listening args hargs, hrows, Option.getD_none]
  | .member e name, h => by
    rw [unwatched, unwatched_of_listening e h]
  | .block bindings result, h => by
    obtain ⟨hbindings, hresult⟩ := List.append_eq_nil_iff.mp h
    rw [unwatched, unwatchedFields_of_listening bindings hbindings, unwatched_of_listening result hresult]
  | .int _, _ | .str _, _ | .var _, _ | .index _, _ | .value _, _ => by rw [unwatched]

theorem unwatchedFields_of_listening : (fields : List (String × Expr)) → listeningFields fields = [] →
    unwatchedFields fields = fields
  | [], _ => rfl
  | (name, e) :: rest, h => by
    obtain ⟨he, hrest⟩ := List.append_eq_nil_iff.mp h
    rw [unwatchedFields, unwatched_of_listening e he, unwatchedFields_of_listening rest hrest]

theorem unwatchedArgs_of_listening : (args : List Expr) → listeningArgs args = [] → unwatchedArgs args = args
  | [], _ => rfl
  | e :: rest, h => by
    obtain ⟨he, hrest⟩ := List.append_eq_nil_iff.mp h
    rw [unwatchedArgs, unwatched_of_listening e he, unwatchedArgs_of_listening rest hrest]

end

/-- A call of another built-in function listens at nothing itself. -/
theorem rows?_of_ne {b : Builtin} (hl : b ≠ .listen) (hw : b ≠ .listenWhere) (args : List Expr) :
    rows? b.name args = none := by
  have hlname : b.name ≠ Builtin.listen.name := by cases b <;> first | decide | exact absurd rfl hl
  have hwname : b.name ≠ Builtin.listenWhere.name := by cases b <;> first | decide | exact absurd rfl hw
  match args with
  | [] | [_] => rfl
  | [_, _] => exact if_neg hlname
  | [_, _, _] => exact if_neg hwname
  | _ :: _ :: _ :: _ :: _ => rfl

theorem listening_callOf {b : Builtin} (hl : b ≠ .listen) (hw : b ≠ .listenWhere) (args : List Expr) :
    (callOf b.name args).listening = listeningArgs args := by
  rw [callOf, listening, rows?_of_ne hl hw]
  rfl

theorem unwatched_callOf {b : Builtin} (hl : b ≠ .listen) (hw : b ≠ .listenWhere) (args : List Expr) :
    (callOf b.name args).unwatched = callOf b.name (unwatchedArgs args) := by
  rw [callOf, unwatched, rows?_of_ne hl hw]
  rfl

end Expr

namespace Plan

open LiveQuery.Expr (listening listeningFields listeningArgs unwatched)

variable {schema : Schema}

/-! ## Rows that nothing listens at -/

theorem listening_literal (l : Literal) : l.expr.listening = [] := by
  cases l <;> rfl

theorem listening_equals (type : ColumnType) (a b : Expr) :
    (equals type a b).listening = a.listening ++ b.listening := by
  rw [equals, Expr.listening_callOf (by cases type <;> decide) (by cases type <;> decide)]
  exact congrArg (a.listening ++ ·) (List.append_nil _)

theorem listening_filterTest {t : Table} {row : String} {f : Filter} {e : Expr} (h : filterTest t row f = .ok e) :
    e.listening = [] := by
  obtain ⟨c, -, -, rfl⟩ := filterTest_ok h
  rw [listening_equals, listening_literal]
  rfl

theorem listening_joinTest (row : String) (j : Join) : (joinTest row j).listening = j.outer.listening := by
  rw [joinTest, listening_equals]
  rfl

theorem listening_outer {outer inner : Table} {row : String} {c : Cardinality} {j : Join}
    (h : Join.between outer row inner c = .ok j) : j.outer.listening = [] := by
  rcases between_ok h with ⟨-, r, -, rfl⟩ | ⟨-, r, -, rfl⟩ <;> rfl

theorem listening_foldl_and (tests : List Expr) (e : Expr) (he : e.listening = [])
    (h : ∀ e ∈ tests, e.listening = []) :
    (tests.foldl (fun a b => .callOf Builtin.and.name [a, b]) e).listening = [] := by
  induction tests generalizing e with
  | nil => exact he
  | cons e' tests ih =>
    obtain ⟨he', htests⟩ := List.forall_mem_cons.mp h
    refine ih _ ?_ htests
    rw [Expr.listening_callOf (by decide) (by decide), listeningArgs, he, listeningArgs, he']
    rfl

theorem listening_filteredRows (t : Table) (row : String) {tests : List Expr} (h : ∀ e ∈ tests, e.listening = []) :
    (filteredRows t row tests).listening = [] := by
  have hscan : ∀ index : Expr, index.listening = [] → (Expr.callOf Builtin.scan.name [index]).listening = [] := by
    intro index hindex
    rw [Expr.listening_callOf (by decide) (by decide), listeningArgs, hindex]
    rfl
  cases tests with
  | nil => exact hscan _ rfl
  | cons e tests =>
    obtain ⟨he, htests⟩ := List.forall_mem_cons.mp h
    simp only [filteredRows, allOf?]
    rw [Expr.listening_callOf (by decide) (by decide), listeningArgs, hscan _ rfl, listeningArgs, listening,
      listening_foldl_and tests e he htests]
    rfl

/-- The rows of a level listen at nothing before they are listened at. -/
theorem listening_rows {q : Query} {t : Table} {place : Place} {tests : List Expr}
    (htests : q.filters.mapM (filterTest t (rowName place.level)) = .ok tests)
    (hjoin : ∀ j, place.join = some j → j.outer.listening = []) :
    (filteredRows t (rowName place.level) (testsAt place tests)).listening = [] := by
  refine listening_filteredRows t _ fun e he => ?_
  rcases List.mem_append.mp he with he | he
  · obtain ⟨f, -, hf⟩ := exists_of_forall₂ (forall₂_of_mapM htests) e he
    exact listening_filterTest hf
  · obtain ⟨j, hj, rfl⟩ := Option.map_eq_some_iff.mp (Option.mem_toList.mp he)
    rw [listening_joinTest, hjoin j hj]

theorem listening_listenCall (rows : Expr) (n : Nat) (value : Option Expr)
    (hrows : rows.listening = []) (hvalue : ∀ v, value = some v → v.listening = []) :
    (listenCall rows n value).listening = [listenCall rows n value] := by
  cases value with
  | none =>
    simp only [listenCall, Expr.callOf, listening, listeningArgs, hrows]
    rfl
  | some v =>
    simp only [listenCall, Expr.callOf, listening, listeningArgs, hrows, hvalue v rfl]
    rfl

theorem unwatched_listenCall (rows : Expr) (n : Nat) (value : Option Expr) :
    (listenCall rows n value).unwatched = rows.unwatched := by
  cases value <;> rfl

/-! ## The plan without its listening calls -/

theorem unwatched_rowsAt {q : Query} {t : Table} {place : Place} {tests : List Expr} {points points' : List Point}
    (hrows : (filteredRows t (rowName place.level) (testsAt place tests)).listening = []) :
    (rowsAt true q t place tests points).unwatched = rowsAt false q t place tests points' := by
  rw [rowsAt, rowsAt, if_pos rfl, unwatched_listenCall, Expr.unwatched_of_listening _ hrows]
  rfl

/-- What is known of a level that has a type: its rows are declared with the type that they are shown with. -/
theorem level_shown_ok {live : Bool} {q : Query} {place : Place} {points points' : List Point} {e : Expr} {u : Ty}
    (hs : schema.Valid) (hsees : Sees schema place.types)
    (hjoins : ∀ t, Keyed.find? schema q.table = some t → place.Joins t)
    (h : (level schema live place q).run points = .ok (e, points')) (he : e.infer place.types = .ok u) :
    ∃ t tests fields, Keyed.find? schema q.table = some t ∧
      q.filters.mapM (filterTest t (rowName place.level)) = .ok tests ∧
      (fieldsOf schema live t { place with types := innerTypes t place } [] q.selections).run
        (points ++ if live then [point q t place] else []) = .ok (fields, points') ∧
      (Expr.record fields).infer (innerTypes t place) = .ok (q.shownType schema) ∧
      e = .callOf Builtin.map.name [rowsAt live q t place tests points,
        .lambda [(rowName place.level, t.rowType)] (q.shownType schema) (.record fields)] := by
  have hshown := infer_shown hs q hsees hjoins h he
  obtain ⟨t, tests, fields, result, ht, htests, hfields, hinfer, rfl, htype⟩ := level_typed_ok hs hsees hjoins h he
  cases htype.symm.trans hshown
  exact ⟨t, tests, fields, ht, htests, hfields, hinfer, rfl⟩

mutual

/-- A live level without its listening calls is the plain one. -/
theorem unwatched_level (hs : schema.Valid) : (q : Query) → {place : Place} →
    {points points' plain plain' : List Point} → {e e' : Expr} → {u u' : Ty} → Sees schema place.types →
    (∀ t, Keyed.find? schema q.table = some t → place.Joins t) →
    (∀ j, place.join = some j → j.outer.listening = []) →
    (level schema true place q).run points = .ok (e, points') →
    (level schema false place q).run plain = .ok (e', plain') → e.infer place.types = .ok u →
    e'.infer place.types = .ok u' → e.unwatched = e'
  | .mk c name filters selections, place, points, points', plain, plain', e, e', u, u', hsees, hjoins, hjoin, h, h',
      he, he' => by
    obtain ⟨t, tests, fields, ht, htests, hfields, hinfer, rfl⟩ := level_shown_ok hs hsees hjoins h he
    obtain ⟨t', tests', fields', ht', htests', hfields', hinfer', rfl⟩ := level_shown_ok hs hsees hjoins h' he'
    obtain rfl := Option.some.inj (ht.symm.trans ht')
    obtain rfl := Except.ok.inj (htests.symm.trans htests')
    have hinner : Expr.unwatchedFields fields = fields' :=
      unwatched_fieldsOf hs selections hsees.inner hfields hfields' (Expr.infer_of_record hinfer)
        (Expr.infer_of_record hinfer') rfl
    rw [Expr.unwatched_callOf (by decide) (by decide), Expr.unwatchedArgs, Expr.unwatchedArgs, Expr.unwatchedArgs,
      unwatched, unwatched, hinner, unwatched_rowsAt (listening_rows htests hjoin)]

theorem unwatched_fieldsOf (hs : schema.Valid) : (selections : List Selection) → {t : Table} → {place : Place} →
    {points points' plain plain' : List Point} → {fields fields' final final' : List (String × Expr)} →
    Sees schema place.types →
    (fieldsOf schema true t place fields selections).run points = .ok (final, points') →
    (fieldsOf schema false t place fields' selections).run plain = .ok (final', plain') →
    (∀ f ∈ final, ∃ u, f.2.infer place.types = .ok u) → (∀ f ∈ final', ∃ u, f.2.infer place.types = .ok u) →
    Expr.unwatchedFields fields = fields' → Expr.unwatchedFields final = final'
  | [], _, _, _, _, _, _, _, _, _, _, _, h, h', _, _, heq => by
    cases h
    cases h'
    exact heq
  | .column name :: rest, t, place, points, points', plain, plain', fields, fields', final, final', hsees, h, h',
      hinfer, hinfer', heq => by
    obtain ⟨-, -, hrest⟩ := fieldsOf_column_ok h
    obtain ⟨-, -, hrest'⟩ := fieldsOf_column_ok h'
    refine unwatched_fieldsOf hs rest hsees hrest hrest' hinfer hinfer' ?_
    rw [Expr.unwatchedFields_eq, Keyed.mapValues_insert, ← Expr.unwatchedFields_eq, heq]
    rfl
  | .nested name q :: rest, t, place, points, points', plain, plain', fields, fields', final, final', hsees, h, h',
      hinfer, hinfer', heq => by
    obtain ⟨-, inner, join, e, points₁, hinner, hjoin, he, hrest⟩ := fieldsOf_nested_ok h
    obtain ⟨-, inner', join', e', plain₁, hinner', hjoin', he', hrest'⟩ := fieldsOf_nested_ok h'
    obtain rfl := Option.some.inj (hinner.symm.trans hinner')
    obtain rfl := Except.ok.inj (hjoin.symm.trans hjoin')
    obtain ⟨u, hu⟩ := hinfer (name, e) (subset_of_fieldsOf hrest (Keyed.mem_insert_self _ _ _))
    obtain ⟨u', hu'⟩ := hinfer' (name, e') (subset_of_fieldsOf hrest' (Keyed.mem_insert_self _ _ _))
    have hinside : Sees schema (place.inside join name).types := hsees
    have hplain : e.unwatched = e' := by
      refine unwatched_level hs q hinside (joins_inside name hs hinner hjoin) ?_ he he' hu hu'
      rintro j ⟨⟩
      exact listening_outer hjoin
    refine unwatched_fieldsOf hs rest hsees hrest hrest' hinfer hinfer' ?_
    rw [Expr.unwatchedFields_eq, Keyed.mapValues_insert, ← Expr.unwatchedFields_eq, heq, hplain]

end

end Plan

end LiveQuery
