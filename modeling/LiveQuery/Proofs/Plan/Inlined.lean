import LiveQuery.Proofs.Plan.Typing

/-! # Plans after inlining

What becomes of the parts of a plan when names are replaced by what they are in the scope of a catalog: calls
are known to name their built-in functions, a handle stands in place of its name, and the rows further out
stay names (`Plan.ready`). No call is left to be linked (`Expr.Linked`).
-/
namespace LiveQuery

/-! ## Linking -/

/-- Linking leaves the expression as it is and uses no cell. -/
def Expr.Linked (e : Expr) : Prop := ∀ n, e.link n = (e, n)

namespace Expr.Linked

variable {name : String}

theorem linkFields {fields : List (String × Expr)} (h : ∀ f ∈ fields, f.2.Linked) (n : Nat) :
    Expr.linkFields n fields = (fields, n) := by
  induction fields generalizing n with
  | nil => rfl
  | cons f fields ih =>
    obtain ⟨hf, hfields⟩ := List.forall_mem_cons.mp h
    simp only [Expr.linkFields, hf n, ih hfields n]

theorem linkArgs {args : List Expr} (h : ∀ e ∈ args, e.Linked) (n : Nat) :
    Expr.linkArgs n args = (args, n) := by
  induction args generalizing n with
  | nil => rfl
  | cons e args ih =>
    obtain ⟨he, hargs⟩ := List.forall_mem_cons.mp h
    simp only [Expr.linkArgs, he n, ih hargs n]

theorem int (n : Int64) : (Expr.int n).Linked := fun _ => rfl

theorem var (name : String) : (Expr.var name).Linked := fun _ => rfl

theorem index (i : Index) : (Expr.index i).Linked := fun _ => rfl

theorem member {e : Expr} (h : e.Linked) (name : String) : (Expr.member e name).Linked := by
  intro n
  simp only [Expr.link, h n]

theorem record {fields : List (String × Expr)} (h : ∀ f ∈ fields, f.2.Linked) :
    (Expr.record fields).Linked := by
  intro n
  simp only [Expr.link, linkFields h n]

theorem lambda {params : List (String × Ty)} {result : Ty} {body : Expr} (h : body.Linked) :
    (Expr.lambda params result body).Linked := by
  intro n
  simp only [Expr.link, h n]

/-- A call that is known to name a built-in function. -/
theorem call {args : List Expr} {b : Builtin} (h : ∀ e ∈ args, e.Linked) :
    (Expr.call name args (.known b)).Linked := by
  intro n
  simp only [Expr.link, linkArgs h n]

end Expr.Linked

namespace Plan

/-! ## Inlining -/

/-- The hidden names are names of rows. -/
def HidesRows (hidden : List String) : Prop := ∀ name ∈ hidden, ∃ k, name = rowName k

theorem HidesRows.nil : HidesRows [] := fun _ hname => absurd hname List.not_mem_nil

theorem HidesRows.cons {hidden : List String} (h : HidesRows hidden) (k : Nat) :
    HidesRows (rowName k :: hidden) :=
  List.forall_mem_cons.mpr ⟨⟨k, rfl⟩, h⟩

theorem HidesRows.not_contains {hidden : List String} (h : HidesRows hidden) {name : String}
    (hname : NoRow name) : hidden.contains name = false := by
  rw [List.contains_eq_mem, decide_eq_false_iff_not]
  intro hmem
  obtain ⟨k, hk⟩ := h name hmem
  exact hname.ne k hk

section Inlined

variable (schema : Schema) (store : Store) (hidden : List String)

/-- An expression under the rows `hidden`, with the other names replaced by what they are in the scope of a
catalog. -/
def ready (e : Expr) : Expr := e.inlineWith (Catalog.scope schema store) #[] hidden

end Inlined

variable {schema : Schema} {store : Store} {hidden : List String} {t : Table}

theorem lookup_scope {name : String} (h : name ≠ "tables") :
    (Catalog.scope schema store).lookup name = Scope.root.lookup name := by
  have hnone : name ∉ [("tables", handles schema store)].map Prod.fst := by
    simpa using h
  rw [Catalog.scope, Scope.lookup, Links.find?_child_of_not_mem _ hnone]
  rfl

theorem ready_callOf (h : HidesRows hidden) (b : Builtin) (args : List Expr) :
    ready schema store hidden (.callOf b.name args) =
      .call b.name (args.map (ready schema store hidden)) (.known b) := by
  have hsite : Expr.inlineSite (Catalog.scope schema store) #[] hidden b.name .unlinked = .known b := by
    simp only [Expr.inlineSite, CallSite.resolved?, h.not_contains (noRow_builtin b), Bool.false_eq_true,
      if_false]
    rw [lookup_scope (by cases b <;> decide)]
    cases b <;> rfl
  have hargs : Expr.inlineArgs (Catalog.scope schema store) #[] hidden args =
      args.map (ready schema store hidden) := by
    induction args with
    | nil => rfl
    | cons e args ih => exact congrArg (ready schema store hidden e :: ·) ih
  rw [ready, Expr.callOf, Expr.inlineWith, hsite, hargs]

theorem ready_record (fields : List (String × Expr)) :
    ready schema store hidden (.record fields) =
      .record (Keyed.mapValues (ready schema store hidden) fields) := by
  have hfields : Expr.inlineFields (Catalog.scope schema store) #[] hidden fields =
      Keyed.mapValues (ready schema store hidden) fields := by
    induction fields with
    | nil => rfl
    | cons f fields ih => exact congrArg ((f.1, ready schema store hidden f.2) :: ·) ih
  rw [ready, Expr.inlineWith, hfields]

theorem lookup_rowName (k : Nat) :
    (Catalog.scope schema store).lookup (rowName k) = .error (.notInScope (rowName k)) := by
  have hne : ∀ name : String, NoRow name → rowName k ≠ name := fun name h => (h.ne k).symm
  have hbuiltin : Builtin.ofName? (rowName k) = none := by
    refine List.find?_eq_none.mpr fun b _ => ?_
    simpa using (noRow_builtin b).ne k
  have hroot : rootValue? (rowName k) = none := by
    rw [rootValue?, if_neg (hne "true" (by decide)), if_neg (hne "false" (by decide)), hbuiltin]
    rfl
  rw [lookup_scope (hne _ noRow_tables), Scope.lookup, hroot]
  rfl

/-- The rows of a level stay names. -/
theorem ready_column (k : Nat) (name : String) :
    ready schema store hidden (.member (.var (rowName k)) name) = .member (.var (rowName k)) name := by
  have hvar : Expr.inlineWith (Catalog.scope schema store) #[] hidden (.var (rowName k)) =
    .var (rowName k) := by
    rw [Expr.inlineWith, lookup_rowName]
    split <;> rfl
  rw [ready, Expr.inlineWith, hvar]
  rfl

/-- The handle on the rows of a table. -/
theorem ready_index (h : HidesRows hidden) (hs : schema.Valid) (ht : Keyed.find? schema t.name = some t) :
    ready schema store hidden (.member (.member (.var "tables") t.name) t.primaryKey.name) =
      .index ⟨t.name, t.primaryKey.name, t.primaryKey.type.ty, t.rowType, store.bucket? t.name⟩ := by
  have htables : (Catalog.scope schema store).lookup "tables" = .ok (handles schema store) := rfl
  have hvar : Expr.inlineWith (Catalog.scope schema store) #[] hidden (.var "tables") =
      .value (handles schema store) := by
    rw [Expr.inlineWith, h.not_contains noRow_tables, htables]
    rfl
  have hfind := hs.find?_ofList (fun t => Value.record [(t.primaryKey.name,
    .index ⟨t.name, t.primaryKey.name, t.primaryKey.type.ty, t.rowType, store.bucket? t.name⟩)]) ht
  rw [ready, Expr.inlineWith, Expr.inlineWith, hvar]
  simp only [handles, Value.recordOf, Expr.foldMember, hfind, Expr.ofValue, Keyed.find?_cons, if_true]

/-! ## Plans need no linking -/

theorem linked_literal (h : HidesRows hidden) (l : Literal) : (ready schema store hidden l.expr).Linked := by
  cases l with
  | int n => exact .int n
  | str s => exact fun _ => rfl
  | bool b =>
    have hname : NoRow (if b then "true" else "false") := by cases b <;> decide
    intro n
    rw [ready, Literal.expr, Expr.inlineWith, h.not_contains hname, lookup_scope (by cases b <;> decide)]
    cases b <;> rfl

theorem linked_callOf (h : HidesRows hidden) {b : Builtin} {args : List Expr}
    (hargs : ∀ e ∈ args, (ready schema store hidden e).Linked) :
    (ready schema store hidden (.callOf b.name args)).Linked := by
  rw [ready_callOf h]
  exact .call (List.forall_mem_map.mpr hargs)

theorem linked_column (k : Nat) (name : String) :
    (ready schema store hidden (.member (.var (rowName k)) name)).Linked := by
  rw [ready_column]
  exact (Expr.Linked.var _).member name

theorem linked_equals (h : HidesRows hidden) {type : ColumnType} {a b : Expr}
    (ha : (ready schema store hidden a).Linked) (hb : (ready schema store hidden b).Linked) :
    (ready schema store hidden (equals type a b)).Linked :=
  linked_callOf h (List.forall_mem_cons.mpr ⟨ha, List.forall_mem_singleton.mpr hb⟩)

theorem linked_outer {place : Place} {j : Join} (h : Inside j t place.level) :
    (ready schema store hidden j.outer).Linked := by
  obtain ⟨k, -, name, hj⟩ := h.outer
  rw [hj]
  exact linked_column k name

theorem linked_testsAt (h : HidesRows hidden) {place : Place} {filters : List Filter} {tests : List Expr}
    (htests : filters.mapM (filterTest t (rowName place.level)) = .ok tests) (hjoins : place.Joins t) :
    ∀ e ∈ testsAt place tests, (ready schema store hidden e).Linked := by
  intro e he
  rcases List.mem_append.mp he with he | he
  · obtain ⟨f, -, hf⟩ := exists_of_forall₂ (forall₂_of_mapM htests) e he
    obtain ⟨c, -, -, rfl⟩ := filterTest_ok hf
    exact linked_equals h (linked_column _ _) (linked_literal h f.value)
  · rw [Option.mem_toList, Option.map_eq_some_iff] at he
    obtain ⟨j, hj, rfl⟩ := he
    exact linked_equals h (linked_column _ _) (linked_outer (hjoins j hj))

theorem linked_allOf? (h : HidesRows hidden) {tests : List Expr} {e : Expr} (he : allOf? tests = some e)
    (htests : ∀ a ∈ tests, (ready schema store hidden a).Linked) : (ready schema store hidden e).Linked := by
  cases tests with
  | nil => cases he
  | cons a tests =>
    cases he
    induction tests generalizing a with
    | nil => exact htests a List.mem_cons_self
    | cons b tests ih =>
      obtain ⟨ha, hrest⟩ := List.forall_mem_cons.mp htests
      obtain ⟨hb, hrest⟩ := List.forall_mem_cons.mp hrest
      refine ih (.callOf Builtin.and.name [a, b]) (List.forall_mem_cons.mpr ⟨?_, hrest⟩)
      exact linked_callOf h (List.forall_mem_cons.mpr ⟨ha, List.forall_mem_singleton.mpr hb⟩)

theorem linked_filteredRows (h : HidesRows hidden) (hs : schema.Valid) (ht : Keyed.find? schema t.name =
    some t)
    {k : Nat} {tests : List Expr}
    (htests : ∀ e ∈ tests, (ready schema store (rowName k :: hidden) e).Linked) :
    (ready schema store hidden (filteredRows t (rowName k) tests)).Linked := by
  have hscan : (ready schema store hidden (.callOf Builtin.scan.name
      [.member (.member (.var "tables") t.name) t.primaryKey.name])).Linked := by
    refine linked_callOf h (List.forall_mem_singleton.mpr ?_)
    rw [ready_index h hs ht]
    exact .index _
  simp only [filteredRows]
  split
  next test htest =>
    refine linked_callOf h (List.forall_mem_cons.mpr ⟨hscan, List.forall_mem_singleton.mpr ?_⟩)
    exact .lambda (linked_allOf? (h.cons k) htest htests)
  next => exact hscan

theorem linked_rowsAt (h : HidesRows hidden) (hs : schema.Valid) (ht : Keyed.find? schema t.name = some t)
    {live : Bool} {q : Query} {place : Place} {points : List Point} {tests : List Expr}
    (htests : q.filters.mapM (filterTest t (rowName place.level)) = .ok tests) (hjoins : place.Joins t) :
    (ready schema store hidden (rowsAt live q t place tests points)).Linked := by
  have hrows : (ready schema store hidden
      (filteredRows t (rowName place.level) (testsAt place tests))).Linked :=
    linked_filteredRows h hs ht (linked_testsAt (h.cons place.level) htests hjoins)
  simp only [rowsAt, listenCall]
  split
  next =>
    cases hn : narrowing q.filters place.join with
    | none =>
      exact linked_callOf h (List.forall_mem_cons.mpr ⟨hrows, List.forall_mem_singleton.mpr (.int _)⟩)
    | some narrowed =>
      refine linked_callOf h (List.forall_mem_cons.mpr ⟨hrows, List.forall_mem_cons.mpr
        ⟨.int _, List.forall_mem_singleton.mpr ?_⟩⟩)
      cases hj : place.join with
      | some j =>
        rw [hj] at hn
        cases hn
        exact linked_outer (hjoins j hj)
      | none =>
        rw [hj] at hn
        cases hf : q.filters with
        | nil =>
          rw [hf] at hn
          cases hn
        | cons f filters =>
          rw [hf] at hn
          cases hn
          exact linked_literal h f.value
  next => exact hrows

mutual

theorem linked_level (hs : schema.Valid) {live : Bool} : (q : Query) → {place : Place} →
    {points points' : List Point} → {e : Expr} → {hidden : List String} → HidesRows hidden →
    (∀ t, Keyed.find? schema q.table = some t → place.Joins t) →
    (level schema live place q).run points = .ok (e, points') → (ready schema store hidden e).Linked
  | .mk c name filters selections, place, points, points', e, hidden, h, hjoins, he => by
    obtain ⟨t, tests, fields, result, ht, htests, hfields, -, rfl⟩ := level_ok he
    have hfields := linked_fieldsOf hs selections (h.cons place.level)
      (fun _ hf => absurd hf List.not_mem_nil) hfields
    have hbody : (ready schema store (rowName place.level :: hidden) (.record fields)).Linked := by
      rw [ready_record]
      exact .record (List.forall_mem_map.mpr hfields)
    refine linked_callOf h (List.forall_mem_cons.mpr ⟨?_, List.forall_mem_singleton.mpr hbody.lambda⟩)
    exact linked_rowsAt h hs (hs.find?_self ht) htests (hjoins t ht)

theorem linked_fieldsOf (hs : schema.Valid) {live : Bool} : (selections : List Selection) → {t : Table} →
    {place : Place} → {points points' : List Point} → {fields final : List (String × Expr)} →
    {hidden : List String} → HidesRows hidden → (∀ f ∈ fields, (ready schema store hidden f.2).Linked) →
    (fieldsOf schema live t place fields selections).run points = .ok (final, points') →
    ∀ f ∈ final, (ready schema store hidden f.2).Linked
  | [], _, _, _, _, _, _, _, _, hfields, h => by
    cases h
    exact hfields
  | .column name :: rest, t, place, points, points', fields, final, hidden, hh, hfields, h => by
    obtain ⟨-, -, hrest⟩ := fieldsOf_column_ok h
    refine linked_fieldsOf hs rest hh (fun f hf => ?_) hrest
    rcases Keyed.mem_of_mem_insert hf with rfl | hf
    · exact linked_column place.level name
    · exact hfields f hf
  | .nested name q :: rest, t, place, points, points', fields, final, hidden, hh, hfields, h => by
    obtain ⟨-, inner, join, e, points₁, hinner, hjoin, he, hrest⟩ := fieldsOf_nested_ok h
    refine linked_fieldsOf hs rest hh (fun f hf => ?_) hrest
    rcases Keyed.mem_of_mem_insert hf with rfl | hf
    · exact linked_level hs q hh (joins_inside name hs hinner hjoin) he
    · exact hfields f hf

end

end Plan

end LiveQuery
