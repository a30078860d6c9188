import LiveQuery.Proofs.Machine.Stages
import LiveQuery.Proofs.Plan.Inlined
import LiveQuery.Proofs.Query.Result

/-! # The rows of a level

What the rows of a level evaluate to: an iterator over the rows of its table, in key order, that meet the
filters and the condition that ties the level to the row around it (`Plan.opens_rowsAt`). In a live query each
row is watched.
-/
namespace LiveQuery

namespace Plan

variable {schema : Schema} {store : Store} {hidden : List String} {t : Table} {s : Scope} {place : Place}

/-! ## Tests -/

theorem evals_literal (h : HidesRows hidden) (l : Literal) :
    Evals s (ready schema store hidden l.expr) l.value := by
  cases l with
  | int n => exact .int n
  | str x => exact .str x
  | bool b =>
    have hname : NoRow (if b then "true" else "false") := by cases b <;> decide
    have hready : ready schema store hidden (Literal.bool b).expr = .value (.bool b) := by
      rw [ready, Literal.expr, Expr.inlineWith, h.not_contains hname, lookup_scope (by cases b <;> decide)]
      cases b <;> rfl
    rw [hready]
    exact .value _

theorem evals_column {k : Nat} {name : String} {v u : Value} (hrow : s.lookup (rowName k) = .ok v)
    (hmember : v.member name = .ok u) : Evals s (ready schema store hidden (.member (.var
      (rowName k)) name)) u := by
  rw [ready_column]
  exact (Evals.var hrow).member hmember

/-- Literals of a column's type are compared by content. -/
theorem exec_equality {type : ColumnType} {u v : Literal} (hu : u.ty = type.ty) (hv : v.ty = type.ty)
    (m : Machine) :
    (type.equality.apply [u.value, v.value]).exec m = some (.ok (.bool (decide (u = v))), m) := by
  have hbeq : ∀ {α : Type} [DecidableEq α] (a b : α), (a == b) = decide (a = b) := fun _ _ => rfl
  cases type with
  | int =>
    cases u <;> cases hu
    cases v <;> cases hv
    simp only [Literal.int.injEq, ← hbeq]
    rfl
  | string =>
    cases u <;> cases hu
    cases v <;> cases hv
    simp only [Literal.str.injEq, ← hbeq]
    rfl
  | bool =>
    cases u <;> cases hu
    cases v <;> cases hv
    simp only [Literal.bool.injEq, ← hbeq]
    rfl

theorem evals_equals (h : HidesRows hidden) {type : ColumnType} {a b : Expr} {u v : Literal}
    (ha : Evals s (ready schema store hidden a) u.value) (hb : Evals s (ready schema store hidden b) v.value)
    (hu : u.ty = type.ty) (hv : v.ty = type.ty) :
    Evals s (ready schema store hidden (equals type a b)) (.bool (decide (u = v))) := by
  rw [equals, ready_callOf h]
  have haccepts : (Function.builtin type.equality).Accepts [u.value.ty, v.value.ty] .bool := by
    rw [Literal.ty_value, Literal.ty_value, hu, hv]
    cases type <;> exact Builtin.accepts_declared rfl
  exact Evals.call ha hb haccepts trivial (exec_equality hu hv) rfl

theorem evals_and (h : HidesRows hidden) {a b : Expr} {p q : Bool}
    (ha : Evals s (ready schema store hidden a) (.bool p)) (hb :
      Evals s (ready schema store hidden b) (.bool q)) :
    Evals s (ready schema store hidden (.callOf Builtin.and.name [a, b])) (.bool (p && q)) := by
  rw [ready_callOf h]
  exact Evals.call ha hb (Builtin.accepts_declared (b := .and) rfl) trivial (fun _ => rfl) rfl

/-- The test of all tests is whether all hold. -/
theorem evals_allOf? (h : HidesRows hidden) {tests : List Expr} {ps : List Bool} {e : Expr}
    (he : allOf? tests = some e)
    (htests : List.Forall₂ (fun a p => Evals s (ready schema store hidden a) (.bool p)) tests ps) :
    Evals s (ready schema store hidden e) (.bool (ps.all id)) := by
  cases htests with
  | nil => cases he
  | @cons a p tests ps ha htests =>
    cases he
    rw [List.all_cons, id]
    induction htests generalizing a p with
    | nil => simpa using ha
    | @cons b q tests ps hb _ ih =>
      have hmore := ih (evals_and h ha hb)
      rwa [Bool.and_assoc] at hmore

theorem eq_nil_of_allOf? {tests : List Expr} (h : allOf? tests = none) : tests = [] := by
  cases tests with
  | nil => rfl
  | cons a tests => cases h

/-- The condition `f` is the join of a place, as it stands for the row around the place. -/
structure Ties (place : Place) (s : Scope) (j : Join) (f : Filter) : Prop where
  column : f.column = j.column
  type : f.value.ty = j.type.ty
  outer : ∃ k < place.level, ∃ name v, j.outer = .member (.var (rowName k)) name ∧
    s.lookup (rowName k) = .ok v ∧ v.member name = .ok f.value.value

/-- The condition that ties the rows of a place to the row around it, if there is one. -/
def Place.Tied (place : Place) (s : Scope) (link : Option Filter) : Prop :=
    Option.Rel (Ties place s) place.join link

theorem evals_outer {j : Join} {f : Filter} (h : Ties place s j f) :
    Evals s (ready schema store hidden j.outer) f.value.value := by
  obtain ⟨k, -, name, v, hj, hlookup, hmember⟩ := h.outer
  rw [hj]
  exact evals_column hlookup hmember

/-! ## Scopes -/

/-- The scope of a row at a level. -/
def innerScope (s : Scope) (level : Nat) (r : Row) : Scope := Links.child s [(rowName level, r.value)]

theorem lookup_innerScope {level : Nat} {r : Row} {name : String} (h : name ≠ rowName level) :
    (innerScope s level r).lookup name = s.lookup name := by
  have hnone : name ∉ [(rowName level, r.value)].map Prod.fst := by
    simpa using h
  rw [innerScope, Scope.lookup, Links.find?_child_of_not_mem _ hnone]
  rfl

theorem lookup_innerScope_self {level : Nat} {r : Row} :
    (innerScope s level r).lookup (rowName level) = .ok r.value := by
  have hfind : Keyed.find? (Keyed.ofList [(rowName level, r.value)]) (rowName level) = some r.value :=
    Keyed.find?_ofList_of_mem (List.nodup_singleton _) List.mem_cons_self
  rw [innerScope, Scope.lookup, Links.child, Links.find?, hfind]

theorem Ties.inner {j : Join} {f : Filter} (h : Ties place s j f) (r : Row) :
    Ties place (innerScope s place.level r) j f := by
  obtain ⟨k, hk, name, v, hj, hlookup, hmember⟩ := h.outer
  have hne : rowName k ≠ rowName place.level := fun heq => Nat.ne_of_lt hk (rowName_injective heq)
  exact ⟨h.column, h.type, k, hk, name, v, hj, (lookup_innerScope hne).trans hlookup, hmember⟩

/-! ## Rows -/

theorem evals_member (ht : t.Valid) {r : Row} (hr : t.Fits r) {c : Column} (hc : c ∈ t.columns) :
    Evals (innerScope s place.level r) (ready schema store hidden (.member (.var
    (rowName place.level)) c.name))
      (r.get c.name).value :=
  evals_column lookup_innerScope_self (hr.member ht hc)

/-- The conditions on the rows of a level. -/
def conditions (q : Query) (link : Option Filter) : List Filter := q.filters ++ link.toList

section Rows

variable {tests : List Expr} {q : Query} {link : Option Filter} {r : Row}

theorem evals_testsAt (h : HidesRows hidden) (ht : t.Valid) (hr : t.Fits r)
    (htests : q.filters.mapM (filterTest t (rowName place.level)) = .ok tests) (hjoins : place.Joins t)
    (htied : place.Tied s link) :
    List.Forall₂ (fun e f => Evals (innerScope s place.level r) (ready schema store hidden e) (.bool
    (r.meets f)))
      (testsAt place tests) (conditions q link) := by
  refine List.rel_append ?_ ?_
  · refine (forall₂_of_mapM htests).flip.imp fun e f hf => ?_
    obtain ⟨c, hc, hty, rfl⟩ := filterTest_ok hf
    obtain ⟨hmem, hname⟩ := Table.mem_of_column? hc
    rw [Row.meets, ← hname]
    exact evals_equals h (evals_member ht hr hmem) (evals_literal h f.value) (hr.find? ht hmem).2 hty
  · unfold Place.Tied at htied
    cases hj : place.join with
    | none =>
      rw [hj] at htied
      cases htied
      exact .nil
    | some j =>
      rw [hj] at htied
      cases htied with
      | @some _ f hties =>
        obtain ⟨c, hc, hname, htype⟩ := (hjoins j hj).column
        refine .cons ?_ .nil
        rw [Row.meets, hties.column, ← hname, joinTest, ← htype, ← hname]
        exact evals_equals h (evals_member ht hr hc) (evals_outer (hties.inner r)) (hr.find? ht hc).2
          (htype ▸ hties.type)

/-- The rows of a level. -/
def levelRows (store : Store) (t : Table) (q : Query) (link : Option Filter) : List Row :=
  (store.rows t.name).filter fun r => (conditions q link).all r.meets

theorem opens_filteredRows (w : Option Watch) (here : Path) (h : HidesRows hidden) (hs : schema.Valid)
    (hstore : store.Ordered) (hrows : RowsTyped schema store) (ht : Keyed.find? schema t.name = some t)
    (htests : q.filters.mapM (filterTest t (rowName place.level)) = .ok tests) (hjoins : place.Joins t)
    (htied : place.Tied s link) :
    OpensRows w s here (ready schema store hidden (filteredRows t (rowName place.level)
    (testsAt place tests)))
      t.rowType (Feeds.plain Row.value (levelRows store t q link)) [] := by
  have hvalid := (hs.find? ht).1
  obtain ⟨hdecode, hfits⟩ := hrows.forall₂_rows ht
  have hscan : OpensRows w s here (ready schema store hidden (.callOf Builtin.scan.name
      [.member (.member (.var "tables") t.name) t.primaryKey.name])) t.rowType
      (Feeds.plain Row.value (store.rows t.name)) [] := by
    rw [ready_callOf h, List.map_singleton, ready_index h hs ht]
    refine OpensRows.scan (ColumnType.proper_ty _) t.proper_rowType (fun b hb => ?_) hdecode
    rw [← Store.entries_of_bucket? hb]
    exact hstore.entries t.name
  have heach : ∀ r ∈ store.rows t.name, List.Forall₂ (fun e p => Evals (innerScope s place.level r)
      (ready schema store (rowName place.level :: hidden) e) (.bool p)) (testsAt place tests)
      ((conditions q link).map r.meets) := by
    intro r hr
    rw [List.forall₂_map_right_iff]
    exact evals_testsAt (h.cons place.level) hvalid (hfits r hr) htests hjoins htied
  simp only [filteredRows]
  split
  next test htest =>
    rw [ready_callOf h]
    refine OpensRows.filter (p := fun r => (conditions q link).all r.meets) t.proper_rowType
      (fun r hr => ?_) hscan
    have htest := evals_allOf? (h.cons place.level) htest (heach r hr)
    rw [List.all_map] at htest
    exact htest
  next hnone =>
    have hall : levelRows store t q link = store.rows t.name := by
      refine List.filter_eq_self.mpr fun r hr => ?_
      have hnil := heach r hr
      rw [eq_nil_of_allOf? hnone, List.forall₂_nil_left_iff, List.map_eq_nil_iff] at hnil
      rw [hnil]
      rfl
    rw [hall]
    exact hscan

/-! ## Watched rows -/

/-- How many points a plan may have, as they are numbered by whole numbers of 64 bits. -/
def maxPoints : Nat := 9223372036854775808

/-- The watch of a live query, if there is one, knows the points of a plan. -/
def Covers (w : Option Watch) (points : List Point) : Prop :=
  ∀ w', w = some w' → points <+: w'.points ∧ w'.points.length ≤ maxPoints

theorem Covers.point {w : Watch} {points : List Point} {p : Point} (h : Covers (some w) (points ++ [p])) :
    w.point (Int64.ofNat points.length) = .ok p := by
  obtain ⟨⟨rest, hpoints⟩, hlength⟩ := h w rfl
  have hlt : points.length < maxPoints := by
    rw [← hpoints] at hlength
    simp only [List.length_append, List.length_singleton] at hlength
    omega
  have hnumber : (Int64.ofNat points.length).toInt = points.length := Int64.toInt_ofNat_of_lt hlt
  have hat : w.points[points.length]? = some p := by
    rw [← hpoints, List.append_assoc, List.getElem?_append_right (Nat.le_refl _), Nat.sub_self]
    rfl
  rw [Watch.point, hnumber, if_neg (by omega), Int.toNat_natCast, hat]

/-- The path of the rows of a place, in the row at `here`. -/
def Place.path (place : Place) (w : Watch) (here : Path) : Path :=
  match place.selection with
  | some name => here.selection name
  | none => w.base

/-- Only the root is not selected in a row. -/
def Place.Rooted (place : Place) : Prop := place.level = 0 → place.selection = none

theorem pathOf_point (h : place.Rooted) (w : Watch) (here : Path) :
    w.pathOf (point q t place) here = place.path w here := by
  unfold Watch.pathOf Place.path point
  dsimp only
  cases hsel : place.selection with
  | none => rfl
  | some name =>
    have hlevel : place.level ≠ 0 := by
      intro hzero
      rw [h hzero] at hsel
      cases hsel
    simp [hlevel]

/-- What a live query sends when the rows of a place are evaluated. -/
def Place.opened (place : Place) (w : Option Watch) (here : Path) (q : Query) (link : Option Filter) :
    List Subscription :=
  match w with
  | none => []
  | some w =>
    if place.level = 0 && w.resumed then [] else [q.subscription w.subscriber link (place.path w here)]

/-- A row of a place as it is given out. -/
def Place.item (place : Place) (w : Option Watch) (here : Path) (t : Table) (r : Row) : Item :=
  match w with
  | none => { value := r.value }
  | some w => {
      value := r.value
      sent := [.record t.name (r.key t).keyBytes ⟨w.subscriber, none, (place.path w here).row (r.key t).json⟩]
      rowPath := some ((place.path w here).row (r.key t).json) }

theorem watched_point (h : place.Rooted) (w : Watch) (here : Path) (rows : List Row) :
    w.watched (point q t place) here Row.value (Row.key · t) rows =
      rows.map (place.item (some w) here t) := by
  simp only [Watch.watched, pathOf_point h]
  rfl

theorem tableSubscriptions_point (h : place.Rooted) (w : Watch) (here : Path) (ht : t.name = q.table)
    {filter : Option (String × Bytes)}
    (hfilter : filter = (link.or q.filters.head?).map fun f => (f.column, f.value.keyBytes)) :
    w.tableSubscriptions (point q t place) filter here = place.opened (some w) here q link := by
  simp only [Watch.tableSubscriptions, Place.opened, pathOf_point h, hfilter, Query.subscription, ← ht]
  rfl

/-- What a listener is narrowed by is the condition that ties the rows, else the first filter. -/
theorem narrowing_cases (schema : Schema) (store : Store) (h : HidesRows hidden) (htied : place.Tied s link) :
    (narrowing q.filters place.join = none ∧ link.or q.filters.head? = none) ∨
    ∃ f e, narrowing q.filters place.join = some (f.column, e) ∧ link.or q.filters.head? = some f ∧
      Evals s (ready schema store hidden e) f.value.value := by
  unfold Place.Tied at htied
  cases hj : place.join with
  | some j =>
    rw [hj] at htied
    cases htied with
    | @some _ f hties => exact Or.inr ⟨f, j.outer, by rw [hties.column]; rfl, rfl, evals_outer hties⟩
  | none =>
    rw [hj] at htied
    cases htied
    cases hf : q.filters with
    | nil => exact Or.inl ⟨rfl, rfl⟩
    | cons f filters => exact Or.inr ⟨f, f.value.expr, rfl, rfl, evals_literal h f.value⟩

theorem opens_rowsAt {w : Option Watch} (here : Path) {points : List Point} (h : HidesRows hidden)
    (hs : schema.Valid) (hstore : store.Ordered) (hrows : RowsTyped schema store)
    (ht : Keyed.find? schema q.table = some t)
    (htests : q.filters.mapM (filterTest t (rowName place.level)) = .ok tests) (hjoins : place.Joins t)
    (htied : place.Tied s link) (hrooted : place.Rooted) (hcovers : Covers w (points ++ [point q t place])) :
    OpensRows w s here (ready schema store hidden (rowsAt w.isSome q t place tests points)) t.rowType
      ((levelRows store t q link).map (place.item w here t)) (place.opened w here q link) := by
  have hname := (hs.find? ht).2
  have hvalid := (hs.find? ht).1
  have hplain := opens_filteredRows w here h hs hstore hrows (hs.find?_self ht) htests hjoins htied
  have hfits := (hrows.forall₂_rows (hs.find?_self ht)).2
  cases w with
  | none => exact hplain
  | some w =>
    have hkey : ∀ r ∈ levelRows store t q link, r.value.member (point q t place).primaryKey =
        .ok (r.key t).value :=
      fun r hr => (hfits r (List.mem_filter.mp hr).1).member hvalid hvalid.columns_spec.2
    have hpoint := hcovers.point
    rw [← watched_point (q := q) hrooted]
    simp only [rowsAt, Option.isSome_some, if_true, listenCall]
    rcases narrowing_cases schema store h htied with ⟨hn, hl⟩ | ⟨f, e, hn, hl, he⟩
    · have hfilter : none = (link.or q.filters.head?).map fun f => (f.column, f.value.keyBytes) := by
        rw [hl]
        rfl
      rw [hn, Option.map_none, ready_callOf h, ← tableSubscriptions_point hrooted w here hname hfilter]
      exact OpensRows.listen t.proper_rowType hpoint (by rw [point, hn]; rfl) hkey hplain
    · have hfilter : some (f.column, f.value.keyBytes) =
          (link.or q.filters.head?).map fun f => (f.column, f.value.keyBytes) := by
        rw [hl]
        rfl
      rw [hn, Option.map_some, ready_callOf h, ← tableSubscriptions_point hrooted w here hname hfilter]
      exact OpensRows.listenWhere t.proper_rowType hpoint (by rw [point, hn]; rfl) hkey he hplain

end Rows

end Plan

end LiveQuery
