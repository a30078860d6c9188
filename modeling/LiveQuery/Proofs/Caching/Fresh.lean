import LiveQuery.Proofs.Grammar.Expressions
import LiveQuery.Proofs.Inlining.Pairing
import LiveQuery.Proofs.Plan.Planned

/-! # Fresh expressions

An expression that was just read from a text or planned for a query (`Expr.Authored`) knows nothing about its calls
and holds no values (`Expr.Fresh`). So it belongs to itself in two runs that start in any scopes, under any binders
(`Exprs.of_fresh`).
-/
namespace LiveQuery

namespace Expr

/-- A node that knows nothing about its call, and is no value. -/
def IsFresh : Expr → Prop
  | .call _ _ site => site = .unlinked
  | .value _ => False
  | .int _ | .str _ | .var _ | .record _ | .lambda .. | .member .. | .block .. | .index _ => True

/-- Nothing is known about the calls of the expression, and it holds no values. -/
def Fresh (e : Expr) : Prop := e.Everywhere IsFresh

/-! ## Expressions that were read -/

theorem Fresh.of_plain {e : Expr} (h : e.Everywhere Plain) : e.Fresh := by
  induction e using partsInduction with
  | h e ih =>
    refine ⟨?_, fun x hx => ih x hx (h.inside x hx)⟩
    have hnode := h.here
    cases e with
    | call name args site => exact hnode.2
    | value => exact hnode
    | int | str | var | record | lambda | member | block | index => trivial

theorem gives_fresh (fuel : Nat) : (Grammar.expr fuel).Gives Fresh :=
  fun i e j h => .of_plain (Grammar.expr_plain fuel i e j h)

/-! ## Plans -/

theorem Fresh.callOf {args : List Expr} (name : String) (h : ∀ e ∈ args, e.Fresh) : (callOf name args).Fresh :=
  ⟨rfl, h⟩

theorem Fresh.lambda {params : List (String × Ty)} {result : Ty} {body : Expr} (h : body.Fresh) :
    (lambda params result body).Fresh :=
  ⟨trivial, List.forall_mem_singleton.mpr h⟩

theorem Fresh.member {e : Expr} (h : e.Fresh) (name : String) : (member e name).Fresh :=
  ⟨trivial, List.forall_mem_singleton.mpr h⟩

theorem Fresh.var (name : String) : (var name).Fresh := ⟨trivial, fun _ hx => absurd hx List.not_mem_nil⟩

theorem Fresh.int (n : Int64) : (int n).Fresh := ⟨trivial, fun _ hx => absurd hx List.not_mem_nil⟩

theorem Fresh.literal (l : Literal) : l.expr.Fresh := by
  cases l with
  | int n => exact .int n
  | str s => exact ⟨trivial, fun _ hx => absurd hx List.not_mem_nil⟩
  | bool b => exact .var _

end Expr

namespace Plan

variable {schema : Schema} {live : Bool}

theorem fresh_equals {type : ColumnType} {a b : Expr} (ha : a.Fresh) (hb : b.Fresh) : (equals type a b).Fresh :=
  .callOf _ (List.forall_mem_cons.mpr ⟨ha, List.forall_mem_singleton.mpr hb⟩)

theorem fresh_column (row name : String) : (Expr.member (.var row) name).Fresh := (Expr.Fresh.var row).member name

theorem fresh_outer {outer inner : Table} {row : String} {c : Cardinality} {j : Join}
    (h : Join.between outer row inner c = .ok j) : j.outer.Fresh := by
  rcases between_ok h with ⟨-, r, -, rfl⟩ | ⟨-, r, -, rfl⟩ <;> exact fresh_column _ _

theorem fresh_testsAt {t : Table} {place : Place} {filters : List Filter} {tests : List Expr}
    (htests : filters.mapM (filterTest t (rowName place.level)) = .ok tests)
    (hjoin : ∀ j, place.join = some j → j.outer.Fresh) : ∀ e ∈ testsAt place tests, e.Fresh := by
  intro e he
  rcases List.mem_append.mp he with he | he
  · obtain ⟨f, -, hf⟩ := exists_of_forall₂ (forall₂_of_mapM htests) e he
    obtain ⟨c, -, -, rfl⟩ := filterTest_ok hf
    exact fresh_equals (fresh_column _ _) (.literal f.value)
  · obtain ⟨j, hj, rfl⟩ := Option.map_eq_some_iff.mp (Option.mem_toList.mp he)
    exact fresh_equals (fresh_column _ _) (hjoin j hj)

theorem fresh_foldl_and {tests : List Expr} {e : Expr} (he : e.Fresh) (h : ∀ e ∈ tests, e.Fresh) :
    (tests.foldl (fun a b => .callOf Builtin.and.name [a, b]) e).Fresh := by
  induction tests generalizing e with
  | nil => exact he
  | cons e' tests ih =>
    obtain ⟨he', htests⟩ := List.forall_mem_cons.mp h
    exact ih (.callOf _ (List.forall_mem_cons.mpr ⟨he, List.forall_mem_singleton.mpr he'⟩)) htests

theorem fresh_filteredRows (t : Table) (row : String) {tests : List Expr} (h : ∀ e ∈ tests, e.Fresh) :
    (filteredRows t row tests).Fresh := by
  have hscan : (Expr.callOf Builtin.scan.name [.member (.member (.var "tables") t.name) t.primaryKey.name]).Fresh :=
    .callOf _ (List.forall_mem_singleton.mpr ((fresh_column "tables" t.name).member _))
  cases tests with
  | nil => exact hscan
  | cons e tests =>
    obtain ⟨he, htests⟩ := List.forall_mem_cons.mp h
    exact .callOf _ (List.forall_mem_cons.mpr
      ⟨hscan, List.forall_mem_singleton.mpr (Expr.Fresh.lambda (fresh_foldl_and he htests))⟩)

theorem fresh_narrowing {filters : List Filter} {join : Option Join} (hjoin : ∀ j, join = some j → j.outer.Fresh)
    {column : String} {e : Expr} (h : narrowing filters join = some (column, e)) : e.Fresh := by
  cases join with
  | some j =>
    cases h
    exact hjoin j rfl
  | none =>
    cases filters with
    | nil => cases h
    | cons f filters =>
      cases h
      exact .literal f.value

theorem fresh_listenCall {rows : Expr} (hrows : rows.Fresh) (n : Nat) {value : Option Expr}
    (hvalue : ∀ v, value = some v → v.Fresh) : (listenCall rows n value).Fresh := by
  cases value with
  | none => exact .callOf _ (List.forall_mem_cons.mpr ⟨hrows, List.forall_mem_singleton.mpr (.int _)⟩)
  | some v =>
    exact .callOf _ (List.forall_mem_cons.mpr
      ⟨hrows, List.forall_mem_cons.mpr ⟨.int _, List.forall_mem_singleton.mpr (hvalue v rfl)⟩⟩)

theorem fresh_rowsAt {q : Query} {t : Table} {place : Place} {tests : List Expr} (points : List Point)
    (htests : q.filters.mapM (filterTest t (rowName place.level)) = .ok tests)
    (hjoin : ∀ j, place.join = some j → j.outer.Fresh) : (rowsAt live q t place tests points).Fresh := by
  have hrows := fresh_filteredRows t (rowName place.level) (fresh_testsAt htests hjoin)
  cases live with
  | false => exact hrows
  | true =>
    refine fresh_listenCall hrows _ fun v hv => ?_
    obtain ⟨⟨column, e⟩, hnarrowing, rfl⟩ := Option.map_eq_some_iff.mp hv
    exact fresh_narrowing hjoin hnarrowing

mutual

theorem fresh_level : (q : Query) → {place : Place} → {points points' : List Point} → {e : Expr} →
    (∀ j, place.join = some j → j.outer.Fresh) → (level schema live place q).run points = .ok (e, points') → e.Fresh
  | .mk c name filters selections, place, points, points', e, hjoin, h => by
    obtain ⟨t, tests, fields, result, -, htests, hfields, -, rfl⟩ := level_ok h
    have hbody : (Expr.record fields).Fresh :=
      ⟨trivial, List.forall_mem_map.mpr (fresh_fieldsOf selections (fun _ hf => absurd hf List.not_mem_nil) hfields)⟩
    exact .callOf _ (List.forall_mem_cons.mpr
      ⟨fresh_rowsAt points htests hjoin, List.forall_mem_singleton.mpr (Expr.Fresh.lambda hbody)⟩)

theorem fresh_fieldsOf : (selections : List Selection) → {t : Table} → {place : Place} →
    {points points' : List Point} → {fields final : List (String × Expr)} → (∀ f ∈ fields, f.2.Fresh) →
    (fieldsOf schema live t place fields selections).run points = .ok (final, points') → ∀ f ∈ final, f.2.Fresh
  | [], _, _, _, _, _, _, hfields, h => by
    cases h
    exact hfields
  | .column name :: rest, t, place, points, points', fields, final, hfields, h => by
    obtain ⟨-, -, hrest⟩ := fieldsOf_column_ok h
    exact fresh_fieldsOf rest (forall_insert hfields (fresh_column _ name)) hrest
  | .nested name q :: rest, t, place, points, points', fields, final, hfields, h => by
    obtain ⟨-, inner, join, e, points₁, -, hbetween, he, hrest⟩ := fieldsOf_nested_ok h
    refine fresh_fieldsOf rest (forall_insert hfields (fresh_level q ?_ he)) hrest
    rintro j ⟨⟩
    exact fresh_outer hbetween

end

theorem fresh_of_select {types : TypeScope} {q : Query} {e : Expr} (h : select schema types q = .ok e) : e.Fresh := by
  obtain ⟨⟨e', points⟩, hlevel, h⟩ := ok_of_bind h
  cases h
  exact fresh_level q (fun j hj => absurd hj (by simp)) hlevel

theorem fresh_of_live {types : TypeScope} {q : Query} {e : Expr} {points : List Point}
    (h : Plan.live schema types q = .ok (e, points)) : e.Fresh :=
  fresh_level q (fun j hj => absurd hj (by simp)) h

end Plan

/-- The expressions that a text or a plan writes. -/
inductive Expr.Authored : Expr → Prop
  | read {text : String} {e : Expr} (h : Expr.read text = .ok e) : Authored e
  | inserted {text table : String} {e : Expr} (h : Statement.read text = .ok (.insert table e)) : Authored e
  | evaluated {text : String} {e : Expr} (h : Statement.read text = .ok (.eval e)) : Authored e
  | selected {schema : Schema} {types : TypeScope} {q : Query} {e : Expr}
      (h : Plan.select schema types q = .ok e) : Authored e
  | watched {schema : Schema} {types : TypeScope} {q : Query} {e : Expr} {points : List Point}
      (h : Plan.live schema types q = .ok (e, points)) : Authored e

theorem Expr.Authored.fresh {e : Expr} (h : e.Authored) : e.Fresh := by
  cases h with
  | read h => exact Grammar.readAll_gives (Expr.gives_fresh _) h
  | inserted h => exact Statement.each_of_read Expr.gives_fresh h
  | evaluated h => exact Statement.each_of_read Expr.gives_fresh h
  | selected h => exact Plan.fresh_of_select h
  | watched h => exact Plan.fresh_of_live h

namespace Pairing

variable {p : Pairing} {place : Place}

theorem ExprFields.of_forall {fields : List (String × Expr)} (h : ∀ x ∈ fields.map Prod.snd, p.Exprs place x x) :
    p.ExprFields place fields fields := by
  induction fields with
  | nil => exact .nil place
  | cons f fields ih =>
    obtain ⟨hf, hfields⟩ := List.forall_mem_cons.mp h
    exact .cons f.1 hf (ih hfields)

theorem Args.of_forall {args : List Expr} (h : ∀ x ∈ args, p.Exprs place x x) : p.Args place args args := by
  induction args with
  | nil => exact .nil place
  | cons e args ih =>
    obtain ⟨he, hargs⟩ := List.forall_mem_cons.mp h
    exact .cons he (ih hargs)

theorem Exprs.block_of_forall {bindings : List (String × Expr)} {result : Expr}
    (h : ∀ x ∈ bindings.map Prod.snd, ∀ place, p.Exprs place x x) (hresult : ∀ place, p.Exprs place result result) :
    p.Exprs place (.block bindings result) (.block bindings result) := by
  induction bindings generalizing place with
  | nil => exact .result (hresult place)
  | cons b bindings ih =>
    obtain ⟨hb, hbindings⟩ := List.forall_mem_cons.mp h
    exact .binding (hb place) (ih hbindings)

/-- A fresh expression belongs to itself. -/
theorem Exprs.of_fresh {e : Expr} (h : e.Fresh) (place : Place) : p.Exprs place e e := by
  induction e using Expr.partsInduction generalizing place with
  | h e ih =>
    have hparts : ∀ x ∈ e.parts, ∀ place, p.Exprs place x x := fun x hx => ih x hx (h.inside x hx)
    have hnode := h.here
    cases e with
    | int n => exact .int place n
    | str s => exact .str place s
    | var name => exact .var place name
    | index i => exact .reads (.index place i) (.index place i) (.index i)
    | value => exact hnode.elim
    | record fields => exact .record (.of_forall fun x hx => hparts x hx place)
    | lambda params result body => exact .lambda params result (hparts body List.mem_cons_self _)
    | call name args site =>
      rw [show site = .unlinked from hnode]
      exact .call (.of_forall fun x hx => hparts x hx place) (.unlinked place name)
    | member e name => exact .member name (hparts e List.mem_cons_self place)
    | block bindings result =>
      obtain ⟨hbindings, hresult⟩ := List.forall_mem_append.mp hparts
      exact .block_of_forall hbindings (hresult result List.mem_cons_self)

end Pairing

end LiveQuery
