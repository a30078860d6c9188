import LiveQuery.Database.Select
import LiveQuery.Proofs.Plan.Meaning

/-! # Queries that are run

With enough fuel the plan of a query evaluates to the rows that the query means (`select_eq`): whatever the
planner accepts passes the check of its type and does not fail.
-/
namespace LiveQuery

/-- An expression that needs no linking turns into the data that it is shown as. -/
theorem Opens.run {w : Option Watch} {s : Scope} {here : Path} {e : Expr} {o : Output} {m : Machine}
    (h : Opens w s here e o) (he : e.Linked) (hs : m.top.scope = s) (hhere : m.top.path = here)
    (hlive : m.live = w) (hpath : m.rowPath = none) (hsent : m.sent = #[]) :
    ∃ n, ∀ fuel, n ≤ fuel → Evaluation.run fuel m e =
      some { outcome := .ok o.json, sent := o.opened ++ o.read } := by
  have hload : (m.load e).1 = e ∧ (m.load e).2 = m := by
    rw [Machine.load, he m.calls.size]
    simp
  have hends : Ends (fun k => do Eval.toJson k (← Eval.eval k (← Eval.load e))) m fun j m' =>
      j = o.json ∧ m'.sent.toList = o.opened ++ o.read := by
    have hexec : (Eval.load e).exec m = some (.ok e, m) := by
      rw [Eval.exec_load, hload.1, hload.2]
    refine Ends.step hexec ?_
    refine Ends.bind ((h m hs hhere hlive hpath).mono fun v m₁ hv => ?_)
    obtain ⟨cells, hm₁, hrenders⟩ := hv
    refine (hrenders m₁ m.cells.toList [] rfl (by rw [hm₁.cells, List.append_nil]) (hm₁.live.trans hlive)
      hm₁.rowPath).mono fun j m₂ hj => ?_
    obtain ⟨rfl, cells', more, hm₂, -⟩ := hj
    refine ⟨rfl, ?_⟩
    rw [hm₂.sent, hm₁.sent, hsent]
    rfl
  obtain ⟨n, j, m', hf, rfl, hm'⟩ := hends
  refine ⟨n, fun fuel hfuel => ?_⟩
  have hrun := hf fuel hfuel
  rw [Eval.exec] at hrun
  simp only [Evaluation.run, hrun, ← hm']
  rfl

namespace Plan

variable {schema : Schema} {store : Store} {q : Query} {w : Option Watch} {points : List Point} {e : Expr}

/-- The root of a plan is shown as the rows that the query means. -/
theorem opens_root (hs : schema.Valid) (hstore : store.Ordered) (hrows : RowsTyped schema store)
    (h : (level schema w.isSome { types := Catalog.types schema } q).run [] = .ok (e, points))
    (hcovers : Covers w points) (here : Path) :
    (e.inline (Catalog.scope schema store) #[]).Linked ∧
    Opens w (Catalog.scope schema store) here (e.inline (Catalog.scope schema store) #[])
      (Place.output { types := Catalog.types schema } w here q none (q.nodes schema store none)) := by
  have hsees : Sees schema (Catalog.types schema) := fun _ _ => rfl
  have hjoins : ∀ t, Keyed.find? schema q.table = some t →
      Place.Joins { types := Catalog.types schema } t := by
    rintro t - j ⟨⟩
  obtain ⟨u, hu⟩ := infer_root hs h
  exact ⟨linked_level hs q HidesRows.nil hjoins h,
    opens_level hs hstore hrows q HidesRows.nil hsees hjoins (fun _ => rfl) .none hcovers h hu⟩

end Plan

/-- The rows of a query as they are before they are arranged. -/
def Query.rawRows (schema : Schema) (store : Store) (q : Query) : Json :=
  .arr ((q.nodes schema store none).map (Node.jsonWith rawShape))

/-- The subscriptions of a live query, in the order in which they are sent. -/
def Query.sent (schema : Schema) (store : Store) (a : Anchor) (q : Query) : List Subscription :=
  (if a.resumed then [] else [q.subscription a.subscriber none a.base]) ++
    (q.nodes schema store none).flatMap (Node.subscriptions a.subscriber q.table a.base)

section Select

variable {schema : Schema} {store : Store} {q : Query} {e : Expr}

/-- A query that is not live sends nothing, and its result is its rows. -/
theorem select_eq (hs : schema.Valid) (hstore : store.Ordered) (hrows : RowsTyped schema store)
    (h : Plan.select schema (Catalog.types schema) q = .ok e) :
    ∃ n, ∀ fuel, n ≤ fuel → select fuel schema store q none =
      some { outcome := .ok (q.arrange (q.rawRows schema store)) } := by
  obtain ⟨⟨e', points⟩, hlevel, he⟩ := ok_of_bind h
  cases he
  obtain ⟨hlinked, hopens⟩ := Plan.opens_root (w := none) hs hstore hrows hlevel
    (fun w' hw' => absurd hw' (by simp)) Path.root
  obtain ⟨n, hrun⟩ := hopens.run hlinked (m := Machine.start (Catalog.scope schema store)) rfl rfl rfl rfl rfl
  obtain ⟨u, hu⟩ := Plan.infer_root hs hlevel
  refine ⟨n, fun fuel hfuel => ?_⟩
  have hplan : planFor schema q none = .ok (e', none) := by
    rw [planFor, h]
    rfl
  simp only [select, hplan, hu, machineFor, hrun fuel hfuel]
  rfl

/-- A live plan that is run sends its subscriptions and is shown as the rows that the query means. -/
theorem Plan.run_live (hs : schema.Valid) (hstore : store.Ordered) (hrows : RowsTyped schema store) {w : Watch}
    (h : Plan.live schema (Catalog.types schema) q = .ok (e, w.points)) (hpoints : w.points.length ≤ Plan.maxPoints) :
    ∃ n, ∀ fuel, n ≤ fuel →
      Evaluation.run fuel (Machine.startLive (Catalog.scope schema store) w)
          (e.inline (Catalog.scope schema store) #[]) = some {
        outcome := .ok (q.rawRows schema store)
        sent := q.sent schema store { subscriber := w.subscriber, base := w.base, resumed := w.resumed } } := by
  have hcovers : Covers (some w) w.points := by
    rintro w' ⟨⟩
    exact ⟨List.prefix_refl _, hpoints⟩
  obtain ⟨hlinked, hopens⟩ := Plan.opens_root (w := some w) hs hstore hrows h hcovers w.base
  exact hopens.run hlinked (m := Machine.startLive (Catalog.scope schema store) w) rfl rfl rfl rfl rfl

/-- A live query sends its subscriptions, and its result is its rows. -/
theorem select_live_eq (hs : schema.Valid) (hstore : store.Ordered) (hrows : RowsTyped schema store) (a : Anchor)
    {points : List Point} (h : Plan.live schema (Catalog.types schema) q = .ok (e, points))
    (hpoints : points.length ≤ Plan.maxPoints) :
    ∃ n, ∀ fuel, n ≤ fuel → select fuel schema store q (some a) =
      some { outcome := .ok (q.arrange (q.rawRows schema store)), sent := q.sent schema store a } := by
  obtain ⟨n, hrun⟩ := Plan.run_live hs hstore hrows
    (w := { subscriber := a.subscriber, points, base := a.base, resumed := a.resumed }) h hpoints
  obtain ⟨u, hu⟩ := Plan.infer_root hs h
  refine ⟨n, fun fuel hfuel => ?_⟩
  have hplan : planFor schema q (some a) = .ok (e, some
      { subscriber := a.subscriber, points, base := a.base, resumed := a.resumed }) := by
    rw [planFor, h]
    rfl
  simp only [select, hplan, hu, machineFor, hrun fuel hfuel]
  rfl

end Select

end LiveQuery
