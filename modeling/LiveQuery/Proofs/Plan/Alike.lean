import LiveQuery.Proofs.Plan.Planned

/-! # Plans with and without listening

A query that is run live has a plan exactly if it has one that is run once, and if it has none the fault is the same
(`Plan.live_alike`). The two planners differ in the calls that listen, which have the types of the rows that they are
given (`Plan.infer_rowsAt_live`), so the bodies of the rows have the same types or the same faults at every level.
-/
namespace LiveQuery

/-! ## Expressions of one type -/

namespace Expr

variable {types : TypeScope}

/-- Two expressions have the same type, or no type for the same reason. -/
def SameType (types : TypeScope) (a b : Expr) : Prop := a.infer types = b.infer types

/-- Fields of the same names and types. -/
def SameFields (types : TypeScope) : List (String × Expr) → List (String × Expr) → Prop :=
  List.Forall₂ fun f g => f.1 = g.1 ∧ SameType types f.2 g.2

namespace SameFields

variable {fields fields' : List (String × Expr)} {name : String} {e e' : Expr}

theorem contains_eq (h : SameFields types fields fields') (name : String) :
    Keyed.contains fields name = Keyed.contains fields' name := by
  unfold Keyed.contains
  induction h with
  | nil => rfl
  | cons hfg _ ih =>
    rw [Keyed.find?_cons, Keyed.find?_cons, hfg.1]
    split
    next => rfl
    next => exact ih

theorem insert (h : SameFields types fields fields') (he : SameType types e e') :
    SameFields types (Keyed.insert fields name e) (Keyed.insert fields' name e') :=
  Keyed.forall₂_insert (R := fun _ a b => SameType types a b) h he

theorem inferFields (h : SameFields types fields fields') :
    Expr.inferFields types fields = Expr.inferFields types fields' := by
  induction h with
  | nil => rfl
  | @cons f g fields fields' hfg _ ih =>
    obtain ⟨hname, htype⟩ := hfg
    rw [Expr.inferFields, Expr.inferFields, hname, htype, ih]

theorem record (h : SameFields types fields fields') : SameType types (.record fields) (.record fields') := by
  rw [SameType, infer, infer, h.inferFields]

end SameFields

/-- A call depends on the types of its arguments only. -/
theorem SameType.callOf {args args' : List Expr} (name : String) (h : List.Forall₂ (SameType types) args args') :
    SameType types (callOf name args) (callOf name args') := by
  have hargs : ∀ params bs, inferArgs types params args bs = inferArgs types params args' bs := by
    induction h with
    | nil => intro params bs; rfl
    | @cons a b args args' hab _ ih =>
      intro params bs
      cases params with
      | nil => rfl
      | cons param params =>
        rw [inferArgs, inferArgs, hab]
        simp only [ih]
  rw [SameType, Expr.callOf, Expr.callOf, infer, infer, h.length_eq]
  simp only [hargs]

theorem SameType.lambda {params : List (String × Ty)} {body body' : Expr} (result : Ty)
    (h : SameType (Links.child types params) body body') :
    SameType types (.lambda params result body) (.lambda params result body') := by
  rw [SameType, infer, infer, h]

/-- A call fails as its first argument does. -/
theorem infer_callOf_error {b : Builtin} {e : Expr} {args : List Expr} {f : EvalFault}
    (hb : types.lookup b.name = .ok b.ty) (hlength : b.params.length = args.length + 1)
    (he : e.infer types = .error f) : (callOf b.name (e :: args)).infer types = .error f := by
  have hsignature : signature types b.name = .ok (b.params.map Prod.snd, b.result) := by
    simp only [signature, hb]
    rfl
  have hargs : inferArgs types (b.params.map Prod.snd) (e :: args) [] = .error f := by
    cases hparams : b.params with
    | nil => rw [hparams] at hlength; cases hlength
    | cons p params =>
      rw [List.map_cons, inferArgs, he]
      rfl
  have harity : (b.params.map Prod.snd).length = (e :: args).length := by
    rw [List.length_map, hlength, List.length_cons]
  rw [callOf, infer, bind_of_ok hsignature]
  simp only [harity, ne_eq, not_true_eq_false, if_false, hargs]
  rfl

end Expr

/-! ## Outcomes of the planner -/

namespace Plan

open LiveQuery.Expr (SameType SameFields)

/-- Both outcomes are the same fault, or what was planned is related. -/
inductive Alike {α : Type} (R : α → α → Prop) :
    Except PlanFault (α × List Point) → Except PlanFault (α × List Point) → Prop
  | fails (f : PlanFault) : Alike R (.error f) (.error f)
  | plans {a b : α} {points points' : List Point} (h : R a b) : Alike R (.ok (a, points)) (.ok (b, points'))

namespace Alike

variable {α β : Type} {R : α → α → Prop} {S : β → β → Prop} {points points' : List Point}

theorem bind {x y : Planner α} {f g : α → Planner β} (hx : Alike R (x.run points) (y.run points'))
    (hf : ∀ a b, R a b → ∀ points points', Alike S ((f a).run points) ((g b).run points')) :
    Alike S ((x >>= f).run points) ((y >>= g).run points') := by
  rw [StateT.run_bind, StateT.run_bind]
  generalize x.run points = r at hx
  generalize y.run points' = r' at hx
  cases hx with
  | fails fault => exact .fails fault
  | plans h => exact hf _ _ h _ _

/-- A part that plans nothing has the same outcome in both. -/
theorem lift (r : Except PlanFault α) :
    Alike (fun a b => a = b ∧ r = .ok a) ((liftM r : Planner α).run points) ((liftM r : Planner α).run points') := by
  cases r with
  | error f => exact .fails f
  | ok a => exact .plans ⟨rfl, rfl⟩

end Alike

variable {schema : Schema} {types : TypeScope}

/-- Rows that are listened at have the type of the rows. -/
theorem infer_rowsAt_live {q : Query} {t : Table} {place : Place} {tests : List Expr}
    (hsees : Sees schema place.types) (hs : schema.Valid) (ht : Keyed.find? schema t.name = some t)
    (htests : q.filters.mapM (filterTest t (rowName place.level)) = .ok tests) (hjoins : place.Joins t)
    (points points' : List Point) :
    SameType place.types (rowsAt true q t place tests points) (rowsAt false q t place tests points') := by
  cases hrows : (filteredRows t (rowName place.level) (testsAt place tests)).infer place.types with
  | error f =>
    have hplain : (rowsAt false q t place tests points').infer place.types = .error f := hrows
    rw [SameType, hplain]
    simp only [rowsAt, if_true, listenCall]
    cases narrowing q.filters place.join with
    | none => exact Expr.infer_callOf_error (b := .listen) (hsees.builtin .listen) rfl hrows
    | some narrowed => exact Expr.infer_callOf_error (b := .listenWhere) (hsees.builtin .listenWhere) rfl hrows
  | ok u =>
    -- a join whose test has a type is one between columns of one type
    have hagrees : place.Agrees := by
      intro j hj
      have hmem : joinTest (rowName place.level) j ∈ testsAt place tests := by
        rw [testsAt, hj]
        exact List.mem_append_right _ List.mem_cons_self
      obtain ⟨w, hw⟩ := infer_of_filteredRows hrows _ hmem
      rw [← infer_outer (hjoins j hj)]
      exact infer_of_equals hsees.inner hw
    have hall := infer_testsAt hsees (hs.find? ht).1 htests hjoins hagrees
    have hlive : (rowsAt true q t place tests points).infer place.types = .ok (.iterator t.rowType) :=
      infer_rowsAt hsees hs ht hagrees hall
    have hplain : (rowsAt false q t place tests points').infer place.types = .ok (.iterator t.rowType) :=
      infer_rowsAt hsees hs ht hagrees hall
    exact hlive.trans hplain.symm

/-- What follows the rows of a level. -/
theorem alike_rest {t : Table} {place : Place} {row : String} {rows rows' : Expr}
    {fields fields' : Planner (List (String × Expr))} {points points' : List Point}
    (hrows : SameType place.types rows rows')
    (h : Alike (SameFields (Links.child place.types [(row, t.rowType)])) (fields.run points) (fields'.run points')) :
    Alike (SameType place.types)
      ((fields >>= fun fields => match (Expr.record fields).infer (Links.child place.types [(row, t.rowType)]) with
        | .error f => throw (.typing f)
        | .ok result => return .callOf Builtin.map.name [rows,
            .lambda [(row, t.rowType)] result (.record fields)]).run points)
      ((fields' >>= fun fields => match (Expr.record fields).infer (Links.child place.types [(row, t.rowType)]) with
        | .error f => throw (.typing f)
        | .ok result => return .callOf Builtin.map.name [rows',
            .lambda [(row, t.rowType)] result (.record fields)]).run points') := by
  refine Alike.bind h fun final final' hfinal points points' => ?_
  have hbody := hfinal.record
  rw [← hbody]
  split
  next f _ => exact .fails (.typing f)
  next result _ => exact .plans (SameType.callOf _ (.cons hrows (.cons (hbody.lambda result) .nil)))

mutual

theorem alike_level (hs : schema.Valid) : (q : Query) → {place : Place} → Sees schema place.types →
    (∀ t, Keyed.find? schema q.table = some t → place.Joins t) → ∀ points points',
    Alike (SameType place.types) ((level schema true place q).run points) ((level schema false place q).run points')
  | .mk c name filters selections, place, hsees, hjoins, points, points' => by
    rw [level, level]
    refine Alike.bind (Alike.lift _) ?_
    rintro t _ ⟨rfl, htable⟩ points points'
    have ht := table_ok htable
    refine Alike.bind (Alike.lift _) ?_
    rintro tests _ ⟨rfl, htests⟩ points points'
    have hrows := infer_rowsAt_live (q := .mk c name filters selections) hsees hs (hs.find?_self ht) htests
      (hjoins t ht) points points'
    have hinner : Sees schema ({ place with types := innerTypes t place } : Place).types := hsees.inner
    have hfields := alike_fieldsOf hs selections (t := t) hinner .nil
    refine Alike.bind (R := SameType place.types) (.plans hrows) fun rows rows' hrows points points' => ?_
    exact alike_rest hrows (hfields points points')

theorem alike_fieldsOf (hs : schema.Valid) : (selections : List Selection) → {t : Table} → {place : Place} →
    {fields fields' : List (String × Expr)} → Sees schema place.types → SameFields place.types fields fields' →
    ∀ points points', Alike (SameFields place.types) ((fieldsOf schema true t place fields selections).run points)
      ((fieldsOf schema false t place fields' selections).run points')
  | [], t, place, fields, fields', hsees, hfields, points, points' => .plans hfields
  | .column name :: rest, t, place, fields, fields', hsees, hfields, points, points' => by
    rw [fieldsOf, fieldsOf, hfields.contains_eq name]
    split
    next => exact .fails _
    next =>
      refine Alike.bind (Alike.lift _) ?_
      rintro c _ - points points'
      exact alike_fieldsOf hs rest hsees (hfields.insert rfl) points points'
  | .nested name q :: rest, t, place, fields, fields', hsees, hfields, points, points' => by
    rw [fieldsOf, fieldsOf, hfields.contains_eq name]
    split
    next => exact .fails _
    next =>
      refine Alike.bind (Alike.lift _) ?_
      rintro inner _ ⟨rfl, hinner⟩ points points'
      refine Alike.bind (Alike.lift _) ?_
      rintro join _ ⟨rfl, hjoin⟩ points points'
      have hinside : Sees schema (place.inside join name).types := hsees
      have hjoins := joins_inside name hs (table_ok hinner) hjoin
      refine Alike.bind (alike_level hs q hinside hjoins points points') fun e e' he points points' => ?_
      exact alike_fieldsOf hs rest hsees (hfields.insert he) points points'

end

/-- A query has a live plan if and only if it has a plan, and otherwise it has none for the same reason. -/
theorem live_alike (hs : schema.Valid) (q : Query) :
    (∃ f, live schema (Catalog.types schema) q = .error f ∧ select schema (Catalog.types schema) q = .error f) ∨
    ∃ plan e, live schema (Catalog.types schema) q = .ok plan ∧ select schema (Catalog.types schema) q = .ok e := by
  have hsees : Sees schema (Catalog.types schema) := fun _ _ => rfl
  have hjoins : ∀ t, Keyed.find? schema q.table = some t → Place.Joins { types := Catalog.types schema } t := by
    rintro t - j ⟨⟩
  have halike : Alike (SameType (Catalog.types schema)) ((level schema true { types := Catalog.types schema } q).run [])
      ((level schema false { types := Catalog.types schema } q).run []) :=
    alike_level hs q hsees hjoins [] []
  unfold live select
  generalize (level schema true { types := Catalog.types schema } q).run [] = r at halike ⊢
  generalize (level schema false { types := Catalog.types schema } q).run [] = r' at halike ⊢
  cases halike with
  | fails f => exact .inl ⟨f, rfl, rfl⟩
  | plans => exact .inr ⟨_, _, rfl, rfl⟩

end Plan

end LiveQuery
