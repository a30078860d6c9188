import LiveQuery.Proofs.Plan.Rows

/-! # What plans mean

A level of a plan evaluates to the rows that its query means: turned into data it is the list of its nodes,
each with its fields, and the subscriptions sent meanwhile are those of a live query (`Plan.opens_level`). The
induction is over the tree of the query; it carries what the row around a level is, and that the join of the
level stands for a condition on it.
-/
namespace LiveQuery

/-! ## Outputs -/

/-- Rows before they are arranged: a list, also for one row. -/
def rawShape : Cardinality → List Json → Json := fun _ rows => .arr rows

/-- The subscriptions of the subscriber of a watch, if there is one. -/
def told (w : Option Watch) (f : Subscriber → List Subscription) : List Subscription :=
  w.elim [] fun w => f w.subscriber

theorem told_flatMap {α : Type} (w : Option Watch) (as : List α) (f : α → Subscriber → List Subscription) :
    (as.flatMap fun a => told w (f a)) = told w fun s => as.flatMap fun a => f a s := by
  cases w with
  | none => exact List.flatMap_eq_nil_iff.mpr fun _ _ => rfl
  | some w => rfl

/-- What is shown of a field of the row at `here`. -/
def Field.output (w : Option Watch) (here : Path) (name : String) (f : Field) : Output where
  json := f.jsonWith rawShape
  opened := told w fun s => f.opened s here name
  read := told w fun s => f.subscriptions s here name

namespace Plan

/-- What is shown of the rows of a place. -/
def Place.output (place : Place) (w : Option Watch) (here : Path) (q : Query) (link : Option Filter)
    (rows : List Node) : Output where
  json := .arr (rows.map (Node.jsonWith rawShape))
  opened := place.opened w here q link
  read := w.elim [] fun w => rows.flatMap (Node.subscriptions w.subscriber q.table (place.path w here))

variable {schema : Schema} {store : Store} {t : Table} {place : Place} {w : Option Watch}

theorem output_column (here : Path) (name : String) (l : Literal) :
    (Field.column l).output w here name = { json := l.json } := by
  cases w <;> rfl

/-- The rows of a nested query are shown as a field. -/
theorem output_inside (join : Join) (name : String) (here : Path) (q : Query) (link : Option Filter)
    (rows : List Node) :
    (place.inside join name).output w here q link rows = (Field.nested q link rows).output w here name := by
  have hjson : Json.arr (rows.map (Node.jsonWith rawShape)) =
    (Field.nested q link rows).jsonWith rawShape := by
    rw [Field.jsonWith, nodeJsons_eq]
    rfl
  cases w with
  | none =>
    rw [Place.output, hjson]
    rfl
  | some w =>
    rw [Place.output, hjson]
    simp only [Field.output, told, Option.elim_some, Field.subscriptions, nodeSubscriptions_eq]
    rfl

/-! ## Nested queries -/

/-- The outer side of a join is a column of the row around it, whose value the rows must hold. -/
theorem link_of_between {outer inner : Table} {q : Query} {j : Join} {row : String} (r : Row) (houter :
    outer.Valid)
    (hinner : Keyed.find? schema q.table = some inner)
    (h : Join.between outer row inner q.cardinality = .ok j) :
    ∃ c ∈ outer.columns, j.outer = .member (.var row) c.name ∧
      q.link schema outer r = some ⟨j.column, r.get c.name⟩ := by
  rcases between_ok h with ⟨hc, c, hfind, rfl⟩ | ⟨hc, c, hfind, rfl⟩
  · refine ⟨outer.primaryKey, houter.columns_spec.2, rfl, ?_⟩
    simp only [Query.link, hinner, hc, Option.bind_eq_bind, Option.bind_some, hfind]
    rfl
  · refine ⟨c, List.mem_of_find?_eq_some hfind, rfl, ?_⟩
    simp only [Query.link, hinner, hc, Option.bind_eq_bind, Option.bind_some, hfind]
    rfl

/-- The rows of a nested query are tied to the row around it. -/
theorem tied_inside (name : String) {inner : Table} {q : Query} {j : Join} {r : Row} {s : Scope}
    (ht : t.Valid) (hr : t.Fits r) (hlookup : s.lookup (rowName place.level) = .ok r.value)
    (hrow : place.types.lookup (rowName place.level) = .ok t.rowType)
    (hinner : Keyed.find? schema q.table = some inner)
    (hj : Join.between t (rowName place.level) inner q.cardinality = .ok j)
    (hagrees : (place.inside j name).Agrees) : (place.inside j name).Tied s (q.link schema t r) := by
  obtain ⟨c, hc, houter, hlink⟩ := link_of_between r ht hinner hj
  have htype : c.type.ty = j.type.ty := by
    have hagrees : j.outer.infer place.types = .ok j.type.ty := hagrees j rfl
    rw [houter, infer_column ht hrow hc] at hagrees
    exact Except.ok.inj hagrees
  rw [hlink]
  refine .some ⟨rfl, ?_, place.level, Nat.lt_succ_self _, c.name, r.value, houter, hlookup, hr.member ht hc⟩
  rw [← htype]
  exact (hr.find? ht hc).2

/-! ## Rows -/

/-- A field of the plan is shown as a field of the result. -/
def Shows (schema : Schema) (store : Store) (w : Option Watch) (s : Scope) (here : Path) (hidden :
    List String)
    (f : String × Expr) (g : String × Field) : Prop :=
  f.1 = g.1 ∧ Opens w s here (ready schema store hidden f.2) (g.2.output w here g.1)

theorem Shows.insert {s : Scope} {here : Path} {hidden : List String} {fields : List (String × Expr)}
    {shown : List (String × Field)} {name : String} {e : Expr} {f : Field}
    (h : List.Forall₂ (Shows schema store w s here hidden) fields shown)
    (he : Opens w s here (ready schema store hidden e) (f.output w here name)) :
    List.Forall₂ (Shows schema store w s here hidden) (Keyed.insert fields name e)
      (Keyed.insert shown name f) :=
  Keyed.forall₂_insert
    (R := fun n a (b : Field) => Opens w s here (ready schema store hidden a) (b.output w here n)) h he

/-- What is shown of the record of the row at `here`. -/
def recordOutput (w : Option Watch) (here : Path) (fields : List (String × Field)) : Output where
  json := .obj (fieldJsons rawShape fields)
  opened := told w fun s => fields.flatMap fun f => f.2.opened s here f.1
  read := told w fun s => fieldSubscriptions s here fields

/-- The record of a level is shown as the fields of a row. -/
theorem opens_record {s : Scope} {here : Path} {hidden : List String} {fields : List (String × Expr)}
    {shown : List (String × Field)} (h : List.Forall₂ (Shows schema store w s here hidden) fields shown) :
    Opens w s here (ready schema store hidden (.record fields)) (recordOutput w here shown) := by
  rw [ready_record]
  have hfields : List.Forall₂ (fun f o => f.1 = o.1 ∧ Opens w s here f.2 o.2)
      (Keyed.mapValues (ready schema store hidden) fields) (shown.map fun f => (f.1,
        f.2.output w here f.1)) := by
    rw [Keyed.mapValues, List.forall₂_map_left_iff, List.forall₂_map_right_iff]
    exact h
  have hjson : Keyed.mapValues Output.json (shown.map fun f => (f.1, f.2.output w here f.1)) =
      fieldJsons rawShape shown := by
    rw [fieldJsons_eq, Keyed.mapValues, List.map_map]
    rfl
  have hopens := Opens.record hfields
  rw [hjson, List.flatMap_map, List.flatMap_map] at hopens
  simp only [Field.output, told_flatMap] at hopens
  simp only [recordOutput, fieldSubscriptions_eq]
  exact hopens

/-! ## Levels -/

/-- The path of the rows of a place, if they are watched. -/
def Place.rowsPath (place : Place) (w : Option Watch) (here : Path) : Path := w.elim here (place.path · here)

/-- What is shown of a row of a place. -/
def Place.rowOutput (place : Place) (w : Option Watch) (here : Path) (schema : Schema) (store : Store) (t :
    Table)
    (selections : List Selection) (r : Row) : Output :=
  recordOutput w ((place.rowsPath w here).row (r.key t).json)
    (Keyed.ofList (selectedFields schema store t r selections))

theorem Place.value_item (place : Place) (w : Option Watch) (here : Path) (t : Table) (r : Row) :
    (place.item w here t r).value = r.value := by
  cases w <;> rfl

/-- The record of a row that is watched is shown at the path of the row. -/
theorem rowOutput_at {here here' : Path} {r : Row} {selections : List Selection}
    (h : ∀ p, (place.item w here t r).rowPath = some p → here' = p) :
    place.rowOutput w here schema store t selections r =
      recordOutput w here' (Keyed.ofList (selectedFields schema store t r selections)) := by
  cases w with
  | none => rfl
  | some w => rw [h _ rfl]; rfl

theorem nodes_eq {q : Query} {link : Option Filter} (ht : Keyed.find? schema q.table = some t) :
    q.nodes schema store link = (levelRows store t q link).map fun r =>
      .mk (r.key t) (Keyed.ofList (selectedFields schema store t r q.selections)) := by
  obtain ⟨c, name, filters, selections⟩ := q
  rw [Query.table_mk] at ht
  rw [Query.nodes, ht]
  rfl

/-- What is shown of the rows of a place, one after another. -/
theorem output_rows {q : Query} {link : Option Filter} {here : Path} (ht : Keyed.find? schema q.table =
    some t)
    (hname : t.name = q.table) :
    ({ json := .arr (((levelRows store t q link).map (place.rowOutput w here schema store t q.selections)).map
          Output.json)
       opened := place.opened w here q link
       read := (List.zipWith Item.allSent ((levelRows store t q link).map (place.item w here t))
          ((levelRows store t q link).map (place.rowOutput w here schema store t q.selections))).flatten } :
            Output) =
      place.output w here q link (q.nodes schema store link) := by
  have hjson : ((levelRows store t q link).map (place.rowOutput w here schema store t q.selections)).map
      Output.json = (q.nodes schema store link).map (Node.jsonWith rawShape) := by
    rw [nodes_eq ht, List.map_map, List.map_map]
    rfl
  have hread : (List.zipWith Item.allSent ((levelRows store t q link).map (place.item w here t))
      ((levelRows store t q link).map (place.rowOutput w here schema store t q.selections))).flatten =
      w.elim [] fun w => (q.nodes schema store link).flatMap
        (Node.subscriptions w.subscriber q.table (place.path w here)) := by
    rw [List.zipWith_map_left, List.zipWith_map_right, List.zipWith_self, nodes_eq ht]
    cases w with
    | none => exact List.flatten_eq_nil_iff.mpr (List.forall_mem_map.mpr fun _ _ => rfl)
    | some w =>
      rw [Option.elim_some, List.flatMap_map, List.flatMap_def]
      refine congrArg List.flatten (List.map_congr_left fun r _ => ?_)
      rw [Node.subscriptions, ← hname]
      simp [Item.allSent, Place.item, Place.rowOutput, recordOutput, told, Place.rowsPath]
  rw [hjson, hread]
  rfl

mutual

/-- A level of a plan is shown as the rows that its query means. -/
theorem opens_level (hs : schema.Valid) (hstore : store.Ordered) (hrows : RowsTyped schema store) :
    (q : Query) → {place : Place} → {points points' : List Point} → {e : Expr} → {u : Ty} →
    {link : Option Filter} → {s : Scope} → {here : Path} → {hidden : List String} → HidesRows hidden →
    Sees schema place.types → (∀ t, Keyed.find? schema q.table = some t → place.Joins t) → place.Rooted →
    place.Tied s link → Covers w points' → (level schema w.isSome place q).run points = .ok (e, points') →
    e.infer place.types = .ok u →
    Opens w s here (ready schema store hidden e) (place.output w here q link (q.nodes schema store link))
  | .mk c name filters selections, place, points, points', e, u, link, s, here, hidden, hh, hsees, hjoins,
      hrooted, htied, hcovers, h, he => by
    have hagrees := agrees_of_level hsees hjoins h he
    have hfront := prefix_of_level _ h
    obtain ⟨t, tests, fields, result, ht, htests, hfields, hinfer, rfl⟩ := level_ok h
    have hvalid := (hs.find? ht).1
    have hresult := proper_of_body place hs hsees hvalid hfields hinfer
    have hpoint : Covers w (points ++ [point (.mk c name filters selections) t place]) := by
      rintro w' rfl
      exact ⟨(hfront t ht).trans (hcovers w' rfl).1, (hcovers w' rfl).2⟩
    have hopensRows := opens_rowsAt here hh hs hstore hrows ht htests (hjoins t ht) htied hrooted hpoint
    have hfits := (hrows.forall₂_rows (hs.find?_self ht)).2
    rw [ready_callOf hh, ← output_rows ht (hs.find? ht).2]
    refine Opens.map t.proper_rowType hresult hopensRows ?_
    rw [List.forall₂_map_left_iff, List.forall₂_map_right_iff, List.forall₂_same]
    intro r hr here' hhere'
    have hr : t.Fits r := hfits r (List.mem_filter.mp hr).1
    have hshown : List.Forall₂ (Shows schema store w (innerScope s place.level r) here'
        (rowName place.level :: hidden)) fields (Keyed.ofList (selectedFields schema store t r selections)) :=
      opens_fieldsOf hs hstore hrows selections (hh.cons place.level) hsees.inner hvalid hr hfields
        lookup_innerTypes_self lookup_innerScope_self hcovers (Expr.infer_of_record hinfer) .nil
    rw [Place.value_item, rowOutput_at hhere']
    exact opens_record hshown

/-- The fields of a level are shown as what is selected of the row `r`. -/
theorem opens_fieldsOf (hs : schema.Valid) (hstore : store.Ordered) (hrows : RowsTyped schema store) :
    (selections : List Selection) → {t : Table} → {place : Place} → {points points' : List Point} →
    {fields final : List (String × Expr)} → {shown : List (String × Field)} → {r : Row} → {s : Scope} →
    {here : Path} → {hidden : List String} → HidesRows hidden → Sees schema place.types → t.Valid → t.Fits r →
    (fieldsOf schema w.isSome t place fields selections).run points = .ok (final, points') →
    place.types.lookup (rowName place.level) = .ok t.rowType → s.lookup (rowName place.level) = .ok r.value →
    Covers w points' →
    (∀ f ∈ final, ∃ u, f.2.infer place.types = .ok u) →
    List.Forall₂ (Shows schema store w s here hidden) fields shown →
    List.Forall₂ (Shows schema store w s here hidden) final
      ((selectedFields schema store t r selections).foldl (fun m f => Keyed.insert m f.1 f.2) shown)
  | [], _, _, _, _, _, _, _, _, _, _, _, _, _, _, _, h, _, _, _, _, hshown => by
    cases h
    exact hshown
  | .column name :: rest, t, place, points, points', fields, final, shown, r, s, here, hidden, hh, hsees,
      ht, hr, h, hrow, hlookup, hcovers, hinfer, hshown => by
    obtain ⟨-, ⟨c, hc⟩, hrest⟩ := fieldsOf_column_ok h
    obtain ⟨hmem, rfl⟩ := Table.mem_of_column? hc
    have hcolumn : Opens w s here (ready schema store hidden (.member (.var (rowName place.level)) c.name))
        ((Field.column (r.get c.name)).output w here c.name) := by
      rw [output_column]
      exact Opens.literal (evals_column hlookup (hr.member ht hmem))
    exact opens_fieldsOf hs hstore hrows rest hh hsees ht hr hrest hrow hlookup hcovers hinfer
      (Shows.insert hshown hcolumn)
  | .nested name q :: rest, t, place, points, points', fields, final, shown, r, s, here, hidden, hh, hsees,
      ht, hr, h, hrow, hlookup, hcovers, hinfer, hshown => by
    obtain ⟨-, inner, join, e, points₁, hinner, hjoin, he, hrest⟩ := fieldsOf_nested_ok h
    have hfinal := subset_of_fieldsOf hrest (Keyed.mem_insert_self fields name e)
    obtain ⟨u, hu⟩ := hinfer _ hfinal
    have hjoins := joins_inside name hs hinner hjoin
    have hagrees : (place.inside join name).Agrees := agrees_of_level hsees hjoins he hu
    have htied := tied_inside name ht hr hlookup hrow hinner hjoin hagrees
    have hcovers₁ : Covers w points₁ := fun w' hw' =>
      ⟨(prefix_of_fieldsOf rest hrest).trans (hcovers w' hw').1, (hcovers w' hw').2⟩
    have hrooted : (place.inside join name).Rooted := fun hzero => absurd hzero (Nat.succ_ne_zero _)
    have hinside : Sees schema (place.inside join name).types := hsees
    have hnested : Opens w s here (ready schema store hidden e) ((place.inside join name).output w here q
        (q.link schema t r) (q.nodes schema store (q.link schema t r))) :=
      opens_level hs hstore hrows q hh hinside hjoins hrooted htied hcovers₁ he hu
    rw [output_inside] at hnested
    exact opens_fieldsOf hs hstore hrows rest hh hsees ht hr hrest hrow hlookup hcovers hinfer
      (Shows.insert hshown hnested)

end

end Plan

end LiveQuery
