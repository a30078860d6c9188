import LiveQuery.Proofs.Live.Reruns
import LiveQuery.Proofs.Plan.Listening

/-! # The points of a live plan

The planner hands out the numbers of the listening calls while it goes down the query, and puts the fields of a
record in the order of their names afterwards. Still the points are the parts of the query from the root down, each
before those in it, and the call that has the number of a point is the one around the rows of its part
(`Plan.live_points`).

* `Query.parts` are a query and those in it, with what they are selected as.
* `Plan.Watched` says what the point and the call of a part are.
-/
namespace LiveQuery

/-! ## Parts of a query -/

/-- A query in a query: at which level it is, and as what it is selected of the rows of which table. -/
structure Part where
  query : Query
  level : Nat := 0
  selected : Option (String × String) := none

mutual

/-- A query at a level and those in it, each before those in it. -/
def Query.partsAt (level : Nat) (selected : Option (String × String)) : Query → List Part
  | .mk c table filters selections =>
    ⟨.mk c table filters selections, level, selected⟩ :: selectionParts (level + 1) table selections

def selectionParts (level : Nat) (outer : String) : List Selection → List Part
  | [] => []
  | .column _ :: rest => selectionParts level outer rest
  | .nested name q :: rest => q.partsAt level (some (outer, name)) ++ selectionParts level outer rest

end

/-- The query and those in it, each before those in it. -/
def Query.parts (q : Query) : List Part := q.partsAt 0 none

mutual

theorem Query.le_level_of_mem_partsAt {x : Part} : (q : Query) → {level : Nat} →
    {selected : Option (String × String)} → x ∈ q.partsAt level selected → level ≤ x.level
  | .mk _ _ _ selections, _, _, hx => by
    rcases List.mem_cons.mp hx with rfl | hx
    · exact Nat.le_refl _
    · exact Nat.le_of_succ_le (le_level_of_mem_selectionParts selections hx)

theorem le_level_of_mem_selectionParts {x : Part} : (selections : List Selection) → {level : Nat} →
    {outer : String} → x ∈ selectionParts level outer selections → level ≤ x.level
  | [], _, _, hx => absurd hx List.not_mem_nil
  | .column _ :: rest, _, _, hx => le_level_of_mem_selectionParts rest hx
  | .nested _ q :: rest, _, _, hx =>
    (List.mem_append.mp hx).elim (Query.le_level_of_mem_partsAt q) (le_level_of_mem_selectionParts rest)

end

/-- Only the first part is at the outermost level. -/
theorem Query.level_parts {q : Query} {i : Nat} {x : Part} (h : q.parts[i]? = some x) : x.level = 0 ↔ i = 0 := by
  obtain ⟨c, table, filters, selections⟩ := q
  cases i with
  | zero =>
    cases h
    exact ⟨fun _ => rfl, fun _ => rfl⟩
  | succ i =>
    have hmem : x ∈ selectionParts 1 table selections := List.mem_of_getElem? h
    have hlevel := le_level_of_mem_selectionParts selections hmem
    exact ⟨fun hzero => by omega, fun hzero => by omega⟩

namespace Plan

open LiveQuery.Expr (listening listeningFields listeningArgs)

/-- What the point of a part is and which call listens at it, if it is the part with the number `n`. The outermost query
is watched by its first filter, one in it by its join with the row around. -/
inductive Watched (schema : Schema) (n : Nat) : Part → Point → Expr → Prop
  | outermost {q : Query} {t : Table} {tests : List Expr} (table : Keyed.find? schema q.table = some t)
      (filters : q.filters.mapM (filterTest t (rowName 0)) = .ok tests) :
      Watched schema n { query := q }
        { table := t.name
          primaryKey := t.primaryKey.name
          filterColumn := q.filters.head?.map Filter.column
          selection := none
          query := q
          isRoot := true }
        (listenCall (filteredRows t (rowName 0) tests) n (q.filters.head?.map fun f => f.value.expr))
  | nested {q : Query} {level : Nat} {name : String} {outer t : Table} {join : Join} {tests : List Expr}
      (around : Keyed.find? schema outer.name = some outer) (table : Keyed.find? schema q.table = some t)
      (joins : Join.between outer (rowName level) t q.cardinality = .ok join)
      (filters : q.filters.mapM (filterTest t (rowName (level + 1))) = .ok tests) :
      Watched schema n { query := q, level := level + 1, selected := some (outer.name, name) }
        { table := t.name
          primaryKey := t.primaryKey.name
          filterColumn := some join.column
          selection := some name
          query := q
          isRoot := false }
        (listenCall
          (filteredRows t (rowName (level + 1)) (tests ++ [joinTest (rowName (level + 1)) join])) n (some join.outer))

/-- Parts with their points and calls, numbered from `n` on. -/
inductive Watches (schema : Schema) : Nat → List Part → List Point → List Expr → Prop
  | nil (n : Nat) : Watches schema n [] [] []
  | cons {n : Nat} {x : Part} {p : Point} {e : Expr} {xs : List Part} {ps : List Point} {es : List Expr}
      (h : Watched schema n x p e) (rest : Watches schema (n + 1) xs ps es) :
      Watches schema n (x :: xs) (p :: ps) (e :: es)

theorem isNumbered_listenCall (rows : Expr) {n : Nat} (hn : n < maxPoints) (value : Option Expr) (m : Nat) :
    (listenCall rows n value).isNumbered m = decide (n = m) := by
  have hnumber : (Int64.ofNat n).toInt = n := Int64.toInt_ofNat_of_lt hn
  cases value <;> simp only [listenCall, Expr.callOf, Expr.isNumbered, hnumber, Int.natCast_inj]

namespace Watched

variable {schema : Schema} {n : Nat} {x : Part} {p : Point} {e : Expr}

theorem isNumbered (h : Watched schema n x p e) (hn : n < maxPoints) (m : Nat) : e.isNumbered m = decide (n = m) := by
  cases h <;> exact isNumbered_listenCall _ hn _ m

theorem isRoot_iff (h : Watched schema n x p e) : p.isRoot = true ↔ x.level = 0 := by
  cases h with
  | outermost table filters => exact ⟨fun _ => rfl, fun _ => rfl⟩
  | nested around table joins filters => exact ⟨fun h => Bool.noConfusion h, fun h => absurd h (Nat.succ_ne_zero _)⟩

end Watched

namespace Watches

variable {schema : Schema} {n : Nat} {xs ys : List Part} {ps qs : List Point} {es fs : List Expr}

theorem length_eq (h : Watches schema n xs ps es) : ps.length = xs.length ∧ es.length = xs.length := by
  induction h with
  | nil n => exact ⟨rfl, rfl⟩
  | cons _ _ ih => exact ⟨congrArg (· + 1) ih.1, congrArg (· + 1) ih.2⟩

theorem append (h : Watches schema n xs ps es) (h' : Watches schema (n + ps.length) ys qs fs) :
    Watches schema n (xs ++ ys) (ps ++ qs) (es ++ fs) := by
  induction h with
  | nil n => exact h'
  | @cons n x p e xs ps es hx _ ih =>
    refine .cons hx (ih ?_)
    rw [List.length_cons] at h'
    rwa [Nat.add_right_comm]

theorem getElem? (h : Watches schema n xs ps es) {i : Nat} {x : Part} (hx : xs[i]? = some x) :
    ∃ p e, ps[i]? = some p ∧ es[i]? = some e ∧ Watched schema (n + i) x p e := by
  induction h generalizing i with
  | nil n => cases hx
  | @cons n y p e xs ps es hy _ ih =>
    cases i with
    | zero =>
      cases hx
      exact ⟨p, e, rfl, rfl, hy⟩
    | succ i =>
      obtain ⟨p', e', hp', he', hwatched⟩ := ih hx
      rw [Nat.add_right_comm] at hwatched
      exact ⟨p', e', hp', he', hwatched⟩

/-- No call has a number below the first one. -/
theorem filter_of_lt (h : Watches schema n xs ps es) (hmax : n + ps.length ≤ maxPoints) {m : Nat} (hlt : m < n) :
    es.filter (Expr.isNumbered m) = [] := by
  induction h with
  | nil n => rfl
  | @cons n x p e xs ps es hx _ ih =>
    rw [List.length_cons] at hmax
    rw [List.filter_cons, hx.isNumbered (by omega) m, decide_eq_false (by omega)]
    exact ih (by omega) (by omega)

/-- One call has the number of a point. -/
theorem filter_eq (h : Watches schema n xs ps es) (hmax : n + ps.length ≤ maxPoints) {i : Nat} {e : Expr}
    (he : es[i]? = some e) : es.filter (Expr.isNumbered (n + i)) = [e] := by
  induction h generalizing i with
  | nil n => cases he
  | @cons n x p e' xs ps es hx hrest ih =>
    rw [List.length_cons] at hmax
    rw [List.filter_cons, hx.isNumbered (by omega) (n + i)]
    cases i with
    | zero =>
      cases he
      rw [Nat.add_zero, decide_eq_true rfl, if_pos rfl, hrest.filter_of_lt (by omega) (by omega)]
    | succ i =>
      have hlater := ih (by omega) he
      rw [Nat.add_right_comm] at hlater
      rw [decide_eq_false (by omega)]
      exact hlater

end Watches

variable {schema : Schema}

/-! ## Points and calls -/

/-- The place of a part: outermost, or in the row of `outer` around it. -/
inductive Place.Of (schema : Schema) (q : Query) : Place → Option (String × String) → Prop
  | outermost (types : TypeScope) : Place.Of schema q { types := types } none
  | inside {place : Place} {name : String} {outer t : Table} {join : Join}
      (around : Keyed.find? schema outer.name = some outer) (table : Keyed.find? schema q.table = some t)
      (joins : Join.between outer (rowName place.level) t q.cardinality = .ok join) :
      Place.Of schema q (place.inside join name) (some (outer.name, name))

namespace Place.Of

variable {q : Query} {place : Place} {selected : Option (String × String)}

theorem listening (h : Place.Of schema q place selected) : ∀ j, place.join = some j → j.outer.listening = [] := by
  cases h with
  | outermost types => rintro j ⟨⟩
  | inside around table joins =>
    rintro j ⟨⟩
    exact listening_outer joins

/-- The call that listens at a level is that of its part. -/
theorem watched (h : Place.Of schema q place selected) {t : Table} {tests : List Expr} (points : List Point)
    (ht : Keyed.find? schema q.table = some t)
    (htests : q.filters.mapM (filterTest t (rowName place.level)) = .ok tests) :
    Watched schema points.length { query := q, level := place.level, selected := selected } (point q t place)
      (rowsAt true q t place tests points) := by
  cases h with
  | outermost types =>
    have hwatched := Watched.outermost (n := points.length) ht htests
    obtain ⟨c, name, filters, selections⟩ := q
    cases filters with
    | nil => simpa [point, rowsAt, testsAt, narrowing] using hwatched
    | cons f filters => simpa [point, rowsAt, testsAt, narrowing] using hwatched
  | @inside place name outer t' join around table joins =>
    obtain rfl := Option.some.inj (ht.symm.trans table)
    have hwatched : Watched schema points.length
        { query := q, level := place.level + 1, selected := some (outer.name, name) } _ _ :=
      .nested around ht joins htests
    simpa [point, rowsAt, testsAt, narrowing, Place.inside] using hwatched

end Place.Of

/-- A new field adds what listens in it. -/
theorem listening_insert {fields : List (String × Expr)} {name : String} (h : Keyed.Ordered fields)
    (hnew : Keyed.find? fields name = none) (e : Expr) :
    ((Keyed.insert fields name e).flatMap fun f => f.2.listening).Perm
      (e.listening ++ fields.flatMap fun f => f.2.listening) := by
  have hperm := h.insert_perm name e
  rw [Keyed.erase_of_find?_eq_none hnew] at hperm
  exact hperm.flatMap_right _

/-- The value that narrows a listener listens at nothing. -/
theorem listening_narrowing (filters : List Filter) {join : Option Join}
    (hjoin : ∀ j, join = some j → j.outer.listening = []) :
    ∀ v, (narrowing filters join).map Prod.snd = some v → v.listening = [] := by
  intro v hv
  cases join with
  | some j =>
    cases hv
    exact hjoin j rfl
  | none =>
    cases filters with
    | nil => cases hv
    | cons f filters =>
      cases hv
      exact listening_literal f.value

mutual

/-- A level adds the points of its parts, and the calls that listen in it are those of its parts. -/
theorem watches_level (hs : schema.Valid) : (q : Query) → {place : Place} → {selected : Option (String × String)} →
    {points points' : List Point} → {e : Expr} → Place.Of schema q place selected →
    (level schema true place q).run points = .ok (e, points') →
    ∃ new calls, points' = points ++ new ∧
      Watches schema points.length (q.partsAt place.level selected) new calls ∧ e.listening.Perm calls
  | .mk c name filters selections, place, selected, points, points', e, hplace, h => by
    obtain ⟨t, tests, fields, result, ht, htests, hfields, -, rfl⟩ := level_ok h
    obtain ⟨new, calls, rfl, hwatches, hperm⟩ :=
      watches_fieldsOf hs selections (hs.find?_self ht) .nil hfields
    have hname : t.name = name := (hs.find? ht).2
    have hwatched := hplace.watched points ht htests
    refine ⟨point (.mk c name filters selections) t place :: new,
      rowsAt true (.mk c name filters selections) t place tests points :: calls, List.append_assoc _ _ _, ?_, ?_⟩
    · rw [if_pos rfl, List.length_append, List.length_singleton, hname] at hwatches
      rw [Query.partsAt]
      exact .cons hwatched hwatches
    · rw [Expr.listening_callOf (by decide) (by decide), listeningArgs, listeningArgs, listeningArgs, listening,
        listening, Expr.listeningFields_eq, List.append_nil, rowsAt, if_pos rfl,
        listening_listenCall _ _ _ (listening_rows htests hplace.listening) (listening_narrowing _ hplace.listening)]
      exact hperm.cons _

theorem watches_fieldsOf (hs : schema.Valid) : (selections : List Selection) → {t : Table} → {place : Place} →
    {points points' : List Point} → {fields final : List (String × Expr)} → Keyed.find? schema t.name = some t →
    Keyed.Ordered fields → (fieldsOf schema true t place fields selections).run points = .ok (final, points') →
    ∃ new calls, points' = points ++ new ∧
      Watches schema points.length (selectionParts (place.level + 1) t.name selections) new calls ∧
      (final.flatMap fun f => f.2.listening).Perm ((fields.flatMap fun f => f.2.listening) ++ calls)
  | [], _, _, points, points', fields, final, _, _, h => by
    cases h
    exact ⟨[], [], (List.append_nil _).symm, .nil _, by rw [List.append_nil]⟩
  | .column name :: rest, t, place, points, points', fields, final, ht, hordered, h => by
    obtain ⟨hnew, -, hrest⟩ := fieldsOf_column_ok h
    obtain ⟨new, calls, hpoints, hwatches, hperm⟩ := watches_fieldsOf hs rest ht (hordered.insert _ _) hrest
    refine ⟨new, calls, hpoints, hwatches, hperm.trans (List.Perm.append_right calls ?_)⟩
    exact (listening_insert hordered hnew _).trans (by rfl)
  | .nested name q :: rest, t, place, points, points', fields, final, ht, hordered, h => by
    obtain ⟨hnew, inner, join, e, points₁, hinner, hjoin, he, hrest⟩ := fieldsOf_nested_ok h
    obtain ⟨new, calls, rfl, hwatches, hperm⟩ := watches_level hs q (.inside ht hinner hjoin) he
    obtain ⟨new', calls', rfl, hwatches', hperm'⟩ := watches_fieldsOf hs rest ht (hordered.insert _ _) hrest
    refine ⟨new ++ new', calls ++ calls', List.append_assoc _ _ _, ?_, ?_⟩
    · rw [List.length_append] at hwatches'
      exact hwatches.append hwatches'
    · refine hperm'.trans ?_
      rw [← List.append_assoc]
      refine List.Perm.append_right calls' ((listening_insert hordered hnew _).trans ?_)
      exact (hperm.append_right _).trans List.perm_append_comm

end

/-- A query has a live plan exactly if it has a plain one, and otherwise both fail in the same way. Without its
listening calls the live plan is the plain one. Its points are the parts of the query in order, and of the listening
calls the one with the number of a point is the one around the rows of its part. -/
theorem live_points (hs : schema.Valid) (q : Query) :
    (∃ f, live schema (Catalog.types schema) q = .error f ∧ select schema (Catalog.types schema) q = .error f) ∨
    ∃ e points, live schema (Catalog.types schema) q = .ok (e, points) ∧
      select schema (Catalog.types schema) q = .ok e.unwatched ∧
      points.length = q.parts.length ∧ e.listening.length = points.length ∧
      ∀ i x, q.parts[i]? = some x → ∃ p call, points[i]? = some p ∧ (p.isRoot = true ↔ i = 0) ∧
        Watched schema i x p call ∧ call ∈ e.listening ∧
        (points.length ≤ maxPoints → e.listening.filter (Expr.isNumbered i) = [call]) := by
  refine (live_alike hs q).imp_right ?_
  rintro ⟨⟨e, points⟩, e', hlive, hselect⟩
  have hsees : Sees schema (Catalog.types schema) := fun _ _ => rfl
  have hjoins : ∀ t, Keyed.find? schema q.table = some t → Place.Joins { types := Catalog.types schema } t := by
    rintro t - j ⟨⟩
  obtain ⟨⟨e'', plain⟩, hlevel, heq⟩ := ok_of_bind hselect
  cases heq
  obtain ⟨u, hu⟩ := infer_root hs hlive
  obtain ⟨u', hu'⟩ := infer_root hs hlevel
  have hplace : Place.Of schema q { types := Catalog.types schema } none := .outermost _
  have hplain : e.unwatched = e'' := unwatched_level hs q hsees hjoins hplace.listening hlive hlevel hu hu'
  obtain ⟨new, calls, hpoints, hwatches, hperm⟩ := watches_level hs q hplace hlive
  have hpoints : points = new := hpoints
  subst hpoints
  have hwatches : Watches schema 0 q.parts points calls := hwatches
  obtain ⟨hlength, hcalls⟩ := hwatches.length_eq
  refine ⟨e, points, hlive, hplain ▸ hselect, hlength, by rw [hperm.length_eq, hcalls, hlength], ?_⟩
  intro i x hx
  obtain ⟨p, call, hp, hcall, hwatched⟩ := hwatches.getElem? hx
  rw [Nat.zero_add] at hwatched
  refine ⟨p, call, hp, hwatched.isRoot_iff.trans (Query.level_parts hx), hwatched,
    hperm.mem_iff.mpr (List.mem_of_getElem? hcall), fun hmax => ?_⟩
  have hone := hwatches.filter_eq (by rwa [Nat.zero_add]) hcall
  rw [Nat.zero_add] at hone
  exact List.perm_singleton.mp (hone ▸ hperm.filter _)

open Query.Valid.Sample in
/-- A table that is joined with itself is listened at three times. -/
theorem live_points_staff : ∃ s, Grown s ∧ ∃ e points, live s.schema (Catalog.types s.schema) staff = .ok (e, points) ∧
    select s.schema (Catalog.types s.schema) staff = .ok e.unwatched ∧ e.listening.length = 3 ∧
    points.map (fun p => (p.filterColumn, p.selection, p.isRoot)) = [(some "id", none, true),
      (some "boss", some "reports", false), (some "id", some "boss", false)] ∧
    ∃ call, e.listening.filter (Expr.isNumbered 2) = [call] := by
  have hplay : opened.any (fun s => ((live s.schema (Catalog.types s.schema) staff).toOption.map fun plan =>
      plan.2.map fun p => (p.filterColumn, p.selection, p.isRoot)) = some [(some "id", none, true),
        (some "boss", some "reports", false), (some "id", some "boss", false)]) = true := by
    decide +kernel
  obtain ⟨s, hs, htest⟩ := (Option.any_eq_true _ _).mp hplay
  have hgrown := grown_of_opened hs
  rcases live_points hgrown.keepsCatalog.catalog.valid staff with
    ⟨f, hlive, -⟩ | ⟨e, points, hlive, hselect, hlength, hcalls, hparts⟩
  · rw [hlive] at htest
    cases of_decide_eq_true htest
  · rw [hlive] at htest
    obtain ⟨p, call, -, -, -, -, hone⟩ := hparts 2 _ rfl
    have hlength : points.length = 3 := hlength
    exact ⟨s, hgrown, e, points, hlive, hselect, hcalls.trans hlength, Option.some.inj (of_decide_eq_true htest), call,
      hone (by rw [hlength]; decide)⟩

end Plan

end LiveQuery
