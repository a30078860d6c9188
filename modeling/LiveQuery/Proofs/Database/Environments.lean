import LiveQuery.Proofs.Database.Lookups
import LiveQuery.Proofs.Inlining.Meaning

/-! # The environments of an execution

A statement is checked in a type scope and runs in a scope. The one is computed from the columns of the tables, the
other holds handles on their rows, and each has a table of the built-in names of its own. They belong together
(`TypeScope.Mirrors`) if the links of both bind the same names, and if from every name, through any fields, one comes to
a value and to its type, or to the same fault. `Catalog.Nested` lists all that one comes to from `tables`.

So it is for every schema that a catalog can have (`Catalog.Reached`) on any snapshot, and it stays so when names are
added with their values to the one and with the types of these to the other (`Catalog.Reached.environments_mirror`).
-/
namespace LiveQuery

/-! ## Through fields -/

/-- What is inside a value at the end of a way through fields. -/
def Value.reach (v : Value) (fields : List String) : Except EvalFault Value := fields.foldlM Value.member v

/-- The type inside a type at the end of a way through fields. -/
def Ty.reach (t : Ty) (fields : List String) : Except EvalFault Ty :=
  fields.foldlM (fun t name => Expr.memberType name t) t

/-- The value that one comes to from a name. -/
def Scope.reach (scope : Scope) (name : String) (fields : List String) : Except EvalFault Value := do
  (← scope.lookup name).reach fields

/-- The type that one comes to from a name. -/
def TypeScope.reach (types : TypeScope) (name : String) (fields : List String) : Except EvalFault Ty := do
  (← types.lookup name).reach fields

theorem Value.ty_reach (v : Value) (fields : List String) : v.ty.reach fields = (v.reach fields).map Value.ty := by
  induction fields generalizing v with
  | nil => rfl
  | cons name fields ih =>
    simp only [Ty.reach, Value.reach, List.foldlM_cons, Expr.memberType_ty] at ih ⊢
    cases v.member name with
    | error f => rfl
    | ok u => exact ih u

theorem Value.reach_record_iff {entries : List (String × Value)} {name : String} {fields : List String} {v : Value} :
    (Value.record entries).reach (name :: fields) = .ok v ↔
      ∃ u, Keyed.find? entries name = some u ∧ u.reach fields = .ok v := by
  rw [Value.reach, List.foldlM_cons, Value.member]
  cases Keyed.find? entries name with
  | none => simp [bind, Except.bind]
  | some u => simp [bind, Except.bind, Value.reach]

/-! ## Environments that belong together -/

/-- The environment with a link for each list of names that is added, the last one innermost. -/
def Links.extend {α : Type} (links : Links α) (added : List (List (String × α))) : Links α :=
  added.foldl Links.child links

/-- Each name is bound by a link of both environments or of neither. From each, through any fields, one comes to a value
in the scope and to its type in the type scope, or to the same fault in both. -/
structure TypeScope.Mirrors (types : TypeScope) (scope : Scope) : Prop where
  binds : ∀ name, Links.binds types name = Links.binds scope name
  reach : ∀ name fields, types.reach name fields = (scope.reach name fields).map Value.ty

namespace TypeScope.Mirrors

variable {types : TypeScope} {scope : Scope}

/-- It is enough to compare what the names stand for. -/
theorem of_agrees (binds : ∀ name, Links.binds types name = Links.binds scope name) (h : scope.Agrees types) :
    types.Mirrors scope where
  binds := binds
  reach name fields := by
    rw [TypeScope.reach, Scope.reach, h name]
    cases scope.lookup name with
    | error f => rfl
    | ok v => exact v.ty_reach fields

theorem agrees (h : types.Mirrors scope) : scope.Agrees types := by
  intro name
  have hname := h.reach name []
  simp only [TypeScope.reach, Scope.reach, Ty.reach, Value.reach, List.foldlM_nil, bind_pure] at hname
  exact hname

/-- The types of the values of a scope. -/
theorem types_self (scope : Scope) : TypeScope.Mirrors scope.types scope :=
  of_agrees scope.binds_types scope.lookup_types

/-- A link more on both sides, with values and with their types. -/
theorem child (h : types.Mirrors scope) (entries : List (String × Value)) :
    TypeScope.Mirrors (Links.child types (Keyed.mapValues Value.ty entries)) (Links.child scope entries) := by
  have hfind : ∀ name, Keyed.find? (Keyed.ofList (Keyed.mapValues Value.ty entries)) name =
      (Keyed.find? (Keyed.ofList entries) name).map Value.ty := by
    intro name
    rw [← Keyed.mapValues_ofList, Keyed.find?_mapValues]
  -- the new link has the same names on both sides, so it hides what stands under a name on both or on neither
  refine of_agrees (fun name => ?_) (fun name => ?_)
  · simp only [Links.binds, Links.child, Links.find?, hfind]
    cases Keyed.find? (Keyed.ofList entries) name with
    | some v => rfl
    | none => exact h.binds name
  · simp only [TypeScope.lookup, Scope.lookup, Links.child, Links.find?, hfind]
    cases Keyed.find? (Keyed.ofList entries) name with
    | some v => rfl
    | none => exact h.agrees name

theorem extend (h : types.Mirrors scope) (added : List (List (String × Value))) :
    TypeScope.Mirrors (Links.extend types (added.map (Keyed.mapValues Value.ty))) (Links.extend scope added) := by
  induction added generalizing types scope with
  | nil => exact h
  | cons entries added ih => exact ih (h.child entries)

end TypeScope.Mirrors

/-! ## What is reached from the tables -/

/-- The record with the primary key of a table, which holds the handle on the table's rows in the snapshot. -/
def Table.keyed (snapshot : Store) (t : Table) : Value := .record [(t.primaryKey.name, .index (t.index snapshot))]

/-- The type of that record. -/
def Table.keyedType (t : Table) : Ty := .record [(t.primaryKey.name, t.indexType)]

namespace Catalog

/-- What one comes to from `tables`, with its type: the record of all tables, what stands in it under the name of a
table, and in that the handle on the table's rows in the snapshot. -/
inductive Nested (schema : Schema) (snapshot : Store) : List String → Value → Ty → Prop
  | tables : Nested schema snapshot [] (.record (Keyed.mapValues (Table.keyed snapshot) schema))
      (.record (Keyed.mapValues Table.keyedType schema))
  | table {t : Table} (known : Keyed.find? schema t.name = some t) :
      Nested schema snapshot [t.name] (t.keyed snapshot) t.keyedType
  | index {t : Table} (known : Keyed.find? schema t.name = some t) :
      Nested schema snapshot [t.name, t.primaryKey.name] (.index (t.index snapshot)) t.indexType

variable {schema : Schema} {snapshot : Store} {fields : List String} {v : Value} {t : Ty}

theorem mirrors (schema : Schema) (snapshot : Store) : (types schema).Mirrors (scope schema snapshot) := by
  rw [← types_scope schema snapshot]
  exact .types_self _

theorem reach_tables (hs : schema.Valid) (snapshot : Store) (fields : List String) :
    (scope schema snapshot).reach "tables" fields =
      (Value.record (Keyed.mapValues (Table.keyed snapshot) schema)).reach fields := by
  have hhandles : handles schema snapshot = .record (Keyed.mapValues (Table.keyed snapshot) schema) :=
    congrArg Value.record (hs.ofList_map (Table.keyed snapshot))
  rw [← hhandles]
  rfl

theorem Nested.reach (hs : schema.Valid) (h : Nested schema snapshot fields v t) :
    (scope schema snapshot).reach "tables" fields = .ok v := by
  rw [reach_tables hs]
  cases h with
  | tables => rfl
  | table known =>
    rw [Value.reach_record_iff]
    exact ⟨_, by rw [Keyed.find?_mapValues, known]; rfl, rfl⟩
  | index known =>
    rw [Value.reach_record_iff]
    refine ⟨_, by rw [Keyed.find?_mapValues, known]; rfl, ?_⟩
    exact Value.reach_record_iff.mpr ⟨_, if_pos rfl, rfl⟩

theorem Nested.ty_eq (h : Nested schema snapshot fields v t) : v.ty = t := by
  cases h with
  | tables =>
    rw [Value.ty, Value.fieldTypes_eq, Keyed.mapValues, Keyed.mapValues, List.map_map]
    rfl
  | table => rfl
  | index => rfl

/-- From `tables` one comes to the tables, to their primary keys, and no further. -/
theorem nested_of_reach (hs : schema.Valid) (h : (scope schema snapshot).reach "tables" fields = .ok v) :
    ∃ t, Nested schema snapshot fields v t := by
  rw [reach_tables hs] at h
  cases fields with
  | nil => cases h; exact ⟨_, .tables⟩
  | cons name fields =>
    obtain ⟨u, hu, htable⟩ := Value.reach_record_iff.mp h
    rw [Keyed.find?_mapValues] at hu
    obtain ⟨t, ht, rfl⟩ := Option.map_eq_some_iff.mp hu
    obtain rfl := (hs.find? ht).2
    cases fields with
    | nil => cases htable; exact ⟨_, .table ht⟩
    | cons column fields =>
      obtain ⟨w, hw, hindex⟩ := Value.reach_record_iff.mp htable
      obtain ⟨rfl, rfl⟩ : t.primaryKey.name = column ∧ Value.index (t.index snapshot) = w := by
        simpa [Keyed.find?_cons] using hw
      cases fields with
      | nil => cases hindex; exact ⟨_, .index ht⟩
      | cons => cases hindex

/-! ## The schemas of catalogs -/

/-- The schemas that a catalog can have: what is read from a store, and then a table more with each declaration that is
admitted. -/
inductive Reached : Schema → Prop
  | load {store : Store} {schema : Schema} (h : load store = .ok schema) : Reached schema
  | add {schema : Schema} {d : TableDef} {t : Table} (before : Reached schema) (h : admitted schema d = .ok t) :
      Reached (add schema t)

namespace Reached

theorem valid (h : Reached schema) : schema.Valid := by
  induction h with
  | load h => exact valid_of_load h
  | add _ h ih => exact ih.add (admitted_spec h).1

theorem move {texts : String → Prop} {s t : Database} (hs : Reached s.schema) (h : Move texts s t) :
    Reached t.schema := by
  rcases h.schema_cases with hsame | ⟨d, table, hadmitted, hadded⟩
  · exact hsame ▸ hs
  · exact hadded ▸ hs.add hadmitted

/-- The tables of a database that was opened on any store are such a schema. -/
theorem of_reachable {s : Database} (h : Reachable s) : Reached s.schema := by
  induction h with
  | opened _ h =>
    obtain ⟨schema, hload, rfl⟩ := Database.eq_of_ofStore h
    exact .load hload
  | move _ h ih => exact ih.move h

theorem of_grown {s : Database} (h : Grown s) : Reached s.schema := .load h.load_schema

/-- The scope that statements are evaluated in and the type scope that they are checked in belong together: both bind a
name or neither does, and what a name stands for has the type that it stands for, also inside records. From `tables` one
comes to each table, to its primary key and there to the handle on its rows, and to nothing else, each with its type.
And environments that belong together still do when names are added to them, values here and their types there. -/
theorem environments_mirror (h : Reached schema) (snapshot : Store) :
    (types schema).Mirrors (scope schema snapshot) ∧
      (∀ fields v t, (scope schema snapshot).reach "tables" fields = .ok v ∧
          (types schema).reach "tables" fields = .ok t ↔ Nested schema snapshot fields v t) ∧
      ∀ (ts : TypeScope) (s : Scope), ts.Mirrors s → ∀ added : List (List (String × Value)),
        TypeScope.Mirrors (Links.extend ts (added.map (Keyed.mapValues Value.ty))) (Links.extend s added) := by
  have hmirrors := mirrors schema snapshot
  refine ⟨hmirrors, fun fields v t => ⟨?_, fun hnested => ?_⟩, fun _ _ hbefore added => hbefore.extend added⟩
  · rintro ⟨hv, ht⟩
    rw [hmirrors.reach, hv] at ht
    obtain ⟨t', hnested⟩ := nested_of_reach h.valid hv
    obtain rfl : v.ty = t := Except.ok.inj ht
    exact hnested.ty_eq ▸ hnested
  · have hv := hnested.reach h.valid
    refine ⟨hv, ?_⟩
    rw [hmirrors.reach, hv]
    exact congrArg Except.ok hnested.ty_eq

namespace Sample

/-- The type of the handle on the comments. -/
def commentsType : Ty := .index .int (.record [("id", .int), ("ok", .bool), ("s", .string), ("up", .int)])

/-- Whether the comments can be reached. -/
def announced (s : Database) : Bool :=
  decide ((types s.schema).reach "tables" ["comments", "id"] = .ok commentsType)

end Sample

open Grown.Sample Catalog.Reached.Sample in
/-- With two tables the handle on the one is where its type is, and a built-in name and then `tables` itself are given
other meanings. -/
theorem environments_mirror_comments : ∃ s : Database, Reached s.schema ∧
    (∃ v, (scope s.schema s.store).reach "tables" ["comments", "id"] = .ok v ∧ v.ty = commentsType ∧
      Nested s.schema s.store ["comments", "id"] v commentsType) ∧
    TypeScope.Mirrors (Links.extend (types s.schema) [[("plus", .string)], [("tables", .int)]])
      (Links.extend (scope s.schema s.store) [[("plus", .str "")], [("tables", .int 0)]]) := by
  have hplay : play.any announced = true := by decide +kernel
  obtain ⟨s, hs, hannounced⟩ := (Option.any_eq_true _ _).mp hplay
  have htype : (types s.schema).reach "tables" ["comments", "id"] = .ok commentsType := of_decide_eq_true hannounced
  have hreached : Reached s.schema := of_grown (of_play hs)
  obtain ⟨hmirrors, hnested, hextend⟩ := environments_mirror hreached s.store
  have hvalue := hmirrors.reach "tables" ["comments", "id"]
  rw [htype] at hvalue
  cases hv : (scope s.schema s.store).reach "tables" ["comments", "id"] with
  | error f => rw [hv] at hvalue; cases hvalue
  | ok v =>
    rw [hv] at hvalue
    exact ⟨s, hreached, ⟨v, hv, (Except.ok.inj hvalue).symm, (hnested _ v _).mp ⟨hv, htype⟩⟩,
      hextend _ _ hmirrors [[("plus", .str "")], [("tables", .int 0)]]⟩

end Reached

end Catalog

end LiveQuery
