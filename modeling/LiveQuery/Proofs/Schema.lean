import LiveQuery.Proofs.Keyed
import LiveQuery.Proofs.Outcome
import LiveQuery.Proofs.Store
import LiveQuery.Schema.Catalog

/-! # Valid schemas

A table is valid if some declaration declares it: its columns have different names, its primary key is one
of them, and it is not named after the bucket of declarations. A schema is valid if its tables are and stand
under their names; it stays so when a table is admitted (`Schema.Valid.add`) and when it is loaded
(`Catalog.valid_of_load`).
-/
namespace LiveQuery

/-- A declaration declares the table. -/
def Table.Valid (t : Table) : Prop := ∃ d, Table.ofDef d = .ok t

structure Schema.Valid (schema : Schema) : Prop where
  ordered : Keyed.Ordered schema
  names : ∀ e ∈ schema, e.1 = e.2.name
  tables : ∀ e ∈ schema, e.2.Valid

/-! ## Tables -/

/-- The table has the name and the columns that were declared, and the one primary key that was. -/
structure TableDef.Declares (d : TableDef) (t : Table) : Prop where
  declaration : t.declaration = d
  name : t.name = d.name
  columns : t.columns = d.columns.map ColumnDef.column
  primaryKey : (d.columns.filter ColumnDef.primaryKey).map ColumnDef.column = [t.primaryKey]

namespace Table

/-- The columns pass if they have different names, none of which was seen before, and there is one primary key together
with what was found before. -/
theorem checkColumns_iff {table : String} {seen : List String} {key : Option Column} {defs : List ColumnDef}
    {c : Column} : checkColumns table seen key defs = .ok c ↔
      ((defs.map ColumnDef.name).Nodup ∧ ∀ d ∈ defs, d.name ∉ seen) ∧
        key.toList ++ (defs.filter ColumnDef.primaryKey).map ColumnDef.column = [c] := by
  induction defs generalizing seen key with
  | nil => cases key <;> simp [checkColumns]
  | cons d defs ih =>
    have hnames : ((d :: defs).map ColumnDef.name).Nodup ∧ (∀ d' ∈ d :: defs, d'.name ∉ seen) ↔
        d.name ∉ seen ∧ (defs.map ColumnDef.name).Nodup ∧ ∀ d' ∈ defs, d'.name ∉ d.name :: seen := by
      simp only [List.map_cons, List.nodup_cons, List.mem_map, List.mem_cons, not_or, not_exists]
      grind
    have hunfold : checkColumns table seen key (d :: defs) =
        if seen.contains d.name then .error (.duplicateColumn table d.name)
        else if d.primaryKey then
          if key.isSome then .error (.multiplePrimaryKeys table)
          else checkColumns table (d.name :: seen) (some d.column) defs
        else checkColumns table (d.name :: seen) key defs := by
      cases key <;> rfl
    rw [hnames, hunfold]
    split
    next hseen => simp [List.contains_iff_mem.mp hseen]
    next hseen =>
      have hnew : d.name ∉ seen := fun hmem => hseen (List.contains_iff_mem.mpr hmem)
      split
      next hprimary =>
        cases key with
        | some k => simp [hprimary]
        | none => simp [ih, hnew, hprimary]
      next hprimary => simp [ih, hnew, hprimary]

theorem ofDef_iff {d : TableDef} {t : Table} : ofDef d = .ok t ↔
    (d.name ≠ declarationBucket ∧ (d.columns.map ColumnDef.name).Nodup) ∧ d.Declares t := by
  simp only [ofDef]
  split
  next hreserved =>
    refine ⟨fun h => ?_, fun h => absurd hreserved h.1.1⟩
    cases h
  next hname =>
    constructor
    · intro h
      obtain ⟨key, hkey, h⟩ := ok_of_bind h
      cases h
      obtain ⟨⟨hnodup, -⟩, hone⟩ := checkColumns_iff.mp hkey
      exact ⟨⟨hname, hnodup⟩, rfl, rfl, rfl, hone⟩
    · rintro ⟨⟨-, hnodup⟩, hdeclares⟩
      obtain ⟨name, columns, key, declaration⟩ := t
      obtain ⟨hdeclaration, hname, hcolumns, hone⟩ := hdeclares
      dsimp only at hdeclaration hname hcolumns hone
      subst hdeclaration hname hcolumns
      have hkey : checkColumns declaration.name [] none declaration.columns = .ok key :=
        checkColumns_iff.mpr ⟨⟨hnodup, by simp⟩, hone⟩
      rw [hkey]
      rfl

/-- The types of the columns by name. -/
def fieldTypes (t : Table) : List (String × Ty) :=
  Keyed.ofList (t.columns.map fun c => (c.name, c.type.ty))

theorem mem_of_column? {t : Table} {name : String} {c : Column} (h : t.column? name = some c) :
    c ∈ t.columns ∧ c.name = name :=
  ⟨List.mem_of_find?_eq_some h, by simpa using List.find?_some h⟩

namespace Valid

variable {t : Table}

theorem name_ne (h : t.Valid) : t.name ≠ declarationBucket := by
  obtain ⟨d, h⟩ := h
  obtain ⟨⟨hname, -⟩, hdeclares⟩ := ofDef_iff.mp h
  rw [hdeclares.name]
  exact hname

theorem columns_spec (h : t.Valid) :
    (t.columns.map Column.name).Nodup ∧ t.primaryKey ∈ t.columns := by
  obtain ⟨d, h⟩ := h
  obtain ⟨⟨-, hnodup⟩, hdeclares⟩ := ofDef_iff.mp h
  rw [hdeclares.columns, List.map_map]
  refine ⟨hnodup, ?_⟩
  obtain ⟨k, hk, hkey⟩ := List.map_eq_singleton_iff.mp hdeclares.primaryKey
  have hmem : k ∈ d.columns.filter ColumnDef.primaryKey := hk ▸ List.mem_singleton_self k
  exact hkey ▸ List.mem_map_of_mem (List.mem_of_mem_filter hmem)

theorem find?_fieldTypes (h : t.Valid) {c : Column} (hc : c ∈ t.columns) :
    Keyed.find? t.fieldTypes c.name = some c.type.ty := by
  refine Keyed.find?_ofList_of_mem ?_ (List.mem_map_of_mem hc)
  rw [Keyed.keys, List.map_map]
  exact h.columns_spec.1

theorem column?_of_mem (h : t.Valid) {c : Column} (hc : c ∈ t.columns) :
    t.column? c.name = some c := by
  cases hf : t.column? c.name with
  | none =>
    have hnone := List.find?_eq_none.mp hf c hc
    simp at hnone
  | some c' =>
    obtain ⟨hc', hname⟩ := mem_of_column? hf
    rw [List.inj_on_of_nodup_map h.columns_spec.1 hc' hc hname]

end Valid

end Table

/-! ## Schemas -/

namespace Schema.Valid

variable {schema : Schema}

theorem find? (h : schema.Valid) {name : String} {t : Table} (ht : Keyed.find? schema name = some t) :
    t.Valid ∧ t.name = name :=
  ⟨h.tables _ (Keyed.mem_of_find? ht), (h.names _ (Keyed.mem_of_find? ht)).symm⟩

theorem find?_self (h : schema.Valid) {name : String} {t : Table} (ht : Keyed.find? schema name = some t) :
    Keyed.find? schema t.name = some t := by
  rw [(h.find? ht).2, ht]

/-- What is made of each table stands under its name. -/
theorem ofList_map (h : schema.Valid) {α : Type} (f : Table → α) :
    Keyed.ofList (schema.map fun e => (e.2.name, f e.2)) = Keyed.mapValues f schema := by
  have hnames : (schema.map fun e => (e.2.name, f e.2)) = Keyed.mapValues f schema :=
    List.map_congr_left fun e he => congrArg (·, f e.2) (h.names e he).symm
  rw [hnames]
  exact Keyed.ofList_of_ordered (h.ordered.mapValues f)

theorem find?_ofList (h : schema.Valid) {α : Type} (f : Table → α) {t : Table}
    (ht : Keyed.find? schema t.name = some t) :
    Keyed.find? (Keyed.ofList (schema.map fun e => (e.2.name, f e.2))) t.name = some (f t) := by
  rw [h.ofList_map, Keyed.find?_mapValues, ht]
  rfl

theorem add (h : schema.Valid) {t : Table} (ht : t.Valid) : (Catalog.add schema t).Valid where
  ordered := h.ordered.insert t.name t
  names := by
    intro e he
    rcases Keyed.mem_of_mem_insert he with rfl | he
    · rfl
    · exact h.names e he
  tables := by
    intro e he
    rcases Keyed.mem_of_mem_insert he with rfl | he
    · exact ht
    · exact h.tables e he

end Schema.Valid

namespace Catalog

theorem admitted_iff {schema : Schema} {d : TableDef} {t : Table} : admitted schema d = .ok t ↔
    Table.ofDef d = .ok t ∧ Keyed.find? schema t.name = none ∧ checkReferences schema t t.columns = .ok () := by
  constructor
  · intro h
    obtain ⟨u, hu, h⟩ := ok_of_bind h
    dsimp only at h
    split at h
    next => cases h
    next hnew =>
      obtain ⟨⟨⟩, hcheck, h⟩ := ok_of_bind h
      cases h
      exact ⟨hu, by simpa [Keyed.contains] using hnew, hcheck⟩
  · rintro ⟨hdef, hnew, hcheck⟩
    simp [admitted, hdef, Keyed.contains, hnew, hcheck, bind, Except.bind, pure, Except.pure]

theorem admitted_spec {schema : Schema} {d : TableDef} {t : Table} (h : admitted schema d = .ok t) :
    t.Valid ∧ Keyed.find? schema t.name = none :=
  ⟨⟨d, (admitted_iff.mp h).1⟩, (admitted_iff.mp h).2.1⟩

section Create

variable {schema : Schema} {store : Store} {d : TableDef} {t : Table}

/-- A table that is not admitted is not made. -/
theorem create_of_refused {f : SchemaFault} (h : admitted schema d = .error f) (committing : Except String Unit) :
    create schema store d committing = .error f := by
  simp only [create, h, bind, Except.bind]

/-- A table that is admitted is made in the store and in memory. -/
theorem create_of_admitted (h : admitted schema d = .ok t) :
    create schema store d (.ok ()) = .ok ⟨t, persist store t, add schema t⟩ := by
  simp only [create, h, bind, Except.bind, Except.map, Except.mapError, pure, Except.pure]

/-- A table that the storage does not commit is made nowhere. -/
theorem create_of_uncommitted (h : admitted schema d = .ok t) (message : String) :
    create schema store d (.error message) = .error (.storage message) := by
  simp only [create, h, bind, Except.bind, Except.map, Except.mapError]

end Create

theorem valid_of_ofEntry {key text : Bytes} {t : Table} (h : ofEntry key text = .ok t) : t.Valid := by
  simp only [ofEntry] at h
  split at h
  next => cases h
  next =>
    split at h
    next => cases h
    next d _ => exact ⟨d, h⟩
    next => cases h

theorem valid_of_ofEntries {b : Bucket} {schema schema' : Schema} (hs : schema.Valid)
    (h : ofEntries b schema = .ok schema') : schema'.Valid := by
  induction b generalizing schema with
  | nil => cases h; exact hs
  | cons e b ih =>
    obtain ⟨t, ht, h⟩ := ok_of_bind h
    exact ih (hs.add (valid_of_ofEntry ht)) h

/-- A schema that was loaded is valid. -/
theorem valid_of_load {store : Store} {schema : Schema} (h : load store = .ok schema) :
    schema.Valid :=
  valid_of_ofEntries ⟨List.Pairwise.nil, by simp, by simp⟩ h

end Catalog

end LiveQuery
