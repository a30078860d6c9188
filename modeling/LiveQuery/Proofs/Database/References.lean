import LiveQuery.Proofs.Database.Reopening

/-! # References

Every column that refers to a table refers to one of the schema, perhaps its own, and has the type of its primary key
(`Schema.Linked`). A table that is admitted keeps that (`Schema.Linked.add`), so it holds in every database that has
grown from an empty one, also after it was opened again (`Grown.linked`).
-/
namespace LiveQuery

/-- Each reference of a column is to a table whose primary key has the column's type. -/
def Schema.Linked (schema : Schema) : Prop :=
  ∀ e ∈ schema, ∀ c ∈ e.2.columns, ∀ target, c.references = some target →
    ∃ t, Keyed.find? schema target = some t ∧ t.primaryKey.type = c.type

namespace Catalog

variable {schema : Schema} {t : Table}

/-- The check of references looks at each column that has one. -/
theorem checkReferences_iff {columns : List Column} : checkReferences schema t columns = .ok () ↔
    ∀ c ∈ columns, ∀ target, c.references = some target → targetType? schema t target = some c.type := by
  induction columns with
  | nil => simp [checkReferences]
  | cons c columns ih =>
    rw [checkReferences, List.forall_mem_cons, ← ih]
    cases hc : c.references with
    | none => simp
    | some target =>
      cases htype : targetType? schema t target with
      | none => simp [htype]
      | some keyType => by_cases heq : keyType = c.type <;> simp [htype, heq]

end Catalog

namespace Schema.Linked

variable {schema : Schema}

/-- A table that is admitted refers to tables that are there, or to itself. -/
theorem add (h : schema.Linked) {d : TableDef} {t : Table} (ht : Catalog.admitted schema d = .ok t) :
    (Catalog.add schema t).Linked := by
  obtain ⟨-, hnew⟩ := Catalog.admitted_spec ht
  have hkept : ∀ {target : String} {u : Table}, Keyed.find? schema target = some u →
      Keyed.find? (Catalog.add schema t) target = some u := by
    intro target u hu
    have hne : t.name ≠ target := fun heq => by rw [← heq, hnew] at hu; cases hu
    rw [Catalog.add, Keyed.find?_insert_of_ne schema t hne, hu]
  intro e he c hc target htarget
  rcases Keyed.mem_of_mem_insert he with rfl | he
  · have htype := Catalog.checkReferences_iff.mp (Catalog.admitted_iff.mp ht).2.2 c hc target htarget
    rw [Catalog.targetType?] at htype
    split at htype
    next heq =>
      refine ⟨t, ?_, Option.some.inj htype⟩
      rw [heq, Catalog.add, Keyed.find?_insert_self]
    next =>
      obtain ⟨u, hu, hkey⟩ := Option.map_eq_some_iff.mp htype
      exact ⟨u, hkept hu, hkey⟩
  · obtain ⟨u, hu, hkey⟩ := h e he c hc target htarget
    exact ⟨u, hkept hu, hkey⟩

end Schema.Linked

namespace Database

variable {s t : Database}

/-- The tables stay linked if they stay as they are, or one is added that the catalog has admitted. -/
theorem linked_of_schema_cases (hs : s.schema.Linked) (h : t.schema = s.schema ∨
    ∃ d table, Catalog.admitted s.schema d = .ok table ∧ t.schema = Catalog.add s.schema table) : t.schema.Linked := by
  rcases h with hsame | ⟨d, table, hadmitted, hadded⟩
  · exact hsame ▸ hs
  · exact hadded ▸ hs.add hadmitted

end Database

/-- In a database that has grown from an empty one every reference is to a table whose primary key has its type. -/
theorem Grown.linked {s : Database} (h : Grown s) : s.schema.Linked := by
  induction h with
  | start => simp [Schema.Linked]
  | move _ h ih => exact Database.linked_of_schema_cases ih h.schema_cases
  | attempt _ h ih =>
    obtain ⟨task, -, hchanges, -⟩ := Database.attempt_spec h
    exact Database.linked_of_schema_cases ih hchanges.schema_cases
  | reopen before h ih =>
    obtain rfl := before.reopened h
    exact ih

end LiveQuery
