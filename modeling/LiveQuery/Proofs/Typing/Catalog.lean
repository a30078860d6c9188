import LiveQuery.Proofs.Typing.Judgement
import LiveQuery.Schema.Catalog

/-! # The scope of a catalog

`RowsTyped` says that every row of a store has the row type of its table. The scope that a catalog makes
over such a store holds sound values (`Catalog.allSound_scope`) of the types that it announces
(`Catalog.types_scope`).
-/
namespace LiveQuery

/-- An entry that decodes to a row of the table. -/
def Table.Holds (t : Table) (entry : Bytes × Bytes) : Prop :=
  ∃ v, Value.decode entry.2 = .ok v ∧ v.ty = t.rowType

/-- Every entry in the bucket of every table decodes to a row of the table. -/
def RowsTyped (schema : Schema) (store : Store) : Prop :=
  ∀ e ∈ schema, ∀ entry ∈ store.entries e.2.name, e.2.Holds entry

theorem ColumnType.proper_ty (c : ColumnType) : c.ty.Proper := by
  cases c <;> exact ⟨rfl, trivial⟩

theorem Table.proper_rowType (t : Table) : t.rowType.Proper where
  ground := Ty.isGround_recordOf fun f hf => by
    obtain ⟨c, -, rfl⟩ := List.mem_map.mp hf
    exact c.type.proper_ty.ground
  sorted := Ty.sorted_recordOf fun f hf => by
    obtain ⟨c, -, rfl⟩ := List.mem_map.mp hf
    exact c.type.proper_ty.sorted

theorem Value.ty_recordOf (fields : List (String × Value)) :
    (Value.recordOf fields).ty = Ty.recordOf (Keyed.mapValues Value.ty fields) := by
  rw [Value.recordOf, Value.ty, Value.fieldTypes_eq, Keyed.mapValues_ofList, Ty.recordOf]

namespace Catalog

variable {schema : Schema} {store : Store}

theorem ty_handles (schema : Schema) (store : Store) :
    (handles schema store).ty = handlesType schema := by
  rw [handles, Value.ty_recordOf, handlesType, Keyed.mapValues, List.map_map]
  rfl

/-- The scope of a catalog has the types that are announced for it. -/
theorem types_scope (schema : Schema) (store : Store) :
    Scope.types (Catalog.scope schema store) = Catalog.types schema := by
  rw [Catalog.scope, Scope.types_child, Catalog.types]
  simp only [Keyed.mapValues, List.map_cons, List.map_nil, ty_handles]
  rfl

theorem sound_handle (h : RowsTyped schema store) {e : String × Table} (he : e ∈ schema) :
    Index.Sound ⟨e.2.name, e.2.primaryKey.name, e.2.primaryKey.type.ty, e.2.rowType,
      store.bucket? e.2.name⟩ where
  key := ColumnType.proper_ty _
  row := Table.proper_rowType _
  rows b hb entry hentry := by
    have hb : store.bucket? e.2.name = some b := hb
    obtain ⟨v, hv, ht⟩ := h e he entry (by rw [Store.entries, hb]; exact hentry)
    exact ⟨v, hv, ht, Value.isData_of_decode hv⟩

/-- The handles on the tables of a catalog are sound. -/
theorem sound_handles (h : RowsTyped schema store) (w : World) : Sound w (handles schema store) := by
  refine .record (Keyed.ordered_ofList _) fun f hf => ?_
  obtain ⟨e, he, rfl⟩ := List.mem_map.mp (Keyed.mem_of_mem_ofList hf)
  refine .record (List.pairwise_singleton _ _) fun g hg => ?_
  cases List.mem_singleton.mp hg
  exact .index (sound_handle h he)

/-- The scope of a catalog over typed rows is sound. -/
theorem allSound_scope (h : RowsTyped schema store) (w : World) :
    (Catalog.scope schema store).AllSound w := by
  intro link hl e he
  cases List.mem_singleton.mp hl
  cases List.mem_singleton.mp (Keyed.mem_of_mem_ofList he)
  exact sound_handles h w

end Catalog

end LiveQuery
