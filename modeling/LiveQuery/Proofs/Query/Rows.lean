import LiveQuery.Proofs.Schema
import LiveQuery.Proofs.Typing.Builtins
import LiveQuery.Proofs.Typing.Catalog
import LiveQuery.Value.Data

/-! # Rows

A stored row as literals by column. Under typed rows every entry of a table holds one, which has a value of
the right type in each column of the table (`Table.Fits.find?`, `forall₂_rows`).
-/
namespace LiveQuery

/-- The values of a row by column. -/
abbrev Row := List (String × Literal)

namespace Row

/-- The row as a value of the machine. -/
def value (r : Row) : Value := .record (Keyed.mapValues Literal.value r)

/-- The value in a column; the rows of a table have one in each of its columns. -/
def get (r : Row) (column : String) : Literal := (Keyed.find? r column).getD default

/-- The primary key of a row of `t`. -/
def key (r : Row) (t : Table) : Literal := r.get t.primaryKey.name

/-- Whether the row holds the value of a filter. -/
def meets (r : Row) (f : Filter) : Bool := decide (r.get f.column = f.value)

/-- The fields of a record as literals. -/
def ofFields? : List (String × Value) → Option Row
  | [] => some []
  | (name, v) :: rest => do
    let l ← Literal.ofValue? v
    let more ← ofFields? rest
    return (name, l) :: more

/-- The row that some bytes hold. -/
def ofBytes? (b : Bytes) : Option Row :=
  match Value.decode b with
  | .ok (.record fields) => ofFields? fields
  | _ => none

end Row

/-- The rows of a table in key order. -/
def Store.rows (s : Store) (table : String) : List Row := (s.entries table).filterMap fun e => Row.ofBytes?
    e.2

/-! ## Typed rows -/

/-- The row has the row type of the table. -/
def Table.Fits (t : Table) (r : Row) : Prop := r.value.ty = t.rowType

theorem Literal.ofValue?_value (l : Literal) : ofValue? l.value = some l := by
  cases l <;> rfl

/-- A value of a column's type can be written as a literal. -/
theorem Literal.ofValue?_of_ty {v : Value} {c : ColumnType} (h : v.ty = c.ty) :
    ∃ l, ofValue? v = some l ∧ l.value = v := by
  cases c with
  | int => obtain ⟨n, rfl⟩ := Value.int_of_ty h; exact ⟨.int n, rfl, rfl⟩
  | string => obtain ⟨x, rfl⟩ := Value.str_of_ty h; exact ⟨.str x, rfl, rfl⟩
  | bool => obtain ⟨b, rfl⟩ := Value.bool_of_ty h; exact ⟨.bool b, rfl, rfl⟩

namespace Row

theorem ofFields?_of_forall {fields : List (String × Value)}
    (h : ∀ f ∈ fields, ∃ l, Literal.ofValue? f.2 = some l ∧ l.value = f.2) :
    ∃ r, ofFields? fields = some r ∧ Keyed.mapValues Literal.value r = fields := by
  induction fields with
  | nil => exact ⟨[], rfl, rfl⟩
  | cons f fields ih =>
    obtain ⟨l, hl, hv⟩ := h f List.mem_cons_self
    obtain ⟨r, hr, hmap⟩ := ih fun g hg => h g (List.mem_cons_of_mem _ hg)
    refine ⟨(f.1, l) :: r, ?_, ?_⟩
    · simp only [ofFields?, hl, hr]
      rfl
    · rw [Keyed.mapValues, List.map_cons, hv, ← hmap]
      rfl

theorem find?_value (r : Row) (column : String) :
    Keyed.find? (Keyed.mapValues Literal.value r) column = (Keyed.find? r column).map Literal.value :=
  Keyed.find?_mapValues _ _ _

/-- A value of the row type of a table is a row of it. -/
theorem exists_of_ty {t : Table} {v : Value} (h : v.ty = t.rowType) :
    ∃ r fields, v = .record fields ∧ ofFields? fields = some r ∧ r.value = v := by
  obtain ⟨fields, rfl, hfields⟩ := Value.record_of_ty h
  have hliterals : ∀ f ∈ fields, ∃ l, Literal.ofValue? f.2 = some l ∧ l.value = f.2 := by
    intro f hf
    have hmem : (f.1, f.2.ty) ∈ t.fieldTypes := by
      rw [Table.fieldTypes, ← hfields, Value.fieldTypes_eq]
      exact List.mem_map_of_mem hf
    obtain ⟨c, -, hc⟩ := List.mem_map.mp (Keyed.mem_of_mem_ofList hmem)
    exact Literal.ofValue?_of_ty (Prod.mk.inj hc).2.symm
  obtain ⟨r, hr, hmap⟩ := ofFields?_of_forall hliterals
  exact ⟨r, fields, rfl, hr, congrArg Value.record hmap⟩

/-- An entry of the table holds a row of it. -/
theorem ofBytes?_of_holds {t : Table} {e : Bytes × Bytes} (h : t.Holds e) :
    ∃ r, ofBytes? e.2 = some r ∧ Value.decode e.2 = .ok r.value ∧ t.Fits r := by
  obtain ⟨v, hv, hty⟩ := h
  obtain ⟨r, fields, rfl, hr, hvalue⟩ := exists_of_ty hty
  refine ⟨r, ?_, by rw [hvalue, hv], by rw [Table.Fits, hvalue, hty]⟩
  simp only [ofBytes?, hv, hr]

end Row

namespace Table.Fits

variable {t : Table} {r : Row}

/-- A row of a table has a value of the column's type in each column. -/
theorem find? (h : t.Fits r) (ht : t.Valid) {c : Column} (hc : c ∈ t.columns) :
    Keyed.find? r c.name = some (r.get c.name) ∧ (r.get c.name).ty = c.type.ty := by
  have hfields : Value.fieldTypes (Keyed.mapValues Literal.value r) = t.fieldTypes := Ty.record.inj h
  have hfind := ht.find?_fieldTypes hc
  rw [← hfields, Value.fieldTypes_eq, Keyed.find?_mapValues, Row.find?_value] at hfind
  cases hl : Keyed.find? r c.name with
  | none =>
    rw [hl] at hfind
    cases hfind
  | some l =>
    rw [hl] at hfind
    simp only [Option.map_some, Option.some.injEq, Literal.ty_value] at hfind
    rw [Row.get, hl]
    exact ⟨rfl, hfind⟩

theorem member (h : t.Fits r) (ht : t.Valid) {c : Column} (hc : c ∈ t.columns) :
    r.value.member c.name = .ok (r.get c.name).value := by
  rw [Row.value, Value.member, Row.find?_value, (h.find? ht hc).1]
  rfl

end Table.Fits

/-- The entries of a table and their rows. -/
theorem RowsTyped.forall₂_rows {schema : Schema} {store : Store} (h : RowsTyped schema store) {t : Table}
    (ht : Keyed.find? schema t.name = some t) :
    List.Forall₂ (fun e r => Value.decode e.2 = .ok r.value) (store.entries t.name) (store.rows t.name) ∧
      ∀ r ∈ store.rows t.name, t.Fits r := by
  have hholds := h _ (Keyed.mem_of_find? ht)
  dsimp only at hholds
  rw [Store.rows]
  generalize store.entries t.name = entries at hholds
  induction entries with
  | nil => exact ⟨List.Forall₂.nil, by simp⟩
  | cons e entries ih =>
    obtain ⟨r, hr, hdecode, hfits⟩ := Row.ofBytes?_of_holds (hholds e List.mem_cons_self)
    obtain ⟨hrows, hall⟩ := ih fun e' he' => hholds e' (List.mem_cons_of_mem _ he')
    simp only [List.filterMap_cons, hr]
    exact ⟨List.Forall₂.cons hdecode hrows, List.forall_mem_cons.mpr ⟨hfits, hall⟩⟩

end LiveQuery
