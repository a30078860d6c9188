import LiveQuery.Proofs.Database.Holding
import LiveQuery.Proofs.Grammar.Insertions
import LiveQuery.Proofs.Plan.Inlined
import LiveQuery.Proofs.Query.Rows

/-! # Every row can be inserted

A row of a table, whatever its values are, is written out in an insertion (`Statement.insertion`) that is read, has the
type of the table's rows and stores exactly this row, unless there is a row with its key (`Grown.insert_row`). The
names of columns are read by another rule than the names of fields, so this is so for the tables that have no column
named by a word of expressions (`Grammar.reserved`).
-/
namespace LiveQuery

/-! ## Names -/

/-- The name of a column is the name of a field, unless it is a word of expressions. -/
theorem Grammar.name_of_identifier {n : String} (h : Identifier n) (hn : n ∉ reserved) : Name n := by
  obtain ⟨hword, hid⟩ := h
  refine ⟨hword, Bool.and_eq_true_iff.mpr ⟨(Bool.and_eq_true_iff.mp hid).1, ?_⟩⟩
  rw [Bool.not_eq_true', List.any_eq_false]
  intro k hk hsame
  rw [beq_iff_eq, String.toList_inj] at hsame
  exact hn (hsame ▸ hk)

namespace Table.Kept

variable {t : Table}

theorem name (h : t.Kept) : Grammar.Identifier t.name := by
  obtain ⟨d, hd⟩ := h.valid
  obtain ⟨-, hdeclares⟩ := ofDef_iff.mp hd
  have hread := h.readable
  rw [hdeclares.declaration] at hread
  rw [hdeclares.name]
  exact hread.name

theorem columns (h : t.Kept) {c : Column} (hc : c ∈ t.columns) : Grammar.Identifier c.name := by
  obtain ⟨d, hd⟩ := h.valid
  obtain ⟨-, hdeclares⟩ := ofDef_iff.mp hd
  have hread := h.readable
  rw [hdeclares.declaration] at hread
  rw [hdeclares.columns] at hc
  obtain ⟨def_, hdef, rfl⟩ := List.mem_map.mp hc
  exact (hread.columns def_ hdef).name

end Table.Kept

namespace Table.Fits

variable {t : Table} {r : Row}

theorem fieldTypes (h : t.Fits r) : Keyed.mapValues Literal.ty r = t.fieldTypes := by
  have hfields : Value.fieldTypes (Keyed.mapValues Literal.value r) = t.fieldTypes := Ty.record.inj h
  rw [Value.fieldTypes_eq, Keyed.mapValues, Keyed.mapValues, List.map_map] at hfields
  rw [← hfields, Keyed.mapValues]
  exact List.map_congr_left fun f _ => Prod.ext rfl (Literal.ty_value f.2).symm

theorem ordered (h : t.Fits r) : Keyed.Ordered r := by
  have hkeys : Keyed.keys r = Keyed.keys t.fieldTypes := by
    rw [← h.fieldTypes, Keyed.keys, Keyed.keys, Keyed.mapValues, List.map_map]
    rfl
  rw [Keyed.ordered_iff_keys, hkeys]
  exact Keyed.ordered_iff_keys.mp (Keyed.ordered_ofList _)

/-- Each value of a row stands in a column. -/
theorem column (h : t.Fits r) {f : String × Literal} (hf : f ∈ r) : ∃ c ∈ t.columns, c.name = f.1 := by
  have hmem : (f.1, f.2.ty) ∈ t.fieldTypes := by
    rw [← h.fieldTypes]
    exact List.mem_map_of_mem hf
  obtain ⟨c, hc, heq⟩ := List.mem_map.mp (Keyed.mem_of_mem_ofList hmem)
  exact ⟨c, hc, (Prod.mk.inj heq).1⟩

end Table.Fits

/-! ## The value of a row -/

theorem Eval.exec_mapM {α β : Type} {f : α → Eval β} {g : α → β} {as : List α} {m : Machine}
    (h : ∀ a ∈ as, (f a).exec m = some (.ok (g a), m)) : (as.mapM f).exec m = some (.ok (as.map g), m) := by
  induction as with
  | nil => rfl
  | cons a as ih =>
    obtain ⟨ha, has⟩ := List.forall_mem_cons.mp h
    rw [List.mapM_cons, exec_bind, ha, Option.bind_some, next?_ok, exec_bind, ih has]
    rfl

section Values

variable {schema : Schema} {store : Store}

theorem Literal.exec_expr (fuel : Nat) (l : Literal) {m : Machine} (hm : m.top.scope = Catalog.scope schema store) :
    (Eval.eval (fuel + 1) l.expr).exec m = some (.ok l.value, m) := by
  cases l with
  | int n => rfl
  | str s => rfl
  | bool b =>
    have hlookup : (Catalog.scope schema store).lookup (if b then "true" else "false") = .ok (.bool b) := by
      rw [Plan.lookup_scope (by cases b <;> decide)]
      cases b <;> rfl
    rw [expr, Eval.eval, Eval.exec_bind, Eval.exec_scope, Option.bind_some, Eval.next?_ok, Eval.exec_ofExcept, hm,
      hlookup]
    rfl

/-- There are no calls in a row to be linked. -/
theorem Row.linked_ofRow (r : Row) : (Expr.ofRow r).Linked := by
  refine .record fun f hf => ?_
  obtain ⟨g, -, rfl⟩ := List.mem_map.mp hf
  cases g.2 <;> exact fun _ => rfl

end Values

/-- A row that is written out has its values as value. -/
theorem Row.evaluates (s : Database) (r : Row) : s.Evaluates (.ofRow r) r.value := by
  have hload : ((Machine.start (Catalog.scope s.schema s.store)).load (.ofRow r)).1 = .ofRow r := by
    rw [Machine.load, r.linked_ofRow]
  generalize hm : ((Machine.start (Catalog.scope s.schema s.store)).load (.ofRow r)).2 = m
  have hscope : m.top.scope = Catalog.scope s.schema s.store := by
    rw [← hm]
    rfl
  refine ⟨2, m, ?_⟩
  rw [Eval.exec_bind, Eval.exec_load, Option.bind_some, Eval.next?_ok, hload, hm, Expr.ofRow, Eval.eval, Eval.exec_bind,
    Keyed.mapValues, List.mapM_map, Eval.exec_mapM (g := fun f => (f.1, f.2.value)) fun f _ => ?_]
  · rfl
  · simp only [Function.comp_apply]
    rw [Eval.exec_bind, f.2.exec_expr 0 hscope]
    rfl

/-- A row has the type of the rows of its table. -/
theorem Table.Fits.infer {t : Table} {r : Row} (h : t.Fits r) (schema : Schema) :
    (Expr.ofRow r).infer (Catalog.types schema) = .ok t.rowType := by
  have hsees : Plan.Sees schema (Catalog.types schema) := fun _ _ => rfl
  have hfields : Expr.inferFields (Catalog.types schema) (Keyed.mapValues Literal.expr r) =
      .ok (Keyed.mapValues Literal.ty r) := by
    clear h
    induction r with
    | nil => rfl
    | cons f r ih =>
      rw [Keyed.mapValues, List.map_cons, Expr.inferFields, hsees.literal f.2]
      rw [Keyed.mapValues] at ih
      rw [ih]
      rfl
  rw [Expr.ofRow, Expr.infer, hfields, h.fieldTypes]
  rfl

/-! ## Insertions -/

namespace Grown

variable {s : Database} {t : Table}

/-- A value of the type of a table's rows can be inserted, if there is no row with its key: the insertion of its fields
is read as such, it has the type of the rows, and it stores this value. The columns must not be named by words of
expressions. -/
theorem insert_row (h : Grown s) (ht : Keyed.find? s.schema t.name = some t)
    (hnames : ∀ c ∈ t.columns, c.name ∉ Grammar.reserved) {v : Value} (hv : v.ty = t.rowType)
    (hnew : ∀ key : Literal, v.member t.primaryKey.name = .ok key.value → s.store.get? t.name key.keyBytes = none) :
    ∃ (r : Row) (bytes : Bytes), r.value = v ∧
      Statement.read (Statement.insertion t.name r) = .ok (.insert t.name (.ofRow r)) ∧
      (Expr.ofRow r).infer (Catalog.types s.schema) = .ok t.rowType ∧
      v.encode = .ok bytes ∧ (bytes.length < 2 ^ 62 → Value.decode bytes = .ok v) ∧
      ∀ o, s.Serves o (Statement.insertion t.name r) {
        store := s.store.put t.name (r.key t).keyBytes bytes
        schema := s.schema
        event := some (t.name, { key := r.key t, old := none, new := some bytes })
        reply := .ok (Write.answerOf "inserted" (r.key t).json) } := by
  obtain ⟨r, -, -, -, rfl⟩ := Row.exists_of_ty hv
  have hr : t.Fits r := hv
  have hvalid := h.keepsCatalog.catalog.valid
  have hkept : t.Kept := h.keepsCatalog.catalog.kept (Keyed.mem_of_find? ht)
  have hname : ∀ f ∈ r, Grammar.Name f.1 := by
    intro f hf
    obtain ⟨c, hc, heq⟩ := hr.column hf
    exact heq ▸ Grammar.name_of_identifier (hkept.columns hc) (hnames c hc)
  have hread := Statement.read_insertion hkept.name hr.ordered hname
  have hinfer := hr.infer s.schema
  have hexpect : t.rowType.expect t.rowType = .ok [] := by
    rw [Ty.expect, Ty.matching?_self t.proper_rowType.sorted]
  have hdata : r.value.IsData := by
    refine ⟨hr.ordered.mapValues _, Value.fieldsAreData_iff.mpr fun f hf => ?_⟩
    obtain ⟨g, -, rfl⟩ := List.mem_map.mp hf
    exact g.2.isData_value
  obtain ⟨bytes, hbytes⟩ := Value.exists_encode hdata
  obtain ⟨fuel, m, hrun⟩ := r.evaluates s
  have hmember : r.value.member t.primaryKey.name = .ok (r.key t).value :=
    hr.member hkept.valid hkept.valid.columns_spec.2
  have hentry : rowEntry t r.value = .ok (r.key t, bytes) := by
    simp [rowEntry, hmember, Literal.ofValue?_value, hbytes, Except.mapError, bind, Except.bind, pure, Except.pure]
  have hprepared : prepareInsert fuel s.schema s.store t.name (.ofRow r) =
      some (.ok (.insert t.name (r.key t) bytes)) := by
    rw [Eval.exec] at hrun
    simp only [prepareInsert, findTable, ht, hinfer, hexpect, hrun, hentry]
    rfl
  have hmade : (Write.insert t.name (r.key t) bytes).commit s.store = .ok {
      store := s.store.put t.name (r.key t).keyBytes bytes
      event := some (t.name, { key := r.key t, old := none, new := some bytes })
      answer := Write.answerOf "inserted" (r.key t).json } := by
    rw [Write.commit, hnew _ hmember]
  exact ⟨r, bytes, rfl, hread, hinfer, hbytes, Value.decode_encode hdata hbytes,
    fun o => .committed hread (.insert fuel hprepared) hmade⟩

namespace Sample

/-- A table with columns of every type, by names that are words of statements elsewhere. -/
def notes : String := "CREATE TABLE notes (id int PRIMARY KEY, true string, int bool)"

/-- A row with a quote, a backslash and characters in it that are written as they are. -/
def note : Row := [("id", .int Int64.minValue), ("int", .bool true), ("true", .str "\"\\\r\x00é")]

end Sample

open Grown.Sample in
theorem insert_row_notes : ∃ s t, Grown s ∧ Keyed.find? s.schema t.name = some t ∧
    (∀ c ∈ t.columns, c.name ∉ Grammar.reserved) ∧ note.value.ty = t.rowType ∧
    ∃ (r : Row) (bytes : Bytes), r.value = note.value ∧
      Statement.read (Statement.insertion t.name r) = .ok (.insert t.name (.ofRow r)) ∧
      (Expr.ofRow r).infer (Catalog.types s.schema) = .ok t.rowType ∧ note.value.encode = .ok bytes ∧
      ∀ o, s.Serves o (Statement.insertion t.name r) {
        store := s.store.put t.name (r.key t).keyBytes bytes
        schema := s.schema
        event := some (t.name, { key := r.key t, old := none, new := some bytes })
        reply := .ok (Write.answerOf "inserted" (r.key t).json) } := by
  have hplay : (Database.follow (fun _ => true) 30 [.call notes, .task 0, .task 0] {}).any (fun s =>
      (Keyed.find? s.schema "notes").any fun t => decide (t.name = "notes") &&
        decide (∀ c ∈ t.columns, c.name ∉ Grammar.reserved) && decide (note.value.ty = t.rowType) &&
        decide (s.store.entries "notes" = [])) = true := by
    decide +kernel
  obtain ⟨s, hs, htest⟩ := (Option.any_eq_true _ _).mp hplay
  obtain ⟨t, ht, htest⟩ := (Option.any_eq_true _ _).mp htest
  simp only [Bool.and_eq_true, decide_eq_true_eq] at htest
  obtain ⟨⟨⟨hname, hnames⟩, hv⟩, hempty⟩ := htest
  have hgrown : Grown s := Grown.start.onward (.of_follow (.start rfl) hs)
  rw [← hname] at ht hempty
  obtain ⟨r, bytes, hvalue, hread, hinfer, hencode, -, hserves⟩ := hgrown.insert_row ht hnames hv fun key _ => by
    rw [Store.get?, hempty]
    rfl
  exact ⟨s, t, hgrown, ht, hnames, hv, r, bytes, hvalue, hread, hinfer, hencode, hserves⟩

end Grown

end LiveQuery
