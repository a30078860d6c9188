import LiveQuery.Proofs.Database.Moves
import LiveQuery.Proofs.Grammar.Reading
import LiveQuery.Proofs.Schema
import LiveQuery.Proofs.Typing.Session

/-! # Stored rows have their tables' row types

In every run in which the rows to insert are written without type variables in annotations, and in which
stored rows stay below the size that a serial type can count, every entry of every table decodes to a record
of exactly the row type of the table (`Run.stored_rows`).

`Database.Typed` is the invariant: also the writes that wait have checked rows, and a bucket that belongs
to no table is empty.
-/
namespace LiveQuery

/-- No stored row is larger than a serial type can count. -/
def Store.Fits (s : Store) : Prop := ∀ name, ∀ e ∈ s.entries name, e.2.length < 2 ^ 62

/-- A checked write fits the table that it names. -/
def Write.Typed (schema : Schema) : Write → Prop
  | .insert table _ row => ∃ t, Keyed.find? schema table = some t ∧
    (row.length < 2 ^ 62 → ∃ v, Value.decode row = .ok v ∧ v.ty = t.rowType)
  | .update table _ assignments => ∃ t, Keyed.find? schema table = some t ∧
    ∀ a ∈ assignments, Keyed.find? t.fieldTypes a.1 = some a.2.ty
  | .delete table _ => ∃ t, Keyed.find? schema table = some t

/-- Whether a text is no insertion, or one of a row without type variables in its annotations. -/
def groundInsert (text : String) : Bool :=
  match Statement.read text with
  | .ok (.insert _ row) => row.groundAnnotations
  | _ => true

structure Database.Typed (s : Database) : Prop where
  schema : s.schema.Valid
  rows : RowsTyped s.schema s.store
  unused : ∀ name, Keyed.find? s.schema name = none → name ≠ declarationBucket →
    s.store.entries name = []
  writes : ∀ o w, Task.write o w ∈ s.tasks → w.Typed s.schema
  texts : ∀ o text, Task.statement o text ∈ s.tasks → groundInsert text = true

/-! ## Rows -/

theorem Literal.isData_value (l : Literal) : l.value.IsData := by
  cases l <;> trivial

/-- A sound value of a row type is data. -/
theorem Sound.isData_of_rowType {w : World} {v : Value} {t : Table} (h : Sound w v)
    (ht : v.ty = t.rowType) : v.IsData := by
  obtain ⟨fields, rfl, hfields⟩ := Value.record_of_ty ht
  cases h with
  | record ordered each =>
    refine ⟨ordered, Value.fieldsAreData_iff.mpr fun f hf => ?_⟩
    have hty : (f.1, f.2.ty) ∈ t.fieldTypes := by
      rw [Table.fieldTypes, ← hfields, Value.fieldTypes_eq]
      exact List.mem_map_of_mem hf
    obtain ⟨c, -, hc⟩ := List.mem_map.mp (Keyed.mem_of_mem_ofList hty)
    have hcty : f.2.ty = c.type.ty := (Prod.mk.inj hc).2.symm
    cases hct : c.type with
    | int =>
      obtain ⟨n, hn⟩ := Value.int_of_ty (hcty.trans (by rw [hct]; rfl))
      rw [hn]; trivial
    | string =>
      obtain ⟨x, hx⟩ := Value.str_of_ty (hcty.trans (by rw [hct]; rfl))
      rw [hx]; trivial
    | bool =>
      obtain ⟨b, hb⟩ := Value.bool_of_ty (hcty.trans (by rw [hct]; rfl))
      rw [hb]; trivial

/-- A record of data stays one when columns are set to literals. -/
theorem Value.IsData.assign {fields : List (String × Value)} (h : (Value.record fields).IsData)
    (assignments : List (String × Literal)) : (Value.record (LiveQuery.assign fields assignments)).IsData := by
  unfold LiveQuery.assign
  induction assignments generalizing fields with
  | nil => exact h
  | cons a assignments ih =>
    refine ih ⟨h.1.insert _ _, Value.fieldsAreData_iff.mpr fun f hf => ?_⟩
    rcases Keyed.mem_of_mem_insert hf with rfl | hf
    · exact a.2.isData_value
    · exact Value.fieldsAreData_iff.mp h.2 f hf

/-- Setting columns to values of their types keeps the type of a row. -/
theorem fieldTypes_assign {fields : List (String × Value)} {ts : List (String × Ty)}
    {assignments : List (String × Literal)} (hordered : Keyed.Ordered fields) (hty : Value.fieldTypes fields = ts)
    (ha : ∀ a ∈ assignments, Keyed.find? ts a.1 = some a.2.ty) :
    Value.fieldTypes (assign fields assignments) = ts := by
  induction assignments generalizing fields with
  | nil => exact hty
  | cons a assignments ih =>
    obtain ⟨hfind, hrest⟩ := List.forall_mem_cons.mp ha
    have htypes : Value.fieldTypes (Keyed.insert fields a.1 a.2.value) = ts := by
      rw [← hty, Value.fieldTypes_eq] at hfind
      rw [Value.fieldTypes_eq, Keyed.mapValues_insert, Literal.ty_value,
        (hordered.mapValues _).insert_of_find? hfind, ← Value.fieldTypes_eq, hty]
    exact ih (hordered.insert _ _) htypes hrest

/-! ## Preparing writes -/

theorem findTable_ok {schema : Schema} {name : String} {t : Table} (h : findTable schema name = .ok t) :
    Keyed.find? schema name = some t := by
  unfold findTable at h
  split at h
  next heq => cases h; exact heq
  next => cases h

/-- The bytes of a checked row hold data of the row type, if they can be counted. -/
theorem decode_of_rowEntry {t : Table} {v : Value} {key : Literal} {bytes : Bytes} (hd : v.IsData)
    (h : rowEntry t v = .ok (key, bytes)) (hlen : bytes.length < 2 ^ 62) :
    Value.decode bytes = .ok v := by
  obtain ⟨k, -, h⟩ := ok_of_bind h
  split at h
  next => cases h
  next =>
    obtain ⟨b, hb, h⟩ := ok_of_bind h
    cases h
    exact Value.decode_encode hd (ok_of_mapError hb) hlen

/-- An insertion that passes the check on its type has a row of the row type: inference is sound. -/
theorem prepareInsert_typed {fuel : Nat} {schema : Schema} {store : Store} {table : String}
    {row : Expr} {w : Write} (hschema : schema.Valid) (hrows : RowsTyped schema store)
    (hwf : row.WellFormed) (hground : row.groundAnnotations = true)
    (h : prepareInsert fuel schema store table row = some (.ok w)) : w.Typed schema := by
  unfold prepareInsert at h
  split at h
  next => cases h
  next t ht =>
    have hfind := findTable_ok ht
    split at h
    next => cases h
    next actual hinfer =>
      split at h
      next => cases h
      next bs hexpect =>
        dsimp only at h
        split at h
        next => cases h
        next => cases h
        next v m hrun =>
          obtain ⟨⟨key, bytes⟩, hentry, hw⟩ := ok_of_bind (Option.some.inj h)
          cases hw
          rw [← Catalog.types_scope schema store] at hinfer
          have htyped := Expr.hasType_of_infer {} row _ actual hwf hground hinfer
          have hscope := Catalog.allSound_scope hrows {}
          obtain ⟨w', -, -, -, hsound, hty⟩ := Safe.eval_load hscope htyped fuel _
            (Machine.Agrees.start _) rfl (.ok v) m hrun
          have hrow : v.ty = t.rowType := by
            rw [hty]
            exact Ty.eq_of_expect t.proper_rowType (hty ▸ hsound.ty_sorted) hexpect
          have hname := (hschema.find? hfind).2
          refine ⟨t, by rw [hname]; exact hfind, fun hlen => ⟨v, ?_, hrow⟩⟩
          exact decode_of_rowEntry (hsound.isData_of_rowType hrow) hentry hlen

theorem checkAssignment_ok {t : Table} {a : String × Literal} (ht : t.Valid)
    (h : checkAssignment t a = .ok ()) : Keyed.find? t.fieldTypes a.1 = some a.2.ty := by
  unfold checkAssignment at h
  split at h
  next => cases h
  next c hc =>
    obtain ⟨hmem, hname⟩ := Table.mem_of_column? hc
    by_cases hkey : c.name = t.primaryKey.name
    · rw [if_pos hkey] at h
      cases h
    · rw [if_neg hkey] at h
      by_cases hty : a.2.ty = c.type.ty
      · rw [← hname, ht.find?_fieldTypes hmem, hty]
      · rw [if_pos hty] at h
        cases h

theorem forM_ok {ε α : Type} {f : α → Except ε Unit} {as : List α} (h : as.forM f = .ok ()) :
    ∀ a ∈ as, f a = .ok () := by
  induction as with
  | nil => simp
  | cons a as ih =>
    have h : (f a >>= fun _ => as.forM f) = .ok () := h
    obtain ⟨⟨⟩, ha, h⟩ := ok_of_bind h
    exact List.forall_mem_cons.mpr ⟨ha, ih h⟩

theorem prepareUpdate_typed {schema : Schema} {table : String} {assignments : List (String × Literal)}
    {filters : List Filter} {w : Write} (hschema : schema.Valid)
    (h : prepareUpdate schema table assignments filters = .ok w) : w.Typed schema := by
  obtain ⟨t, ht, h⟩ := ok_of_bind h
  obtain ⟨key, -, h⟩ := ok_of_bind h
  obtain ⟨⟨⟩, hcheck, h⟩ := ok_of_bind h
  cases h
  have hfind := findTable_ok ht
  obtain ⟨hvalid, hname⟩ := hschema.find? hfind
  exact ⟨t, by rw [hname]; exact hfind,
    fun a ha => checkAssignment_ok hvalid (forM_ok hcheck a ha)⟩

theorem prepareDelete_typed {schema : Schema} {table : String} {filters : List Filter} {w : Write}
    (hschema : schema.Valid) (h : prepareDelete schema table filters = .ok w) : w.Typed schema := by
  obtain ⟨t, ht, h⟩ := ok_of_bind h
  obtain ⟨key, -, h⟩ := ok_of_bind h
  cases h
  have hfind := findTable_ok ht
  exact ⟨t, by rw [(hschema.find? hfind).2]; exact hfind⟩

/-! ## Committing writes -/

/-- A row of the row type stays one when columns are set. -/
theorem holds_of_changedRow {t : Table} {key : Literal} {assignments : List (String × Literal)}
    {old new : Bytes} {k : Bytes} (hold : t.Holds (k, old))
    (ha : ∀ a ∈ assignments, Keyed.find? t.fieldTypes a.1 = some a.2.ty)
    (h : changedRow t.name key assignments old = .ok new) (hlen : new.length < 2 ^ 62) :
    t.Holds (k, new) := by
  obtain ⟨v, hv, hty⟩ := hold
  obtain ⟨u, hu, h⟩ := ok_of_bind h
  cases Except.ok.inj (hv.symm.trans (ok_of_mapError hu))
  obtain ⟨fields, rfl, hfields⟩ := Value.record_of_ty hty
  have hdata := Value.isData_of_decode hv
  exact ⟨_, Value.decode_encode (hdata.assign assignments) (ok_of_mapError h) hlen,
    by rw [Value.ty, fieldTypes_assign hdata.1 hfields ha]; rfl⟩

/-- A checked write changes the bucket of its own table only, in which all entries stay rows of it. -/
theorem Write.commit_spec {schema : Schema} {store : Store} {w : Write} {c : Committed}
    (hschema : schema.Valid) (hw : w.Typed schema)
    (hrows : ∀ t, Keyed.find? schema t.name = some t → ∀ e ∈ store.entries t.name, t.Holds e)
    (hfits : c.store.Fits) (h : w.commit store = .ok c) :
    ∃ t, Keyed.find? schema t.name = some t ∧ (∀ e ∈ c.store.entries t.name, t.Holds e) ∧
      ∀ other, t.name ≠ other → c.store.entries other = store.entries other := by
  cases w with
  | insert table key row =>
    obtain ⟨t, ht, hrow⟩ := hw
    obtain rfl : t.name = table := (hschema.find? ht).2
    simp only [Write.commit] at h
    split at h
    next => cases h
    next =>
      cases h
      refine ⟨t, ht, fun e he => ?_, fun other hne => Store.entries_put_of_ne _ _ _ hne⟩
      have hsize := hfits t.name e he
      rw [Store.entries_put_self] at he
      rcases Keyed.mem_of_mem_insert he with rfl | he
      · exact hrow hsize
      · exact hrows t ht e he
  | update table key assignments =>
    obtain ⟨t, ht, ha⟩ := hw
    obtain rfl : t.name = table := (hschema.find? ht).2
    simp only [Write.commit] at h
    split at h
    next => cases h; exact ⟨t, ht, hrows t ht, fun _ _ => rfl⟩
    next old hold =>
      obtain ⟨new, hnew, h⟩ := ok_of_bind h
      cases h
      refine ⟨t, ht, fun e he => ?_, fun other hne => Store.entries_put_of_ne _ _ _ hne⟩
      have hsize := hfits t.name e he
      rw [Store.entries_put_self] at he
      rcases Keyed.mem_of_mem_insert he with rfl | he
      · exact holds_of_changedRow (hrows t ht _ (Keyed.mem_of_find? hold)) ha hnew hsize
      · exact hrows t ht e he
  | delete table key =>
    obtain ⟨t, ht⟩ := hw
    obtain rfl : t.name = table := (hschema.find? ht).2
    have hentries : ∀ other, (store.delete t.name key.keyBytes).entries other =
        if t.name = other then Keyed.erase (store.entries t.name) key.keyBytes
        else store.entries other := store.entries_delete _ _
    have hstore : c.store = store.delete t.name key.keyBytes := by
      simp only [Write.commit] at h
      split at h <;> cases h <;> rfl
    refine ⟨t, ht, fun e he => ?_, fun other hne => by rw [hstore, hentries, if_neg hne]⟩
    rw [hstore, hentries, if_pos rfl] at he
    exact hrows t ht e (Keyed.mem_of_mem_erase he)

/-! ## The invariant -/

theorem Catalog.entries_persist (store : Store) (t : Table) {name : String}
    (h : name ≠ declarationBucket) : (Catalog.persist store t).entries name = store.entries name := by
  rw [Catalog.persist, Store.entries_touch, Store.entries_put_of_ne _ _ _ h.symm, Store.entries_touch]

theorem Catalog.find?_add {schema : Schema} {t u : Table} {name : String}
    (hnew : Keyed.find? schema t.name = none) (h : Keyed.find? schema name = some u) :
    Keyed.find? (Catalog.add schema t) name = some u := by
  have hne : t.name ≠ name := by
    rintro rfl
    rw [hnew] at h
    cases h
  rw [Catalog.add, Keyed.find?_insert_of_ne _ _ hne, h]

/-- A checked write still fits when there is one more table. -/
theorem Write.Typed.add {schema : Schema} {t : Table} {w : Write}
    (hnew : Keyed.find? schema t.name = none) (h : w.Typed schema) : w.Typed (Catalog.add schema t) := by
  cases w with
  | insert table key row =>
    obtain ⟨u, hu, hrow⟩ := h
    exact ⟨u, Catalog.find?_add hnew hu, hrow⟩
  | update table key assignments =>
    obtain ⟨u, hu, ha⟩ := h
    exact ⟨u, Catalog.find?_add hnew hu, ha⟩
  | delete table key =>
    obtain ⟨u, hu⟩ := h
    exact ⟨u, Catalog.find?_add hnew hu⟩

namespace Database.Typed

variable {s t : Database}

theorem start : Database.Typed {} where
  schema := ⟨List.Pairwise.nil, by simp, by simp⟩
  rows := by simp [RowsTyped]
  unused _ _ _ := rfl
  writes := by simp
  texts := by simp

/-- A task that becomes a write was a statement that was checked. -/
theorem write_of_continues (hs : s.Typed) {task : Task} {o : Origin} {w : Write} (hmem : task ∈ s.tasks)
    (h : Continues s task (.write o w)) : w.Typed s.schema := by
  cases h with
  | @insert _ text table row _ fuel read prepared =>
    have hwf : row.WellFormed := Statement.wellFormed_of_read read
    have hground := hs.texts _ _ hmem
    simp only [groundInsert, read] at hground
    exact prepareInsert_typed hs.schema hs.rows hwf hground prepared
  | update read prepared => exact prepareUpdate_typed hs.schema prepared
  | delete read prepared => exact prepareDelete_typed hs.schema prepared

/-- The rows of a table by its name. -/
theorem rows_find? (hs : s.Typed) {u : Table} (hu : Keyed.find? s.schema u.name = some u) :
    ∀ e ∈ s.store.entries u.name, u.Holds e :=
  hs.rows _ (Keyed.mem_of_find? hu)

/-- What a step of a task leaves: valid tables, typed rows, and writes that still fit. -/
theorem changes (hs : s.Typed) {task : Task} (hmem : task ∈ s.tasks) (hfits : t.store.Fits)
    (h : Changes s task t) : t.schema.Valid ∧ RowsTyped t.schema t.store ∧
      (∀ name, Keyed.find? t.schema name = none → name ≠ declarationBucket →
        t.store.entries name = []) ∧
      ∀ w : Write, w.Typed s.schema → w.Typed t.schema := by
  cases h with
  | none store schema =>
    rw [store, schema]
    exact ⟨hs.schema, hs.rows, hs.unused, fun _ h => h⟩
  | create read admitted store schema =>
    rename_i table
    obtain ⟨hvalid, hnew⟩ := Catalog.admitted_spec admitted
    rw [store, schema]
    refine ⟨hs.schema.add hvalid, fun e he entry hentry => ?_, fun name hnone hname => ?_,
      fun w hw => hw.add hnew⟩
    · have hne : e.2.name ≠ declarationBucket := (hs.schema.add hvalid).tables e he |>.name_ne
      rw [Catalog.entries_persist _ _ hne] at hentry
      rcases Keyed.mem_of_mem_insert he with rfl | he
      · rw [hs.unused _ hnew hne] at hentry
        cases hentry
      · exact hs.rows e he entry hentry
    · rw [Catalog.entries_persist _ _ hname]
      refine hs.unused name ?_ hname
      rw [Catalog.add, Keyed.find?_insert] at hnone
      split at hnone
      next => cases hnone
      next => exact hnone
  | commit made store schema =>
    rename_i o w c
    rw [store] at hfits
    obtain ⟨u, hu, hrows, hother⟩ := Write.commit_spec hs.schema (hs.writes o w hmem)
      (fun u hu => hs.rows_find? hu) hfits made
    rw [store, schema]
    refine ⟨hs.schema, fun e he entry hentry => ?_, fun name hnone hname => ?_, fun _ h => h⟩
    · by_cases heq : u.name = e.2.name
      · have hfind := hs.schema.ordered.find?_iff.mpr he
        rw [hs.schema.names e he, ← heq, hu] at hfind
        cases hfind
        exact hrows entry hentry
      · rw [hother _ heq] at hentry
        exact hs.rows e he entry hentry
    · have hne : u.name ≠ name := by
        rintro rfl
        rw [hu] at hnone
        cases hnone
      rw [hother _ hne]
      exact hs.unused name hnone hname

/-- A step keeps the invariant, if what it stores can be counted. -/
theorem step (hs : s.Typed) (hfits : t.store.Fits) (h : Step s t) : t.Typed := by
  rcases h.spec with ⟨task, hmem, hchanges, htasks⟩ | ⟨hstore, hschema, htasks⟩
  · obtain ⟨hschema, hrows, hunused, hkeep⟩ := hs.changes hmem hfits hchanges
    refine ⟨hschema, hrows, hunused, fun o w hw => ?_, fun o text htext => ?_⟩
    · rcases htasks _ hw with hw | hw
      · exact hkeep w (hs.writes o w hw)
      · exact hkeep w (hs.write_of_continues hmem hw)
    · rcases htasks _ htext with htext | htext
      · exact hs.texts o text htext
      · cases htext
  · refine ⟨hschema ▸ hs.schema, hschema ▸ hstore ▸ hs.rows, hschema ▸ hstore ▸ hs.unused,
      fun o w hw => ?_, fun o text htext => ?_⟩
    · rcases htasks _ hw with hw | ⟨l, key, hw⟩
      · exact hschema ▸ hs.writes o w hw
      · cases hw
    · rcases htasks _ htext with htext | ⟨l, key, htext⟩
      · exact hs.texts o text htext
      · cases htext

theorem move (hs : s.Typed) (hfits : t.store.Fits) (h : Move (groundInsert · = true) s t) : t.Typed := by
  rcases h.spec with h | ⟨hstore, hschema, htasks⟩
  · exact hs.step hfits h
  · refine ⟨hschema ▸ hs.schema, hschema ▸ hstore ▸ hs.rows, hschema ▸ hstore ▸ hs.unused,
      fun o w hw => ?_, fun o text htext => ?_⟩
    · rcases htasks _ hw with hw | ⟨_, _, hw, _⟩ | ⟨_, hw⟩
      · exact hschema ▸ hs.writes o w hw
      · cases hw
      · cases hw
    · rcases htasks _ htext with htext | ⟨_, _, htext, hground⟩ | ⟨_, htext⟩
      · exact hs.texts o text htext
      · cases htext
        exact hground
      · cases htext

theorem of_run (h : Run (groundInsert · = true) (·.store.Fits) s) : s.Typed := by
  induction h with
  | start => exact start
  | move _ h hfits ih => exact ih.move hfits h

end Database.Typed

/-- Every stored entry of every table decodes to a record of exactly the row type of the table. -/
theorem Run.stored_rows {s : Database} (h : Run (groundInsert · = true) (·.store.Fits) s) :
    ∀ e ∈ s.schema, ∀ entry ∈ s.store.entries e.2.name,
      ∃ fields, Value.decode entry.2 = .ok (.record fields) ∧
        (Value.record fields).ty = e.2.rowType := by
  intro e he entry hentry
  obtain ⟨v, hv, hty⟩ := (Database.Typed.of_run h).rows e he entry hentry
  obtain ⟨fields, rfl, -⟩ := Value.record_of_ty hty
  exact ⟨fields, hv, hty⟩

/-- Whether no stored row is larger than a serial type can count. -/
def Store.fits (s : Store) : Bool := s.buckets.all fun b => b.2.all fun e => e.2.length < 2 ^ 62

theorem Store.fits_iff {s : Store} (h : s.fits = true) : s.Fits := by
  intro name e he
  unfold Store.entries at he
  cases hb : s.bucket? name with
  | none => rw [hb] at he; cases he
  | some b =>
    rw [hb] at he
    have hall := List.all_eq_true.mp h (name, b) (Keyed.mem_of_find? hb)
    exact of_decide_eq_true (List.all_eq_true.mp hall e he)

/-- A script that plays to a state that passes a test. -/
theorem Run.exists_of_play {texts : String → Bool} {script : List (String ⊕ Nat)} {test : Database → Bool}
    (h : (Database.play texts (·.store.fits) 30 script {}).any test = true) :
    ∃ s, Run (texts · = true) (·.store.Fits) s ∧ test s = true := by
  obtain ⟨s, hs, htest⟩ := (Option.any_eq_true _ _).mp h
  exact ⟨s, (Run.play .start hs).mono (fun _ h => h) fun _ h => Store.fits_iff h, htest⟩

/-- A stored entry with its table that passes a test. -/
def Database.hasEntry (test : Table → Bytes × Bytes → Bool) (s : Database) : Bool :=
  s.schema.any fun e => (s.store.entries e.2.name).any (test e.2)

theorem Database.exists_entry {test : Table → Bytes × Bytes → Bool} {s : Database}
    (h : s.hasEntry test = true) :
    ∃ e ∈ s.schema, ∃ entry ∈ s.store.entries e.2.name, test e.2 entry = true := by
  obtain ⟨e, he, hany⟩ := List.any_eq_true.mp h
  obtain ⟨entry, hentry, htest⟩ := List.any_eq_true.mp hany
  exact ⟨e, he, entry, hentry, htest⟩

/-- A row whose text is the result of a function is stored with that text. -/
theorem Run.stored_rows_text : ∃ s, Run (groundInsert · = true) (·.store.Fits) s ∧
    ∃ e ∈ s.schema, ∃ entry ∈ s.store.entries e.2.name, ∃ fields,
      Value.decode entry.2 = .ok (.record fields) ∧ (Value.record fields).ty = e.2.rowType := by
  have hplay : ((Database.play groundInsert (·.store.fits) 30
      [.inl "CREATE TABLE t (id int PRIMARY KEY, n string)", .inr 0,
        .inl "INSERT INTO t \x7bid: 1, n: do \x7b let f = fn(x: string): string => x; f(\"x\") \x7d\x7d",
        .inr 1, .inr 1] {}).any (Database.hasEntry fun _ _ => true)) = true := by
    decide +kernel
  obtain ⟨s, hrun, hentry⟩ := Run.exists_of_play hplay
  obtain ⟨e, he, entry, hentry, -⟩ := Database.exists_entry hentry
  exact ⟨s, hrun, e, he, entry, hentry, Run.stored_rows hrun e he entry hentry⟩

/-- With a type variable in an annotation a row is stored that is none of its table: the declared result
of the function is taken as a pattern, which the whole number matches. -/
theorem Run.exists_ill_typed_row : ∃ s, Run (fun _ => True) (·.store.Fits) s ∧
    ∃ e ∈ s.schema, ∃ entry ∈ s.store.entries e.2.name, ∃ v,
      Value.decode entry.2 = .ok v ∧ v.ty ≠ e.2.rowType := by
  have hplay : ((Database.play (fun _ => true) (·.store.fits) 30
      [.inl "CREATE TABLE t (id int PRIMARY KEY, n string)", .inr 0,
        .inl "INSERT INTO t \x7bid: 1, n: do \x7b let f = fn(x: \x27A): \x27A => 1; f(\"x\") \x7d\x7d",
        .inr 1, .inr 1] {}).any (Database.hasEntry fun t entry =>
          (Value.decode entry.2).toOption.any fun v => v.ty ≠ t.rowType)) = true := by
    decide +kernel
  obtain ⟨s, hrun, hentry⟩ := Run.exists_of_play hplay
  obtain ⟨e, he, entry, hentry, htest⟩ := Database.exists_entry hentry
  obtain ⟨v, hv, hne⟩ := (Option.any_eq_true _ _).mp htest
  refine ⟨s, hrun.mono (fun _ _ => trivial) fun _ h => h, e, he, entry, hentry, v, ?_,
    of_decide_eq_true hne⟩
  cases hd : Value.decode entry.2 with
  | ok u => rw [hd] at hv; cases hv; rfl
  | error f => rw [hd] at hv; cases hv

end LiveQuery
