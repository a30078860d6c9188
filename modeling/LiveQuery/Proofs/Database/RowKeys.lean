import LiveQuery.Proofs.Database.StoredRows
import LiveQuery.Proofs.Machine.Tidy
import LiveQuery.Proofs.Query.Rows

/-! # Rows are stored under their keys

In every run each row is stored under the bytes of its own primary key (`Run.rowsKeyed`), whatever its other columns
hold, so the rows of a table have different keys (`RowsKeyed.nodup_keys`). A checked insertion names the key of its
row, and an update does not set it.
-/
namespace LiveQuery

/-- The stored rows have their tables' types, and none is larger than a serial type can count. -/
structure Database.WellTyped (s : Database) : Prop where
  rows : RowsTyped s.schema s.store
  fits : s.store.Fits

/-- Each row is stored under its primary key. -/
def RowsKeyed (schema : Schema) (store : Store) : Prop :=
  ∀ e ∈ schema, ∀ entry ∈ store.entries e.2.name, ∀ r, Row.ofBytes? entry.2 = some r →
    entry.1 = (r.key e.2).keyBytes

/-- The bytes hold a value with a primary key, if they hold one at all. -/
def Table.HasKey (t : Table) (key : Literal) (bytes : Bytes) : Prop :=
  ∀ v, Value.decode bytes = .ok v → v.member t.primaryKey.name = .ok key.value

/-- What is stored has the primary key that it is stored under. -/
def KeysStored (schema : Schema) (store : Store) : Prop :=
  ∀ e ∈ schema, ∀ entry ∈ store.entries e.2.name, ∃ key : Literal, entry.1 = key.keyBytes ∧ e.2.HasKey key entry.2

/-- A checked write leaves rows under their primary keys. -/
def Write.KeepsKeys (schema : Schema) : Write → Prop
  | .insert table key row => ∃ t, Keyed.find? schema table = some t ∧ (row.length < 2 ^ 62 → t.HasKey key row)
  | .update table _ assignments => ∃ t, Keyed.find? schema table = some t ∧
    ∀ a ∈ assignments, a.1 ≠ t.primaryKey.name
  | .delete table _ => ∃ t, Keyed.find? schema table = some t

/-- What every run keeps. -/
structure Database.KeepsKeys (s : Database) : Prop where
  schema : s.schema.Valid
  rows : KeysStored s.schema s.store
  unused : ∀ name, Keyed.find? s.schema name = none → name ≠ declarationBucket →
    s.store.entries name = []
  writes : ∀ o w, Task.write o w ∈ s.tasks → w.KeepsKeys s.schema

/-! ## Rows and their fields -/

namespace Row

theorem value_of_ofValue? {v : Value} {l : Literal} (h : Literal.ofValue? v = some l) : l.value = v := by
  cases v <;> cases h <;> rfl

theorem mapValues_of_ofFields? {fields : List (String × Value)} {r : Row} (h : ofFields? fields = some r) :
    Keyed.mapValues Literal.value r = fields := by
  induction fields generalizing r with
  | nil => cases h; rfl
  | cons f fields ih =>
    obtain ⟨l, hl, h⟩ := Option.bind_eq_some_iff.mp h
    obtain ⟨more, hmore, h⟩ := Option.bind_eq_some_iff.mp h
    cases h
    rw [Keyed.mapValues, List.map_cons, value_of_ofValue? hl]
    exact congrArg (f :: ·) (ih hmore)

theorem decode_of_ofBytes? {b : Bytes} {r : Row} (h : ofBytes? b = some r) : Value.decode b = .ok r.value := by
  unfold ofBytes? at h
  split at h
  next fields hfields => rw [hfields, value, mapValues_of_ofFields? h]
  next => cases h

/-- A row has the primary key of its bytes. -/
theorem key_of_hasKey {t : Table} {key : Literal} {b : Bytes} {r : Row} (h : t.HasKey key b)
    (hr : ofBytes? b = some r) : r.key t = key := by
  have hmember := h r.value (decode_of_ofBytes? hr)
  rw [value, Value.member, find?_value] at hmember
  rw [Row.key, get]
  cases hfound : Keyed.find? r t.primaryKey.name with
  | none => rw [hfound] at hmember; cases hmember
  | some l =>
    rw [hfound] at hmember
    have hvalue : l.value = key.value := Except.ok.inj hmember
    have hliteral : some l = some key := by rw [← Literal.ofValue?_value l, hvalue, Literal.ofValue?_value]
    exact Option.some.inj hliteral

end Row

theorem find?_assign {fields : List (String × Value)} {assignments : List (String × Literal)} {column : String}
    (h : ∀ a ∈ assignments, a.1 ≠ column) : Keyed.find? (assign fields assignments) column =
      Keyed.find? fields column := by
  induction assignments generalizing fields with
  | nil => rfl
  | cons a assignments ih =>
    obtain ⟨ha, hrest⟩ := List.forall_mem_cons.mp h
    rw [assign, List.foldl_cons]
    exact (ih hrest).trans (Keyed.find?_insert_of_ne _ _ ha)

/-! ## Writes -/

/-- A checked insertion names the key of its row. -/
theorem prepareInsert_keepsKeys {fuel : Nat} {schema : Schema} {store : Store} {table : String} {row : Expr}
    {w : Write} (hschema : schema.Valid) (hwf : row.WellFormed)
    (h : prepareInsert fuel schema store table row = some (.ok w)) : w.KeepsKeys schema := by
  unfold prepareInsert at h
  split at h
  next => cases h
  next t ht =>
    have hfind := findTable_ok ht
    split at h
    next => cases h
    next actual _ =>
      split at h
      next => cases h
      next bs _ =>
        dsimp only at h
        split at h
        next => cases h
        next => cases h
        next v m hrun =>
          obtain ⟨⟨key, bytes⟩, hentry, hw⟩ := ok_of_bind (Option.some.inj h)
          cases hw
          have htidy : v.Tidy := Eval.tidy_eval hwf hrun
          obtain ⟨hvalid, hname⟩ := hschema.find? hfind
          refine ⟨t, by rw [hname]; exact hfind, fun hlen u hu => ?_⟩
          obtain ⟨k, hk, hentry'⟩ := ok_of_bind hentry
          split at hentry'
          next => cases hentry'
          next literal hliteral =>
            obtain ⟨b, hb, hentry'⟩ := ok_of_bind hentry'
            cases hentry'
            have hdecode := decode_of_rowEntry (htidy.isData_of_encode (ok_of_mapError hb)) hentry hlen
            cases hdecode.symm.trans hu
            rw [ok_of_mapError hk, Row.value_of_ofValue? hliteral]

theorem keepsKeys_of_continues {s : Database} {task : Task} {o : Origin} {w : Write} (hschema : s.schema.Valid)
    (h : Database.Continues s task (.write o w)) : w.KeepsKeys s.schema := by
  cases h with
  | @insert _ text table row _ fuel read prepared =>
    have hwf : row.WellFormed := Statement.wellFormed_of_read read
    exact prepareInsert_keepsKeys hschema hwf prepared
  | update read prepared =>
    obtain ⟨t, ht, prepared⟩ := ok_of_bind prepared
    obtain ⟨key, -, prepared⟩ := ok_of_bind prepared
    obtain ⟨⟨⟩, hcheck, prepared⟩ := ok_of_bind prepared
    cases prepared
    have hfind := findTable_ok ht
    refine ⟨t, by rw [(hschema.find? hfind).2]; exact hfind, fun a ha heq => ?_⟩
    have hok := forM_ok hcheck a ha
    unfold checkAssignment at hok
    split at hok
    next => cases hok
    next c hc =>
      obtain ⟨-, hname⟩ := Table.mem_of_column? hc
      rw [if_pos (hname.trans heq)] at hok
      cases hok
  | delete read prepared =>
    obtain ⟨t, ht, prepared⟩ := ok_of_bind prepared
    obtain ⟨key, -, prepared⟩ := ok_of_bind prepared
    cases prepared
    have hfind := findTable_ok ht
    exact ⟨t, by rw [(hschema.find? hfind).2]; exact hfind⟩

theorem Write.KeepsKeys.add {schema : Schema} {t : Table} {w : Write} (hnew : Keyed.find? schema t.name = none)
    (h : w.KeepsKeys schema) : w.KeepsKeys (Catalog.add schema t) := by
  cases w with
  | insert table key row =>
    obtain ⟨u, hu, hrow⟩ := h
    exact ⟨u, Catalog.find?_add hnew hu, hrow⟩
  | update table key assignments =>
    obtain ⟨u, hu, ha⟩ := h
    exact ⟨u, Catalog.find?_add hnew hu, ha⟩
  | delete table key =>
    obtain ⟨u, hu⟩ := h
    exact ⟨u, Catalog.find?_add hnew hu⟩

/-- A row that was changed keeps its key. -/
theorem hasKey_of_changedRow {t : Table} {key key' : Literal} {assignments : List (String × Literal)} {old new : Bytes}
    (hold : t.HasKey key' old) (ha : ∀ a ∈ assignments, a.1 ≠ t.primaryKey.name)
    (h : changedRow t.name key assignments old = .ok new) (hlen : new.length < 2 ^ 62) : t.HasKey key' new := by
  intro v hv
  obtain ⟨u, hu, h⟩ := ok_of_bind h
  have hdecode := ok_of_mapError hu
  split at h
  next fields =>
    have hnew := Value.decode_encode ((Value.isData_of_decode hdecode).assign _) (ok_of_mapError h) hlen
    cases hnew.symm.trans hv
    have hmember := hold _ hdecode
    rw [Value.member] at hmember ⊢
    rw [find?_assign ha]
    cases hfound : Keyed.find? fields t.primaryKey.name with
    | none => rw [hfound] at hmember; cases hmember
    | some l => rw [hfound] at hmember; exact hmember
  next => cases h

/-- A checked write changes the bucket of its own table only, in which rows stay under their keys. -/
theorem Write.commit_keepsKeys {schema : Schema} {store : Store} {w : Write} {c : Committed}
    (hschema : schema.Valid) (hw : w.KeepsKeys schema)
    (hkeyed : ∀ t, Keyed.find? schema t.name = some t → ∀ e ∈ store.entries t.name, ∃ key : Literal,
      e.1 = key.keyBytes ∧ t.HasKey key e.2)
    (hfits : c.store.Fits) (h : w.commit store = .ok c) :
    ∃ t, Keyed.find? schema t.name = some t ∧
      (∀ e ∈ c.store.entries t.name, ∃ key : Literal, e.1 = key.keyBytes ∧ t.HasKey key e.2) ∧
      ∀ other, t.name ≠ other → c.store.entries other = store.entries other := by
  cases w with
  | insert table key row =>
    obtain ⟨t, ht, hrow⟩ := hw
    obtain rfl : t.name = table := (hschema.find? ht).2
    simp only [Write.commit] at h
    split at h
    next => cases h
    next =>
      cases h
      refine ⟨t, ht, fun e he => ?_, fun other hne => Store.entries_put_of_ne _ _ _ hne⟩
      have hsize := hfits t.name e he
      rw [Store.entries_put_self] at he
      rcases Keyed.mem_of_mem_insert he with rfl | he
      · exact ⟨key, rfl, hrow hsize⟩
      · exact hkeyed t ht e he
  | update table key assignments =>
    obtain ⟨t, ht, ha⟩ := hw
    obtain rfl : t.name = table := (hschema.find? ht).2
    simp only [Write.commit] at h
    split at h
    next => cases h; exact ⟨t, ht, hkeyed t ht, fun _ _ => rfl⟩
    next old hold =>
      obtain ⟨new, hnew, h⟩ := ok_of_bind h
      cases h
      refine ⟨t, ht, fun e he => ?_, fun other hne => Store.entries_put_of_ne _ _ _ hne⟩
      have hsize := hfits t.name e he
      rw [Store.entries_put_self] at he
      rcases Keyed.mem_of_mem_insert he with rfl | he
      · obtain ⟨key', hkey, hhas⟩ := hkeyed t ht _ (Keyed.mem_of_find? hold)
        exact ⟨key', hkey, hasKey_of_changedRow hhas ha hnew hsize⟩
      · exact hkeyed t ht e he
  | delete table key =>
    obtain ⟨t, ht⟩ := hw
    obtain rfl : t.name = table := (hschema.find? ht).2
    have hstore : c.store = store.delete t.name key.keyBytes := by
      simp only [Write.commit] at h
      split at h <;> cases h <;> rfl
    refine ⟨t, ht, fun e he => ?_, fun other hne => by rw [hstore, Store.entries_delete, if_neg hne]⟩
    rw [hstore, Store.entries_delete, if_pos rfl] at he
    exact hkeyed t ht e (Keyed.mem_of_mem_erase he)

/-! ## The invariant -/

namespace Database.KeepsKeys

variable {s t : Database}

theorem start : Database.KeepsKeys {} where
  schema := ⟨List.Pairwise.nil, by simp, by simp⟩
  rows := by simp [KeysStored]
  unused _ _ _ := rfl
  writes := by simp

/-- What a step of a task leaves. -/
theorem changes (hs : s.KeepsKeys) {task : Task} (hmem : task ∈ s.tasks) (hfits : t.store.Fits)
    (h : Changes s task t) : t.schema.Valid ∧ KeysStored t.schema t.store ∧
      (∀ name, Keyed.find? t.schema name = none → name ≠ declarationBucket → t.store.entries name = []) ∧
      ∀ w : Write, w.KeepsKeys s.schema → w.KeepsKeys t.schema := by
  cases h with
  | none store schema =>
    rw [store, schema]
    exact ⟨hs.schema, hs.rows, hs.unused, fun _ h => h⟩
  | create read admitted store schema =>
    rename_i table
    obtain ⟨hvalid, hnew⟩ := Catalog.admitted_spec admitted
    rw [store, schema]
    refine ⟨hs.schema.add hvalid, fun e he entry hentry => ?_, fun name hnone hname => ?_, fun w hw => hw.add hnew⟩
    · have hne : e.2.name ≠ declarationBucket := (hs.schema.add hvalid).tables e he |>.name_ne
      rw [Catalog.entries_persist _ _ hne] at hentry
      rcases Keyed.mem_of_mem_insert he with rfl | he
      · rw [hs.unused _ hnew hne] at hentry
        cases hentry
      · exact hs.rows e he entry hentry
    · rw [Catalog.entries_persist _ _ hname]
      refine hs.unused name ?_ hname
      rw [Catalog.add, Keyed.find?_insert] at hnone
      split at hnone
      next => cases hnone
      next => exact hnone
  | commit made store schema =>
    rename_i o w c
    rw [store] at hfits
    obtain ⟨u, hu, hrows, hother⟩ := Write.commit_keepsKeys hs.schema (hs.writes o w hmem)
      (fun u hu => hs.rows _ (Keyed.mem_of_find? hu)) hfits made
    rw [store, schema]
    refine ⟨hs.schema, fun e he entry hentry => ?_, fun name hnone hname => ?_, fun _ h => h⟩
    · by_cases heq : u.name = e.2.name
      · have hfind := hs.schema.ordered.find?_iff.mpr he
        rw [hs.schema.names e he, ← heq, hu] at hfind
        cases hfind
        exact hrows entry hentry
      · rw [hother _ heq] at hentry
        exact hs.rows e he entry hentry
    · have hne : u.name ≠ name := by
        rintro rfl
        rw [hu] at hnone
        cases hnone
      rw [hother _ hne]
      exact hs.unused name hnone hname

/-- A step of a task, whatever it does to tables and rows. -/
theorem spec {task : Task} (hs : s.KeepsKeys) (hmem : task ∈ s.tasks) (hfits : t.store.Fits) (h : Changes s task t)
    (htasks : ∀ task' ∈ t.tasks, task' ∈ s.tasks ∨ Continues s task task') : t.KeepsKeys := by
  obtain ⟨hschema, hrows, hunused, hkeep⟩ := hs.changes hmem hfits h
  refine ⟨hschema, hrows, hunused, fun o w hw => ?_⟩
  rcases htasks _ hw with hw | hw
  · exact hkeep w (hs.writes o w hw)
  · exact hkeep w (keepsKeys_of_continues hs.schema hw)

theorem step (hs : s.KeepsKeys) (hfits : t.store.Fits) (h : Step s t) : t.KeepsKeys := by
  rcases h.spec with ⟨task, hmem, hchanges, htasks⟩ | ⟨hstore, hschema, htasks⟩
  · exact hs.spec hmem hfits hchanges htasks
  · refine ⟨hschema ▸ hs.schema, hschema ▸ hstore ▸ hs.rows, hschema ▸ hstore ▸ hs.unused, fun o w hw => ?_⟩
    rcases htasks _ hw with hw | ⟨l, key, hw⟩
    · exact hschema ▸ hs.writes o w hw
    · cases hw

theorem move {texts : String → Prop} (hs : s.KeepsKeys) (hfits : t.store.Fits) (h : Move texts s t) :
    t.KeepsKeys := by
  rcases h.spec with h | ⟨hstore, hschema, htasks⟩
  · exact hs.step hfits h
  · refine ⟨hschema ▸ hs.schema, hschema ▸ hstore ▸ hs.rows, hschema ▸ hstore ▸ hs.unused, fun o w hw => ?_⟩
    rcases htasks _ hw with hw | ⟨_, _, hw, _⟩ | ⟨_, hw⟩
    · exact hschema ▸ hs.writes o w hw
    · cases hw
    · cases hw

end Database.KeepsKeys

theorem Database.WellTyped.start : Database.WellTyped {} :=
  ⟨by simp [RowsTyped], fun name e he => absurd he List.not_mem_nil⟩

theorem Run.wellTyped {texts : String → Prop} {s : Database} (h : Run texts Database.WellTyped s) : s.WellTyped := by
  cases h with
  | start => exact Database.WellTyped.start
  | move _ _ test => exact test

/-- A run that fits and inserts by expressions without type variables is one over well-typed rows. -/
theorem Database.WellTyped.of_run {s : Database} (h : Run (groundInsert · = true) (·.store.Fits) s) : s.WellTyped := by
  refine ⟨(Database.Typed.of_run h).rows, ?_⟩
  cases h with
  | start => exact Database.WellTyped.start.fits
  | move _ _ fits => exact fits

theorem Run.keepsKeys {texts : String → Prop} {s : Database} (h : Run texts (·.store.Fits) s) : s.KeepsKeys := by
  induction h with
  | start => exact Database.KeepsKeys.start
  | move _ h fits ih => exact ih.move fits h

theorem Run.fitting {texts : String → Prop} {s : Database} (h : Run texts Database.WellTyped s) :
    Run texts (·.store.Fits) s :=
  h.mono (fun _ h => h) fun _ h => h.fits

/-- In every run each row is stored under its primary key. -/
theorem Run.rowsKeyed {texts : String → Prop} {s : Database} (h : Run texts (·.store.Fits) s) :
    RowsKeyed s.schema s.store := by
  intro e he entry hentry r hr
  obtain ⟨key, hkey, hhas⟩ := h.keepsKeys.rows e he entry hentry
  rw [hkey, Row.key_of_hasKey hhas hr]

/-! ## Rows by their keys -/

namespace RowsKeyed

variable {schema : Schema} {store : Store} {t : Table}

/-- A row of a table is what is stored under its key. -/
theorem get?_of_mem (h : RowsKeyed schema store) (hstore : store.Ordered)
    (ht : Keyed.find? schema t.name = some t) {r : Row} (hr : r ∈ store.rows t.name) :
    ∃ bytes, store.get? t.name (r.key t).keyBytes = some bytes ∧ Row.ofBytes? bytes = some r := by
  obtain ⟨e, he, hrow⟩ := List.mem_filterMap.mp hr
  have hkey := h _ (Keyed.mem_of_find? ht) e he r hrow
  refine ⟨e.2, ?_, hrow⟩
  rw [Store.get?, ← hkey]
  exact (hstore.entries t.name).find?_iff.mpr he

/-- The rows of a table have different keys. -/
theorem nodup_keys (h : RowsKeyed schema store) (hstore : store.Ordered) (ht : Keyed.find? schema t.name = some t) :
    ((store.rows t.name).map (·.key t)).Nodup := by
  have hkeyed := h _ (Keyed.mem_of_find? ht)
  have hordered := hstore.entries t.name
  dsimp only at hkeyed
  rw [Store.rows]
  generalize store.entries t.name = entries at hkeyed hordered
  induction entries with
  | nil => exact List.nodup_nil
  | cons e entries ih =>
    obtain ⟨he, hrest⟩ := List.forall_mem_cons.mp hkeyed
    obtain ⟨hlt, hordered⟩ := List.pairwise_cons.mp hordered
    rw [List.filterMap_cons]
    cases hrow : Row.ofBytes? e.2 with
    | none => exact ih hrest hordered
    | some r =>
      refine List.nodup_cons.mpr ⟨fun hmem => ?_, ih hrest hordered⟩
      obtain ⟨r', hr', heq⟩ := List.mem_map.mp hmem
      obtain ⟨e', he', hrow'⟩ := List.mem_filterMap.mp hr'
      have hsame : e.1 = e'.1 := by rw [he r hrow, hrest e' he' r' hrow', heq]
      exact absurd hsame (ne_of_irrefl (hlt e' he'))

end RowsKeyed

end LiveQuery
