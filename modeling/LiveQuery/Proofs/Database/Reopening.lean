import LiveQuery.Proofs.Database.Onward
import LiveQuery.Proofs.Grammar.Printing

/-! # Reopening a database

The tables of a database are held twice: in memory, and as the texts of their declarations in the store. `Grown`
are the databases that started without tables and have moved, attempted to make tables with a storage that may not
commit, or been opened again, in any way and any number of times.

In all of them the store holds the texts of exactly the tables in memory (`Catalog.Keeps`), and the texts can be
read (`TableDef.read_text`), so loading them gives the tables in memory (`Grown.load_schema`).
-/
namespace LiveQuery

/-! ## The catalog in the store -/

/-- The entry that a store holds for a table. -/
def Table.entry (t : Table) : Bytes × Bytes := (Text.utf8 t.name, Text.utf8 t.declaration.text)

/-- A table can be read from its entry. -/
structure Table.Kept (t : Table) : Prop where
  valid : t.Valid
  readable : t.declaration.Readable

theorem Table.Kept.ofEntry {t : Table} (h : t.Kept) : Catalog.ofEntry t.entry.1 t.entry.2 = .ok t := by
  obtain ⟨d, hd⟩ := h.valid
  have hdeclaration := (Table.ofDef_iff.mp hd).2.declaration
  simp only [Table.entry, Catalog.ofEntry, Text.ofUtf8?_utf8, TableDef.read_text h.readable]
  rw [hdeclaration]
  exact hd

namespace Catalog

/-- The store holds the entries of exactly the tables of a valid schema. -/
structure Keeps (store : Store) (schema : Schema) : Prop where
  valid : schema.Valid
  readable : ∀ e ∈ schema, e.2.declaration.Readable
  entries : ∀ e, e ∈ store.entries declarationBucket ↔ ∃ f ∈ schema, e = f.2.entry

namespace Keeps

variable {store : Store} {schema : Schema}

theorem kept (h : Keeps store schema) {f : String × Table} (hf : f ∈ schema) : f.2.Kept :=
  ⟨h.valid.tables f hf, h.readable f hf⟩

theorem empty : Keeps {} [] := ⟨⟨List.Pairwise.nil, by simp, by simp⟩, by simp, by simp⟩

theorem congr {store' : Store} (h : Keeps store schema)
    (heq : store'.entries declarationBucket = store.entries declarationBucket) : Keeps store' schema :=
  ⟨h.valid, h.readable, fun e => heq ▸ h.entries e⟩

theorem add (h : Keeps store schema) {d : TableDef} {t : Table} (hd : d.Readable)
    (hadmitted : admitted schema d = .ok t) : Keeps (persist store t) (Catalog.add schema t) := by
  obtain ⟨hvalid, hnew⟩ := admitted_spec hadmitted
  have hdeclaration := (Table.ofDef_iff.mp (admitted_iff.mp hadmitted).1).2.declaration
  have hfresh : Keyed.find? (store.entries declarationBucket) (Text.utf8 t.name) = none := by
    refine Keyed.find?_eq_none.mpr fun hmem => ?_
    obtain ⟨e, he, hkey⟩ := List.mem_map.mp hmem
    obtain ⟨f, hf, rfl⟩ := (h.entries e).mp he
    have hname : f.1 = t.name := (h.valid.names f hf).trans (Text.utf8_injective hkey)
    exact Keyed.find?_eq_none.mp hnew (List.mem_map.mpr ⟨f, hf, hname⟩)
  have hentries : (persist store t).entries declarationBucket =
      Keyed.insert (store.entries declarationBucket) t.entry.1 t.entry.2 := by
    rw [persist, Store.entries_touch, Store.entries_put_self, Store.entries_touch]
    rfl
  refine ⟨h.valid.add hvalid, fun e he => ?_, fun e => ?_⟩
  · rcases Keyed.mem_of_mem_insert he with rfl | he
    · exact hdeclaration ▸ hd
    · exact h.readable e he
  · rw [hentries]
    constructor
    · intro he
      rcases Keyed.mem_of_mem_insert he with rfl | he
      · exact ⟨(t.name, t), Keyed.mem_insert_self _ _ _, rfl⟩
      · obtain ⟨f, hf, rfl⟩ := (h.entries e).mp he
        exact ⟨f, Keyed.mem_insert_of_mem _ hnew hf, rfl⟩
    · rintro ⟨f, hf, rfl⟩
      rcases Keyed.mem_of_mem_insert hf with rfl | hf
      · exact Keyed.mem_insert_self _ _ _
      · exact Keyed.mem_insert_of_mem _ hfresh ((h.entries _).mpr ⟨f, hf, rfl⟩)

/-- Reading entries of the schema's tables gives tables of the schema, and loses none. -/
theorem ofEntries_eq (h : Keeps store schema) {b : Bucket} (hb : ∀ e ∈ b, ∃ f ∈ schema, e = f.2.entry) {before : Schema}
    (hbefore : Keyed.Ordered before) (hsub : before ⊆ schema) :
    ∃ after, ofEntries b before = .ok after ∧ Keyed.Ordered after ∧ after ⊆ schema ∧ before ⊆ after ∧
      ∀ f ∈ schema, f.2.entry ∈ b → f ∈ after := by
  induction b generalizing before with
  | nil => exact ⟨before, rfl, hbefore, hsub, fun _ h => h, by simp⟩
  | cons e b ih =>
    obtain ⟨⟨f, hf, rfl⟩, hrest⟩ := List.forall_mem_cons.mp hb
    have hname : f.1 = f.2.name := h.valid.names f hf
    have hmem : ∀ g ∈ Catalog.add before f.2, g = f ∨ g ∈ before := by
      intro g hg
      rw [Catalog.add, ← hname] at hg
      exact Keyed.mem_of_mem_insert hg
    obtain ⟨after, hread, hafter, hsub', hkeep, hall⟩ := ih hrest (hbefore.insert f.2.name f.2) fun g hg => by
      rcases hmem g hg with rfl | hg
      · exact hf
      · exact hsub hg
    refine ⟨after, ?_, hafter, hsub', fun g hg => hkeep ?_, fun g hg hentry => ?_⟩
    · rw [ofEntries, (h.kept hf).ofEntry]
      exact hread
    · -- a table that was read before stays, as a name has one table in the schema
      refine (hbefore.insert f.2.name f.2).find?_iff.mp ?_
      rw [Keyed.find?_insert, ← hname]
      split
      next heq =>
        have hfind := h.valid.ordered.find?_iff.mpr hf
        rw [heq, h.valid.ordered.find?_iff.mpr (hsub hg)] at hfind
        exact hfind.symm
      next => exact hbefore.find?_iff.mpr hg
    · rcases List.mem_cons.mp hentry with heq | hentry
      · have hsame := (h.kept hg).ofEntry
        rw [heq, (h.kept hf).ofEntry] at hsame
        have hgf : g = f := Prod.ext
          ((h.valid.names g hg).trans (Except.ok.inj hsame ▸ hname.symm)) (Except.ok.inj hsame).symm
        rw [hgf]
        exact hkeep (hname ▸ Keyed.mem_insert_self _ _ _)
      · exact hall g hg hentry

/-- Loading gives the schema. -/
theorem load_eq (h : Keeps store schema) : load store = .ok schema := by
  obtain ⟨after, hread, hafter, hsub, -, hall⟩ := h.ofEntries_eq (b := store.entries declarationBucket)
    (fun e he => (h.entries e).mp he) (show Keyed.Ordered [] from List.Pairwise.nil) (by simp)
  have hsup : schema ⊆ after := fun f hf => hall f hf ((h.entries _).mpr ⟨f, hf, rfl⟩)
  have hnodup : schema.Nodup := List.Nodup.of_map Prod.fst h.valid.ordered.nodup
  rw [load, hread, hafter.eq_of_subset h.valid.ordered hsub (hnodup.subperm hsup).length_le]

end Keeps

end Catalog

/-! ## The catalog of a database -/

/-- The table that a write is to. -/
def Write.table : Write → String
  | .insert table .. | .update table .. | .delete table .. => table

theorem Write.entries_of_commit {store : Store} {w : Write} {c : Committed} (h : w.commit store = .ok c)
    {name : String} (hne : w.table ≠ name) : c.store.entries name = store.entries name := by
  cases w with
  | insert table key row =>
    simp only [Write.commit] at h
    split at h
    next => cases h
    next => cases h; exact Store.entries_put_of_ne _ _ _ hne
  | update table key assignments =>
    simp only [Write.commit] at h
    split at h
    next => cases h; rfl
    next =>
      obtain ⟨new, -, h⟩ := ok_of_bind h
      cases h
      exact Store.entries_put_of_ne _ _ _ hne
  | delete table key =>
    simp only [Write.commit] at h
    split at h <;> cases h <;> exact (Store.entries_delete _ _ _ _).trans (if_neg hne)

theorem name_ne_of_findTable {schema : Schema} (hschema : schema.Valid) {name : String} {t : Table}
    (h : findTable schema name = .ok t) : t.name ≠ declarationBucket :=
  (hschema.find? (findTable_ok h)).1.name_ne

namespace Database

variable {s t : Database}

/-- A write that was prepared is to a table, so not to the bucket of declarations. -/
theorem table_ne_of_continues (hschema : s.schema.Valid) {task : Task} {o : Origin} {w : Write}
    (h : Continues s task (.write o w)) : w.table ≠ declarationBucket := by
  cases h with
  | insert fuel read prepared =>
    unfold prepareInsert at prepared
    split at prepared
    next => cases prepared
    next u hu =>
      split at prepared
      next => cases prepared
      next =>
        split at prepared
        next => cases prepared
        next =>
          dsimp only at prepared
          split at prepared
          next => cases prepared
          next => cases prepared
          next =>
            obtain ⟨⟨key, bytes⟩, -, hw⟩ := ok_of_bind (Option.some.inj prepared)
            cases hw
            exact name_ne_of_findTable hschema hu
  | update read prepared =>
    obtain ⟨u, hu, h⟩ := ok_of_bind prepared
    obtain ⟨key, -, h⟩ := ok_of_bind h
    obtain ⟨⟨⟩, -, h⟩ := ok_of_bind h
    cases h
    exact name_ne_of_findTable hschema hu
  | delete read prepared =>
    obtain ⟨u, hu, h⟩ := ok_of_bind prepared
    obtain ⟨key, -, h⟩ := ok_of_bind h
    cases h
    exact name_ne_of_findTable hschema hu

/-- The store holds the tables in memory, and no write under way is to the bucket that holds them. -/
structure KeepsCatalog (s : Database) : Prop where
  catalog : Catalog.Keeps s.store s.schema
  writes : ∀ o w, .write o w ∈ s.tasks → w.table ≠ declarationBucket

namespace KeepsCatalog

theorem changes {task : Task} (hs : s.KeepsCatalog) (hmem : task ∈ s.tasks) (h : Changes s task t) :
    Catalog.Keeps t.store t.schema := by
  cases h with
  | none store schema => exact store ▸ schema ▸ hs.catalog
  | create read admitted store schema =>
    exact store ▸ schema ▸ hs.catalog.add (TableDef.readable_of_read read) admitted
  | @commit o w c _ made store schema =>
    rw [store, schema]
    exact hs.catalog.congr (Write.entries_of_commit made (hs.writes o w hmem))

/-- A step of a task, whatever it does to tables and rows. -/
theorem spec {task : Task} (hs : s.KeepsCatalog) (hmem : task ∈ s.tasks) (h : Changes s task t)
    (htasks : ∀ task' ∈ t.tasks, task' ∈ s.tasks ∨ Continues s task task') : t.KeepsCatalog := by
  refine ⟨hs.changes hmem h, fun o w hw => ?_⟩
  rcases htasks _ hw with hw | hw
  · exact hs.writes o w hw
  · exact table_ne_of_continues hs.catalog.valid hw

theorem step (hs : s.KeepsCatalog) (h : Step s t) : t.KeepsCatalog := by
  rcases h.spec with ⟨task, hmem, hchanges, htasks⟩ | ⟨hstore, hschema, htasks⟩
  · exact hs.spec hmem hchanges htasks
  · refine ⟨hstore ▸ hschema ▸ hs.catalog, fun o w hw => ?_⟩
    rcases htasks _ hw with hw | ⟨l, key, hw⟩
    · exact hs.writes o w hw
    · cases hw

theorem move {texts : String → Prop} (hs : s.KeepsCatalog) (h : Move texts s t) : t.KeepsCatalog := by
  rcases h.spec with h | ⟨hstore, hschema, htasks⟩
  · exact hs.step h
  · refine ⟨hstore ▸ hschema ▸ hs.catalog, fun o w hw => ?_⟩
    rcases htasks _ hw with hw | ⟨_, _, hw, -⟩ | ⟨_, hw⟩
    · exact hs.writes o w hw
    · cases hw
    · cases hw

end KeepsCatalog

theorem KeepsCatalog.attempt {i : Nat} {committing : Except String Unit} (hs : s.KeepsCatalog)
    (h : s.attempt i committing = some t) : t.KeepsCatalog := by
  obtain ⟨task, hmem, hchanges, htasks⟩ := attempt_spec h
  exact hs.spec hmem hchanges htasks

end Database

/-- The databases that started without tables and have moved, attempted to make a table with a storage that may not
commit, or been opened again from what they had stored. -/
inductive Grown : Database → Prop
  | start : Grown {}
  | move {s t : Database} (before : Grown s) (h : Move (fun _ => True) s t) : Grown t
  | attempt {s t : Database} {i : Nat} {committing : Except String Unit} (before : Grown s)
      (h : s.attempt i committing = some t) : Grown t
  | reopen {s t : Database} (before : Grown s) (h : Database.ofStore s.store = .ok t) : Grown t

namespace Grown

variable {s t : Database}

theorem keepsCatalog (h : Grown s) : s.KeepsCatalog := by
  induction h with
  | start => exact ⟨Catalog.Keeps.empty, by simp⟩
  | move _ h ih => exact ih.move h
  | attempt _ h ih => exact ih.attempt h
  | reopen _ h ih =>
    rw [Database.ofStore, ih.catalog.load_eq] at h
    cases h
    exact ⟨ih.catalog, by simp⟩

/-- Opening the store again gives the tables that are in memory: their names, columns, keys and references, and the
texts that they were made with. -/
theorem load_schema (h : Grown s) : Catalog.load s.store = .ok s.schema := h.keepsCatalog.catalog.load_eq

/-- A database that was opened again has the same tables and rows, and nothing is under way. -/
theorem reopened (hs : Grown s) (h : Database.ofStore s.store = .ok t) :
    t = { store := s.store, schema := s.schema } := by
  rw [Database.ofStore, hs.load_schema] at h
  cases h
  rfl

theorem onward {texts : String → Prop} {P : Database → Prop} (hs : Grown s) (h : Onward texts P s t) : Grown t := by
  induction h with
  | start => exact hs
  | move _ h _ ih => exact ih.move (h.mono fun _ _ => trivial)

namespace Sample

/-- The declaration of a table with columns of every type, by other names, and with constraints in another order and
given twice. -/
def comments : String :=
  "create Table comments(id int REFERENCES posts primary key,up INTEGER REFERENCES posts REFERENCES comments," ++
    "ok Boolean, s TEXT);"

/-- A table is made; one of the same name is refused; another one waits to be made. -/
def before : List Cue :=
  [.call "CREATE TABLE posts (id int PRIMARY KEY)", .task 0, .task 0,
    .call "CREATE TABLE posts (key string PRIMARY KEY)", .task 0, .task 0, .call comments]

/-- After the storage has refused it, it is made. -/
def after : List Cue := [.task 0, .call comments, .task 0, .task 0]

def play : Option Database :=
  (Database.follow (fun _ => true) 30 before {}).bind fun s =>
    (s.attempt 0 (.error "Storage error")).bind fun s => s.follow (fun _ => true) 30 after

theorem of_play {s : Database} (h : play = some s) : Grown s := by
  obtain ⟨u, hu, h⟩ := Option.bind_eq_some_iff.mp h
  obtain ⟨v, hv, h⟩ := Option.bind_eq_some_iff.mp h
  have hgrown : Grown u := Grown.start.onward (.of_follow (.start rfl) hu)
  exact (hgrown.attempt hv).onward (.of_follow (.start rfl) h)

end Sample

open Grown.Sample in
theorem load_schema_comments : ∃ s, Grown s ∧ Catalog.load s.store = .ok s.schema ∧
    s.schema.map (fun e => e.2.declaration.text) =
      ["CREATE TABLE comments (id int PRIMARY KEY REFERENCES posts, up int REFERENCES comments, ok bool, s string)",
        "CREATE TABLE posts (id int PRIMARY KEY)"] := by
  have hplay : play.any (fun s => decide (s.schema.map (fun e => e.2.declaration.text) =
      ["CREATE TABLE comments (id int PRIMARY KEY REFERENCES posts, up int REFERENCES comments, ok bool, s string)",
        "CREATE TABLE posts (id int PRIMARY KEY)"])) = true := by
    decide +kernel
  obtain ⟨s, hs, htexts⟩ := (Option.any_eq_true _ _).mp hplay
  exact ⟨s, of_play hs, load_schema (of_play hs), of_decide_eq_true htexts⟩

end Grown

end LiveQuery
