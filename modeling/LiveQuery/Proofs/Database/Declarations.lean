import LiveQuery.Proofs.Database.References

/-! # What declarations keep

A catalog is sound if the declaration of each of its tables is among all of them (`TableDef.Sound`): its columns have
different names and one of them is the primary key, it is not named after the bucket of declarations, and what its
columns refer to is declared, with a primary key of their type. The checks of a declaration, of which a part is made on
its own and a part against the tables that are there, find out just that (`Schema.Valid.exists_admitted_iff`).

So in every database that has grown from an empty one the catalog is sound, and an attempt to make a table is accepted
if and only if it leaves it so, the name is new and the storage keeps the table; otherwise nothing is changed
(`Grown.catalog_sound`).
-/
namespace LiveQuery

/-! ## Sound declarations -/

/-- The declaration keeps what each one does among the declarations of a catalog. -/
structure TableDef.Sound (tables : List TableDef) (d : TableDef) : Prop where
  unreserved : d.name ≠ declarationBucket
  columns : (d.columns.map ColumnDef.name).Nodup
  primaryKey : ∃ k, d.columns.filter ColumnDef.primaryKey = [k]
  references : ∀ c ∈ d.columns, ∀ target, c.references = some target →
    ∃ u ∈ tables, u.name = target ∧ ∃ k ∈ u.columns, k.primaryKey = true ∧ k.type = c.type

/-- The declarations of the tables. -/
def Schema.declarations (schema : Schema) : List TableDef := schema.map fun e => e.2.declaration

namespace TableDef

variable {d : TableDef} {tables : List TableDef}

theorem Sound.mono {more : List TableDef} (h : d.Sound tables) (hsub : tables ⊆ more) : d.Sound more where
  unreserved := h.unreserved
  columns := h.columns
  primaryKey := h.primaryKey
  references c hc target htarget := by
    obtain ⟨u, hu, hkey⟩ := h.references c hc target htarget
    exact ⟨u, hsub hu, hkey⟩

/-- The primary key of a table is the column that was declared as one. -/
theorem Declares.keyType_iff {t : Table} (h : d.Declares t) (type : ColumnType) :
    t.primaryKey.type = type ↔ ∃ k ∈ d.columns, k.primaryKey = true ∧ k.type = type := by
  obtain ⟨k, hk, hkey⟩ := List.map_eq_singleton_iff.mp h.primaryKey
  have hmem : ∀ c, c ∈ d.columns ∧ c.primaryKey = true ↔ c = k := by
    intro c
    rw [← List.mem_filter, hk, List.mem_singleton]
  constructor
  · intro htype
    obtain ⟨hmem, hprimary⟩ := (hmem k).mpr rfl
    exact ⟨k, hmem, hprimary, by rw [← htype, ← hkey]; rfl⟩
  · rintro ⟨c, hc, hprimary, rfl⟩
    rw [(hmem c).mp ⟨hc, hprimary⟩, ← hkey]
    rfl

/-- A table is declared if there is one primary key among the columns. -/
theorem exists_declares (h : ∃ k, d.columns.filter ColumnDef.primaryKey = [k]) : ∃ t, d.Declares t := by
  obtain ⟨k, hk⟩ := h
  exact ⟨⟨d.name, d.columns.map ColumnDef.column, k.column, d⟩, rfl, rfl, rfl, by rw [hk]; rfl⟩

end TableDef

/-! ## What the checks find out -/

namespace Schema.Valid

variable {schema : Schema}

theorem declares (h : schema.Valid) {e : String × Table} (he : e ∈ schema) : e.2.declaration.Declares e.2 := by
  obtain ⟨d, hd⟩ := h.tables e he
  obtain ⟨-, hdeclares⟩ := Table.ofDef_iff.mp hd
  exact hdeclares.declaration ▸ hdeclares

theorem names_declarations (h : schema.Valid) : schema.declarations.map TableDef.name = Keyed.keys schema := by
  rw [declarations, List.map_map, Keyed.keys]
  exact List.map_congr_left fun e he => ((h.names e he).trans (h.declares he).name).symm

/-- What a column may refer to: a declaration of that name with a primary key of the column's type, among those that are
there and the new one. -/
theorem targetType?_iff (h : schema.Valid) {d : TableDef} {t : Table} (ht : d.Declares t)
    (hnew : d.name ∉ schema.declarations.map TableDef.name) (target : String) (type : ColumnType) :
    Catalog.targetType? schema t target = some type ↔
      ∃ u ∈ d :: schema.declarations, u.name = target ∧ ∃ k ∈ u.columns, k.primaryKey = true ∧ k.type = type := by
  rw [Catalog.targetType?, ht.name]
  split
  next hself =>
    rw [Option.some.injEq, ht.keyType_iff]
    constructor
    · exact fun hkey => ⟨d, List.mem_cons_self, hself.symm, hkey⟩
    · rintro ⟨u, hu, hname, hkey⟩
      rcases List.mem_cons.mp hu with rfl | hu
      · exact hkey
      · exact absurd (List.mem_map.mpr ⟨u, hu, hname.trans hself⟩) hnew
  next hother =>
    rw [Option.map_eq_some_iff]
    constructor
    · rintro ⟨v, hv, hkey⟩
      have hmem := Keyed.mem_of_find? hv
      refine ⟨v.declaration, List.mem_cons_of_mem _ (List.mem_map_of_mem hmem), ?_, ?_⟩
      · exact (h.declares hmem).name.symm.trans (h.names _ hmem).symm
      · exact ((h.declares hmem).keyType_iff type).mp hkey
    · rintro ⟨u, hu, hname, hkey⟩
      rcases List.mem_cons.mp hu with rfl | hu
      · exact absurd hname.symm hother
      · obtain ⟨e, he, rfl⟩ := List.mem_map.mp hu
        have hfind : Keyed.find? schema target = some e.2 :=
          h.ordered.find?_iff.mpr (by rwa [← hname, ← (h.declares he).name, ← h.names e he])
        exact ⟨e.2, hfind, ((h.declares he).keyType_iff type).mpr hkey⟩

/-- In a schema whose references are right the declarations are sound. -/
theorem sound (h : schema.Valid) (hlinked : schema.Linked) :
    ∀ d ∈ schema.declarations, d.Sound schema.declarations := by
  intro d hd
  obtain ⟨e, he, rfl⟩ := List.mem_map.mp hd
  have hdeclares := h.declares he
  obtain ⟨d, hdef⟩ := h.tables e he
  obtain ⟨⟨hname, hnodup⟩, hdeclares'⟩ := Table.ofDef_iff.mp hdef
  obtain rfl := hdeclares'.declaration
  refine ⟨hname, hnodup, ?_, fun c hc target htarget => ?_⟩
  · obtain ⟨k, hk, -⟩ := List.map_eq_singleton_iff.mp hdeclares.primaryKey
    exact ⟨k, hk⟩
  · have hcolumn : c.column ∈ e.2.columns := hdeclares.columns ▸ List.mem_map_of_mem hc
    obtain ⟨u, hu, hkey⟩ := hlinked e he c.column hcolumn target htarget
    have hmem := Keyed.mem_of_find? hu
    exact ⟨u.declaration, List.mem_map_of_mem hmem, (h.declares hmem).name.symm.trans (h.names _ hmem).symm,
      ((h.declares hmem).keyType_iff c.type).mp hkey⟩

/-- A declaration is admitted if and only if its name is new and all declarations are sound with it. -/
theorem exists_admitted_iff (h : schema.Valid) (hlinked : schema.Linked) {d : TableDef} :
    (∃ t, Catalog.admitted schema d = .ok t) ↔
      (∀ u ∈ d :: schema.declarations, u.Sound (d :: schema.declarations)) ∧
        d.name ∉ schema.declarations.map TableDef.name := by
  have hrest : ∀ u ∈ schema.declarations, u.Sound (d :: schema.declarations) := fun u hu =>
    (h.sound hlinked u hu).mono (List.subset_cons_self _ _)
  simp only [Catalog.admitted_iff, Table.ofDef_iff, Catalog.checkReferences_iff, h.names_declarations]
  constructor
  · rintro ⟨t, ⟨⟨hname, hnodup⟩, ht⟩, hfind, hreferences⟩
    rw [ht.name] at hfind
    have hnew := Keyed.find?_eq_none.mp hfind
    refine ⟨List.forall_mem_cons.mpr ⟨⟨hname, hnodup, ?_, fun c hc target htarget => ?_⟩, hrest⟩, hnew⟩
    · obtain ⟨k, hk, -⟩ := List.map_eq_singleton_iff.mp ht.primaryKey
      exact ⟨k, hk⟩
    · have hcolumn : c.column ∈ t.columns := ht.columns ▸ List.mem_map_of_mem hc
      exact (h.targetType?_iff ht (h.names_declarations ▸ hnew) target c.type).mp
        (hreferences c.column hcolumn target htarget)
  · rintro ⟨hsound, hnew⟩
    have hd := hsound d List.mem_cons_self
    obtain ⟨t, ht⟩ := TableDef.exists_declares hd.primaryKey
    refine ⟨t, ⟨⟨hd.unreserved, hd.columns⟩, ht⟩, Keyed.find?_eq_none.mpr (ht.name ▸ hnew), ?_⟩
    intro c hc target htarget
    rw [ht.columns] at hc
    obtain ⟨column, hcolumn, rfl⟩ := List.mem_map.mp hc
    exact (h.targetType?_iff ht (h.names_declarations ▸ hnew) target column.type).mpr
      (hd.references column hcolumn target htarget)

end Schema.Valid

/-! ## Attempts -/

namespace Database

/-- The table is in memory and in the store, and the statement answers with its name. -/
def created (s : Database) (i : Nat) (o : Origin) (t : Table) : Database :=
  { s with
    schema := Catalog.add s.schema t
    store := Catalog.persist s.store t
    tasks := s.tasks.set i (.actions (o.finish (.ok (Write.answerOf "created" (.str t.name))))) }

/-- The statement ends with a fault, and all else is as it was. -/
def refused (s : Database) (i : Nat) (o : Origin) (f : Fault) : Database :=
  { s with tasks := s.tasks.set i (.actions (o.finish (.error f))) }

variable {s : Database} {i : Nat} {o : Origin} {text : String} {d : TableDef}

/-- Where the storage commits, an attempt is a step of the statement. -/
theorem stepTask_create (fuel : Nat) (order : Traversal) (htask : s.tasks[i]? = some (.statement o text))
    (hread : Statement.read text = .ok (.create d)) : s.stepTask fuel order i = s.attempt i (.ok ()) := by
  have htasks : (s.createTable o d (.ok ())).1.tasks = s.tasks := (createTable_spec hread rfl).2.2
  simp only [stepTask, attempt, htask, advance, hread, begin, Option.map_some, htasks]

/-- The table is made if it is admitted and the storage commits it, and the statement is refused otherwise. -/
theorem attempt_cases (committing : Except String Unit) (htask : s.tasks[i]? = some (.statement o text))
    (hread : Statement.read text = .ok (.create d)) :
    (∃ t, Catalog.admitted s.schema d = .ok t ∧ committing = .ok () ∧ s.attempt i committing = some (s.created i o t)) ∨
      ((∃ t, Catalog.admitted s.schema d = .ok t) → committing ≠ .ok ()) ∧
        ∃ f, s.attempt i committing = some (s.refused i o f) := by
  cases hadmitted : Catalog.admitted s.schema d with
  | error f =>
    refine .inr ⟨?_, .schema f, ?_⟩
    · rintro ⟨t, ⟨⟩⟩
    · simp only [attempt, htask, hread, createTable_of_refused hadmitted]
      rfl
  | ok t =>
    cases committing with
    | ok =>
      refine .inl ⟨t, rfl, rfl, ?_⟩
      simp only [attempt, htask, hread, createTable_of_admitted hadmitted]
      rfl
    | error message =>
      refine .inr ⟨fun _ => by simp, .schema (.storage message), ?_⟩
      simp only [attempt, htask, hread, createTable_of_uncommitted hadmitted]
      rfl

/-- An answer and a fault are different ends of a statement. -/
theorem created_ne_refused (htask : s.tasks[i]? = some (.statement o text)) (t : Table) (f : Fault) :
    s.created i o t ≠ s.refused i o f := by
  intro h
  have hlt : i < s.tasks.length := (List.getElem?_eq_some_iff.mp htask).1
  have htasks : (s.created i o t).tasks[i]? = (s.refused i o f).tasks[i]? := by rw [h]
  rw [created, refused, List.getElem?_set_self hlt, List.getElem?_set_self hlt] at htasks
  have hends := Task.actions.inj (Option.some.inj htasks)
  cases o with
  | caller ticket => cases hends
  | channel whom => cases hends

end Database

namespace Grown

variable {s : Database}

/-- The catalog of a database that has grown from an empty one is sound, each of its tables is what was declared, and no
name is declared twice. A statement that waits to make a table makes it if and only if the catalog is sound with its
declaration too, its name is new, and the storage keeps it; otherwise it is refused, and all else is as it was. -/
theorem catalog_sound (h : Grown s) :
    (∀ e ∈ s.schema, e.1 = e.2.name ∧ e.2.declaration.Declares e.2) ∧ (s.schema.declarations.map TableDef.name).Nodup ∧
      (∀ d ∈ s.schema.declarations, d.Sound s.schema.declarations) ∧
      ∀ i o text d persisting, s.tasks[i]? = some (.statement o text) → Statement.read text = .ok (.create d) →
        ((∃ t, d.Declares t ∧ s.attempt i persisting = some (s.created i o t)) ↔
          (∀ u ∈ d :: s.schema.declarations, u.Sound (d :: s.schema.declarations)) ∧
            d.name ∉ s.schema.declarations.map TableDef.name ∧ persisting = .ok ()) ∧
        ((∃ t, d.Declares t ∧ s.attempt i persisting = some (s.created i o t)) ∨
          ∃ f, s.attempt i persisting = some (s.refused i o f)) := by
  have hvalid := h.keepsCatalog.catalog.valid
  refine ⟨fun e he => ⟨hvalid.names e he, hvalid.declares he⟩, ?_, hvalid.sound h.linked, ?_⟩
  · rw [hvalid.names_declarations]
    exact hvalid.ordered.nodup
  · intro i o text d persisting htask hread
    rw [← and_assoc, ← hvalid.exists_admitted_iff h.linked]
    rcases Database.attempt_cases persisting htask hread with ⟨t, ht, hkept, hmade⟩ | ⟨hno, f, hrefused⟩
    · have hcreated : ∃ t, d.Declares t ∧ s.attempt i persisting = some (s.created i o t) :=
        ⟨t, (Table.ofDef_iff.mp (Catalog.admitted_iff.mp ht).1).2, hmade⟩
      exact ⟨⟨fun _ => ⟨⟨t, ht⟩, hkept⟩, fun _ => hcreated⟩, .inl hcreated⟩
    · refine ⟨⟨?_, fun ⟨ht, hkept⟩ => absurd hkept (hno ht)⟩, .inr ⟨f, hrefused⟩⟩
      rintro ⟨t, -, hmade⟩
      rw [hrefused] at hmade
      exact absurd (Option.some.inj hmade).symm (Database.created_ne_refused htask t f)

namespace Sample

/-- A table that refers to another one and to itself. -/
def replies : String := "CREATE TABLE r (k int PRIMARY KEY, p int REFERENCES p, up int REFERENCES r)"

/-- The other table is made before. -/
def replying : List Cue := [.call "CREATE TABLE p (k int PRIMARY KEY)", .task 0, .task 0, .call replies]

/-- What is declared. -/
def declared? : Option TableDef :=
  match Statement.read replies with
  | .ok (.create d) => some d
  | _ => none

/-- Whether the statement waits first, and nothing but the storage is against it. -/
def awaits (s : Database) : Bool :=
  match s.tasks.head? with
  | some (.statement (.caller 0) text) =>
    decide (text = replies) && declared?.any fun d => (Catalog.admitted s.schema d).toOption.isSome
  | _ => false

theorem of_awaits {s : Database} (h : awaits s = true) : s.tasks[0]? = some (.statement (.caller 0) replies) ∧
    ∃ d, Statement.read replies = .ok (.create d) ∧ ∃ t, Catalog.admitted s.schema d = .ok t := by
  unfold awaits at h
  split at h
  next text htask =>
    obtain ⟨htext, hadmitted⟩ := Bool.and_eq_true_iff.mp h
    obtain ⟨d, hd, hadmitted⟩ := (Option.any_eq_true _ _).mp hadmitted
    refine ⟨List.head?_eq_getElem? ▸ of_decide_eq_true htext ▸ htask, d, ?_, ?_⟩
    · unfold declared? at hd
      split at hd
      next hread => cases hd; exact hread
      next => cases hd
    · cases ht : Catalog.admitted s.schema d with
      | ok t => exact ⟨t, rfl⟩
      | error f => rw [ht] at hadmitted; cases hadmitted
  next => cases h

end Sample

open Grown.Sample in
/-- The table is made if the storage keeps it, which leaves the catalog sound, and is refused if it does not. -/
theorem catalog_sound_replies : ∃ s d, Grown s ∧ s.tasks[0]? = some (.statement (.caller 0) replies) ∧
    Statement.read replies = .ok (.create d) ∧
    (∃ t, d.Declares t ∧ s.attempt 0 (.ok ()) = some (s.created 0 (.caller 0) t)) ∧
    (∀ u ∈ d :: s.schema.declarations, u.Sound (d :: s.schema.declarations)) ∧
    ∃ f, s.attempt 0 (.error "Storage error") = some (s.refused 0 (.caller 0) f) := by
  have hplay : (Database.follow (fun _ => true) 30 replying {}).any awaits = true := by decide +kernel
  obtain ⟨s, hs, hawaits⟩ := (Option.any_eq_true _ _).mp hplay
  have hgrown : Grown s := Grown.start.onward (.of_follow (.start rfl) hs)
  obtain ⟨htask, d, hread, hadmitted⟩ := of_awaits hawaits
  obtain ⟨-, -, -, hattempts⟩ := catalog_sound hgrown
  obtain ⟨hiff, -⟩ := hattempts 0 (.caller 0) replies d (.ok ()) htask hread
  obtain ⟨hiff', hends⟩ := hattempts 0 (.caller 0) replies d (.error "Storage error")
    htask hread
  have hsound := (hgrown.keepsCatalog.catalog.valid.exists_admitted_iff hgrown.linked).mp hadmitted
  refine ⟨s, d, hgrown, htask, hread, hiff.mpr ⟨hsound.1, hsound.2, rfl⟩, hsound.1, hends.resolve_left fun hmade => ?_⟩
  obtain ⟨-, -, hkept⟩ := hiff'.mp hmade
  cases hkept

end Grown

end LiveQuery
