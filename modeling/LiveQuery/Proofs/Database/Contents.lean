import Mathlib.Data.Finmap
import LiveQuery.Proofs.Database.RowKeys
import LiveQuery.Proofs.Database.Served
import LiveQuery.Proofs.Encoding.Storable
import LiveQuery.Proofs.Machine.Fuel

/-! # What tables contain

The rows of a database as finite maps: each table maps the bytes of keys to rows, and a row maps columns to values
(`Contents`). A statement that writes and passes its checks asks for a `Command` (`Database.Commands`), and
`Contents.run` says what a command does to the rows, what it changes and what it answers.

The write that a statement prepares makes its command (`Database.Prepares.commands`), and a statement that asks for a
command prepares a write (`Database.Commands.prepares`), whatever the fuel.
-/
namespace LiveQuery

/-! ## Rows -/

/-- The values of a row by column. -/
abbrev Cells := Finmap fun _ : String => Value

namespace Cells

/-- The row with some fields. -/
def of (fields : List (String × Value)) : Cells :=
  (fields.map fun f => (⟨f.1, f.2⟩ : Σ _ : String, Value)).toFinmap

@[simp] theorem lookup_of (fields : List (String × Value)) (column : String) :
    (of fields).lookup column = Keyed.find? fields column := by
  rw [of, Finmap.dlookup_list_toFinmap]
  induction fields with
  | nil => rfl
  | cons f fields ih =>
    rw [List.map_cons, Keyed.find?_cons]
    by_cases hf : f.1 = column
    · subst hf
      rw [if_pos rfl, List.dlookup_cons_eq]
    · rw [if_neg hf, List.dlookup_cons_ne _ _ (Ne.symm hf), ih]

/-- The row with some columns set, the last assignment to a column counting. -/
def assign (row : Cells) (assignments : List (String × Literal)) : Cells :=
  of (assignments.reverse.map fun a => (a.1, a.2.value)) ∪ row

theorem lookup_assign (row : Cells) (assignments : List (String × Literal)) (column : String) :
    (row.assign assignments).lookup column =
      (Keyed.find? (assignments.reverse.map fun a => (a.1, a.2.value)) column).or (row.lookup column) := by
  rw [assign]
  by_cases h : column ∈ of (assignments.reverse.map fun a => (a.1, a.2.value))
  · rw [Finmap.lookup_union_left h, lookup_of]
    obtain ⟨v, hv⟩ := Option.isSome_iff_exists.mp (Finmap.lookup_isSome.mpr h)
    rw [lookup_of] at hv
    rw [hv]
    rfl
  · rw [Finmap.lookup_union_right h]
    have hnone := Finmap.lookup_eq_none.mpr h
    rw [lookup_of] at hnone
    rw [hnone]
    rfl

/-- Columns that are not assigned keep their values. -/
theorem lookup_assign_of_forall_ne {assignments : List (String × Literal)} {column : String}
    (h : ∀ a ∈ assignments, a.1 ≠ column) (row : Cells) :
    (row.assign assignments).lookup column = row.lookup column := by
  have hnone : Keyed.find? (assignments.reverse.map fun a => (a.1, a.2.value)) column = none := by
    refine Keyed.find?_eq_none.mpr fun hmem => ?_
    obtain ⟨f, hf, rfl⟩ := List.mem_map.mp hmem
    obtain ⟨a, ha, rfl⟩ := List.mem_map.mp hf
    exact h a (List.mem_reverse.mp ha) rfl
  rw [lookup_assign, hnone]
  rfl

theorem of_assign (fields : List (String × Value)) (assignments : List (String × Literal)) :
    of (LiveQuery.assign fields assignments) = (of fields).assign assignments := by
  refine Finmap.ext_lookup fun column => ?_
  rw [lookup_assign, lookup_of, lookup_of]
  induction assignments generalizing fields with
  | nil => rfl
  | cons a assignments ih =>
    have hcons : LiveQuery.assign fields (a :: assignments) =
        LiveQuery.assign (Keyed.insert fields a.1 a.2.value) assignments := rfl
    rw [hcons, ih, Keyed.find?_insert, List.reverse_cons, List.map_append, Keyed.find?_append, Option.or_assoc]
    congr 1
    rw [List.map_singleton, Keyed.find?_cons, Keyed.find?_nil]
    split <;> rfl

/-- The bytes are the encoding of the row, which is read back from them. -/
def Encodes (row : Cells) (bytes : Bytes) : Prop :=
  ∃ fields, of fields = row ∧ (Value.record fields).encode = .ok bytes ∧ Value.decode bytes = .ok (.record fields)

end Cells

/-! ## Commands -/

/-- The rows of every table by the bytes of their keys. -/
abbrev Contents := String → Finmap fun _ : Bytes => Cells

/-- What a statement that writes asks for. -/
inductive Command
  | insert (table : String) (key : Literal) (row : Cells)
  | update (table : String) (key : Literal) (assignments : List (String × Literal))
  | delete (table : String) (key : Literal)

/-- The row under a key before and after a write. -/
structure Change where
  table : String
  key : Literal
  old : Option Cells
  new : Option Cells

/-- What a statement does: the contents after it, the change that is published, and the reply. -/
structure Effect where
  contents : Contents
  change : Option Change := none
  reply : Except Fault Json

/-- What a command does. -/
def Contents.run (m : Contents) : Command → Effect
  | .insert table key row =>
    match (m table).lookup key.keyBytes with
    | some _ => { contents := m, reply := .error (.statement (.duplicateKey table key.text)) }
    | none => {
        contents := Function.update m table ((m table).insert key.keyBytes row)
        change := some { table, key, old := none, new := some row }
        reply := .ok (Write.answerOf "inserted" key.json) }
  | .update table key assignments =>
    match (m table).lookup key.keyBytes with
    | none => { contents := m, reply := .ok (Write.answerOf "updated" (.num 0)) }
    | some old => {
        contents := Function.update m table ((m table).insert key.keyBytes (old.assign assignments))
        change := some { table, key, old := some old, new := some (old.assign assignments) }
        reply := .ok (Write.answerOf "updated" (.num 1)) }
  | .delete table key =>
    match (m table).lookup key.keyBytes with
    | none => { contents := m, reply := .ok (Write.answerOf "deleted" (.num 0)) }
    | some old => {
        contents := Function.update m table ((m table).erase key.keyBytes)
        change := some { table, key, old := some old, new := none }
        reply := .ok (Write.answerOf "deleted" (.num 1)) }

/-- The expression has the value in the scope of the tables. -/
def Database.Evaluates (s : Database) (e : Expr) (v : Value) : Prop :=
  ∃ fuel m, (do Eval.eval fuel (← Eval.load e) : Eval Value).exec (Machine.start (Catalog.scope s.schema s.store)) =
    some (.ok v, m)

/-- The literal may be assigned to the column. -/
def Table.Assigns (t : Table) (a : String × Literal) : Prop :=
  a.1 ≠ t.primaryKey.name ∧ ∃ c, t.column? a.1 = some c ∧ a.2.ty = c.type.ty

/-- A statement passes its checks and asks for a command. The row of an insertion has the type of the table's rows, it
has a primary key and it can be stored; changes and removals name the row by its primary key alone. -/
inductive Database.Commands (s : Database) : Statement → Command → Prop
  | insert {t : Table} {name : String} {row : Expr} {ty : Ty} {bindings : Bindings} {fields : List (String × Value)}
      {key : Literal} (table : Keyed.find? s.schema name = some t) (typed : row.infer (Catalog.types s.schema) = .ok ty)
      (expected : t.rowType.expect ty = .ok bindings) (evaluates : s.Evaluates row (.record fields))
      (keyed : Keyed.find? fields t.primaryKey.name = some key.value) (data : (Value.record fields).IsData) :
      Commands s (.insert name row) (.insert name key (Cells.of fields))
  | update {t : Table} {name : String} {key : Literal} {assignments : List (String × Literal)} {filters : List Filter}
      (table : Keyed.find? s.schema name = some t) (filter : filters = [⟨t.primaryKey.name, key⟩])
      (keyed : key.ty = t.primaryKey.type.ty) (assigns : ∀ a ∈ assignments, t.Assigns a) :
      Commands s (.update name assignments filters) (.update name key assignments)
  | delete {t : Table} {name : String} {key : Literal} {filters : List Filter}
      (table : Keyed.find? s.schema name = some t) (filter : filters = [⟨t.primaryKey.name, key⟩])
      (keyed : key.ty = t.primaryKey.type.ty) : Commands s (.delete name filters) (.delete name key)

/-- The write makes the change that the command asks for. -/
inductive Write.Makes : Write → Command → Prop
  | insert {table : String} {key : Literal} {fields : List (String × Value)} {bytes : Bytes}
      (data : (Value.record fields).IsData) (encoded : (Value.record fields).encode = .ok bytes) :
      Makes (.insert table key bytes) (.insert table key (Cells.of fields))
  | update (table : String) (key : Literal) (assignments : List (String × Literal)) :
      Makes (.update table key assignments) (.update table key assignments)
  | delete (table : String) (key : Literal) : Makes (.delete table key) (.delete table key)

/-! ### Checks -/

theorem Literal.eq_of_value_eq {k l : Literal} (h : k.value = l.value) : k = l := by
  have hliteral : some k = some l := by rw [← Literal.ofValue?_value k, h, Literal.ofValue?_value]
  exact Option.some.inj hliteral

theorem keyOf_eq {t : Table} {filters : List Filter} {key : Literal} (h : keyOf t filters = .ok key) :
    filters = [⟨t.primaryKey.name, key⟩] ∧ key.ty = t.primaryKey.type.ty := by
  unfold keyOf at h
  split at h
  next f =>
    split at h
    next hcolumn =>
      split at h
      next hty =>
        cases h
        exact ⟨by rw [← hcolumn], hty⟩
      next => cases h
    next => cases h
  next => cases h

theorem keyOf_of_ty {t : Table} {key : Literal} (h : key.ty = t.primaryKey.type.ty) :
    keyOf t [⟨t.primaryKey.name, key⟩] = .ok key := by
  simp [keyOf, h]

theorem checkAssignment_iff {t : Table} {a : String × Literal} : checkAssignment t a = .ok () ↔ t.Assigns a := by
  unfold checkAssignment Table.Assigns
  cases hc : t.column? a.1 with
  | none => simp [throw, throwThe, MonadExceptOf.throw]
  | some c =>
    obtain ⟨-, hname⟩ := Table.mem_of_column? hc
    by_cases hkey : a.1 = t.primaryKey.name <;> by_cases hty : a.2.ty = c.type.ty <;>
      simp [hname, hkey, hty, throw, throwThe, MonadExceptOf.throw, pure, Except.pure, bind, Except.bind]

theorem forM_of_forall {ε α : Type} {f : α → Except ε Unit} {as : List α} (h : ∀ a ∈ as, f a = .ok ()) :
    as.forM f = .ok () := by
  induction as with
  | nil => rfl
  | cons a as ih =>
    obtain ⟨ha, hrest⟩ := List.forall_mem_cons.mp h
    have hcons : (a :: as).forM f = (f a >>= fun _ => as.forM f) := rfl
    rw [hcons, ha, ih hrest]
    rfl

namespace Database

variable {s : Database} {st : Statement} {cmd : Command}

theorem Evaluates.unique {e : Expr} {v v' : Value} (h : s.Evaluates e v) (h' : s.Evaluates e v') : v = v' := by
  obtain ⟨fuel, m, h⟩ := h
  obtain ⟨fuel', m', h'⟩ := h'
  cases Eval.eval_unique h h'
  rfl

/-- A statement asks for one command. -/
theorem Commands.unique {cmd' : Command} (h : s.Commands st cmd) (h' : s.Commands st cmd') : cmd = cmd' := by
  cases h with
  | insert table typed expected evaluates keyed data =>
    cases h' with
    | insert table' typed' expected' evaluates' keyed' data' =>
      cases table.symm.trans table'
      cases evaluates.unique evaluates'
      rw [Literal.eq_of_value_eq (Option.some.inj (keyed.symm.trans keyed'))]
  | update table filter =>
    cases h' with
    | update table' filter' =>
      obtain ⟨-, rfl⟩ : _ ∧ _ := by simpa using filter.symm.trans filter'
      rfl
  | delete table filter =>
    cases h' with
    | delete table' filter' =>
      obtain ⟨-, rfl⟩ : _ ∧ _ := by simpa using filter.symm.trans filter'
      rfl

/-- A statement that asks for a command prepares the write that makes it. -/
theorem Commands.prepares (hschema : s.schema.Valid) (h : s.Commands st cmd) {r : Except Fault Write}
    (prepares : s.Prepares st r) : ∃ w, r = .ok w ∧ w.Makes cmd := by
  have htable : ∀ {name : String} {t : Table}, Keyed.find? s.schema name = some t →
      findTable s.schema name = .ok t ∧ t.name = name := by
    intro name t ht
    exact ⟨by rw [findTable, ht], (hschema.find? ht).2⟩
  cases h with
  | @insert t name row ty bindings fields key table typed expected evaluates keyed data =>
    obtain ⟨hfind, rfl⟩ := htable table
    cases prepares with
    | insert fuel prepared =>
      obtain ⟨fuel', m, hrun⟩ := evaluates
      obtain ⟨bytes, hbytes⟩ := Value.exists_encode data
      simp only [prepareInsert, hfind, typed, expected] at prepared
      split at prepared
      next => cases prepared
      next f m' hrun' => cases Eval.eval_unique hrun hrun'
      next v m' hrun' =>
        cases Eval.eval_unique hrun hrun'
        have hentry : rowEntry t (.record fields) = .ok (key, bytes) := by
          simp [rowEntry, Value.member, keyed, Literal.ofValue?_value, hbytes, Except.mapError, bind, Except.bind, pure,
            Except.pure]
        rw [hentry] at prepared
        exact ⟨_, (Option.some.inj prepared).symm, .insert data hbytes⟩
  | @update t name key assignments filters table filter keyed assigns =>
    obtain ⟨hfind, rfl⟩ := htable table
    subst filter
    cases prepares with
    | update =>
      have hcheck := forM_of_forall fun a ha => checkAssignment_iff.mpr (assigns a ha)
      refine ⟨_, ?_, .update t.name key assignments⟩
      simp [prepareUpdate, hfind, keyOf_of_ty keyed, hcheck, bind, Except.bind, pure, Except.pure]
  | @delete t name key filters table filter keyed =>
    obtain ⟨hfind, rfl⟩ := htable table
    subst filter
    cases prepares with
    | delete =>
      refine ⟨_, ?_, .delete t.name key⟩
      simp [prepareDelete, hfind, keyOf_of_ty keyed, bind, Except.bind, pure, Except.pure]

/-- A statement that asks for a command passes its checks. -/
theorem Commands.exists_prepares (h : s.Commands st cmd) : ∃ r, s.Prepares st r := by
  cases h with
  | @insert t name row ty bindings fields key table typed expected evaluates keyed data =>
    obtain ⟨fuel, m, hrun⟩ := evaluates
    have hprepared : ∃ r, prepareInsert fuel s.schema s.store name row = some r := by
      simp only [prepareInsert, findTable, table, typed, expected]
      split
      next hnone => cases hrun.symm.trans hnone
      all_goals exact ⟨_, rfl⟩
    obtain ⟨r, hr⟩ := hprepared
    exact ⟨r, .insert fuel hr⟩
  | update => exact ⟨_, .update ..⟩
  | delete => exact ⟨_, .delete ..⟩

/-- A write that a statement prepares makes the command that the statement asks for. -/
theorem Prepares.commands (hschema : s.schema.Valid) {text : String} (read : Statement.read text = .ok st) {w : Write}
    (prepares : s.Prepares st (.ok w)) : ∃ cmd, s.Commands st cmd ∧ w.Makes cmd := by
  generalize hr : Except.ok w = r at prepares
  cases prepares with
  | @insert name row _ fuel prepared =>
    subst hr
    have hwf : row.WellFormed := Statement.wellFormed_of_read read
    unfold prepareInsert at prepared
    split at prepared
    next => cases prepared
    next t ht =>
      have hfind := findTable_ok ht
      split at prepared
      next => cases prepared
      next ty typed =>
        split at prepared
        next => cases prepared
        next bindings expected =>
          dsimp only at prepared
          split at prepared
          next => cases prepared
          next => cases prepared
          next v m hrun =>
            obtain ⟨⟨key, bytes⟩, hentry, hw⟩ := ok_of_bind (Option.some.inj prepared)
            cases hw
            obtain ⟨k, hk, hentry⟩ := ok_of_bind hentry
            split at hentry
            next => cases hentry
            next literal hliteral =>
              obtain ⟨b, hb, hentry⟩ := ok_of_bind hentry
              cases hentry
              have hdata := (Eval.tidy_eval hwf hrun).isData_of_encode (ok_of_mapError hb)
              have hmember := ok_of_mapError hk
              unfold Value.member at hmember
              split at hmember
              next fields =>
                split at hmember
                next k' hfound =>
                  cases hmember
                  rw [← Row.value_of_ofValue? hliteral] at hfound
                  rw [(hschema.find? hfind).2]
                  exact ⟨_, .insert hfind typed expected ⟨fuel, m, hrun⟩ hfound hdata,
                    .insert hdata (ok_of_mapError hb)⟩
                next => cases hmember
              next => cases hmember
  | update table assignments filters =>
    obtain ⟨t, ht, prepared⟩ := ok_of_bind hr.symm
    obtain ⟨key, hkey, prepared⟩ := ok_of_bind prepared
    obtain ⟨⟨⟩, hcheck, prepared⟩ := ok_of_bind prepared
    cases prepared
    have hfind := findTable_ok ht
    obtain ⟨rfl, hty⟩ := keyOf_eq hkey
    rw [(hschema.find? hfind).2]
    exact ⟨_, .update hfind rfl hty fun a ha => checkAssignment_iff.mp (forM_ok hcheck a ha), .update ..⟩
  | delete table filters =>
    obtain ⟨t, ht, prepared⟩ := ok_of_bind hr.symm
    obtain ⟨key, hkey, prepared⟩ := ok_of_bind prepared
    cases prepared
    have hfind := findTable_ok ht
    obtain ⟨rfl, hty⟩ := keyOf_eq hkey
    rw [(hschema.find? hfind).2]
    exact ⟨_, .delete hfind rfl hty, .delete ..⟩

end Database

end LiveQuery
