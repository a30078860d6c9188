import LiveQuery.Proofs.Database.Contents
import LiveQuery.Proofs.Database.Reopening
import LiveQuery.Proofs.Live.Rounds

/-! # What a database holds

A database holds contents if its entries are the encodings of their rows, each under the encoding of the row's primary
key (`Database.Holds`). A write does to what a store holds what its command does to the contents
(`Write.Makes.follows`), and so does a statement that is served (`Database.Serves.follows`).
-/
namespace LiveQuery

/-! ## What a store holds -/

/-- The entries of the tables are the encodings of the rows. -/
def Store.Holds (store : Store) (m : Contents) : Prop :=
  ∀ table key, table ≠ declarationBucket →
    Option.Rel (fun bytes (row : Cells) => row.Encodes bytes) (store.get? table key) ((m table).lookup key)

/-- Each row is under the encoding of its primary key, and there are no rows without a table. -/
structure Contents.InPlace (m : Contents) (schema : Schema) : Prop where
  keys : ∀ t, Keyed.find? schema t.name = some t → ∀ key row, (m t.name).lookup key = some row →
    ∃ v, row.lookup t.primaryKey.name = some v ∧ v.toKey = .ok key
  unused : ∀ name, Keyed.find? schema name = none → m name = ∅

/-- What a write publishes about a table is the change: the encodings of the row before and after it. -/
structure Event.Carries (table : String) (e : Event) (c : Change) : Prop where
  table : table = c.table
  key : e.key = c.key
  old : Option.Rel (fun bytes (row : Cells) => row.Encodes bytes) e.old c.old
  new : Option.Rel (fun bytes (row : Cells) => row.Encodes bytes) e.new c.new

namespace Store.Holds

variable {store : Store} {m : Contents} {table : String} {key : Bytes}

theorem get?_cases (h : store.Holds m) (htable : table ≠ declarationBucket) (key : Bytes) :
    (store.get? table key = none ∧ (m table).lookup key = none) ∨
      ∃ bytes row, store.get? table key = some bytes ∧ (m table).lookup key = some row ∧ row.Encodes bytes := by
  have hrel := h table key htable
  cases hget : store.get? table key with
  | none =>
    rw [hget] at hrel
    cases hrow : (m table).lookup key with
    | none => exact .inl ⟨rfl, rfl⟩
    | some row => rw [hrow] at hrel; cases hrel
  | some bytes =>
    rw [hget] at hrel
    cases hrow : (m table).lookup key with
    | none => rw [hrow] at hrel; cases hrel
    | some row =>
      rw [hrow] at hrel
      cases hrel with
      | some hencodes => exact .inr ⟨bytes, row, rfl, rfl, hencodes⟩

theorem put (h : store.Holds m) {row : Cells} {bytes : Bytes} (hrow : row.Encodes bytes) :
    (store.put table key bytes).Holds (Function.update m table ((m table).insert key row)) := by
  intro other k hother
  rw [Store.get?_put]
  by_cases hname : table = other
  · subst hname
    rw [Function.update_self]
    by_cases hk : key = k
    · subst hk
      rw [if_pos ⟨rfl, rfl⟩, Finmap.lookup_insert]
      exact .some hrow
    · rw [if_neg fun h => hk h.2, Finmap.lookup_insert_of_ne _ (Ne.symm hk)]
      exact h table k hother
  · rw [if_neg fun h => hname h.1, Function.update_of_ne (Ne.symm hname)]
    exact h other k hother

theorem delete (h : store.Holds m) (hstore : store.Ordered) (table : String) (key : Bytes) :
    (store.delete table key).Holds (Function.update m table ((m table).erase key)) := by
  intro other k hother
  rw [Store.get?_delete (hstore.entries table)]
  by_cases hname : table = other
  · subst hname
    rw [Function.update_self]
    by_cases hk : key = k
    · subst hk
      rw [if_pos ⟨rfl, rfl⟩, Finmap.lookup_erase]
      exact .none
    · rw [if_neg fun h => hk h.2, Finmap.lookup_erase_ne (Ne.symm hk)]
      exact h table k hother
  · rw [if_neg fun h => hname h.1, Function.update_of_ne (Ne.symm hname)]
    exact h other k hother

end Store.Holds

namespace Contents.InPlace

variable {m : Contents} {schema : Schema} {t : Table}

theorem insert (h : m.InPlace schema) (ht : Keyed.find? schema t.name = some t) {row : Cells} {key : Bytes}
    {v : Value} (hv : row.lookup t.primaryKey.name = some v) (hkey : v.toKey = .ok key) :
    Contents.InPlace (Function.update m t.name ((m t.name).insert key row)) schema where
  keys u hu k r hr := by
    by_cases hname : t.name = u.name
    · rw [hname] at ht
      cases ht.symm.trans hu
      rw [Function.update_self] at hr
      by_cases hk : key = k
      · subst hk
        rw [Finmap.lookup_insert] at hr
        cases hr
        exact ⟨v, hv, hkey⟩
      · rw [Finmap.lookup_insert_of_ne _ (Ne.symm hk)] at hr
        exact h.keys t hu k r hr
    · rw [Function.update_of_ne (Ne.symm hname)] at hr
      exact h.keys u hu k r hr
  unused name hnone := by
    have hname : name ≠ t.name := by
      rintro rfl
      rw [ht] at hnone
      cases hnone
    rw [Function.update_of_ne hname]
    exact h.unused name hnone

theorem erase (h : m.InPlace schema) (ht : Keyed.find? schema t.name = some t) (key : Bytes) :
    Contents.InPlace (Function.update m t.name ((m t.name).erase key)) schema where
  keys u hu k r hr := by
    by_cases hname : t.name = u.name
    · rw [hname] at ht
      cases ht.symm.trans hu
      rw [Function.update_self] at hr
      by_cases hk : k = key
      · subst hk
        rw [Finmap.lookup_erase] at hr
        cases hr
      · rw [Finmap.lookup_erase_ne hk] at hr
        exact h.keys t hu k r hr
    · rw [Function.update_of_ne (Ne.symm hname)] at hr
      exact h.keys u hu k r hr
  unused name hnone := by
    have hname : name ≠ t.name := by
      rintro rfl
      rw [ht] at hnone
      cases hnone
    rw [Function.update_of_ne hname]
    exact h.unused name hnone

/-- A command leaves rows under their primary keys. -/
theorem run {s : Database} {st : Statement} {cmd : Command} (hschema : s.schema.Valid) (h : m.InPlace s.schema)
    (hcmd : s.Commands st cmd) : (m.run cmd).contents.InPlace s.schema := by
  cases hcmd with
  | @insert t name row ty bindings fields key table typed expected evaluates keyed data =>
    obtain rfl : t.name = name := (hschema.find? table).2
    rw [Contents.run]
    split
    next => exact h
    next => exact h.insert table (by rw [Cells.lookup_of, keyed]) (Literal.toKey_value key)
  | @update t name key assignments filters table filter keyed assigns =>
    obtain rfl : t.name = name := (hschema.find? table).2
    rw [Contents.run]
    split
    next => exact h
    next old hold =>
      obtain ⟨v, hv, hkey⟩ := h.keys t table _ old hold
      have hkept := Cells.lookup_assign_of_forall_ne (fun a ha => (assigns a ha).1) old
      exact h.insert table (hkept.trans hv) hkey
  | @delete t name key filters table filter keyed =>
    obtain rfl : t.name = name := (hschema.find? table).2
    rw [Contents.run]
    split
    next => exact h
    next => exact h.erase table _

end Contents.InPlace

/-! ## Writes -/

/-- What a command and the write that makes it come to. -/
inductive Write.Follows (store : Store) (m : Contents) (w : Write) (cmd : Command) : Prop
  | failed {f : Fault} (failed : w.commit store = .error f) (run : m.run cmd = { contents := m, reply := .error f })
  | made {c : Committed} (made : w.commit store = .ok c) (reply : (m.run cmd).reply = .ok c.answer)
      (holds : c.store.Fits → c.store.Holds (m.run cmd).contents ∧
        Option.Rel (fun p c => p.2.Carries p.1 c) c.event (m.run cmd).change)

namespace Write

variable {store : Store} {m : Contents} {table : String}

/-- What was just put fits. -/
theorem length_lt_of_fits {key bytes : Bytes} (fits : (store.put table key bytes).Fits) : bytes.length < 2 ^ 62 := by
  have hmem : (key, bytes) ∈ (store.put table key bytes).entries table := by
    rw [Store.entries_put_self]
    exact Keyed.mem_insert_self _ _ _
  exact fits table _ hmem

theorem follows_insert (htable : table ≠ declarationBucket) (h : store.Holds m) {key : Literal}
    {fields : List (String × Value)} {bytes : Bytes} (data : (Value.record fields).IsData)
    (encoded : (Value.record fields).encode = .ok bytes) :
    (insert table key bytes).Follows store m (.insert table key (Cells.of fields)) := by
  rcases h.get?_cases htable key.keyBytes with ⟨hget, hrow⟩ | ⟨old, row, hget, hrow, hencodes⟩
  · refine .made (by rw [commit, hget]) (by simp [Contents.run, hrow]) fun fits => ?_
    have hencodes : (Cells.of fields).Encodes bytes :=
      ⟨fields, rfl, encoded, Value.decode_encode data encoded (length_lt_of_fits fits)⟩
    simp only [Contents.run, hrow]
    exact ⟨h.put hencodes, .some ⟨rfl, rfl, .none, .some hencodes⟩⟩
  · exact .failed (by rw [commit, hget]) (by simp [Contents.run, hrow])

theorem follows_update (htable : table ≠ declarationBucket) (h : store.Holds m) (key : Literal)
    (assignments : List (String × Literal)) :
    (update table key assignments).Follows store m (.update table key assignments) := by
  rcases h.get?_cases htable key.keyBytes with ⟨hget, hrow⟩ | ⟨old, row, hget, hrow, fields, rfl, hold, hdecode⟩
  · refine .made (by rw [commit, hget]) (by simp [Contents.run, hrow]) fun fits => ?_
    simp only [Contents.run, hrow]
    exact ⟨h, .none⟩
  · have hdata := (Value.isData_of_decode hdecode).assign assignments
    obtain ⟨new, hnew⟩ := Value.exists_encode hdata
    have hchanged : changedRow table key assignments old = .ok new := by
      simp [changedRow, hdecode, hnew, Except.mapError, bind, Except.bind]
    refine .made (by rw [commit, hget]; simp only [hchanged]; rfl) (by simp [Contents.run, hrow]) fun fits => ?_
    have hencodes : ((Cells.of fields).assign assignments).Encodes new :=
      ⟨_, Cells.of_assign fields assignments, hnew, Value.decode_encode hdata hnew (length_lt_of_fits fits)⟩
    simp only [Contents.run, hrow]
    exact ⟨h.put hencodes, .some ⟨rfl, rfl, .some ⟨fields, rfl, hold, hdecode⟩, .some hencodes⟩⟩

theorem follows_delete (hstore : store.Ordered) (htable : table ≠ declarationBucket) (h : store.Holds m)
    (key : Literal) : (delete table key).Follows store m (.delete table key) := by
  have hdelete := h.delete hstore table key.keyBytes
  rcases h.get?_cases htable key.keyBytes with ⟨hget, hrow⟩ | ⟨old, row, hget, hrow, hencodes⟩
  · refine .made (by rw [commit, hget]) (by simp [Contents.run, hrow]) fun fits => ?_
    have hsame : (m table).erase key.keyBytes = m table := by
      refine Finmap.ext_lookup fun k => ?_
      by_cases hk : k = key.keyBytes
      · rw [hk, Finmap.lookup_erase, hrow]
      · exact Finmap.lookup_erase_ne hk
    rw [hsame, Function.update_eq_self] at hdelete
    simp only [Contents.run, hrow]
    exact ⟨hdelete, .none⟩
  · refine .made (by rw [commit, hget]) (by simp [Contents.run, hrow]) fun fits => ?_
    simp only [Contents.run, hrow]
    exact ⟨hdelete, .some ⟨rfl, rfl, .some hencodes, .none⟩⟩

/-- A write does to what a store holds what its command does to the contents. -/
theorem Makes.follows {w : Write} {cmd : Command} (makes : w.Makes cmd) (hstore : store.Ordered)
    (htable : w.table ≠ declarationBucket) (h : store.Holds m) : w.Follows store m cmd := by
  cases makes with
  | insert data encoded => exact follows_insert htable h data encoded
  | update table key assignments => exact follows_update htable h key assignments
  | delete table key => exact follows_delete hstore htable h key

end Write

/-! ## Statements -/

/-- The entries of the tables are the encodings of the rows, each under the encoding of the row's primary key. -/
structure Database.Holds (s : Database) (m : Contents) : Prop where
  rows : s.store.Holds m
  inPlace : m.InPlace s.schema

/-- Whether a statement is to write rows. -/
def Statement.writes : Statement → Bool
  | .insert .. | .update .. | .delete .. => true
  | .create _ | .select .. | .eval _ => false

/-- What a statement does to the contents: what its command does. A statement that asks for no command leaves them as
they are, and it fails if it was to write. -/
structure Contents.Answers (m : Contents) (s : Database) (text : String) (e : Effect) : Prop where
  command : ∀ st cmd, Statement.read text = .ok st → s.Commands st cmd → e = m.run cmd
  other : (∀ st cmd, Statement.read text = .ok st → ¬s.Commands st cmd) → e.contents = m ∧ e.change = none ∧
    ∀ st, Statement.read text = .ok st → st.writes = true → ∃ f, e.reply = .error f

namespace Database

variable {s t : Database} {m : Contents} {o : Origin} {text : String} {st : Statement} {cmd : Command}

theorem Holds.start : Database.Holds {} fun _ => ∅ :=
  ⟨fun _ _ _ => .none, ⟨fun _ h => by simp at h, fun _ _ => rfl⟩⟩

theorem Holds.congr (hstore : t.store = s.store) (hschema : t.schema = s.schema) (h : s.Holds m) : t.Holds m :=
  ⟨hstore ▸ h.rows, hschema ▸ h.inPlace⟩

/-- A new table has no rows. -/
theorem Holds.create {d : TableDef} {table : Table} (admitted : Catalog.admitted s.schema d = .ok table)
    (h : s.Holds m) :
    Holds { s with store := Catalog.persist s.store table, schema := Catalog.add s.schema table } m := by
  obtain ⟨-, hnew⟩ := Catalog.admitted_spec admitted
  refine ⟨fun name key hname => ?_, fun t ht key row hrow => ?_, fun name hnone => ?_⟩
  · rw [Store.get?, Catalog.entries_persist _ _ hname]
    exact h.rows name key hname
  · rw [Catalog.add, Keyed.find?_insert] at ht
    split at ht
    next heq =>
      rw [← heq, h.inPlace.unused _ hnew] at hrow
      cases hrow
    next => exact h.inPlace.keys t ht key row hrow
  · rw [Catalog.add, Keyed.find?_insert] at hnone
    split at hnone
    next => cases hnone
    next => exact h.inPlace.unused name hnone

theorem Commands.writes (h : s.Commands st cmd) : st.writes = true := by
  cases h <;> rfl

/-- What a statement that was served does to what a database holds: the contents, what is published and what is left
alone. -/
structure Serves.Follows (s : Database) (m : Contents) (text : String) (x : Service) (e : Effect) : Prop where
  answers : m.Answers s text e
  reply : x.reply = e.reply
  event : Option.Rel (fun p c => p.2.Carries p.1 c) x.event e.change
  rows : x.store.Holds e.contents
  inPlace : e.contents.InPlace x.schema
  catalog : (∀ d, Statement.read text ≠ .ok (.create d)) → x.schema = s.schema ∧
    x.store.entries declarationBucket = s.store.entries declarationBucket

/-- A statement that asks for no command leaves rows and tables alone. -/
theorem Serves.follows_other (h : s.Holds m) (hnone : ∀ st cmd, Statement.read text = .ok st → ¬s.Commands st cmd)
    {reply : Except Fault Json} (sent : List Subscription)
    (failed : ∀ st, Statement.read text = .ok st → st.writes = true → ∃ f, reply = .error f) :
    Serves.Follows s m text { s.replies reply with sent } { contents := m, reply } where
  answers := ⟨fun st cmd read hcmd => absurd hcmd (hnone st cmd read), fun _ => ⟨rfl, rfl, failed⟩⟩
  reply := rfl
  event := .none
  rows := h.rows
  inPlace := h.inPlace
  catalog _ := ⟨rfl, rfl⟩

theorem Commands.answers (read : Statement.read text = .ok st) (h : s.Commands st cmd) (m : Contents) :
    m.Answers s text (m.run cmd) := by
  refine ⟨fun st' cmd' read' h' => ?_, fun hnone => absurd h (hnone st cmd read)⟩
  cases read.symm.trans read'
  rw [h.unique h']

/-- A statement that asks for a command comes to something. -/
theorem Commands.exists_serves (read : Statement.read text = .ok st) (h : s.Commands st cmd) :
    ∃ x, s.Serves o text x := by
  obtain ⟨f | w, prepares⟩ := h.exists_prepares
  · exact ⟨_, .unprepared read prepares⟩
  · cases hcommit : w.commit s.store with
    | error f => exact ⟨_, .refused read prepares hcommit⟩
    | ok c => exact ⟨_, .committed read prepares hcommit⟩

/-- A write that was prepared is to a table, so not to the bucket of declarations. -/
theorem Prepares.table_ne (hschema : s.schema.Valid) (read : Statement.read text = .ok st) {w : Write}
    (h : s.Prepares st (.ok w)) : w.table ≠ declarationBucket :=
  table_ne_of_continues hschema (h.continues (o := default) read)

/-- A write that is refused leaves rows and tables alone. -/
theorem Serves.follows_refused (hs : s.InOrder) (h : s.Holds m) {w : Write} {f : Fault}
    (read : Statement.read text = .ok st) (prepares : s.Prepares st (.ok w)) (failed : w.commit s.store = .error f) :
    ∃ e, Serves.Follows s m text (s.replies (.error f)) e := by
  obtain ⟨cmd, hcmd, makes⟩ := prepares.commands hs.schema read
  have hanswers := hcmd.answers read m
  cases makes.follows hs.store (prepares.table_ne hs.schema read) h.rows with
  | made made => rw [failed] at made; cases made
  | failed failed' run =>
    cases failed.symm.trans failed'
    rw [run] at hanswers
    exact ⟨_, hanswers, rfl, .none, h.rows, h.inPlace, fun _ => ⟨rfl, rfl⟩⟩

/-- A write that is committed does what its command does. -/
theorem Serves.follows_committed (hs : s.InOrder) (h : s.Holds m) {w : Write} {c : Committed} (fits : c.store.Fits)
    (read : Statement.read text = .ok st) (prepares : s.Prepares st (.ok w)) (made : w.commit s.store = .ok c) :
    ∃ e, Serves.Follows s m text
      { store := c.store, schema := s.schema, event := c.event, reply := .ok c.answer } e := by
  obtain ⟨cmd, hcmd, makes⟩ := prepares.commands hs.schema read
  have htable := prepares.table_ne hs.schema read
  cases makes.follows hs.store htable h.rows with
  | failed failed => rw [made] at failed; cases failed
  | made made' reply holds =>
    cases made.symm.trans made'
    obtain ⟨hrows, hevent⟩ := holds fits
    exact ⟨m.run cmd, hcmd.answers read m, reply.symm, hevent, hrows, h.inPlace.run hs.schema hcmd,
      fun _ => ⟨rfl, Write.entries_of_commit made htable⟩⟩

/-- A statement that is not to write asks for no command. -/
theorem not_commands {st : Statement} (read : Statement.read text = .ok st) (hst : st.writes = false) :
    ∀ st cmd, Statement.read text = .ok st → ¬s.Commands st cmd := by
  intro st' cmd read' hcmd
  cases read.symm.trans read'
  rw [hcmd.writes] at hst
  cases hst

/-- What a statement does to what a database holds, it does to the contents. -/
theorem Serves.follows {x : Service} (hs : s.InOrder) (h : s.Holds m) (serves : s.Serves o text x)
    (fits : x.store.Fits) : ∃ e, Serves.Follows s m text x e := by
  have hread : ∀ {st : Statement} (r : Except Fault Json), Statement.read text = .ok st → st.writes = false →
      ∀ st, Statement.read text = .ok st → st.writes = true → ∃ f, r = .error f := by
    intro st r read hst st' read' hst'
    cases read.symm.trans read'
    rw [hst'] at hst
    cases hst
  cases serves with
  | unread read =>
    refine ⟨_, follows_other h (fun st cmd read' => ?_) [] fun st _ _ => ⟨_, rfl⟩⟩
    rw [read] at read'
    cases read'
  | @created d table read admitted =>
    have hholds := h.create admitted
    exact ⟨{ contents := m, reply := _ },
      ⟨fun st cmd read' hcmd => absurd hcmd (not_commands read rfl st cmd read'),
        fun _ => ⟨rfl, rfl, hread _ read rfl⟩⟩,
      rfl, .none, hholds.rows, hholds.inPlace, fun hcreate => absurd read (hcreate d)⟩
  | unprepared read prepares =>
    refine ⟨_, follows_other h (fun st' cmd read' hcmd => ?_) [] fun st _ _ => ⟨_, rfl⟩⟩
    cases read.symm.trans read'
    obtain ⟨w, hw, -⟩ := hcmd.prepares hs.schema prepares
    cases hw
  | refused read prepares failed => exact follows_refused hs h read prepares failed
  | committed read prepares made => exact follows_committed hs h fits read prepares made
  | unmade read | evaluated read | unanchored read | selected read =>
    exact ⟨_, follows_other h (not_commands read rfl) _ (hread _ read rfl)⟩

end Database

end LiveQuery
