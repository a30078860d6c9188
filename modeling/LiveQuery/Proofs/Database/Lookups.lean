import LiveQuery.Proofs.Database.Reachable
import LiveQuery.Proofs.Database.Reopening
import LiveQuery.Proofs.Database.RowKeys
import LiveQuery.Proofs.Encoding.Order
import LiveQuery.Proofs.Machine.Calls

/-! # Looking rows up and scanning them

A handle gives the row under a key, and an iterator over all rows. The one finds a key's bytes in the bucket of the
table, the other decodes the bucket's entries in order, so the two know of the same rows (`Index.Tabulates`) only as far
as each row is stored under its own primary key, and as the bytes of keys tell them apart and are in their order. That
is so in every database that has grown from an empty one, also by opening it again (`Fitted.tabulates`).
-/
namespace LiveQuery

/-! ## The handle on a table -/

/-- The handle on the rows of a table, which reads the store. -/
def Table.index (t : Table) (store : Store) : Index :=
  ⟨t.name, t.primaryKey.name, t.primaryKey.type.ty, t.rowType, store.bucket? t.name⟩

/-- All rows that a scan gives. -/
def Index.readAll (fuel : Nat) (i : Index) : Eval (List Value) := do
  let (h, _) ← (← i.scan).toIterator
  Eval.collect fuel h

/-- On every machine a scan of the index gives `rows`, which have `keys`, in increasing order. A key is found if and
only if one of these rows has it, and then it is that row. -/
structure Index.Tabulates (i : Index) (rows : List Value) (keys : List Literal) : Prop where
  scan : ∀ m, Ends (fun k => i.readAll k) m fun vs _ => vs = rows
  keyed : List.Forall₂ (fun r k => r.member i.column = .ok k.value ∧ k.ty = i.key) rows keys
  increasing : keys.Pairwise Literal.Precedes
  get_iff : ∀ k : Value, k.ty = i.key → ∀ r, i.get k = .ok r ↔ r ∈ rows ∧ r.member i.column = .ok k
  single : ∀ (k : Value) (n n' : Nat) (r r' : Value), rows[n]? = some r → rows[n']? = some r' →
    r.member i.column = .ok k → r'.member i.column = .ok k → n = n'
  missing_iff : ∀ k : Value, k.ty = i.key →
    (i.get k = .error (.rowNotFound i.table k.text) ↔ ∀ r ∈ rows, r.member i.column ≠ .ok k)

theorem Literal.value_injective : Function.Injective Literal.value := fun a b h =>
  Option.some.inj (by rw [← ofValue?_value a, h, ofValue?_value])

theorem Literal.Precedes.ne {a b : Literal} (h : a.Precedes b) : a ≠ b := by
  rintro rfl
  exact List.lt_irrefl _ ((keyBytes_lt_iff rfl).mpr h)

/-! ## Scanning -/

namespace Ends

/-- An iterator over a bucket is read to the decoded values of the entries. -/
theorem collect_rows {b rest : Bucket} {c : Cursor} {vs : List Value} {m : Machine} {pre post : List Cell}
    (hc : c.Reads b rest) (hvalues : List.Forall₂ (fun e v => Value.decode e.2 = .ok v) rest vs)
    (hcells : m.cells.toList = pre ++ .ready (.rows (some c)) :: post) :
    Ends (fun k => Eval.collect k pre.length) m fun us _ => us = vs := by
  induction hvalues generalizing c m with
  | nil =>
    obtain ⟨c', hnext, -⟩ := Cursor.next_of_reads hc
    refine succ (bind (next hcells ?_)) fun k => rfl
    refine succ (f := fun _ => Pure.pure none) (pure ⟨by rintro _ ⟨⟩, pure rfl⟩) fun k => ?_
    simp only [Eval.advance, hnext, List.head?_nil]
  | @cons e v rest vs hv _ ih =>
    obtain ⟨c', hnext, hreads⟩ := Cursor.next_of_reads hc
    refine succ (bind (next hcells ?_)) fun k => rfl
    refine succ (f := fun _ => Eval.ofEncoding (Value.decode e.2) >>= fun v =>
      Pure.pure (some (v, .rows (some c')))) (bind (ofEncoding hv (pure ?_))) fun k => ?_
    · have hrest := Machine.cells_setCell (Machine.cells_setCell hcells .busy) (.ready (.rows (some c')))
      exact bind ((ih hreads hrest).mono fun us _ hus => pure (congrArg (v :: ·) hus))
    · simp only [Eval.advance, hnext, List.head?_cons]

/-- An iterator over a table without a bucket. -/
theorem collect_noRows {m : Machine} {pre post : List Cell}
    (hcells : m.cells.toList = pre ++ .ready (.rows none) :: post) :
    Ends (fun k => Eval.collect k pre.length) m fun us _ => us = [] := by
  refine succ (bind (next hcells ?_)) fun k => rfl
  exact succ (f := fun _ => Pure.pure none) (pure ⟨by rintro _ ⟨⟩, pure rfl⟩) fun k => rfl

end Ends

namespace Table

variable {t : Table} {store : Store}

/-- A scan gives the decoded values of the entries in order. -/
theorem readAll_index {vs : List Value} (hordered : Keyed.Ordered (store.entries t.name))
    (hvalues : List.Forall₂ (fun e v => Value.decode e.2 = .ok v) (store.entries t.name) vs) (m : Machine) :
    Ends (fun k => (t.index store).readAll k) m fun us _ => us = vs := by
  have hscan : (t.index store).scan.exec m = some (.ok (.iterator m.cells.toList.length t.rowType),
      (m.allocate (.rows ((store.bucket? t.name).map Cursor.start))).2) := rfl
  refine Ends.step hscan (Ends.step (Eval.exec_pure _ _) ?_)
  have hcells := m.cells_allocate (.rows ((store.bucket? t.name).map Cursor.start))
  cases hb : store.bucket? t.name with
  | none =>
    rw [hb] at hcells
    rw [Store.entries, hb] at hvalues
    cases hvalues
    exact Ends.collect_noRows hcells
  | some b =>
    rw [hb] at hcells
    rw [Store.entries_of_bucket? hb] at hordered hvalues
    exact Ends.collect_rows (Cursor.reads_start hordered) hvalues hcells

/-! ## Looking up -/

theorem get_of_none {k : Literal} (h : store.get? t.name k.keyBytes = none) :
    (t.index store).get k.value = .error (.rowNotFound t.name k.value.text) := by
  simp only [Index.get, index]
  cases hb : store.bucket? t.name with
  | none => rfl
  | some b =>
    rw [Store.get?, Store.entries_of_bucket? hb] at h
    simp only [Literal.toKey_value, h]
    rfl

theorem get_of_some {k : Literal} {bytes : Bytes} {v : Value} (h : store.get? t.name k.keyBytes = some bytes)
    (hv : Value.decode bytes = .ok v) : (t.index store).get k.value = .ok v := by
  simp only [Index.get, index]
  cases hb : store.bucket? t.name with
  | none =>
    rw [Store.get?, Store.entries, hb] at h
    cases h
  | some b =>
    rw [Store.get?, Store.entries_of_bucket? hb] at h
    simp only [Literal.toKey_value, h, hv]
    rfl

/-! ## The two together -/

/-- The entry holds the row, under its primary key. -/
def Stores (t : Table) (e : Bytes × Bytes) (r : Row) : Prop :=
  e.1 = (r.key t).keyBytes ∧ Value.decode e.2 = .ok r.value

namespace Fits

variable {r : Row}

theorem key_ty (h : t.Fits r) (ht : t.Valid) : (r.key t).ty = t.primaryKey.type.ty :=
  (h.find? ht ht.columns_spec.2).2

/-- The primary key of a row, as it is read off. -/
theorem member_iff (h : t.Fits r) (ht : t.Valid) (k : Literal) :
    r.value.member t.primaryKey.name = .ok k.value ↔ r.key t = k := by
  rw [h.member ht ht.columns_spec.2, Except.ok.injEq]
  exact ⟨fun hvalue => Literal.value_injective hvalue, congrArg Literal.value⟩

end Fits

/-- The entries of a table hold its rows, if they are rows of it and under their primary keys. -/
theorem forall₂_stores {schema : Schema} (hschema : schema.Valid) (typed : RowsTyped schema store)
    (hkeys : KeysStored schema store) (ht : Keyed.find? schema t.name = some t) :
    List.Forall₂ t.Stores (store.entries t.name) (store.rows t.name) := by
  obtain ⟨hvalues, hfits⟩ := typed.forall₂_rows ht
  have hentries := hkeys _ (Keyed.mem_of_find? ht)
  have hvalid := (hschema.find? ht).1
  dsimp only at hentries
  generalize store.entries t.name = entries at hvalues hentries
  generalize store.rows t.name = rows at hvalues hfits
  induction hvalues with
  | nil => exact .nil
  | @cons e r entries rows hvalue _ ih =>
    obtain ⟨hfits, hrest⟩ := List.forall_mem_cons.mp hfits
    obtain ⟨⟨key, hkey, hhas⟩, hmore⟩ := List.forall_mem_cons.mp hentries
    obtain rfl := (hfits.member_iff hvalid key).mp (hhas r.value hvalue)
    exact .cons ⟨hkey, hvalue⟩ (ih hmore hrest)

section Entries

variable {entries : Bucket} {rows : List Row}

/-- What stands under the bytes of a key is the row that has it, and nothing does if no row has it. -/
theorem find?_stores (ht : t.Valid) (hfits : ∀ r ∈ rows, t.Fits r) (h : List.Forall₂ t.Stores entries rows)
    {k : Literal} (hk : k.ty = t.primaryKey.type.ty) :
    (Keyed.find? entries k.keyBytes = none ∧ ∀ r ∈ rows, r.key t ≠ k) ∨
      ∃ bytes, Keyed.find? entries k.keyBytes = some bytes ∧
        ∃ r ∈ rows, r.key t = k ∧ Value.decode bytes = .ok r.value := by
  induction h with
  | nil => exact .inl ⟨rfl, by simp⟩
  | @cons e r entries rows hr _ ih =>
    obtain ⟨hfits, hrest⟩ := List.forall_mem_cons.mp hfits
    rw [Keyed.find?_cons, hr.1]
    split
    next hsame =>
      exact .inr ⟨e.2, rfl, r, List.mem_cons_self,
        Literal.eq_of_keyBytes ((hfits.key_ty ht).trans hk.symm) hsame, hr.2⟩
    next hother =>
      rcases ih hrest with ⟨hnone, hno⟩ | ⟨bytes, hfound, r', hr', hkey⟩
      · exact .inl ⟨hnone, List.forall_mem_cons.mpr ⟨fun heq => hother (congrArg Literal.keyBytes heq), hno⟩⟩
      · exact .inr ⟨bytes, hfound, r', List.mem_cons_of_mem _ hr', hkey⟩

/-- Rows whose entries are in the order of their keys' bytes are in the order of their keys. -/
theorem pairwise_precedes (ht : t.Valid) (hfits : ∀ r ∈ rows, t.Fits r) (h : List.Forall₂ t.Stores entries rows)
    (hordered : Keyed.Ordered entries) : (rows.map (·.key t)).Pairwise Literal.Precedes := by
  have hbytes : entries.map Prod.fst = rows.map fun r => (r.key t).keyBytes :=
    List.forall₂_eq_eq_eq ▸ List.forall₂_map_left_iff.mpr (List.forall₂_map_right_iff.mpr (h.imp fun _ _ hr => hr.1))
  have hlt : (rows.map fun r => (r.key t).keyBytes).Pairwise (· < ·) := hbytes ▸ List.pairwise_map.mpr hordered
  refine List.pairwise_map.mpr ((List.pairwise_map.mp hlt).imp_of_mem fun hr hr' hlt => ?_)
  have hsame := ((hfits _ hr).key_ty ht).trans ((hfits _ hr').key_ty ht).symm
  exact (Literal.keyBytes_lt_iff hsame).mp hlt

end Entries

/-- The handle on a table whose rows are stored under their primary keys. -/
theorem tabulates_index (ht : t.Valid) (hordered : Keyed.Ordered (store.entries t.name)) {rows : List Row}
    (hfits : ∀ r ∈ rows, t.Fits r) (h : List.Forall₂ t.Stores (store.entries t.name) rows) :
    (t.index store).Tabulates (rows.map Row.value) (rows.map (·.key t)) := by
  have hincreasing := pairwise_precedes ht hfits h hordered
  have hnodup : (rows.map (·.key t)).Nodup := hincreasing.imp Literal.Precedes.ne
  -- a key of the type of the primary key is one that can be written, and is found or not
  have hlookup : ∀ k : Value, k.ty = t.primaryKey.type.ty → ∃ l : Literal, l.value = k ∧
      (((t.index store).get k = .error (.rowNotFound t.name k.text) ∧ ∀ r ∈ rows, r.key t ≠ l) ∨
        ∃ r ∈ rows, r.key t = l ∧ (t.index store).get k = .ok r.value) := by
    intro k hk
    obtain ⟨l, -, rfl⟩ := Literal.ofValue?_of_ty hk
    refine ⟨l, rfl, ?_⟩
    rcases find?_stores ht hfits h (l.ty_value.symm.trans hk) with ⟨hnone, hno⟩ | ⟨bytes, hfound, r, hr, hkey, hvalue⟩
    · exact .inl ⟨get_of_none hnone, hno⟩
    · exact .inr ⟨r, hr, hkey, get_of_some hfound hvalue⟩
  have hmember : ∀ r ∈ rows, ∀ l : Literal, r.value.member (t.index store).column = .ok l.value ↔ r.key t = l :=
    fun r hr => (hfits r hr).member_iff ht
  refine ⟨fun m => ?_, ?_, hincreasing, fun k hk v => ?_, ?_, fun k hk => ?_⟩
  · exact readAll_index hordered (List.forall₂_map_right_iff.mpr (h.imp fun _ _ hr => hr.2)) m
  · refine List.forall₂_map_left_iff.mpr (List.forall₂_map_right_iff.mpr (List.forall₂_same.mpr fun r hr => ?_))
    exact ⟨(hmember r hr _).mpr rfl, (hfits r hr).key_ty ht⟩
  · obtain ⟨l, rfl, hcases⟩ := hlookup k hk
    constructor
    · intro hget
      rcases hcases with ⟨hmissing, -⟩ | ⟨r, hr, hkey, hfound⟩
      · rw [hmissing] at hget
        cases hget
      · obtain rfl := Except.ok.inj (hfound.symm.trans hget)
        exact ⟨List.mem_map_of_mem hr, (hmember r hr l).mpr hkey⟩
    · rintro ⟨hv, hkey⟩
      obtain ⟨r, hr, rfl⟩ := List.mem_map.mp hv
      rw [hmember r hr] at hkey
      rcases hcases with ⟨-, hno⟩ | ⟨r', hr', hkey', hfound⟩
      · exact absurd hkey (hno r hr)
      · rw [hfound, List.inj_on_of_nodup_map hnodup hr' hr (hkey'.trans hkey.symm)]
  · intro k n n' v v' hn hn' hv hv'
    obtain ⟨r, hr, rfl⟩ := Option.map_eq_some_iff.mp (List.getElem?_map.symm.trans hn)
    obtain ⟨r', hr', rfl⟩ := Option.map_eq_some_iff.mp (List.getElem?_map.symm.trans hn')
    have hkey := (hmember r (List.mem_of_getElem? hr) (r.key t)).mpr rfl
    have hsame : r'.key t = r.key t :=
      (hmember r' (List.mem_of_getElem? hr') (r.key t)).mp (by rw [hv', ← hv, hkey])
    have hlt : n < (rows.map (·.key t)).length := by
      rw [List.length_map]
      exact (List.getElem?_eq_some_iff.mp hr).1
    refine (List.getElem?_inj hlt hnodup).mp ?_
    rw [List.getElem?_map, List.getElem?_map, hr, hr', Option.map_some, Option.map_some, hsame]
  · obtain ⟨l, rfl, hcases⟩ := hlookup k hk
    constructor
    · intro hget v hv hkey
      obtain ⟨r, hr, rfl⟩ := List.mem_map.mp hv
      rcases hcases with ⟨-, hno⟩ | ⟨r', hr', -, hfound⟩
      · exact hno r hr ((hmember r hr l).mp hkey)
      · rw [hfound] at hget
        cases hget
    · intro hno
      rcases hcases with ⟨hmissing, -⟩ | ⟨r, hr, hkey, -⟩
      · exact hmissing
      · exact absurd ((hmember r hr l).mpr hkey) (hno _ (List.mem_map_of_mem hr))

end Table

/-! ## Databases -/

/-- The databases that started without tables and have moved, attempted to make a table with a storage that may not
commit, or been opened again, while no stored row was larger than a serial type can count. -/
inductive Fitted : Database → Prop
  | start : Fitted {}
  | move {s t : Database} (before : Fitted s) (h : Move (fun _ => True) s t) (fits : t.store.Fits) : Fitted t
  | attempt {s t : Database} {i : Nat} {committing : Except String Unit} (before : Fitted s)
      (h : s.attempt i committing = some t) (fits : t.store.Fits) : Fitted t
  | reopen {s t : Database} (before : Fitted s) (h : Database.ofStore s.store = .ok t) : Fitted t

namespace Fitted

variable {s t : Database}

theorem of_run {texts : String → Prop} (h : Run texts (·.store.Fits) s) : Fitted s := by
  induction h with
  | start => exact .start
  | move _ h fits ih => exact ih.move (h.mono fun _ _ => trivial) fits

theorem grown (h : Fitted s) : Grown s := by
  induction h with
  | start => exact .start
  | move _ h _ ih => exact ih.move h
  | attempt _ h _ ih => exact ih.attempt h
  | reopen _ h ih => exact ih.reopen h

theorem inOrder (h : Fitted s) : s.InOrder := by
  induction h with
  | start => exact Reachable.empty.inOrder
  | move _ h _ ih => exact ih.move h
  | attempt _ h _ ih =>
    obtain ⟨task, -, hchanges, -⟩ := Database.attempt_spec h
    exact ih.changes hchanges
  | reopen before h ih =>
    obtain rfl := before.grown.reopened h
    exact ⟨ih.schema, ih.store⟩

theorem keepsKeys (h : Fitted s) : s.KeepsKeys := by
  induction h with
  | start => exact Database.KeepsKeys.start
  | move _ h fits ih => exact ih.move fits h
  | attempt _ h fits ih =>
    obtain ⟨task, hmem, hchanges, htasks⟩ := Database.attempt_spec h
    exact ih.spec hmem fits hchanges htasks
  | reopen before h ih =>
    obtain rfl := before.grown.reopened h
    exact ⟨ih.schema, ih.rows, ih.unused, by simp⟩

/-- The handle on a table, as statements get it, finds a key of the type of the primary key if and only if the scan of
the handle gives a row with it, which is in increasing order of keys. The rows have the types of their tables. -/
theorem tabulates (h : Fitted s) (typed : RowsTyped s.schema s.store) {u : Table}
    (hu : Keyed.find? s.schema u.name = some u) :
    ((handles s.schema s.store).member u.name >>= fun v => v.member u.primaryKey.name) =
        .ok (.index (u.index s.store)) ∧
      ∃ rows keys, (u.index s.store).Tabulates rows keys := by
  have hvalid := h.inOrder.schema
  refine ⟨?_, _, _, Table.tabulates_index (hvalid.find? hu).1 (h.inOrder.store.entries u.name) (typed.forall₂_rows hu).2
    (Table.forall₂_stores hvalid typed h.keepsKeys.rows hu)⟩
  have hfind := hvalid.find?_ofList (fun t => Value.record [(t.primaryKey.name, .index (t.index s.store))]) hu
  simp only [Table.index] at hfind
  have hmember : (handles s.schema s.store).member u.name =
      .ok (.record [(u.primaryKey.name, .index (u.index s.store))]) := by
    simp only [handles, Value.recordOf, Value.member, hfind]
    rfl
  rw [hmember]
  simp only [bind, Except.bind, Value.member, Keyed.find?_cons, if_true]

namespace Sample

/-- Two rows, stored in the other order than that of their keys. -/
def script : List (String ⊕ Nat) :=
  [.inl "CREATE TABLE t (id int PRIMARY KEY, n string)", .inr 0,
    .inl "INSERT INTO t \x7bid: 2, n: \"b\"\x7d", .inr 1, .inr 1,
    .inl "INSERT INTO t \x7bid: -1, n: \"a\"\x7d", .inr 2, .inr 2]

/-- Whether a table has rows under the keys of both, and none under another one. -/
def found (s : Database) : Bool :=
  s.schema.any fun e => decide (e.2.primaryKey.type = .int) && ((e.2.index s.store).get (.int (-1))).toOption.isSome &&
    ((e.2.index s.store).get (.int 2)).toOption.isSome && ((e.2.index s.store).get (.int 3)).toOption.isNone

end Sample

open Fitted.Sample in
/-- After the database was opened again the scan gives the rows under both keys, and a third key is not found. -/
theorem tabulates_reopened : ∃ s u rows keys, Fitted s ∧ RowsTyped s.schema s.store ∧
    Keyed.find? s.schema u.name = some u ∧ (u.index s.store).Tabulates rows keys ∧
    (∃ r ∈ rows, r.member u.primaryKey.name = .ok (.int (-1))) ∧
    (∃ r ∈ rows, r.member u.primaryKey.name = .ok (.int 2)) ∧
    (u.index s.store).get (.int 3) = .error (.rowNotFound u.name "3") := by
  have hplay : (Database.play groundInsert (·.store.fits) 30 script {}).any found = true := by decide +kernel
  obtain ⟨s, hrun, htest⟩ := Run.exists_of_play hplay
  obtain ⟨e, he, htest⟩ := List.any_eq_true.mp htest
  simp only [Bool.and_eq_true, decide_eq_true_eq] at htest
  obtain ⟨⟨⟨htype, hfirst⟩, hsecond⟩, hthird⟩ := htest
  have hfitted : Fitted s := of_run hrun
  have hopen : Database.ofStore s.store = .ok { store := s.store, schema := s.schema } := by
    rw [Database.ofStore, hfitted.grown.load_schema]
  have typed : RowsTyped s.schema s.store := (Database.Typed.of_run hrun).rows
  have hvalid := hfitted.inOrder.schema
  have hu : Keyed.find? s.schema e.2.name = some e.2 := by
    rw [← hvalid.names e he]
    exact hvalid.ordered.find?_iff.mpr he
  obtain ⟨-, rows, keys, htabulates⟩ := tabulates (hfitted.reopen hopen) typed hu
  have hkey : ∀ n : Int64, (Value.int n).ty = (e.2.index s.store).key := fun n => congrArg ColumnType.ty htype.symm
  have hfound : ∀ n : Int64, ((e.2.index s.store).get (.int n)).toOption.isSome = true →
      ∃ r ∈ rows, r.member e.2.primaryKey.name = .ok (.int n) := by
    intro n hsome
    cases hget : (e.2.index s.store).get (.int n) with
    | ok r => exact ⟨r, (htabulates.get_iff _ (hkey n) r).mp hget⟩
    | error f => rw [hget] at hsome; cases hsome
  refine ⟨_, e.2, rows, keys, hfitted.reopen hopen, typed, hu, htabulates, hfound _ hfirst, hfound _ hsecond, ?_⟩
  refine (htabulates.missing_iff _ (hkey 3)).mpr fun r hr hmember => ?_
  rw [(htabulates.get_iff _ (hkey 3) r).mpr ⟨hr, hmember⟩] at hthird
  cases hthird

end Fitted

end LiveQuery
