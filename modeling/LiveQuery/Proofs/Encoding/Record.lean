import LiveQuery.Encoding.Record
import LiveQuery.Proofs.Encoding.Words
import LiveQuery.Proofs.Keyed
import LiveQuery.Proofs.Outcome
import Mathlib.Data.List.Forall2

/-! # Data as bytes

Data is numbers, booleans, texts, and records of data in key order (`Value.IsData`). What is read from
bytes is data (`Value.isData_of_decode`), and data that was written is read back as it was, as long as
its bytes can be counted by serial types (`Value.decode_encode`).
-/
namespace LiveQuery

mutual

/-- Whether a value is data: numbers, booleans, texts, and records of data in key order. -/
def Value.IsData : Value → Prop
  | .int _ | .bool _ | .str _ => True
  | .record fields => Keyed.Ordered fields ∧ FieldsAreData fields
  | .array .. | .iterator .. | .function _ | .index _ => False

def Value.FieldsAreData : List (String × Value) → Prop
  | [] => True
  | (_, v) :: rest => v.IsData ∧ FieldsAreData rest

end

theorem Value.fieldsAreData_iff {fields : List (String × Value)} :
    FieldsAreData fields ↔ ∀ f ∈ fields, f.2.IsData := by
  induction fields with
  | nil => simp [FieldsAreData]
  | cons f fields ih => simp [FieldsAreData, ih]

/-! ## What is read is data -/

namespace Record

theorem isData_of_fieldsOf {vs : List Value} {fields : List (String × Value)}
    (hv : ∀ v ∈ vs, v.IsData) (h : fieldsOf vs = .ok fields) : ∀ f ∈ fields, f.2.IsData := by
  fun_induction fieldsOf vs generalizing fields with
  | case1 name v rest ih =>
    obtain ⟨more, hr, h⟩ := ok_of_bind h
    cases h
    intro f hf
    rcases List.mem_cons.mp hf with rfl | hf
    · exact hv v (by simp)
    · exact ih (fun u hu => hv u (by simp [hu])) hr f hf
  | case2 => cases h
  | case3 => cases h; simp

theorem isData_of_bodyValue {entriesOf : Bytes → Except EncodingFault (List Value)}
    (he : ∀ data vs, entriesOf data = .ok vs → ∀ v ∈ vs, v.IsData) {code : Int} {data : Bytes}
    {v : Value} (h : bodyValue entriesOf code data = .ok v) : v.IsData := by
  unfold bodyValue at h
  split at h
  next => cases h; trivial
  split at h
  next => cases h; trivial
  split at h
  next => cases h; trivial
  split at h
  next => cases h; trivial
  split at h
  next => cases h; trivial
  split at h
  next =>
    split at h
    next =>
      split at h
      next => cases h; trivial
      next => cases h
    next =>
      obtain ⟨vs, hd, h⟩ := ok_of_bind h
      split at h
      next => cases h
      next =>
        obtain ⟨fields, hf, h⟩ := ok_of_bind h
        cases h
        refine ⟨Keyed.ordered_ofList fields, Value.fieldsAreData_iff.mpr fun f hmem => ?_⟩
        exact isData_of_fieldsOf (he data vs hd) hf f (Keyed.mem_of_mem_ofList hmem)
  next => cases h

theorem isData_of_readEntries {valueOf : Int → Bytes → Except EncodingFault Value} {b : Bytes}
    {headerEnd : Nat} (hv : ∀ code data v, valueOf code data = .ok v → v.IsData)
    {steps offset bodyOffset : Nat} {vs : List Value}
    (h : readEntries valueOf b headerEnd steps offset bodyOffset = .ok vs) : ∀ v ∈ vs, v.IsData := by
  induction steps generalizing offset bodyOffset vs with
  | zero => cases h; simp
  | succ steps ih =>
    simp only [readEntries] at h
    split at h
    next =>
      obtain ⟨⟨code, taken⟩, -, h⟩ := ok_of_bind h
      obtain ⟨size, -, h⟩ := ok_of_bind h
      obtain ⟨data, -, h⟩ := ok_of_bind h
      obtain ⟨v, hcode, h⟩ := ok_of_bind h
      obtain ⟨rest, hr, h⟩ := ok_of_bind h
      cases h
      intro u hu
      rcases List.mem_cons.mp hu with rfl | hu
      · exact hv code data u hcode
      · exact ih hr u hu
    next => cases h; simp

theorem isData_of_entriesWithin {depth : Nat} {b : Bytes} {vs : List Value}
    (h : entriesWithin depth b = .ok vs) : ∀ v ∈ vs, v.IsData := by
  induction depth generalizing b vs with
  | zero => cases h
  | succ depth ih =>
    obtain ⟨⟨headerEnd, offset⟩, -, h⟩ := ok_of_bind h
    dsimp only at h
    split at h
    next => cases h
    next => exact isData_of_readEntries (fun _ _ _ => isData_of_bodyValue fun _ _ => ih) h

end Record

/-- A value that was read from bytes is data. -/
theorem Value.isData_of_decode {b : Bytes} {v : Value} (h : Value.decode b = .ok v) : v.IsData := by
  obtain ⟨vs, hvs, h⟩ := ok_of_bind h
  split at h
  next u =>
    cases h
    exact Record.isData_of_entriesWithin hvs v List.mem_cons_self
  next => cases h

/-! ## Headers -/

namespace Record

/-- Counting up reaches a header length that is right, if some length within reach is not too small. -/
theorem headerLengthFrom_spec (steps types k : Nat) (hk : k < steps)
    (hfit : (Varint.write (types + 1 + k)).length ≤ 1 + k) (start : Nat) (hs : start ≤ k)
    (hlow : start = 0 ∨ start < (Varint.write (types + 1 + start)).length) :
    (Varint.write (headerLengthFrom (steps - start) types (types + 1 + start))).length + types =
      headerLengthFrom (steps - start) types (types + 1 + start) := by
  induction hn : k - start generalizing start with
  | zero =>
    obtain rfl : start = k := by omega
    have hpos := Varint.length_write_pos (types + 1 + start)
    have heq : (Varint.write (types + 1 + start)).length + types = types + 1 + start := by omega
    obtain ⟨n, hsub⟩ : ∃ n, steps - start = n + 1 := ⟨steps - start - 1, by omega⟩
    rw [hsub, headerLengthFrom, if_pos heq, heq]
  | succ n ih =>
    obtain ⟨m, hsub⟩ : ∃ m, steps - start = m + 1 := ⟨steps - start - 1, by omega⟩
    rw [hsub, headerLengthFrom]
    split
    next heq => exact heq
    next hne =>
      have hpos := Varint.length_write_pos (types + 1 + start)
      have hmono : (Varint.write (types + 1 + start)).length ≤
          (Varint.write (types + 1 + (start + 1))).length := Varint.length_write_mono (by omega)
      have hnext := ih (start + 1) (by omega) (Or.inr (by omega)) (by omega)
      have hm : m = steps - (start + 1) := by omega
      rw [hm, Nat.add_assoc (types + 1) start 1]
      exact hnext

/-- A header length is the size of its own bytes and of the serial types. -/
theorem headerLength_spec (types : Nat) :
    (Varint.write (headerLength types)).length + types = headerLength types :=
  headerLengthFrom_spec 9 types 8 (by omega) (Varint.length_write_le _) 0 (by omega) (Or.inl rfl)

/-! ## Reading what was written -/

/-- Reading the entry gives the value. -/
structure Entry.Reads (valueOf : Int → Bytes → Except EncodingFault Value) (e : Entry) (v : Value) :
    Prop where
  small : 2 * e.code < Varint.wordRange
  size : bodySize e.code = .ok e.body.length
  value : valueOf e.code e.body = .ok v

theorem length_le_typeBytes (es : List Entry) : es.length ≤ (typeBytes es).length := by
  induction es with
  | nil => exact Nat.zero_le _
  | cons e es ih =>
    have hpos := Varint.length_write_pos e.code
    rw [typeBytes, List.flatMap_cons, List.length_append, List.length_cons]
    rw [typeBytes] at ih
    omega

/-- Serial types and bodies that were written one after another are read one after another. -/
theorem readEntries_spec {valueOf : Int → Bytes → Except EncodingFault Value} {b : Bytes}
    {es : List Entry} {vs : List Value} (h : List.Forall₂ (Entry.Reads valueOf) es vs)
    {headerEnd steps offset bodyOffset : Nat} {tail rest : Bytes}
    (hend : offset + (typeBytes es).length = headerEnd) (hsteps : es.length ≤ steps)
    (htypes : b.drop offset = typeBytes es ++ tail)
    (hbodies : b.drop bodyOffset = es.flatMap Entry.body ++ rest) (hbody : bodyOffset ≤ b.length) :
    readEntries valueOf b headerEnd steps offset bodyOffset = .ok vs := by
  induction h generalizing steps offset bodyOffset with
  | nil =>
    cases steps with
    | zero => rfl
    | succ steps =>
      rw [typeBytes, List.flatMap_nil, List.length_nil] at hend
      rw [readEntries, if_neg (by omega)]
  | @cons e v es vs hev _ ih =>
    obtain ⟨n, rfl⟩ : ∃ n, steps = n + 1 := ⟨steps - 1, by rw [List.length_cons] at hsteps; omega⟩
    have hpos := Varint.length_write_pos e.code
    have hcode : typeBytes (e :: es) = Varint.write e.code ++ typeBytes es := List.flatMap_cons
    rw [hcode, List.length_append] at hend
    rw [hcode, List.append_assoc] at htypes
    rw [List.flatMap_cons, List.append_assoc] at hbodies
    have hsmall := hev.small
    have hread : Varint.read (b.drop offset) = .ok (e.code, (Varint.write e.code).length) := by
      rw [htypes, Varint.read_write (by omega), Varint.signed_of_lt hsmall]
    have hlen : bodyOffset + e.body.length ≤ b.length := by
      have hdrop := congrArg List.length hbodies
      rw [List.length_drop, List.length_append] at hdrop
      omega
    have hslice : slice b bodyOffset e.body.length = .ok e.body := by
      rw [slice, if_pos hlen, hbodies, List.take_left]
    have hrest : readEntries valueOf b headerEnd n (offset + (Varint.write e.code).length)
        (bodyOffset + e.body.length) = .ok vs := ih (by omega)
      (by rw [List.length_cons] at hsteps; omega)
      (by rw [← List.drop_drop, htypes, List.drop_left])
      (by rw [← List.drop_drop, hbodies, List.drop_left]) hlen
    rw [readEntries, if_pos (by omega), hread]
    simp only [bind, Except.bind, hev.size, hslice, hev.value, hrest]
    rfl

theorem length_assemble (es : List Entry) :
    (assemble es).length = headerLength (typeBytes es).length + (es.flatMap Entry.body).length := by
  rw [assemble, List.length_append, List.length_append, headerLength_spec]

/-- The header length at the front of entries that were put together. -/
theorem read_assemble {es : List Entry} (hb : 2 * (assemble es).length < Varint.wordRange) (rest : Bytes) :
    Varint.read (assemble es ++ rest) = .ok (headerLength (typeBytes es).length,
      (Varint.write (headerLength (typeBytes es).length)).length) := by
  have hlen := length_assemble es
  rw [assemble, List.append_assoc, List.append_assoc, Varint.read_write (by omega), Varint.signed_of_lt (by omega)]

/-- The entries that were put together are read, whatever bytes follow. -/
theorem entriesWithin_assemble {depth : Nat} {es : List Entry} {vs : List Value}
    (h : List.Forall₂ (Entry.Reads (bodyValue (entriesWithin depth))) es vs)
    (hb : 2 * (assemble es).length < Varint.wordRange) (rest : Bytes) :
    entriesWithin (depth + 1) (assemble es ++ rest) = .ok vs := by
  have hlen := length_assemble es
  have hwhole : (assemble es ++ rest).length = (assemble es).length + rest.length := List.length_append
  have hheader := headerLength_spec (typeBytes es).length
  have hcount := length_le_typeBytes es
  have hbodies : (assemble es ++ rest).drop (headerLength (typeBytes es).length) =
      es.flatMap Entry.body ++ rest := by
    rw [assemble, List.append_assoc, List.drop_left' (by rw [List.length_append, hheader])]
  have hentries : readEntries (bodyValue (entriesWithin depth)) (assemble es ++ rest)
      (headerLength (typeBytes es).length) (headerLength (typeBytes es).length)
      (Varint.write (headerLength (typeBytes es).length)).length
      (headerLength (typeBytes es).length) = .ok vs :=
    readEntries_spec h hheader (by omega)
      (by rw [assemble, List.append_assoc, List.append_assoc, List.drop_left]) hbodies (by omega)
  rw [entriesWithin, read_assemble hb]
  simp only [bind, Except.bind]
  rw [if_neg (by omega)]
  exact hentries

/-! ## Entries of data -/

/-- A whole number in two's complement of a width that is wide enough. -/
theorem wordEntry_reads {code w : Nat} {n : Int64}
    (entriesOf : Bytes → Except EncodingFault (List Value))
    (hcode : (code : Int) = 1 ∨ (code : Int) = 2 ∨ (code : Int) = 4 ∨ (code : Int) = 6)
    (hsize : bodySize code = .ok w) (hlow : -(BigEndian.range w : Int) ≤ 2 * n.toInt)
    (hhigh : 2 * n.toInt < BigEndian.range w) :
    (Entry.mk code (BigEndian.writeInt w n.toInt)).Reads (bodyValue entriesOf) (.int n) where
  small := by
    show 2 * code < 18446744073709551616
    omega
  size := by rw [hsize, BigEndian.writeInt, BigEndian.length_write]
  value := by rw [bodyValue, if_pos hcode, BigEndian.readInt_writeInt hlow hhigh, Int64.ofInt_toInt]

theorem intEntry_reads (n : Int64) (entriesOf : Bytes → Except EncodingFault (List Value)) :
    (intEntry n.toInt).Reads (bodyValue entriesOf) (.int n) := by
  have hlow : -9223372036854775808 ≤ n.toInt := n.le_toInt
  have hhigh : n.toInt < 9223372036854775808 := n.toInt_lt
  have hself : Int64.ofInt n.toInt = n := Int64.ofInt_toInt n
  have h1 : BigEndian.range 1 = 256 := rfl
  have h2 : BigEndian.range 2 = 65536 := rfl
  have h4 : BigEndian.range 4 = 4294967296 := rfl
  have h8 : BigEndian.range 8 = 18446744073709551616 := rfl
  unfold intEntry
  split
  next h =>
    have hn : n = 0 := by rw [← hself, h]; rfl
    exact ⟨by decide, rfl, by rw [hn]; rfl⟩
  split
  next h =>
    have hn : n = 1 := by rw [← hself, h]; rfl
    exact ⟨by decide, rfl, by rw [hn]; rfl⟩
  split
  next => exact wordEntry_reads entriesOf (by omega) rfl (by omega) (by omega)
  split
  next => exact wordEntry_reads entriesOf (by omega) rfl (by omega) (by omega)
  split
  next => exact wordEntry_reads entriesOf (by omega) rfl (by omega) (by omega)
  next => exact wordEntry_reads entriesOf (by omega) rfl (by omega) (by omega)

theorem bodySize_of_large {code len : Nat} (h : 12 ≤ code) (hlen : (code - 12) / 2 = len) :
    bodySize code = .ok len := by
  have h1 : ¬ (code : Int) = 1 := by omega
  have h2 : ¬ (code : Int) = 2 := by omega
  have h4 : ¬ (code : Int) = 4 := by omega
  have h6 : ¬ (code : Int) = 6 := by omega
  have h8 : ¬ (8 ≤ (code : Int) ∧ (code : Int) ≤ 11) := by omega
  have h12 : (12 : Int) ≤ code := by omega
  have hint : (((code : Int) - 12) / 2).toNat = len := by omega
  simp only [bodySize, if_neg h1, if_neg h2, if_neg h4, if_neg h6, if_neg h8, if_pos h12, hint]

section Large

variable {entriesOf : Bytes → Except EncodingFault (List Value)} {code : Nat} {data : Bytes}

/-- A large serial type is none of the small ones. -/
theorem not_small (h : 12 ≤ code) :
    ¬ ((code : Int) = 1 ∨ (code : Int) = 2 ∨ (code : Int) = 4 ∨ (code : Int) = 6) ∧
      ¬ (code : Int) = 8 ∧ ¬ (code : Int) = 9 ∧ ¬ (code : Int) = 10 ∧ ¬ (code : Int) = 11 ∧
      (12 : Int) ≤ code := by
  omega

theorem bodyValue_text (h : 12 ≤ code) (hodd : code % 2 = 1) {s : String}
    (hs : Text.ofUtf8? data = some s) : bodyValue entriesOf code data = .ok (.str s) := by
  obtain ⟨hsmall, h8, h9, h10, h11, h12⟩ := not_small h
  have hmod : (code : Int) % 2 = 1 := by omega
  simp only [bodyValue, if_neg hsmall, if_neg h8, if_neg h9, if_neg h10, if_neg h11, if_pos h12,
    if_pos hmod, hs]

theorem bodyValue_record (h : 12 ≤ code) (heven : code % 2 = 0) {vs : List Value}
    {fields : List (String × Value)} (hvs : entriesOf data = .ok vs) (hlen : vs.length % 2 = 0)
    (hf : fieldsOf vs = .ok fields) : bodyValue entriesOf code data = .ok (Value.recordOf fields) := by
  obtain ⟨hsmall, h8, h9, h10, h11, h12⟩ := not_small h
  have hmod : ¬ (code : Int) % 2 = 1 := by omega
  have hodd : ¬ vs.length % 2 ≠ 0 := by omega
  simp only [bodyValue, if_neg hsmall, if_neg h8, if_neg h9, if_neg h10, if_neg h11, if_pos h12,
    if_neg hmod, bind, Except.bind, hvs, if_neg hodd, hf]
  rfl

end Large

theorem textEntry_reads (s : String) (entriesOf : Bytes → Except EncodingFault (List Value))
    (h : 2 * (textEntry s).code < Varint.wordRange) :
    (textEntry s).Reads (bodyValue entriesOf) (.str s) := by
  have hcode : (textEntry s).code = 13 + 2 * (Text.utf8 s).length := rfl
  exact ⟨h, bodySize_of_large (by omega) (by simp only [textEntry]; omega),
    bodyValue_text (by omega) (by omega) (Text.ofUtf8?_utf8 s)⟩

/-- The names and values of fields in turn. -/
def parts (fields : List (String × Value)) : List Value := fields.flatMap fun f => [.str f.1, f.2]

theorem fieldsOf_parts (fields : List (String × Value)) : fieldsOf (parts fields) = .ok fields := by
  induction fields with
  | nil => rfl
  | cons f fields ih =>
    show fieldsOf (.str f.1 :: f.2 :: parts fields) = _
    rw [fieldsOf, ih]
    rfl

theorem length_parts (fields : List (String × Value)) : (parts fields).length % 2 = 0 := by
  induction fields with
  | nil => rfl
  | cons f fields ih =>
    show ((parts fields).length + 1 + 1) % 2 = 0
    omega

/-- The bodies in a record are shorter than the record. -/
theorem length_body_lt {es : List Entry} {e : Entry} (h : e ∈ es) :
    e.body.length + 2 ≤ (assemble es).length := by
  obtain ⟨before, after, rfl⟩ := List.append_of_mem h
  have hpos := Varint.length_write_pos (headerLength (typeBytes (before ++ e :: after)).length)
  have hheader := headerLength_spec (typeBytes (before ++ e :: after)).length
  have htypes := length_le_typeBytes (before ++ e :: after)
  have hlen := length_assemble (before ++ e :: after)
  simp only [List.flatMap_append, List.flatMap_cons, List.length_append, List.length_cons] at hlen htypes
  omega

/-- The serial type of a value tells little more than the length of its body. -/
theorem code_le {v : Value} {e : Entry} (h : entry v = .ok e) : e.code ≤ 13 + 2 * e.body.length := by
  cases v with
  | int n =>
    cases h
    unfold intEntry
    repeat' split
    all_goals simp only []; omega
  | bool b =>
    cases h
    cases b <;> simp
  | str s =>
    cases h
    exact Nat.le_refl _
  | record fields =>
    obtain ⟨es, -, h⟩ := ok_of_bind h
    cases h
    simp only [recordEntry]
    omega
  | array | iterator | function | index => cases h

/-- A serial type counts its body twice, or the body is a number of at most eight bytes. -/
theorem length_body_le {v : Value} {e : Entry} (h : entry v = .ok e) :
    2 * e.body.length ≤ e.code + 16 := by
  cases v with
  | int n =>
    cases h
    unfold intEntry
    repeat' split
    all_goals simp only [List.length_nil, BigEndian.writeInt, BigEndian.length_write]; omega
  | bool b =>
    cases h
    simp
  | str s =>
    cases h
    simp only [textEntry]
    omega
  | record fields =>
    obtain ⟨es, -, h⟩ := ok_of_bind h
    cases h
    simp only [recordEntry]
    omega
  | array | iterator | function | index => cases h

theorem textCode_le (s : String) : (textEntry s).code ≤ 13 + 2 * (textEntry s).body.length :=
  Nat.le_refl _

mutual

/-- The entry of data is read as the data, where records of its depth can be read. -/
theorem entry_reads : (v : Value) → v.IsData → (e : Entry) → entry v = .ok e →
    2 * e.code < Varint.wordRange → (depth : Nat) → e.body.length < depth →
    e.Reads (bodyValue (entriesWithin depth)) v
  | .int n, _, e, h, _, depth, _ => by
    cases h
    exact intEntry_reads n _
  | .bool b, _, e, h, _, depth, _ => by
    cases h
    cases b <;> exact ⟨by decide, rfl, rfl⟩
  | .str s, _, e, h, hsmall, depth, _ => by
    cases h
    exact textEntry_reads s _ hsmall
  | .record fields, hd, e, h, hsmall, depth, hdepth => by
    obtain ⟨es, hes, h⟩ := ok_of_bind h
    cases h
    have hcode : (recordEntry es).code = 12 + 2 * (assemble es).length := rfl
    have hbody : (recordEntry es).body = assemble es := rfl
    rw [hbody] at hdepth
    obtain ⟨d, rfl⟩ : ∃ d, depth = d + 1 := ⟨depth - 1, by omega⟩
    have hreads := fieldEntries_read fields hd.2 es hes d
      (fun e he => by have := length_body_lt he; omega)
      (fun e he => by have := length_body_lt he; omega)
    have hentries := entriesWithin_assemble hreads (by omega) []
    rw [List.append_nil] at hentries
    have hvalue := bodyValue_record (by omega : 12 ≤ (recordEntry es).code) (by omega) hentries
      (length_parts fields) (fieldsOf_parts fields)
    rw [Value.recordOf, Keyed.ofList_of_ordered hd.1] at hvalue
    exact ⟨hsmall, bodySize_of_large (by omega) (by rw [hbody]; omega), hvalue⟩
  | .array .., hd, _, _, _, _, _ | .iterator .., hd, _, _, _, _, _ => hd.elim
  | .function _, hd, _, _, _, _, _ | .index _, hd, _, _, _, _, _ => hd.elim

theorem fieldEntries_read : (fields : List (String × Value)) → Value.FieldsAreData fields →
    (es : List Entry) → fieldEntries fields = .ok es → (depth : Nat) →
    (∀ e ∈ es, 26 + 4 * e.body.length < Varint.wordRange) → (∀ e ∈ es, e.body.length < depth) →
    List.Forall₂ (Entry.Reads (bodyValue (entriesWithin depth))) es (parts fields)
  | [], _, es, h, _, _, _ => by
    cases h
    exact .nil
  | (name, v) :: rest, hd, es, h, depth, hsmall, hdepth => by
    obtain ⟨e, he, h⟩ := ok_of_bind h
    obtain ⟨more, hmore, h⟩ := ok_of_bind h
    cases h
    obtain ⟨hname, hsmall⟩ := List.forall_mem_cons.mp hsmall
    obtain ⟨hvalue, hsmall⟩ := List.forall_mem_cons.mp hsmall
    obtain ⟨-, hdepth⟩ := List.forall_mem_cons.mp hdepth
    obtain ⟨hv, hdepth⟩ := List.forall_mem_cons.mp hdepth
    have hncode := textCode_le name
    have hvcode := code_le he
    exact .cons (textEntry_reads name _ (by omega))
      (.cons (entry_reads v hd.1 e he (by omega) depth hv)
        (fieldEntries_read rest hd.2 more hmore depth hsmall hdepth))

end

end Record

namespace Value

/-- The bytes of a value whose serial type is a signed number of 64 bits can be counted by one. -/
theorem length_assemble_lt {v : Value} {e : Record.Entry} (he : Record.entry v = .ok e)
    (hsmall : 2 * e.code < Varint.wordRange) : 2 * (Record.assemble [e]).length < Varint.wordRange := by
  have hbody := Record.length_body_le he
  have hwrite := Varint.length_write_le e.code
  have hheader := Record.headerLength_spec (Record.typeBytes [e]).length
  have hwrites := Varint.length_write_le (Record.headerLength (Record.typeBytes [e]).length)
  have hassemble := Record.length_assemble [e]
  have hword : Varint.wordRange = 18446744073709551616 := rfl
  simp only [Record.typeBytes, List.flatMap_cons, List.flatMap_nil, List.append_nil]
    at hassemble hheader hwrites
  omega

/-- Data that was written is read back, whatever bytes follow, as long as its serial type is a signed number of 64
bits. -/
theorem decode_assemble_append {v : Value} {e : Record.Entry} (hd : v.IsData) (he : Record.entry v = .ok e)
    (hsmall : 2 * e.code < Varint.wordRange) (rest : Bytes) :
    Value.decode (Record.assemble [e] ++ rest) = .ok v := by
  have hbody := Record.length_body_lt (List.mem_singleton_self e)
  have hwhole : (Record.assemble [e] ++ rest).length = (Record.assemble [e]).length + rest.length :=
    List.length_append
  have hreads := Record.entry_reads v hd e he hsmall (Record.assemble [e] ++ rest).length (by omega)
  have hentries := Record.entriesWithin_assemble (.cons hreads .nil) (length_assemble_lt he hsmall) rest
  rw [decode, Record.entries, hentries]
  rfl

theorem decode_assemble {v : Value} {e : Record.Entry} (hd : v.IsData) (he : Record.entry v = .ok e)
    (hsmall : 2 * e.code < Varint.wordRange) : Value.decode (Record.assemble [e]) = .ok v := by
  have h := decode_assemble_append hd he hsmall []
  rwa [List.append_nil] at h

/-- Data that was written is read back. A serial type counts twice the bytes it describes, in 64 bits
with a sign, which bounds the bytes. -/
theorem decode_encode {v : Value} {b : Bytes} (hd : v.IsData) (h : v.encode = .ok b)
    (hb : b.length < 2 ^ 62) : Value.decode b = .ok v := by
  obtain ⟨e, he, h⟩ := ok_of_bind h
  cases h
  have hcode := Record.code_le he
  have hbody := Record.length_body_lt (List.mem_singleton_self e)
  have hword : Varint.wordRange = 18446744073709551616 := rfl
  have hgroups : Varint.groupsRange = 72057594037927936 := rfl
  refine decode_assemble hd he ?_
  by_cases hlt : e.code < Varint.groupsRange
  · omega
  · -- such a serial type takes nine bytes itself
    have hnine : (Varint.write e.code).length = 9 := by
      rw [Varint.write, if_neg hlt, Varint.length_writeGroups, List.length_singleton]
    have hlen := Record.length_assemble [e]
    have hheader := Record.headerLength_spec (Record.typeBytes [e]).length
    simp only [Record.typeBytes, List.flatMap_cons, List.flatMap_nil, List.append_nil, hnine]
      at hlen hheader
    omega

end Value

end LiveQuery
