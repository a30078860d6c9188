import Mathlib.Algebra.GroupWithZero.Nat
import LiveQuery.Proofs.Encoding.Storable

/-! # Reading within bounds

Bytes of any origin may tell any lengths. `Bounded.decode` reads a value from them with offsets of 64 bits, and is
stopped where it would add beyond them, look at a place outside of the bytes, not get on, or go into the body of a
record that is not shorter than what it stands in. It takes no fuel: it ends because of the last two. It is never
stopped, and gives what `Value.decode` gives (`Bounded.run_decode`).
-/
namespace LiveQuery

/-! ## The numbers in the bytes -/

namespace Varint

theorem two_mul_signed_lt {n : Nat} (hn : n < wordRange) : 2 * signed n < wordRange := by
  rw [signed]
  split <;> omega

/-- Reading on takes a byte at least, none that is not there, and at most the nine that a number may have. -/
theorem readFrom_taken {left taken n k : Nat} {b : Bytes} {v : Int} (h : readFrom left taken n b = .ok (v, k)) :
    taken < k ∧ k ≤ taken + left + 1 ∧ k ≤ taken + b.length := by
  induction b generalizing left taken n with
  | nil => cases left <;> cases h
  | cons x rest ih =>
    rw [List.length_cons]
    cases left with
    | zero =>
      rw [readFrom] at h
      cases h
      omega
    | succ left =>
      rw [readFrom] at h
      split at h
      next =>
        cases h
        omega
      next =>
        have := ih h
        omega

/-- A number of 64 bits in two's complement is read: each byte but the ninth adds seven bits, and the ninth eight. -/
theorem readFrom_lt {left taken n k : Nat} {b : Bytes} {v : Int} (hn : (n + 1) * 2 ^ (7 * left + 8) ≤ wordRange)
    (h : readFrom left taken n b = .ok (v, k)) : 2 * v < wordRange := by
  induction b generalizing left taken n with
  | nil => cases left <;> cases h
  | cons x rest ih =>
    have hx := x.toNat_lt
    cases left with
    | zero =>
      rw [readFrom] at h
      cases h
      exact two_mul_signed_lt (by omega)
    | succ left =>
      have hpow : 2 ^ (7 * (left + 1) + 8) = 128 * 2 ^ (7 * left + 8) := by
        rw [show 7 * (left + 1) + 8 = 7 + (7 * left + 8) by omega, Nat.pow_add]
      have hgroup : ∀ m < 128, (n * 128 + m + 1) * 2 ^ (7 * left + 8) ≤ wordRange := fun m hm => calc
        _ ≤ (n + 1) * 128 * 2 ^ (7 * left + 8) := Nat.mul_le_mul_right _ (by omega)
        _ = (n + 1) * 2 ^ (7 * (left + 1) + 8) := by rw [hpow, Nat.mul_assoc]
        _ ≤ wordRange := hn
      rw [readFrom] at h
      split at h
      next hsmall =>
        cases h
        have hlast := hgroup x.toNat (UInt8.lt_iff_toNat_lt.mp hsmall)
        exact two_mul_signed_lt (Nat.le_trans (Nat.le_mul_of_pos_right _ (Nat.two_pow_pos _)) hlast)
      next => exact ih (hgroup _ (by omega)) h

theorem read_lt {b : Bytes} {v : Int} {k : Nat} (h : read b = .ok (v, k)) : 2 * v < wordRange :=
  readFrom_lt (by decide) h

theorem read_taken {b : Bytes} {v : Int} {k : Nat} (h : read b = .ok (v, k)) : 0 < k ∧ k ≤ 9 ∧ k ≤ b.length := by
  have := readFrom_taken h
  omega

end Varint

/-! ## The reader -/

/-- A reading: it has a value or a fault, or is stopped. -/
abbrev Bounded := ExceptT EncodingFault Option

namespace Bounded

variable {α β : Type}

/-- The reading that is stopped. -/
def stop : Bounded α := ExceptT.mk none

/-- The reading with the given outcome. -/
def done (r : Except EncodingFault α) : Bounded α := ExceptT.mk (some r)

/-- The outcome of a reading as a value. -/
def outcome (x : Bounded α) : Bounded (Except EncodingFault α) := ExceptT.mk (x.run.map .ok)

/-- The sum of two offsets, if 64 bits write it. -/
def add (m n : Nat) : Bounded Nat := if m + n < Varint.wordRange then done (.ok (m + n)) else stop

/-- The bytes from a place on, which is one in the bytes or right behind them. -/
def dropTo (b : Bytes) (offset : Nat) : Bounded Bytes := if offset ≤ b.length then done (.ok (b.drop offset)) else stop

mutual

/-- The entries in some bytes. -/
def entries (b : Bytes) : Bounded (List Value) := do
  let (headerEnd, offset) ← done (Varint.read b)
  if headerEnd < 0 ∨ (b.length : Int) < headerEnd then throw .truncated
  entriesFrom b headerEnd.toNat offset headerEnd.toNat
termination_by (b.length, 2, 0)

/-- The entries whose serial types lie from `offset` up to `headerEnd`, their bodies from `bodyOffset` on. -/
def entriesFrom (b : Bytes) (headerEnd offset bodyOffset : Nat) : Bounded (List Value) :=
  if _htype : offset < headerEnd then do
    let (code, taken) ← done (Varint.read (← dropTo b offset))
    let next ← add offset taken
    let size ← done (Record.bodySize code)
    let bodyEnd ← add bodyOffset size
    let data ← done (Record.slice b bodyOffset size)
    let v ← bodyValue b code data
    if _hnext : offset < next then return v :: (← entriesFrom b headerEnd next bodyEnd) else stop
  else pure []
termination_by (b.length, 1, headerEnd - offset)

/-- The value of a body in the bytes `b` by its serial type. -/
def bodyValue (b : Bytes) (code : Int) (data : Bytes) : Bounded Value :=
  if 12 ≤ code ∧ code % 2 = 0 then
    if _hshorter : data.length < b.length then do
      let fields ← outcome (entries data)
      done (Record.bodyValue (fun _ => fields) code data)
    else stop
  else done (Record.bodyValue (fun _ => .ok []) code data)
termination_by (b.length, 0, 0)

end

/-- The value at the front of the bytes. -/
def decode (b : Bytes) : Bounded Value := do
  match ← entries b with
  | [v] => return v
  | _ => throw .truncated

end Bounded

/-! ## The two readers -/

namespace Record

/-- What an entry comes to depends on the reader of the entries of a record only if it is one, and then on what it
reads of the body. -/
theorem bodyValue_congr {f g : Bytes → Except EncodingFault (List Value)} {code : Int} {data : Bytes}
    (h : 12 ≤ code → code % 2 = 0 → f data = g data) : bodyValue f code data = bodyValue g code data := by
  unfold bodyValue
  split
  next => rfl
  split
  next => rfl
  split
  next => rfl
  split
  next => rfl
  split
  next => rfl
  split
  next hlarge =>
    split
    next => rfl
    next heven => rw [h hlarge (by omega)]
  next => rfl

theorem bodySize_le {code : Int} {size : Nat} (hcode : 2 * code < Varint.wordRange) (h : bodySize code = .ok size) :
    size < Varint.wordRange / 4 := by
  have hword : Varint.wordRange = 18446744073709551616 := rfl
  unfold bodySize at h
  repeat' split at h
  all_goals cases h <;> omega

theorem slice_ok {b data : Bytes} {offset size : Nat} (h : slice b offset size = .ok data) :
    offset + size ≤ b.length ∧ data.length = size := by
  unfold slice at h
  split at h
  next hle =>
    cases h
    rw [List.length_take, List.length_drop]
    omega
  next => cases h

end Record

namespace Bounded

variable {α β : Type}

theorem done_bind (r : Except EncodingFault α) (f : α → Except EncodingFault β) :
    done (r >>= f) = done r >>= fun a => done (f a) := by
  cases r <;> rfl

theorem done_bind_congr {r : Except EncodingFault α} {f g : α → Bounded β} (h : ∀ a, r = .ok a → f a = g a) :
    done r >>= f = done r >>= g := by
  cases r with
  | ok a => exact h a rfl
  | error e => rfl

theorem done_ok_bind (a : α) (f : α → Bounded β) : done (.ok a) >>= f = f a := rfl

theorem add_eq {m n : Nat} (h : m + n < Varint.wordRange) : add m n = done (.ok (m + n)) := if_pos h

theorem dropTo_eq {b : Bytes} {offset : Nat} (h : offset ≤ b.length) : dropTo b offset = done (.ok (b.drop offset)) :=
  if_pos h

theorem bodyValue_eq {depth : Nat} {b data : Bytes} (code : Int) (hshorter : data.length < b.length)
    (hinside : entries data = done (Record.entriesWithin depth data)) :
    bodyValue b code data = done (Record.bodyValue (Record.entriesWithin depth) code data) := by
  rw [bodyValue]
  split
  next =>
    rw [hinside]
    exact congrArg done (Record.bodyValue_congr fun _ _ => rfl)
  next hcode => exact congrArg done (Record.bodyValue_congr fun hlarge heven => absurd ⟨hlarge, heven⟩ hcode)

/-- The entries are read without a stop, if records inside are: the places of the serial types lie in front of the
bodies, and the bodies that are read lie in the bytes. -/
theorem entriesFrom_eq {depth : Nat} {b : Bytes} (hb : b.length < 2 ^ 63)
    (hinside : ∀ data : Bytes, data.length < b.length → entries data = done (Record.entriesWithin depth data))
    {headerEnd steps offset bodyOffset : Nat} (hsteps : headerEnd ≤ offset + steps) (hheader : headerEnd ≤ bodyOffset)
    (hbody : bodyOffset ≤ b.length) :
    entriesFrom b headerEnd offset bodyOffset =
      done (Record.readEntries (Record.bodyValue (Record.entriesWithin depth)) b headerEnd steps offset
        bodyOffset) := by
  have hword : Varint.wordRange = 18446744073709551616 := rfl
  induction steps generalizing offset bodyOffset with
  | zero => rw [entriesFrom, dif_neg (by omega)]; rfl
  | succ steps ih =>
    rw [entriesFrom, Record.readEntries]
    split
    next htype =>
      rw [dropTo_eq (by omega), done_ok_bind, done_bind]
      refine done_bind_congr fun number hcode => ?_
      obtain ⟨code, taken⟩ := number
      have hlt := Varint.read_lt hcode
      obtain ⟨hpos, hnine, -⟩ := Varint.read_taken hcode
      dsimp only
      rw [add_eq (by omega), done_ok_bind, done_bind]
      refine done_bind_congr fun size hsize => ?_
      have hquarter := Record.bodySize_le hlt hsize
      rw [add_eq (by omega), done_ok_bind, done_bind]
      refine done_bind_congr fun data hdata => ?_
      obtain ⟨hfits, hlen⟩ := Record.slice_ok hdata
      have hshorter : data.length < b.length := by omega
      rw [bodyValue_eq code hshorter (hinside data hshorter), done_bind]
      refine done_bind_congr fun v _ => ?_
      rw [dif_pos (by omega), ih (by omega) (by omega) hfits, done_bind]
      rfl
    next => rfl

theorem entries_eq {depth : Nat} {b : Bytes} (hb : b.length < 2 ^ 63) (hdepth : b.length < depth) :
    entries b = done (Record.entriesWithin depth b) := by
  induction depth generalizing b with
  | zero => omega
  | succ depth ih =>
    rw [entries, Record.entriesWithin, done_bind]
    refine done_bind_congr fun number hheader => ?_
    obtain ⟨headerEnd, offset⟩ := number
    dsimp only
    split
    next => rfl
    next hlen =>
      exact entriesFrom_eq hb (fun data hdata => ih (by omega) (by omega)) (by omega) (Nat.le_refl _) (by omega)

/-- The reader is never stopped, and gives what decoding gives. -/
theorem run_decode {b : Bytes} (hb : b.length < 2 ^ 63) : (decode b).run = some (Value.decode b) := by
  have hdecode : decode b = done (Value.decode b) := by
    rw [decode, entries_eq hb (Nat.lt_succ_self _), Value.decode, done_bind]
    refine done_bind_congr fun vs _ => ?_
    rcases vs with _ | ⟨v, _ | ⟨u, rest⟩⟩ <;> rfl
  rw [hdecode]
  rfl

end Bounded

namespace Text

/-- A text that was read from bytes has these bytes. -/
theorem utf8_of_ofUtf8? {b : Bytes} {s : String} (h : ofUtf8? b = some s) : utf8 s = b := by
  unfold ofUtf8? String.fromUTF8? at h
  split at h
  next =>
    cases h
    rw [utf8, ByteArray.toList, toList_loop]
    rfl
  next => cases h

end Text

/-! ## How many bytes a value takes again -/

namespace Record

/-- The bytes that a value takes in a record at most: its body, and nine for its serial type. -/
def width (v : Value) : Nat :=
  match entry v with
  | .ok e => 9 + e.body.length
  | .error _ => 0

/-- The bytes that the names and values of fields take in a record at most. -/
def fieldsWidth (fields : List (String × Value)) : Nat := (fields.map fun f => width (.str f.1) + width f.2).sum

theorem width_eq {v : Value} {e : Entry} (h : entry v = .ok e) : width v = 9 + e.body.length := by
  rw [width, h]

theorem fieldsWidth_cons (name : String) (v : Value) (fields : List (String × Value)) :
    fieldsWidth ((name, v) :: fields) = width (.str name) + width v + fieldsWidth fields := by
  rw [fieldsWidth, List.map_cons, List.sum_cons, fieldsWidth]

theorem length_assemble_le (es : List Entry) : (assemble es).length ≤ 9 + (es.map fun e => 9 + e.body.length).sum := by
  have hheader := headerLength_spec (typeBytes es).length
  have hnine := Varint.length_write_le (headerLength (typeBytes es).length)
  have hparts : (typeBytes es).length + (es.flatMap Entry.body).length ≤ (es.map fun e => 9 + e.body.length).sum := by
    rw [typeBytes]
    clear hheader hnine
    induction es with
    | nil => exact Nat.le_refl 0
    | cons e es ih =>
      have hcode := Varint.length_write_le e.code
      simp only [List.flatMap_cons, List.length_append, List.map_cons, List.sum_cons]
      omega
  rw [length_assemble]
  omega

theorem sum_of_fieldEntries {fields : List (String × Value)} {es : List Entry} (h : fieldEntries fields = .ok es) :
    (es.map fun e => 9 + e.body.length).sum = fieldsWidth fields := by
  induction fields generalizing es with
  | nil => cases h; rfl
  | cons f fields ih =>
    obtain ⟨e, he, h⟩ := ok_of_bind h
    obtain ⟨more, hmore, h⟩ := ok_of_bind h
    cases h
    have hname : width (.str f.1) = 9 + (textEntry f.1).body.length := rfl
    rw [fieldsWidth_cons, hname, width_eq he, ← ih hmore, List.map_cons, List.map_cons, List.sum_cons, List.sum_cons]
    omega

theorem fieldsWidth_insert_le (fields : List (String × Value)) (name : String) (v : Value) :
    fieldsWidth (Keyed.insert fields name v) ≤ fieldsWidth fields + (width (.str name) + width v) := by
  induction fields with
  | nil => exact Nat.le_of_eq (Nat.add_comm _ _)
  | cons f fields ih =>
    obtain ⟨key, u⟩ := f
    rw [Keyed.insert, fieldsWidth_cons]
    split
    next => rw [fieldsWidth_cons, fieldsWidth_cons]; omega
    split
    next => rw [fieldsWidth_cons]; omega
    next => rw [fieldsWidth_cons]; omega

/-- Of fields with one name only the last is kept. -/
theorem fieldsWidth_ofList_le (fields : List (String × Value)) :
    fieldsWidth (Keyed.ofList fields) ≤ fieldsWidth fields := by
  have hfold : ∀ m, fieldsWidth (fields.foldl (fun m f => Keyed.insert m f.1 f.2) m) ≤
      fieldsWidth m + fieldsWidth fields := by
    induction fields with
    | nil => exact fun m => Nat.le_add_right _ _
    | cons f fields ih =>
      intro m
      have hinsert := fieldsWidth_insert_le m f.1 f.2
      have hrest := ih (Keyed.insert m f.1 f.2)
      rw [List.foldl_cons, fieldsWidth_cons]
      omega
  exact Nat.le_trans (hfold []) (Nat.le_of_eq (Nat.zero_add _))

theorem fieldsWidth_of_fieldsOf {vs : List Value} {fields : List (String × Value)} (h : fieldsOf vs = .ok fields) :
    fieldsWidth fields ≤ (vs.map width).sum := by
  fun_induction fieldsOf vs generalizing fields with
  | case1 name v rest ih =>
    obtain ⟨more, hmore, h⟩ := ok_of_bind h
    cases h
    have hrest := ih hmore
    rw [fieldsWidth_cons, List.map_cons, List.map_cons, List.sum_cons, List.sum_cons]
    omega
  | case2 => cases h
  | case3 =>
    cases h
    exact Nat.zero_le _

theorem length_intEntry_le (n : Int) : (intEntry n).body.length ≤ 8 := by
  unfold intEntry
  repeat' split
  all_goals simp only [List.length_nil, BigEndian.writeInt, BigEndian.length_write]; omega

/-- The value of a body takes at most nine times the bytes again, and nine. -/
theorem width_of_bodyValue {entriesOf : Bytes → Except EncodingFault (List Value)} {code : Int} {data : Bytes}
    {v : Value} (hinside : ∀ vs, entriesOf data = .ok vs → 9 + (vs.map width).sum ≤ 9 * data.length)
    (hsize : bodySize code = .ok data.length) (h : bodyValue entriesOf code data = .ok v) :
    width v ≤ 9 + 9 * data.length := by
  unfold bodyValue at h
  split at h
  next hint =>
    cases h
    have hpos : 0 < data.length := by
      rcases hint with rfl | rfl | rfl | rfl <;> have hlen := Except.ok.inj hsize <;> omega
    have hbody := length_intEntry_le (Int64.ofInt (BigEndian.readInt data)).toInt
    rw [width_eq rfl]
    omega
  split at h
  next => cases h; exact Nat.le_add_right 9 _
  split at h
  next => cases h; exact Nat.le_add_right 9 _
  split at h
  next => cases h; exact Nat.le_add_right 9 _
  split at h
  next => cases h; exact Nat.le_add_right 9 _
  split at h
  next =>
    split at h
    next =>
      split at h
      next s hs =>
        cases h
        have hbody : (textEntry s).body = data := Text.utf8_of_ofUtf8? hs
        rw [width_eq rfl, hbody]
        omega
      next => cases h
    next =>
      obtain ⟨vs, hvs, h⟩ := ok_of_bind h
      split at h
      next => cases h
      next =>
        obtain ⟨fields, hfields, h⟩ := ok_of_bind h
        cases h
        cases hes : fieldEntries (Keyed.ofList fields) with
        | error e =>
          rw [Value.recordOf, width, entry, hes]
          exact Nat.zero_le _
        | ok es =>
          have hentry : entry (Value.recordOf fields) = .ok (recordEntry es) := by
            rw [Value.recordOf, entry, hes]
            rfl
          have hbody : (recordEntry es).body.length ≤ 9 + (es.map fun e => 9 + e.body.length).sum :=
            length_assemble_le es
          have hlist := fieldsWidth_ofList_le fields
          have hof := fieldsWidth_of_fieldsOf hfields
          have hin := hinside vs hvs
          rw [sum_of_fieldEntries hes] at hbody
          rw [width_eq hentry]
          omega
  next => cases h

/-- Each entry has a byte at least in the header, and bodies of their own. -/
theorem sum_of_readEntries {valueOf : Int → Bytes → Except EncodingFault Value} {b : Bytes} {headerEnd : Nat}
    (hvalue : ∀ code data v, bodySize code = .ok data.length → valueOf code data = .ok v →
      width v ≤ 9 + 9 * data.length) {steps offset bodyOffset : Nat} {vs : List Value}
    (h : readEntries valueOf b headerEnd steps offset bodyOffset = .ok vs) :
    (vs.map width).sum ≤ 9 * (headerEnd - offset) + 9 * (b.length - bodyOffset) := by
  induction steps generalizing offset bodyOffset vs with
  | zero => cases h; exact Nat.zero_le _
  | succ steps ih =>
    rw [readEntries] at h
    split at h
    next htype =>
      obtain ⟨⟨code, taken⟩, hcode, h⟩ := ok_of_bind h
      obtain ⟨size, hsize, h⟩ := ok_of_bind h
      obtain ⟨data, hdata, h⟩ := ok_of_bind h
      obtain ⟨v, hv, h⟩ := ok_of_bind h
      obtain ⟨rest, hrest, h⟩ := ok_of_bind h
      cases h
      obtain ⟨hpos, -, -⟩ := Varint.read_taken hcode
      obtain ⟨hfits, rfl⟩ := slice_ok hdata
      have hfirst := hvalue code data v hsize hv
      have hothers := ih hrest
      rw [List.map_cons, List.sum_cons]
      omega
    next => cases h; exact Nat.zero_le _

theorem sum_of_entriesWithin {depth : Nat} {b : Bytes} {vs : List Value} (h : entriesWithin depth b = .ok vs) :
    9 + (vs.map width).sum ≤ 9 * b.length := by
  induction depth generalizing b vs with
  | zero => cases h
  | succ depth ih =>
    obtain ⟨⟨headerEnd, offset⟩, hheader, h⟩ := ok_of_bind h
    obtain ⟨hpos, -, hlen⟩ := Varint.read_taken hheader
    dsimp only at h
    split at h
    next => cases h
    next hrange =>
      cases hend : headerEnd.toNat with
      | zero =>
        rw [hend] at h
        cases h
        simp only [List.map_nil, List.sum_nil]
        omega
      | succ n =>
        have hsum := sum_of_readEntries (fun _ _ _ => width_of_bodyValue fun _ => ih) h
        omega

end Record

namespace Value

/-- What was read from bytes comes to a body of at most nine times as many. -/
theorem length_body_of_decode {b : Bytes} {v : Value} {e : Record.Entry} (h : Value.decode b = .ok v)
    (he : Record.entry v = .ok e) : e.body.length ≤ 9 * b.length := by
  obtain ⟨vs, hvs, h⟩ := ok_of_bind h
  split at h
  next u =>
    cases h
    have hsum := Record.sum_of_entriesWithin hvs
    rw [List.map_singleton, List.sum_singleton, Record.width_eq he] at hsum
    omega
  next => cases h

/-- Bytes of any origin, as many as a slice may have, are decoded to a value or a fault: no offset goes beyond 64 bits
or out of the bytes, and the records inside are shorter than the bytes. What they are decoded to can be written, and is
read back as it is, if there are fewer bytes than machines address, or else if the serial type it is written with is a
signed number of 64 bits. -/
theorem decode_any {b : Bytes} (hb : b.length < 2 ^ 63) :
    (Bounded.decode b).run = some (Value.decode b) ∧ ∀ v, Value.decode b = .ok v → v.IsData ∧
      ∃ written, v.encode = .ok written ∧
        (b.length < 2 ^ 58 ∨ (∀ e, Record.entry v = .ok e → e.code < 2 ^ 63) → Value.decode written = .ok v) := by
  refine ⟨Bounded.run_decode hb, fun v hv => ?_⟩
  have data := isData_of_decode hv
  obtain ⟨written, hencode⟩ := exists_encode data
  refine ⟨data, written, hencode, fun hsmall => ?_⟩
  obtain ⟨e, he, h⟩ := ok_of_bind hencode
  cases h
  refine decode_assemble data he ?_
  rw [Varint.wordRange]
  rcases hsmall with hfew | hcode
  · have hcode := Record.code_le he
    have hbody := length_body_of_decode hv he
    omega
  · have := hcode e he
    omega

/-- A record that nobody wrote: it has a field twice, the second time with a number in more bytes than it needs, and is
followed by a byte. -/
def doubled : Bytes := [2, 32, 5, 15, 1, 15, 2, 97, 5, 97, 0, 7, 255]

/-- The record is read with the second of its fields alone, and written shorter. -/
theorem decode_any_doubled : doubled.length < 2 ^ 63 ∧ (Bounded.decode doubled).run = some (Value.decode doubled) ∧
    Value.decode doubled = .ok (.record [("a", .int 7)]) ∧
    ∃ written, (Value.record [("a", .int 7)]).encode = .ok written ∧ written.length = 7 ∧
      Value.decode written = .ok (.record [("a", .int 7)]) := by
  have hlen : doubled.length < 2 ^ 63 := by decide
  have hread : Value.decode doubled = .ok (.record [("a", .int 7)]) := by rfl
  obtain ⟨hrun, hany⟩ := decode_any hlen
  obtain ⟨-, written, hwritten, hback⟩ := hany _ hread
  refine ⟨hlen, hrun, hread, written, hwritten, ?_, hback (.inl (by decide))⟩
  cases hwritten
  decide +kernel

end Value

end LiveQuery
