import LiveQuery.Encoding.Varint
import LiveQuery.Value.Basic

/-! # Values as bytes

A list of entries is a header and the bodies of the entries. The header holds its own length and one
serial type per entry, all as numbers of variable width; a serial type tells what the body is and how
many bytes it takes:

| serial type | bytes      | meaning                             |
|-------------|------------|-------------------------------------|
| 1, 2, 4, 6  | 1, 2, 4, 8 | a whole number in two's complement  |
| 8, 9        | 0          | the numbers 0 and 1                 |
| 10, 11      | 0          | false and true                      |
| n ≥ 12 even | (n-12)/2   | a record                            |
| n ≥ 13 odd  | (n-13)/2   | a text                              |

A record is a list of entries again, a name and a value for each field in turn.

* `Value.encode` gives the bytes of a value; sequences, functions and indexes have none.
* `Value.decode` reads a value from the front of some bytes.
-/
namespace LiveQuery

namespace Record

/-! ## Writing -/

/-- A serial type with the body it describes. -/
structure Entry where
  code : Nat
  body : Bytes

/-- The entry of a text. -/
def textEntry (s : String) : Entry :=
  let body := Text.utf8 s
  ⟨13 + 2 * body.length, body⟩

/-- The entry of a whole number, in the fewest bytes. -/
def intEntry (n : Int) : Entry :=
  if n = 0 then ⟨8, []⟩
  else if n = 1 then ⟨9, []⟩
  else if -128 ≤ n ∧ n < 128 then ⟨1, BigEndian.writeInt 1 n⟩
  else if -32768 ≤ n ∧ n < 32768 then ⟨2, BigEndian.writeInt 2 n⟩
  else if -2147483648 ≤ n ∧ n < 2147483648 then ⟨4, BigEndian.writeInt 4 n⟩
  else ⟨6, BigEndian.writeInt 8 n⟩

/-- Counts up from `length` to a header length that is the size of its own bytes and of `types` bytes
of serial types. -/
def headerLengthFrom : (steps types length : Nat) → Nat
  | 0, _, length => length
  | steps + 1, types, length =>
    if (Varint.write length).length + types = length then length
    else headerLengthFrom steps types (length + 1)

/-- The length of a header with `types` bytes of serial types; it is reached within nine steps. -/
def headerLength (types : Nat) : Nat := headerLengthFrom 9 types (types + 1)

/-- The serial types of some entries. -/
def typeBytes (entries : List Entry) : Bytes := entries.flatMap fun e => Varint.write e.code

/-- The bytes of some entries. -/
def assemble (entries : List Entry) : Bytes :=
  let types := typeBytes entries
  Varint.write (headerLength types.length) ++ types ++ entries.flatMap Entry.body

/-- The entry of a record whose fields have these entries. -/
def recordEntry (fields : List Entry) : Entry :=
  let body := assemble fields
  ⟨12 + 2 * body.length, body⟩

mutual

/-- The entry of a value. -/
def entry : Value → Except EncodingFault Entry
  | .int n => .ok (intEntry n.toInt)
  | .bool b => .ok ⟨if b then 11 else 10, []⟩
  | .str s => .ok (textEntry s)
  | .record fields => do return recordEntry (← fieldEntries fields)
  | v => .error (.unsupported v.ty)

/-- The entries of the fields of a record, a name and a value for each. -/
def fieldEntries : List (String × Value) → Except EncodingFault (List Entry)
  | [] => .ok []
  | (name, v) :: rest => do
    let e ← entry v
    return textEntry name :: e :: (← fieldEntries rest)

end

/-! ## Reading -/

/-- How many bytes the body of a serial type takes. -/
def bodySize (code : Int) : Except EncodingFault Nat :=
  if code = 1 then .ok 1
  else if code = 2 then .ok 2
  else if code = 4 then .ok 4
  else if code = 6 then .ok 8
  else if 8 ≤ code ∧ code ≤ 11 then .ok 0
  else if 12 ≤ code then .ok ((code - 12) / 2).toNat
  else .error (.invalidSerialType code)

/-- The `size` bytes from `offset` on. -/
def slice (b : Bytes) (offset size : Nat) : Except EncodingFault Bytes :=
  if offset + size ≤ b.length then .ok ((b.drop offset).take size) else .error .truncated

/-- The fields that a list of alternating names and values gives. -/
def fieldsOf : List Value → Except EncodingFault (List (String × Value))
  | .str name :: v :: rest => do return (name, v) :: (← fieldsOf rest)
  | _ :: _ :: _ => .error .invalidFieldName
  | _ => .ok []

/-- The value of a body by its serial type; `entriesOf` reads the entries of a record. -/
def bodyValue (entriesOf : Bytes → Except EncodingFault (List Value)) (code : Int) (data : Bytes) :
    Except EncodingFault Value :=
  if code = 1 ∨ code = 2 ∨ code = 4 ∨ code = 6 then
    .ok (.int (Int64.ofInt (BigEndian.readInt data)))
  else if code = 8 then .ok (.int 0)
  else if code = 9 then .ok (.int 1)
  else if code = 10 then .ok (.bool false)
  else if code = 11 then .ok (.bool true)
  else if 12 ≤ code then
    if code % 2 = 1 then
      match Text.ofUtf8? data with
      | some s => .ok (.str s)
      | none => .error .invalidText
    else do
      let entries ← entriesOf data
      if entries.length % 2 ≠ 0 then throw .truncated
      return Value.recordOf (← fieldsOf entries)
  else .error (.invalidSerialType code)

/-- Reads the entries whose serial types lie from `offset` up to `headerEnd`, their bodies from
`bodyOffset` on. Each serial type takes a byte at least, so `headerEnd` steps are enough. -/
def readEntries (valueOf : Int → Bytes → Except EncodingFault Value) (b : Bytes) (headerEnd : Nat) :
    (steps offset bodyOffset : Nat) → Except EncodingFault (List Value)
  | 0, _, _ => .ok []
  | steps + 1, offset, bodyOffset =>
    if offset < headerEnd then do
      let (code, taken) ← Varint.read (b.drop offset)
      let size ← bodySize code
      let data ← slice b bodyOffset size
      let v ← valueOf code data
      return v :: (← readEntries valueOf b headerEnd steps (offset + taken) (bodyOffset + size))
    else .ok []

/-- The entries in some bytes. The entries of a record lie behind a header, so they take fewer bytes,
and the number of bytes bounds the depth. -/
def entriesWithin : (depth : Nat) → Bytes → Except EncodingFault (List Value)
  | 0, _ => .error .truncated
  | depth + 1, b => do
    let (headerEnd, offset) ← Varint.read b
    if headerEnd < 0 ∨ (b.length : Int) < headerEnd then throw .truncated
    readEntries (bodyValue (entriesWithin depth)) b headerEnd.toNat headerEnd.toNat offset
      headerEnd.toNat

/-- The entries in some bytes. -/
def entries (b : Bytes) : Except EncodingFault (List Value) := entriesWithin (b.length + 1) b

end Record

namespace Value

/-- The bytes of a value. -/
def encode (v : Value) : Except EncodingFault Bytes := do
  return Record.assemble [← Record.entry v]

/-- The value at the front of the bytes. -/
def decode (b : Bytes) : Except EncodingFault Value := do
  match ← Record.entries b with
  | [v] => return v
  | _ => throw .truncated

end Value

end LiveQuery
