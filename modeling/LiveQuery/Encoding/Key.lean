import LiveQuery.Encoding.BigEndian
import LiveQuery.Value.Basic

/-! # Keys as bytes

The bytes of key values, whose lexicographic order is the order of the values of one type.

* `Value.toKey` gives them for whole numbers, booleans and texts.
* `Value.ofKey` reads a key of a given type.
-/
namespace LiveQuery

/-- The distance that moves the whole numbers of 64 bits to the natural ones. -/
def keyOffset : Int := 9223372036854775808

namespace Value

/-- The bytes of a key value. -/
def toKey : Value → Except EncodingFault Bytes
  | .int n => .ok (BigEndian.write 8 (n.toInt + keyOffset).toNat)
  | .bool b => .ok [if b then 1 else 0]
  | .str s => .ok (Text.utf8 s)
  | v => .error (.unsupported v.ty)

/-- The key value of type `ty` that the bytes hold; a number is read from the first eight. -/
def ofKey (b : Bytes) (ty : Ty) : Except EncodingFault Value :=
  match ty with
  | .int =>
    if b.length < 8 then .error .shortRead
    else .ok (.int (Int64.ofInt ((BigEndian.read (b.take 8) : Int) - keyOffset)))
  | .bool =>
    match b with
    | [] => .error .truncated
    | x :: _ => .ok (.bool (x != 0))
  | .string =>
    match Text.ofUtf8? b with
    | some s => .ok (.str s)
    | none => .error .invalidText
  | other => .error (.unsupported other)

end Value

namespace Literal

/-- The bytes of a literal as a key. -/
def keyBytes : Literal → Bytes
  | .int n => BigEndian.write 8 (n.toInt + keyOffset).toNat
  | .bool b => [if b then 1 else 0]
  | .str s => Text.utf8 s

@[simp] theorem toKey_value (l : Literal) : l.value.toKey = .ok l.keyBytes := by
  cases l <;> rfl

end Literal

end LiveQuery
