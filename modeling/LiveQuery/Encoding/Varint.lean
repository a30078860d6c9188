import LiveQuery.Encoding.BigEndian
import LiveQuery.Fault

/-! # Numbers of variable width

Numbers of 64 bits as one to nine bytes. Each of the first eight holds seven bits and says by its high
bit whether another follows; the ninth holds eight. The most significant bits come first, and a number
is read as two's complement.

* `Varint.write` gives the shortest bytes of a number.
* `Varint.read` reads a number from the front of some bytes and tells how many it took.
-/
namespace LiveQuery.Varint

/-- The base-128 digits of `n` in front of `tail`, none for zero, each marked as followed by another
byte. -/
def writeHigh : Nat → Nat → Bytes → Bytes
  | 0, _, tail => tail
  | fuel + 1, n, tail =>
    if n = 0 then tail
    else writeHigh fuel (n / 128) (UInt8.ofNat (128 + n % 128) :: tail)

/-- The last `count` base-128 digits of `n` in front of `tail`, each marked as followed by another
byte. -/
def writeGroups : (count : Nat) → Nat → Bytes → Bytes
  | 0, _, tail => tail
  | count + 1, n, tail => writeGroups count (n / 128) (UInt8.ofNat (128 + n % 128) :: tail)

/-- How many numbers eight groups of seven bits write. -/
def groupsRange : Nat := 72057594037927936

/-- How many numbers 64 bits write. -/
def wordRange : Nat := 18446744073709551616

/-- The shortest bytes of a number that 64 bits write. -/
def write (n : Nat) : Bytes :=
  if n < groupsRange then writeHigh 8 (n / 128) [UInt8.ofNat (n % 128)]
  else writeGroups 8 (n / 256) [UInt8.ofNat (n % 256)]

/-- The whole number that 64 bits write in two's complement. -/
def signed (n : Nat) : Int := if 2 * n < wordRange then n else n - wordRange

/-- Reads on with up to `left` bytes of seven bits before one of eight; `taken` bytes gave `n`. -/
def readFrom : (left taken n : Nat) → Bytes → Except EncodingFault (Int × Nat)
  | _, _, _, [] => .error .truncated
  | 0, taken, n, b :: _ => .ok (signed (n * 256 + b.toNat), taken + 1)
  | left + 1, taken, n, b :: rest =>
    if b < 128 then .ok (signed (n * 128 + b.toNat), taken + 1)
    else readFrom left (taken + 1) (n * 128 + (b.toNat - 128)) rest

/-- The number at the front of the bytes, and how many bytes it takes. -/
def read (b : Bytes) : Except EncodingFault (Int × Nat) := readFrom 8 0 0 b

end LiveQuery.Varint
