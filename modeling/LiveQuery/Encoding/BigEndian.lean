import LiveQuery.Text.Utf8

/-! # Numbers of fixed width

Natural numbers as a fixed number of bytes, the most significant first, and whole numbers in two's
complement.

* `BigEndian.write` gives the bytes of a number modulo the width, `BigEndian.read` the number.
* `BigEndian.writeInt` and `BigEndian.readInt` do the same in two's complement.
-/
namespace LiveQuery.BigEndian

/-- The last `width` base-256 digits of `n`, the most significant first. -/
def write : (width : Nat) → (n : Nat) → Bytes
  | 0, _ => []
  | w + 1, n => write w (n / 256) ++ [UInt8.ofNat n]

/-- The number that the bytes write. -/
def read (b : Bytes) : Nat := b.foldl (fun n x => n * 256 + x.toNat) 0

/-- How many numbers `width` bytes write. -/
def range : (width : Nat) → Nat
  | 0 => 1
  | w + 1 => 256 * range w

/-- The bytes of a whole number in two's complement. -/
def writeInt (width : Nat) (n : Int) : Bytes := write width (n % range width).toNat

/-- The whole number that the bytes write in two's complement. -/
def readInt (b : Bytes) : Int :=
  let n := read b
  if 2 * n < range b.length then n else n - range b.length

@[simp] theorem length_write (w n : Nat) : (write w n).length = w := by
  induction w generalizing n with
  | zero => rfl
  | succ w ih => simp [write, ih]

end LiveQuery.BigEndian
