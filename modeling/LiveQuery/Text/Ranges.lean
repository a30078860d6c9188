/-! # Ranges of code points

A set of characters as the increasing list of the ranges of its code points; `inRanges` tells whether a
code point is in it.
-/
namespace LiveQuery.Text

/-- Whether a code point lies in one of the ranges of an increasing table. -/
def inRanges : List (Nat × Nat) → Nat → Bool
  | [], _ => false
  | (lo, hi) :: rest, n => if n < lo then false else n ≤ hi || inRanges rest n

end LiveQuery.Text
