import LiveQuery.Text.Unprintable

/-! # Quoted texts

A text between double quotes, with the characters escaped that would end it or not be seen.

* `escaped` writes one character: a backslash before a quote or a backslash, the letters `n`, `r`, `t`
  and the digit `0` for the line feed, the return, the tab and the null, the code point in braces for
  any other character that does not print, and the character itself otherwise.
* `quoted` puts the escaped characters of a text between quotes.
-/
namespace LiveQuery.Text

/-- The digits of `n` in base sixteen, small letters above nine. -/
def hexDigits (n : Nat) : List Char := Nat.toDigits 16 n

/-- One character as it is written between quotes. -/
def escaped (c : Char) : List Char :=
  if c = '"' then ['\\', '"']
  else if c = '\\' then ['\\', '\\']
  else if c = '\n' then ['\\', 'n']
  else if c = '\r' then ['\\', 'r']
  else if c = '\t' then ['\\', 't']
  else if c = '\x00' then ['\\', '0']
  else if isUnprintable c then ['\\', 'u', '\x7b'] ++ hexDigits c.toNat ++ ['\x7d']
  else [c]

/-- The characters of a quoted text. -/
def quotedChars (s : List Char) : List Char := '"' :: (s.flatMap escaped ++ ['"'])

/-- The text between quotes. -/
def quoted (s : String) : String := String.ofList (quotedChars s.toList)

@[simp] theorem toList_quoted (s : String) : (quoted s).toList = quotedChars s.toList := by
  simp [quoted]

end LiveQuery.Text
