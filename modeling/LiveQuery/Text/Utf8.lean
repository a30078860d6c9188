/-! # UTF-8 bytes

Texts as bytes, and what is wrong with bytes that are no text.

* `utf8` gives a text's bytes and `ofUtf8?` reads them back.
* `Piece` is a maximal run that a reader of bytes takes at once: one character, an ill-formed start of
  one, or a character that the end of the input cuts short. `pieces` splits bytes into them.
* `firstFault` is the first place where bytes are no text, and `lossyText` reads bytes with a
  replacement character for every broken piece.
-/
namespace LiveQuery

/-- A string of bytes. -/
abbrev Bytes := List UInt8

namespace Text

/-- The bytes of a text. -/
def utf8 (s : String) : Bytes := s.toUTF8.toList

/-- The text whose bytes these are, if there is one. -/
def ofUtf8? (b : Bytes) : Option String := String.fromUTF8? ⟨b.toArray⟩

/-- What one step of reading takes from the front of some bytes. -/
inductive Piece
  | char (c : Char) (width : Nat)
  | illFormed (width : Nat)
  | cutShort (width : Nat)

/-- How many bytes follow a first byte, and the range of the first of them. -/
def continuation (b : UInt8) : Option (Nat × UInt8 × UInt8) :=
  if b < 0x80 then some (0, 0x80, 0xBF)
  else if b < 0xC2 then none
  else if b < 0xE0 then some (1, 0x80, 0xBF)
  else if b = 0xE0 then some (2, 0xA0, 0xBF)
  else if b = 0xED then some (2, 0x80, 0x9F)
  else if b < 0xF0 then some (2, 0x80, 0xBF)
  else if b = 0xF0 then some (3, 0x90, 0xBF)
  else if b < 0xF4 then some (3, 0x80, 0xBF)
  else if b = 0xF4 then some (3, 0x80, 0x8F)
  else none

/-- Reads on inside a character: `left` bytes are missing, the next one lies between `lo` and `hi`,
`width` bytes were read and give `code` so far. -/
def continueChar (left : Nat) (lo hi : UInt8) (width code : Nat) : Bytes → Piece
  | [] => if left = 0 then .char (Char.ofNat code) width else .cutShort width
  | b :: rest =>
    match left with
    | 0 => .char (Char.ofNat code) width
    | left + 1 =>
      if lo ≤ b ∧ b ≤ hi then
        continueChar left 0x80 0xBF (width + 1) (code * 64 + (b.toNat - 0x80)) rest
      else .illFormed width

/-- The piece that starts with byte `b` and goes on in `rest`. -/
def firstPiece (b : UInt8) (rest : Bytes) : Piece :=
  match continuation b with
  | none => .illFormed 1
  | some (left, lo, hi) =>
    let mask := match left with | 0 => 128 | 1 => 32 | 2 => 16 | _ => 8
    continueChar left lo hi 1 (b.toNat % mask) rest

/-- The bytes a piece takes. -/
def Piece.width : Piece → Nat
  | .char _ n | .illFormed n | .cutShort n => n

/-- Splits bytes into pieces; the fuel is the number of bytes. -/
def piecesFrom : Nat → Bytes → List Piece
  | 0, _ | _, [] => []
  | n + 1, b :: rest =>
    let p := firstPiece b rest
    p :: piecesFrom n ((b :: rest).drop p.width)

/-- The pieces of some bytes, in order. -/
def pieces (b : Bytes) : List Piece := piecesFrom b.length b

/-- A place where bytes are no text: its index, and the length of the ill-formed sequence there, or
`none` if the input ends inside a character. -/
structure Utf8Fault where
  index : Nat
  length? : Option Nat

/-- The first fault among pieces that start at `index`. -/
def faultFrom (index : Nat) : List Piece → Option Utf8Fault
  | [] => none
  | .char _ n :: rest => faultFrom (index + n) rest
  | .illFormed n :: _ => some ⟨index, some n⟩
  | .cutShort _ :: _ => some ⟨index, none⟩

/-- The first place where the bytes are no text. -/
def firstFault (b : Bytes) : Option Utf8Fault := faultFrom 0 (pieces b)

/-- The wording of a fault. -/
def Utf8Fault.message (f : Utf8Fault) : String :=
  match f.length? with
  | some n => "invalid utf-8 sequence of " ++ toString n ++ " bytes from index " ++ toString f.index
  | none => "incomplete utf-8 byte sequence from index " ++ toString f.index

/-- The character of a piece, the replacement character for a broken one. -/
def Piece.lossyChar : Piece → Char
  | .char c _ => c
  | .illFormed _ | .cutShort _ => Char.ofNat 0xFFFD

/-- Reads bytes as text, with a replacement character for each broken piece. -/
def lossyText (b : Bytes) : String := String.ofList ((pieces b).map Piece.lossyChar)

end Text

end LiveQuery
