import LiveQuery.Text.Lowercase

/-! # Tokens

Reading a text from the front. Blanks may stand before every token and not within one.

* `Input` is what is left to read, and the first fault met in what was read: a text that has the right
  form but not a right meaning, such as a number that is too large, is noted and reading goes on, so
  that a fault of form further on is the one that counts.
* `Reader` reads something from the front of the input, or fails.
* `symbol`, `keyword`, `identifier`, `name`, `integer` and `string` read the tokens.
-/
namespace LiveQuery

/-- Why a text cannot be read. -/
inductive ReadFault
  | form
  | literal (text : String)
  | columnType (text : String)
deriving DecidableEq, Repr, Inhabited

/-- The wording of a fault. -/
def ReadFault.message : ReadFault → String
  | .form => "Syntax error"
  | .literal text => "Invalid literal: " ++ text
  | .columnType text => "Unable to parse column type: " ++ text ++ "."

/-- What is left to read, and the first fault of meaning in what was read. -/
structure Input where
  rest : List Char
  fault : Option ReadFault := none

/-- Reads something from the front of the input, or fails. -/
abbrev Reader := StateT Input Option

namespace Grammar

/-! ## Characters -/

/-- Whether a character may stand between tokens. -/
def isBlank (c : Char) : Bool := c == ' ' || c == '\t' || c == '\r' || c == '\n'

/-- Whether a character may stand in a name. -/
def isNameChar (c : Char) : Bool := c.isAlphanum || c == '_'

/-- Whether a name may start with a character. -/
def isNameStart (c : Char) : Bool := c.isAlpha || c == '_'

/-! ## Readers -/

/-- Notes a fault of meaning, unless there is one already. -/
def report (f : ReadFault) : Reader Unit :=
  modify fun i => { i with fault := i.fault.orElse fun _ => some f }

/-- Passes over blanks. -/
def skip : Reader Unit := modify fun i => { i with rest := i.rest.dropWhile isBlank }

/-- The first character of the next token, which stays unread. -/
def peek : Reader (Option Char) := do
  skip
  return (← get).rest.head?

/-- Reads the characters that pass a test. -/
def takeWhile (p : Char → Bool) : Reader (List Char) := do
  let i ← get
  set { i with rest := i.rest.dropWhile p }
  return i.rest.takeWhile p

/-- Reads the given character at once. -/
def char (c : Char) : Reader Unit := do
  match (← get).rest with
  | d :: rest => if d = c then modify fun i => { i with rest } else failure
  | [] => failure

/-- Reads the given character as a token. -/
def symbol (c : Char) : Reader Unit := do
  skip
  char c

/-- Reads the given character as a token if it is next, and tells whether it was. -/
def accept (c : Char) : Reader Bool := do
  if (← peek) = some c then
    char c
    return true
  else return false

/-- Reads the arrow `=>`. -/
def arrow : Reader Unit := do
  symbol '='
  char '>'

/-- Reads a run of name characters. -/
def word : Reader (List Char) := do
  skip
  let w ← takeWhile isNameChar
  if w.isEmpty then failure else return w

/-- The run of name characters that is next, which stays unread. -/
def peekWord : Reader (List Char) := do
  skip
  return (← get).rest.takeWhile isNameChar

/-- Whether a word is the given one in capital or small letters. -/
def isKeyword (k : String) (w : List Char) : Bool := w.map Char.toLower == k.toList

/-- Reads a keyword, in capital or small letters. -/
def keyword (k : String) : Reader Unit := do
  if isKeyword k (← word) then return () else failure

/-- The words that may not name tables and columns, in any letters. -/
def keywords : List String :=
  ["create", "table", "primary", "key", "references", "insert", "into", "update", "set", "where",
    "delete", "from", "and", "eval", "live", "many", "one"]

/-- The words that may not name anything in an expression. -/
def reserved : List String := ["fn", "do", "let"]

/-- Whether a word names a table or a column. -/
def isIdentifier (w : List Char) : Bool :=
  w.head?.any isNameStart && !keywords.any fun k => isKeyword k w

/-- Whether a word names something in an expression. -/
def isName (w : List Char) : Bool :=
  w.head?.any isNameStart && !reserved.any fun k => w == k.toList

/-- Reads the name of a table or a column. -/
def identifier : Reader String := do
  let w ← word
  if isIdentifier w then return String.ofList w else failure

/-- Reads a name in an expression. -/
def name : Reader String := do
  let w ← word
  if isName w then return String.ofList w else failure

/-! ## Literals -/

/-- The number that digits write. -/
def digitsValue (ds : List Char) : Nat := ds.foldl (fun n d => n * 10 + (d.toNat - 48)) 0

/-- Reads a whole number; one that does not fit 64 bits is a fault of meaning. -/
def integer : Reader Int64 := do
  skip
  let negative ← do
    if (← get).rest.head? = some '-' then
      char '-'
      pure true
    else pure false
  let ds ← takeWhile Char.isDigit
  if ds.isEmpty then failure
  let n : Int := if negative then -digitsValue ds else digitsValue ds
  if Int64.minValue.toInt ≤ n ∧ n ≤ Int64.maxValue.toInt then return Int64.ofInt n
  report (.literal (String.ofList (if negative then '-' :: ds else ds)))
  return 0

/-- Splits off what stands before the quote that ends a text; a backslash takes the character after it
along. -/
def splitQuoted : List Char → Option (List Char × List Char)
  | [] => none
  | '"' :: rest => some ([], rest)
  | ['\\'] => none
  | '\\' :: c :: rest => (splitQuoted rest).map fun (raw, rest) => ('\\' :: c :: raw, rest)
  | c :: rest => (splitQuoted rest).map fun (raw, rest) => (c :: raw, rest)

/-- The text that is written between quotes: a backslash stands before `n` for a line feed, before `t`
for a tab, and before a quote or a backslash for itself. -/
def unescape : List Char → Option (List Char)
  | [] => some []
  | '\\' :: 'n' :: rest => (unescape rest).map ('\n' :: ·)
  | '\\' :: 't' :: rest => (unescape rest).map ('\t' :: ·)
  | '\\' :: '"' :: rest => (unescape rest).map ('"' :: ·)
  | '\\' :: '\\' :: rest => (unescape rest).map ('\\' :: ·)
  | '\\' :: _ => none
  | c :: rest => (unescape rest).map (c :: ·)

/-- Reads a quoted text; a backslash before another character is a fault of meaning. -/
def string : Reader String := do
  symbol '"'
  let i ← get
  match splitQuoted i.rest with
  | none => failure
  | some (raw, rest) =>
    set { i with rest }
    match unescape raw with
    | some s => return String.ofList s
    | none =>
      report (.literal (String.ofList ('"' :: (raw ++ ['"']))))
      return ""

/-! ## Lists -/

/-- Reads the items after the first one, each behind a comma. -/
def moreItems {α : Type} (item : Reader α) : (fuel : Nat) → Reader (List α)
  | 0 => failure
  | fuel + 1 => do
    if ← accept ',' then
      let a ← item
      return a :: (← moreItems item fuel)
    else return []

/-- Reads one or more items with commas between them. -/
def items {α : Type} (item : Reader α) : Reader (List α) := do
  let a ← item
  return a :: (← moreItems item ((← get).rest.length + 1))

/-- Reads items with commas between them, up to a closing character, perhaps none. -/
def itemsUntil {α : Type} (closing : Char) (item : Reader α) : Reader (List α) := do
  if ← accept closing then return []
  let as ← items item
  symbol closing
  return as

/-- Reads the end of the input. -/
def atEnd : Reader Unit := do
  if (← peek).isSome then failure

/-- Reads a whole text. -/
def readAll {α : Type} (r : Reader α) (text : String) : Except ReadFault α :=
  match (do let a ← r; atEnd; return a : Reader α) { rest := text.toList } with
  | none => .error .form
  | some (a, i) =>
    match i.fault with
    | some f => .error f
    | none => .ok a

end Grammar

end LiveQuery
