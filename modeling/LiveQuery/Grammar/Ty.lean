import LiveQuery.Grammar.Token
import LiveQuery.Ty.Basic

/-! # Reading types

`Ty.read` reads a type from a text, with the fields of a record in any order.
-/
namespace LiveQuery

namespace Grammar

/-- Reads a name, a colon and an item. -/
def named {α : Type} (item : Reader α) : Reader (String × α) := do
  let n ← name
  symbol ':'
  return (n, ← item)

/-- Reads the name of a type variable behind its mark. -/
def typeVar : Reader Ty := do
  symbol '\x27'
  let w ← takeWhile isNameChar
  if w.head?.any isNameStart then return .var (String.ofList w) else failure

/-- Reads the rest of a type that starts with a word, which was read. -/
def tyOfWord (ty : Reader Ty) (w : String) : Reader Ty :=
  if w = "int" then return .int
  else if w = "bool" then return .bool
  else if w = "string" then return .string
  else if w = "iterator" then do
    symbol '<'
    let element ← ty
    symbol '>'
    return .iterator element
  else if w = "index" then do
    symbol '<'
    let key ← ty
    symbol ','
    let row ← ty
    symbol '>'
    return .index key row
  else if w = "fn" then do
    symbol '('
    let params ← itemsUntil ')' ty
    symbol ':'
    return .function params (← ty)
  else failure

/-- Reads a type; the fuel bounds the nesting. -/
def ty : (fuel : Nat) → Reader Ty
  | 0 => failure
  | fuel + 1 => do
    match ← peek with
    | some '\x27' => typeVar
    | some '\x7b' =>
      symbol '\x7b'
      return Ty.recordOf (← itemsUntil '\x7d' (named (ty fuel)))
    | _ => tyOfWord (ty fuel) (String.ofList (← word))

end Grammar

/-- The type that a text writes. -/
def Ty.read (text : String) : Except ReadFault Ty :=
  Grammar.readAll (Grammar.ty (text.length + 1)) text

end LiveQuery
