import LiveQuery.Grammar.Ty
import LiveQuery.Value.Basic

/-! # Reading expressions

`Expr.read` reads an expression from a text. Nothing is known yet about the calls in it.
-/
namespace LiveQuery

namespace Grammar

/-- Reads what follows the word `fn`. -/
def lambdaTail (ty : Reader Ty) (expr : Reader Expr) : Reader Expr := do
  symbol '('
  let params ← itemsUntil ')' (named ty)
  symbol ':'
  let result ← ty
  arrow
  return .lambda params result (← expr)

/-- Reads local bindings as long as there are any. -/
def bindings (expr : Reader Expr) : (fuel : Nat) → Reader (List (String × Expr))
  | 0 => failure
  | fuel + 1 => do
    if (← peekWord) = "let".toList then
      let _ ← word
      let n ← name
      symbol '='
      let e ← expr
      symbol ';'
      return (n, e) :: (← bindings expr fuel)
    else return []

/-- Reads what follows the word `do`. -/
def blockTail (expr : Reader Expr) : Reader Expr := do
  symbol '\x7b'
  let bs ← bindings expr ((← get).rest.length + 1)
  let result ← expr
  symbol '\x7d'
  return .block bs result

/-- Reads the rest of an expression that starts with a word, which was read. -/
def exprOfWord (ty : Reader Ty) (expr : Reader Expr) (w : List Char) : Reader Expr :=
  if w = "fn".toList then lambdaTail ty expr
  else if w = "do".toList then blockTail expr
  else if isName w then do
    if ← accept '(' then
      return .callOf (String.ofList w) (← itemsUntil ')' expr)
    else return .var (String.ofList w)
  else failure

/-- Reads an expression up to the members taken of it. -/
def primary (ty : Reader Ty) (expr : Reader Expr) : Reader Expr := do
  match ← peek with
  | some '(' =>
    symbol '('
    let e ← expr
    symbol ')'
    return e
  | some '\x7b' =>
    symbol '\x7b'
    return Expr.recordOf (← itemsUntil '\x7d' (named expr))
  | some '"' => return .str (← string)
  | some c =>
    if c.isDigit || c == '-' then return .int (← integer)
    else exprOfWord ty expr (← word)
  | none => failure

/-- Reads the members taken of an expression. -/
def members (e : Expr) : (fuel : Nat) → Reader Expr
  | 0 => failure
  | fuel + 1 => do
    if ← accept '.' then members (.member e (← name)) fuel
    else return e

/-- Reads an expression; the fuel bounds the nesting. -/
def expr : (fuel : Nat) → Reader Expr
  | 0 => failure
  | fuel + 1 => do
    let e ← primary (ty (fuel + 1)) (expr fuel)
    members e ((← get).rest.length + 1)

end Grammar

/-- The expression that a text writes. -/
def Expr.read (text : String) : Except ReadFault Expr :=
  Grammar.readAll (Grammar.expr (text.length + 1)) text

end LiveQuery
