import LiveQuery.Builtin
import LiveQuery.Fault
import LiveQuery.Query
import LiveQuery.Store

/-! # Expressions and values

The expression language that queries are planned into, and the values that expressions have. The two
depend on each other: a function value holds the body of the expression it came from and the scope it
was made in, and an expression may hold a value in place of a name.

* `Expr`, `Value` and `Function`, with `Index`, a typed handle on the rows of a table in one snapshot.
* `Value.ty` is the type of a value, `Value.member` a field of a record.
* `Value.text` and `Expr.text` write them.
* `Value.same` is equality: data by content, iterators by handle, functions made from an expression by
  the evaluation that made them, built-in functions by name.
-/
namespace LiveQuery

/-- A handle on the rows of a table, ordered by its primary key `column`: the bucket of rows in the
snapshot that the handle reads, `none` if the table has no bucket. -/
structure Index where
  table : String
  column : String
  key : Ty
  row : Ty
  rows : Option Bucket
deriving DecidableEq, Inhabited

/-- The type of an index. -/
def Index.ty (i : Index) : Ty := .index i.key i.row

/-- What a call knows about the function it names: nothing yet, what the cell of the machine's call
table with this number holds, or the built-in it was resolved to beforehand. -/
inductive CallSite
  | unlinked
  | cell (n : Nat)
  | known (b : Builtin)
deriving DecidableEq, Repr, Inhabited

mutual

inductive Expr
  | int (n : Int64)
  | str (s : String)
  | var (name : String)
  | record (fields : List (String × Expr))
  | lambda (params : List (String × Ty)) (result : Ty) (body : Expr)
  | call (name : String) (args : List Expr) (site : CallSite)
  | member (e : Expr) (name : String)
  /-- Local bindings, each visible to those after it and to the result. -/
  | block (bindings : List (String × Expr)) (result : Expr)
  | index (i : Index)
  | value (v : Value)

inductive Value
  | int (n : Int64)
  | bool (b : Bool)
  | str (s : String)
  | record (fields : List (String × Value))
  /-- A sequence that can be read any number of times, with the declared type of its elements. -/
  | array (elements : List Value) (element : Ty)
  /-- A sequence that is read once, as a handle into the machine. -/
  | iterator (handle : Nat) (element : Ty)
  | function (f : Function)
  | index (i : Index)

inductive Function
  /-- A function made by evaluating an expression, in the scope of that evaluation; the stamp tells
  the evaluations apart. -/
  | closure (stamp : Nat) (params : List (String × Ty)) (result : Ty) (body : Expr)
      (scope : List (List (String × Value)))
  | builtin (b : Builtin)

end

instance : Inhabited Expr := ⟨.int 0⟩
instance : Inhabited Value := ⟨.int 0⟩
instance : Inhabited Function := ⟨.builtin .plus⟩

/-- A name environment as links, the innermost first; each link maps names in order. -/
abbrev Scope := List (List (String × Value))

/-! ## Functions -/

namespace Function

/-- The type of a function, as it was declared. -/
def ty : Function → Ty
  | .closure _ params result _ _ => .function (params.map Prod.snd) result
  | .builtin b => b.ty

/-- The name of a function in messages. -/
def name : Function → String
  | .closure .. => "<lambda>"
  | .builtin b => b.name

/-- The number of parameters. -/
def arity : Function → Nat
  | .closure _ params _ _ _ => params.length
  | .builtin b => b.params.length

/-- The declared result type. -/
def result : Function → Ty
  | .closure _ _ result _ _ => result
  | .builtin b => b.result

/-- Whether two functions are one. -/
def same : Function → Function → Bool
  | .closure m _ _ _ _, .closure n _ _ _ _ => m == n
  | .builtin a, .builtin b => a == b
  | _, _ => false

end Function

/-! ## Values -/

namespace Value

/-- The record with the given fields; of two fields with one name the later one counts. -/
def recordOf (fields : List (String × Value)) : Value := .record (Keyed.ofList fields)

mutual

/-- The type of a value; sequences have the type they were declared with. -/
def ty : Value → Ty
  | .int _ => .int
  | .bool _ => .bool
  | .str _ => .string
  | .record fields => .record (fieldTypes fields)
  | .array _ element => .iterator element
  | .iterator _ element => .iterator element
  | .function f => f.ty
  | .index i => i.ty

def fieldTypes : List (String × Value) → List (String × Ty)
  | [] => []
  | (name, v) :: rest => (name, v.ty) :: fieldTypes rest

end

/-- A field of a record. -/
def member (v : Value) (name : String) : Except EvalFault Value :=
  match v with
  | .record fields =>
    match Keyed.find? fields name with
    | some m => .ok m
    | none => .error (.noSuchMember name v.ty)
  | _ => .error (.notARecord name v.ty)

mutual

/-- The value as text. -/
def text : Value → String
  | .int n => toString n.toInt
  | .bool b => if b then "true" else "false"
  | .str s => Text.quoted s
  | .record fields => "\x7b" ++ ", ".intercalate (fieldTexts fields) ++ "\x7d"
  | .array elements _ => "[" ++ ", ".intercalate (elementTexts elements) ++ "]"
  | .iterator _ element => "<iterator<" ++ element.text ++ ">>"
  | .function f => "<" ++ f.name ++ ": " ++ f.ty.text ++ ">"
  | .index i => "<index " ++ i.table ++ "." ++ i.column ++ ">"

def fieldTexts : List (String × Value) → List String
  | [] => []
  | (name, v) :: rest => (name ++ ": " ++ v.text) :: fieldTexts rest

def elementTexts : List Value → List String
  | [] => []
  | v :: rest => v.text :: elementTexts rest

end

mutual

/-- Whether two values are equal. -/
def same : Value → Value → Bool
  | .int a, .int b => a == b
  | .bool a, .bool b => a == b
  | .str a, .str b => a == b
  | .record fs, .record gs => sameFields fs gs
  | .array as s, .array bs t => decide (s = t) && sameElements as bs
  | .iterator a _, .iterator b _ => a == b
  | .function f, .function g => f.same g
  | .index i, .index j => decide (i = j)
  | _, _ => false

def sameFields : List (String × Value) → List (String × Value) → Bool
  | [], [] => true
  | (n, a) :: fs, (m, b) :: gs => n == m && a.same b && sameFields fs gs
  | _, _ => false

def sameElements : List Value → List Value → Bool
  | [], [] => true
  | a :: as, b :: bs => a.same b && sameElements as bs
  | _, _ => false

end

end Value

namespace Literal

/-- The value that is written. -/
def value : Literal → Value
  | .int n => .int n
  | .str s => .str s
  | .bool b => .bool b

/-- The literal for a value, if it can be written as one. -/
def ofValue? : Value → Option Literal
  | .int n => some (.int n)
  | .str s => some (.str s)
  | .bool b => some (.bool b)
  | _ => none

/-- The expression that has the value. -/
def expr : Literal → Expr
  | .int n => .int n
  | .str s => .str s
  | .bool b => .var (if b then "true" else "false")

end Literal

/-! ## Expressions -/

namespace Expr

/-- The record expression with the given fields; of two fields with one name the later one counts. -/
def recordOf (fields : List (String × Expr)) : Expr := .record (Keyed.ofList fields)

/-- A call that nothing is known about yet. -/
def callOf (name : String) (args : List Expr) : Expr := .call name args .unlinked

/-- A parameter as it is written. -/
def paramText (p : String × Ty) : String := p.1 ++ ": " ++ p.2.text

mutual

/-- The expression as text. -/
def text : Expr → String
  | .int n => toString n.toInt
  | .str s => Text.quoted s
  | .var name => name
  | .record fields => "\x7b" ++ ", ".intercalate (fieldTexts fields) ++ "\x7d"
  | .lambda params result body =>
    "fn(" ++ ", ".intercalate (params.map paramText) ++ "): " ++ result.text ++ " => " ++ body.text
  | .call name args _ => name ++ "(" ++ ", ".intercalate (argTexts args) ++ ")"
  | .member e name => e.text ++ "." ++ name
  | .block bindings result => "do \x7b " ++ bindingsText bindings ++ result.text ++ " \x7d"
  | .index i => "<index " ++ i.table ++ "." ++ i.column ++ ">"
  | .value v => v.text

def fieldTexts : List (String × Expr) → List String
  | [] => []
  | (name, e) :: rest => (name ++ ": " ++ e.text) :: fieldTexts rest

def argTexts : List Expr → List String
  | [] => []
  | e :: rest => e.text :: argTexts rest

def bindingsText : List (String × Expr) → String
  | [] => ""
  | (name, e) :: rest => "let " ++ name ++ " = " ++ e.text ++ "; " ++ bindingsText rest

end

end Expr

end LiveQuery
