import LiveQuery.Machine.Basic
import LiveQuery.Ty.Match

/-! # Applying built-in functions

What each built-in function does with its arguments. None of them runs a function it is given: `map`
and `filter` make iterators that do so when they are read.

* `Builtin.apply` is the function itself, which checks its arguments on its own.
* `Builtin.checkArgs` and `Builtin.checkResult` hold a call to the declaration.
-/
namespace LiveQuery

namespace Value

/-- The whole number that a value is. -/
def asInt : Value → Except EvalFault Int64
  | .int n => .ok n
  | v => .error (.typeMismatch .int v.ty)

/-- The boolean that a value is. -/
def asBool : Value → Except EvalFault Bool
  | .bool b => .ok b
  | v => .error (.typeMismatch .bool v.ty)

/-- The text that a value is. -/
def asStr : Value → Except EvalFault String
  | .str s => .ok s
  | v => .error (.typeMismatch .string v.ty)

/-- The function that a value is. -/
def asFunction : Value → Except EvalFault Function
  | .function f => .ok f
  | v => .error (.notAFunction v.text)

/-- The index that a value is. -/
def asIndex : Value → Except EvalFault Index
  | .index i => .ok i
  | v => .error (.typeMismatch (.index (.var "K") (.var "R")) v.ty)

/-- An iterator over a sequence, with the type of its elements. -/
def toIterator : Value → Eval (Nat × Ty)
  | .iterator h element => return (h, element)
  | .array elements element => do return (← Eval.allocate (.elements elements), element)
  | v => throw (.typeMismatch (.iterator (.var "A")) v.ty)

end Value

namespace Index

/-- An iterator over the rows, in key order. -/
def scan (i : Index) : Eval Value := do
  return .iterator (← Eval.allocate (.rows (i.rows.map Cursor.start))) i.row

/-- The row under a key. -/
def get (i : Index) (key : Value) : Except EvalFault Value := do
  let notFound := EvalFault.rowNotFound i.table key.text
  match i.rows with
  | none => throw notFound
  | some bucket =>
    match key.toKey with
    | .error e => throw (.encoding e)
    | .ok k =>
      match Keyed.find? bucket k with
      | none => throw notFound
      | some bytes =>
        match Value.decode bytes with
        | .ok row => return row
        | .error e => throw (.encoding e)

end Index

/-- The whole number if it fits 64 bits. -/
def checkedInt (operation : String) (n : Int) : Except EvalFault Value :=
  if Int64.minValue.toInt ≤ n ∧ n ≤ Int64.maxValue.toInt then .ok (.int (Int64.ofInt n))
  else .error (.overflow operation)

/-! ## Listening -/

/-- The point with the given number. -/
def Watch.point (w : Watch) (n : Int64) : Except EvalFault Point :=
  if n.toInt < 0 then .error (.unknownPoint n.toInt)
  else
    match w.points[n.toInt.toNat]? with
    | some p => .ok p
    | none => .error (.unknownPoint n.toInt)

/-- The path of the rows of a point, when the innermost frame works on the row at `here`. -/
def Watch.pathOf (w : Watch) (p : Point) (here : Path) : Path :=
  match p.selection with
  | some name => if p.isRoot then w.base else here.selection name
  | none => w.base

/-- The filter of a listener on the table of a point: its column with the bytes of the value. -/
def Point.filter (p : Point) (value : Option Value) :
    Except EncodingFault (Option (String × Bytes)) := do
  match p.filterColumn, value with
  | some column, some v => return some (column, ← v.toKey)
  | _, _ => return none

/-- Subscribes to the table of a point and watches each row given out. Outside a live query the rows
are left as they are; a resumed watch has a listener on its root's table already. -/
def listenAt (rows : Value) (point : Int64) (value : Option Value) : Eval Value := do
  match (← get).live with
  | none => return rows
  | some w =>
    let p ← Eval.ofExcept (w.point point)
    let path := w.pathOf p (← Eval.path)
    unless p.isRoot && w.resumed do
      let filter ← Eval.ofEncoding (p.filter value)
      Eval.send (.table p.table filter ⟨w.subscriber, some p.query, path⟩)
    let (inner, element) ← rows.toIterator
    return .iterator (← Eval.allocate (.watched inner p path w.subscriber)) element

/-! ## Built-in functions -/

namespace Builtin

/-- A function of two whole numbers. -/
def onInts (b : Builtin) (f : Int64 → Int64 → Except EvalFault Value) : List Value → Eval Value
  | [x, y] => do
    let m ← Eval.ofExcept x.asInt
    let n ← Eval.ofExcept y.asInt
    Eval.ofExcept (f m n)
  | args => throw (.arity b.name 2 args.length)

/-- A function of two booleans. -/
def onBools (b : Builtin) (f : Bool → Bool → Bool) : List Value → Eval Value
  | [x, y] => do
    let p ← Eval.ofExcept x.asBool
    let q ← Eval.ofExcept y.asBool
    return .bool (f p q)
  | args => throw (.arity b.name 2 args.length)

/-- A function of two texts. -/
def onStrs (b : Builtin) (f : String → String → Value) : List Value → Eval Value
  | [x, y] => do
    let s ← Eval.ofExcept x.asStr
    let t ← Eval.ofExcept y.asStr
    return f s t
  | args => throw (.arity b.name 2 args.length)

/-- The function, on arguments that nobody has checked. -/
def apply (b : Builtin) (args : List Value) : Eval Value :=
  match b with
  | .plus => b.onInts (fun m n => checkedInt b.name (m.toInt + n.toInt)) args
  | .minus => b.onInts (fun m n => checkedInt b.name (m.toInt - n.toInt)) args
  | .times => b.onInts (fun m n => checkedInt b.name (m.toInt * n.toInt)) args
  | .intEq => b.onInts (fun m n => .ok (.bool (m == n))) args
  | .intLt => b.onInts (fun m n => .ok (.bool (decide (m < n)))) args
  | .intGt => b.onInts (fun m n => .ok (.bool (decide (n < m)))) args
  | .strEq => b.onStrs (fun s t => .bool (s == t)) args
  | .concat => b.onStrs (fun s t => .str (s ++ t)) args
  | .boolEq => b.onBools (· == ·) args
  | .and => b.onBools (· && ·) args
  | .or => b.onBools (· || ·) args
  | .not =>
    match args with
    | [x] => do return .bool !(← Eval.ofExcept x.asBool)
    | args => throw (.arity b.name 1 args.length)
  | .map =>
    match args with
    | [xs, f] => do
      let f ← Eval.ofExcept f.asFunction
      let (inner, _) ← xs.toIterator
      return .iterator (← Eval.allocate (.mapped inner f)) f.result
    | args => throw (.arity b.name 2 args.length)
  | .filter =>
    match args with
    | [xs, f] => do
      let (inner, element) ← xs.toIterator
      let test ← Eval.ofExcept f.asFunction
      return .iterator (← Eval.allocate (.filtered inner test)) element
    | args => throw (.arity b.name 2 args.length)
  | .scan =>
    match args with
    | [index] => do (← Eval.ofExcept index.asIndex).scan
    | args => throw (.arity b.name 1 args.length)
  | .get =>
    match args with
    | [index, key] => do Eval.ofExcept ((← Eval.ofExcept index.asIndex).get key)
    | args => throw (.arity b.name 2 args.length)
  | .listen =>
    match args with
    | [rows, point] => do listenAt rows (← Eval.ofExcept point.asInt) none
    | args => throw (.arity b.name 2 args.length)
  | .listenWhere =>
    match args with
    | [rows, point, value] => do listenAt rows (← Eval.ofExcept point.asInt) (some value)
    | args => throw (.arity b.name 3 args.length)

/-- Matches the types of the arguments against the declared parameters, in order. -/
def checkArgs : List (String × Ty) → List Value → Bindings → Except EvalFault Bindings
  | (_, declared) :: params, v :: args, bs =>
    match declared.matchFrom v.ty bs with
    | (true, bs) => checkArgs params args bs
    | (false, _) => .error (.typeMismatch declared v.ty)
  | _, _, bs => .ok bs

/-- Matches the type of a result against the declared one. -/
def checkResult (b : Builtin) (bs : Bindings) (v : Value) : Except EvalFault Value := do
  let declared ← b.result.substitute bs
  match declared.matching? v.ty with
  | some _ => return v
  | none => throw (.returnContract b.name declared v.ty)

end Builtin

end LiveQuery
