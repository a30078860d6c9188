import LiveQuery.Machine.Apply

/-! # Evaluation

Evaluating expressions, calling functions, reading iterators and turning values into data. The four
depend on each other: reading an iterator may call a function, whose body may read another one. Each
takes a number of steps as fuel, and one that is given more ends the same way.

* `eval` gives the value of an expression, `call` that of a function on arguments.
* `next` gives the next element of an iterator. At its end, and after a fault, an iterator is closed
  and gives nothing more; while it is being read it cannot be read again.
* `toJson` gives a value as data and thereby reads every iterator in it; `collect` reads one to a list.
-/
namespace LiveQuery

namespace Eval

/-- The function that a call names. A name that no link of the scope binds keeps its function, so the
first look-up is noted in the call table. -/
def resolve (name : String) (site : CallSite) : Eval Function := do
  let m ← get
  match site.resolved? m.calls with
  | some b => return .builtin b
  | none =>
    match ← ofExcept (m.top.scope.lookup name) with
    | .function f =>
      match f, site with
      | .builtin b, .cell n =>
        unless Links.binds m.top.scope name do
          set { m with calls := m.calls.setIfInBounds n (some b) }
      | _, _ => pure ()
      return f
    | _ => throw (.notAFunction name)

/-- Reads a cell with `advance`, which gives the next element and the source after it. The cell cannot
be read meanwhile; it is done, and what it reads from is closed, if there is no element. -/
def readCell (advance : Source → Eval (Option (Value × Source))) (h : Nat) :
    Eval (Option Value) := do
  match (← get).cell h with
  | .done => return none
  | .busy => throw .iteratorBusy
  | .ready source =>
    modify (·.setCell h .busy)
    match ← outcome (advance source) with
    | .ok (some (v, source)) =>
      modify (·.setCell h (.ready source))
      return some v
    | .ok none => finish source; return none
    | .error e => finish source; throw e
where
  finish (source : Source) : Eval Unit := modify fun m =>
    let m := match source.inner? with
      | some inner => m.close inner
      | none => m
    m.setCell h .done

mutual

/-- The value of an expression. -/
def eval : (fuel : Nat) → Expr → Eval Value
  | 0, _ => outOfFuel
  | fuel + 1, e =>
    match e with
    | .int n => return .int n
    | .str s => return .str s
    | .var name => do ofExcept ((← scope).lookup name)
    | .record fields => do
      return .record (← fields.mapM fun (name, e) => do return (name, ← eval fuel e))
    | .lambda params result body => do
      return .function (.closure (← freshStamp) params result body (← scope))
    | .call name args site => do
      let f ← resolve name site
      let args ← args.mapM (eval fuel)
      call fuel f args
    | .member e name => do ofExcept ((← eval fuel e).member name)
    | .block bindings result => do
      let inner ← bindings.foldlM
        (fun s (name, e) => do return Links.child s [(name, ← within s (eval fuel e))])
        (← scope)
      within inner (eval fuel result)
    | .index i => return .index i
    | .value v => return v

/-- The value of a function on arguments. -/
def call : (fuel : Nat) → Function → List Value → Eval Value
  | 0, _, _ => outOfFuel
  | fuel + 1, f, args => do
    if f.arity ≠ args.length then
      throw (.arity f.name f.arity args.length)
    let path ← takeRowPath
    match f with
    | .closure _ params _ body scope =>
      let scope := Links.child scope ((params.map Prod.fst).zip args)
      inFrame { scope, callee := some f, path } (eval fuel body)
    | .builtin b =>
      let bs ← ofExcept (Builtin.checkArgs b.params args [])
      let scope := Links.child Scope.root ((b.params.map Prod.fst).zip args)
      let v ← inFrame { scope, callee := some f, path } (b.apply args)
      ofExcept (b.checkResult bs v)

/-- The next element of an iterator. -/
def next : (fuel : Nat) → (handle : Nat) → Eval (Option Value)
  | 0, _ => outOfFuel
  | fuel + 1, h => readCell (advance fuel) h

/-- The next element of a source, and the source after it. -/
def advance : (fuel : Nat) → Source → Eval (Option (Value × Source))
  | 0, _ => outOfFuel
  | fuel + 1, source =>
    match source with
    | .elements [] => return none
    | .elements (v :: rest) => return some (v, .elements rest)
    | .mapped inner f => do
      match ← next fuel inner with
      | some v => return some (← call fuel f [v], source)
      | none => return none
    | .filtered inner test => do
      match ← seek fuel inner test with
      | some v => return some (v, source)
      | none => return none
    | .rows none => return none
    | .rows (some cursor) => do
      match cursor.next with
      | (some (_, bytes), cursor) =>
        return some (← ofEncoding (Value.decode bytes), .rows (some cursor))
      | (none, _) => return none
    | .watched inner point base subscriber => do
      match ← next fuel inner with
      | none => return none
      | some row =>
        let key ← ofExcept (row.member point.primaryKey)
        let path := base.row (← toJson fuel key)
        let bytes ← ofEncoding key.toKey
        send (.record point.table bytes ⟨subscriber, none, path⟩)
        modify fun m => { m with rowPath := some path }
        return some (row, source)

/-- The next element of an iterator that passes a test. -/
def seek : (fuel : Nat) → (handle : Nat) → Function → Eval (Option Value)
  | 0, _, _ => outOfFuel
  | fuel + 1, h, test => do
    match ← next fuel h with
    | none => return none
    | some v =>
      match ← call fuel test [v] with
      | .bool true => return some v
      | .bool false => seek fuel h test
      | other => throw (.typeMismatch .bool other.ty)

/-- A value as data. -/
def toJson : (fuel : Nat) → Value → Eval Json
  | 0, _ => outOfFuel
  | fuel + 1, v =>
    match v with
    | .int n => return .num n.toInt
    | .bool b => return .bool b
    | .str s => return .str s
    | .record fields => do
      return .obj (← fields.mapM fun (name, v) => do return (name, ← toJson fuel v))
    | .array elements _ => do return .arr (← elements.mapM (toJson fuel))
    | .iterator h _ => do return .arr (← drain fuel h)
    | .function _ | .index _ => throw (.notSerializable v.ty)

/-- The rest of an iterator as data, each element before the next is read. -/
def drain : (fuel : Nat) → (handle : Nat) → Eval (List Json)
  | 0, _ => outOfFuel
  | fuel + 1, h => do
    match ← next fuel h with
    | none => return []
    | some v =>
      let j ← toJson fuel v
      return j :: (← drain fuel h)

end

/-- The rest of an iterator as a list. -/
def collect : (fuel : Nat) → (handle : Nat) → Eval (List Value)
  | 0, _ => outOfFuel
  | fuel + 1, h => do
    match ← next fuel h with
    | none => return []
    | some v => return v :: (← collect fuel h)

end Eval

end LiveQuery
