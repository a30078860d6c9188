import LiveQuery.Encoding.Key
import LiveQuery.Encoding.Record
import LiveQuery.Expr.Inline
import LiveQuery.Live.Subscription

/-! # The evaluation machine

The state that an evaluation runs in, and the steps on it that do not recurse.

* `Frame` is what one call sees: its scope, the function called and the path of the row it works on.
  The machine always has a frame; calls put theirs on top and take them off again.
* `Cell` holds an iterator: one that can be read, one that is being read, or one that is done. An
  iterator value is the number of a cell.
* `Machine` also has the call table, the subscriptions sent so far and, in a live query, its watch.
* `Eval` is the monad of evaluation: a fault leaves the state as it was reached, and running out of
  fuel is neither a value nor a fault.
-/
namespace LiveQuery

/-- What a call sees. -/
structure Frame where
  scope : Scope
  callee : Option Function := none
  path : Path := Path.root
deriving Inhabited

/-- Where an iterator gets its elements. -/
inductive Source
  /-- The rest of an array. -/
  | elements (rest : List Value)
  /-- A function of each element of another iterator. -/
  | mapped (inner : Nat) (f : Function)
  /-- The elements of another iterator that pass a test. -/
  | filtered (inner : Nat) (test : Function)
  /-- The rows that a cursor reads, none if there is no bucket. -/
  | rows (cursor : Option Cursor)
  /-- The rows of another iterator, each watched once it has been given out. -/
  | watched (inner : Nat) (point : Point) (base : Path) (subscriber : Subscriber)
deriving Inhabited

/-- The iterator that a source reads from. -/
def Source.inner? : Source → Option Nat
  | .elements _ | .rows _ => none
  | .mapped inner _ | .filtered inner _ | .watched inner .. => some inner

inductive Cell
  | ready (source : Source)
  | busy
  | done
deriving Inhabited

structure Machine where
  /-- The innermost frame. -/
  top : Frame
  /-- The frames below it, the innermost first. -/
  callers : List Frame := []
  cells : Array Cell := #[]
  calls : CallTable := #[]
  /-- How many functions were made so far. -/
  stamps : Nat := 0
  /-- The path of the row given out last, until the next call takes it. -/
  rowPath : Option Path := none
  live : Option Watch := none
  /-- The subscriptions sent, in order. -/
  sent : Array Subscription := #[]
deriving Inhabited

namespace Machine

/-- A machine that evaluates in `scope`. -/
def start (scope : Scope) : Machine := { top := { scope } }

/-- A machine that evaluates a live query in `scope`. -/
def startLive (scope : Scope) (w : Watch) : Machine :=
  { top := { scope, path := w.base }, live := some w }

/-- The frames, the innermost first. -/
def frames (m : Machine) : List Frame := m.top :: m.callers

/-- The number of frames. -/
def depth (m : Machine) : Nat := m.frames.length

/-- Puts a frame on top. -/
def push (m : Machine) (f : Frame) : Machine := { m with top := f, callers := m.frames }

/-- Takes the innermost frame off; the outermost one stays. -/
def pop (m : Machine) : Machine :=
  match m.callers with
  | [] => m
  | f :: rest => { m with top := f, callers := rest }

/-- Adds a cell and gives its number. -/
def allocate (m : Machine) (source : Source) : Nat × Machine :=
  (m.cells.size, { m with cells := m.cells.push (.ready source) })

/-- The cell with a number; there is none where none was added, as if it were done. -/
def cell (m : Machine) (h : Nat) : Cell := m.cells[h]?.getD .done

/-- Changes a cell. -/
def setCell (m : Machine) (h : Nat) (c : Cell) : Machine :=
  { m with cells := m.cells.setIfInBounds h c }

/-- Closes an iterator that can be read, and then the one it reads from. -/
def closeFrom : (fuel : Nat) → Nat → Machine → Machine
  | 0, _, m => m
  | fuel + 1, h, m =>
    match m.cell h with
    | .ready source =>
      let m := m.setCell h .done
      match source.inner? with
      | some inner => closeFrom fuel inner m
      | none => m
    | _ => m

/-- Closes an iterator and those it reads from; each is closed once, so the cells bound the steps. -/
def close (m : Machine) (h : Nat) : Machine := closeFrom (m.cells.size + 1) h m

/-- Gives every unlinked call of an expression a cell of the call table. -/
def load (m : Machine) (e : Expr) : Expr × Machine :=
  let (e, n) := e.link m.calls.size
  (e, { m with calls := m.calls ++ Array.replicate (n - m.calls.size) none })

end Machine

/-! ## The monad -/

/-- An evaluation: it changes the machine and has a value or a fault, or runs out of fuel. -/
abbrev Eval := ExceptT EvalFault (StateT Machine Option)

namespace Eval

/-- The evaluation that ran out of fuel. -/
def outOfFuel {α : Type} : Eval α := ExceptT.mk fun _ => none

/-- The evaluation that has the given outcome at once. -/
def ofExcept {α : Type} : Except EvalFault α → Eval α
  | .ok a => pure a
  | .error e => throw e

/-- The evaluation that has the given outcome of encoding at once. -/
def ofEncoding {α : Type} : Except EncodingFault α → Eval α
  | .ok a => pure a
  | .error e => throw (.encoding e)

/-- Runs `act` and gives its outcome as a value. -/
def outcome {α : Type} (act : Eval α) : Eval (Except EvalFault α) :=
  ExceptT.mk do
    let r ← act.run
    return .ok r

/-- Runs `act` under a frame, which is taken off whatever the outcome. -/
def inFrame {α : Type} (f : Frame) (act : Eval α) : Eval α :=
  ExceptT.mk do
    modify (·.push f)
    let r ← act.run
    modify Machine.pop
    return r

/-- The innermost scope. -/
def scope : Eval Scope := return (← get).top.scope

/-- The path of the innermost frame. -/
def path : Eval Path := return (← get).top.path

/-- Runs `act` in another scope. -/
def within {α : Type} (s : Scope) (act : Eval α) : Eval α := do
  inFrame { scope := s, path := ← path } act

/-- The path of the row given out last, if no call has taken it yet, else the innermost path. -/
def takeRowPath : Eval Path := do
  match (← get).rowPath with
  | some p =>
    modify fun m => { m with rowPath := none }
    return p
  | none => path

/-- Adds an iterator. -/
def allocate (source : Source) : Eval Nat := do
  let (h, m) := (← get).allocate source
  set m
  return h

/-- Sends a subscription. -/
def send (s : Subscription) : Eval Unit := modify fun m => { m with sent := m.sent.push s }

/-- A stamp that no function has yet. -/
def freshStamp : Eval Nat := do
  let m ← get
  set { m with stamps := m.stamps + 1 }
  return m.stamps

/-- Makes an expression ready for evaluation. -/
def load (e : Expr) : Eval Expr := do
  let (e, m) := (← get).load e
  set m
  return e

end Eval

end LiveQuery
