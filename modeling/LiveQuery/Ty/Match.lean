import LiveQuery.Fault

/-! # Matching types

A type with variables is a pattern. Matching it against a candidate binds its variables;
substituting the bindings into a pattern gives the type it stands for.

* `Ty.matchFrom` extends given bindings, so that sibling positions of one pattern agree. It tries
  fields and parameters in order, stops at the first that does not match, and gives back the bindings
  it has reached either way.
* `Ty.matching?` starts from no bindings.
* `Ty.expect` is `matching?` with a mismatch as a fault.
* `Ty.substitute` replaces every variable; an unbound one is a fault. `Ty.resolve` also tells whether no
  variable is left.

A variable in the candidate is not bound: only the same variable in the pattern matches it.
-/
namespace LiveQuery

/-- The types that variables stand for, by variable name. -/
abbrev Bindings := List (String × Ty)

namespace Ty

/-! ## Matching -/

/-- Matches the variable `name` against `candidate`. -/
def matchVar (name : String) (candidate : Ty) (bs : Bindings) : Bool × Bindings :=
  match candidate with
  | .var other => (name == other, bs)
  | _ =>
    match Keyed.find? bs name with
    | some bound => (decide (bound = candidate), bs)
    | none => (true, Keyed.insert bs name candidate)

mutual

/-- Whether `candidate` is an instance of the pattern under some extension of the bindings, and the
bindings that were reached. -/
def matchFrom : (pattern candidate : Ty) → Bindings → Bool × Bindings
  | .var name, c, bs => matchVar name c bs
  | .int, .int, bs | .bool, .bool, bs | .string, .string, bs => (true, bs)
  | .record ps, .record fs, bs =>
    if ps.length = fs.length then matchFields ps fs bs else (false, bs)
  | .iterator p, .iterator c, bs => p.matchFrom c bs
  | .index k r, .index k' r', bs =>
    match k.matchFrom k' bs with
    | (true, bs) => r.matchFrom r' bs
    | (false, bs) => (false, bs)
  | .function ps r, .function cs r', bs =>
    if ps.length = cs.length then
      match matchParams ps cs bs with
      | (true, bs) => r.matchFrom r' bs
      | (false, bs) => (false, bs)
    else (false, bs)
  | _, _, bs => (false, bs)

/-- Matches each field of a record pattern against the candidate's field of that name. -/
def matchFields : List (String × Ty) → List (String × Ty) → Bindings → Bool × Bindings
  | [], _, bs => (true, bs)
  | (name, p) :: rest, fs, bs =>
    match Keyed.find? fs name with
    | none => (false, bs)
    | some c =>
      match p.matchFrom c bs with
      | (true, bs) => matchFields rest fs bs
      | (false, bs) => (false, bs)

/-- Matches parameters by position. -/
def matchParams : List Ty → List Ty → Bindings → Bool × Bindings
  | p :: ps, c :: cs, bs =>
    match p.matchFrom c bs with
    | (true, bs) => matchParams ps cs bs
    | (false, bs) => (false, bs)
  | _, _, bs => (true, bs)

end

/-- The bindings that make `candidate` an instance of `pattern`, if there are any. -/
def matching? (pattern candidate : Ty) : Option Bindings :=
  match pattern.matchFrom candidate [] with
  | (true, bs) => some bs
  | (false, _) => none

/-- The bindings that make `actual` an instance of `expected`; a mismatch names both types. -/
def expect (expected actual : Ty) : Except EvalFault Bindings :=
  match expected.matching? actual with
  | some bs => .ok bs
  | none => .error (.typeMismatch expected actual)

/-! ## Substitution -/

mutual

/-- The type with every variable replaced by what it is bound to. -/
def substitute (bs : Bindings) : Ty → Except EvalFault Ty
  | .int => .ok .int
  | .bool => .ok .bool
  | .string => .ok .string
  | .var name =>
    match Keyed.find? bs name with
    | some bound => .ok bound
    | none => .error (.missingTypeVar name)
  | .record fields => do return .record (← substituteFields bs fields)
  | .iterator t => do return .iterator (← t.substitute bs)
  | .index key row => do
    let key ← key.substitute bs
    return .index key (← row.substitute bs)
  | .function params result => do
    let params ← substituteParams bs params
    return .function params (← result.substitute bs)

def substituteFields (bs : Bindings) : List (String × Ty) → Except EvalFault (List (String × Ty))
  | [] => .ok []
  | (name, t) :: rest => do
    let t ← t.substitute bs
    return (name, t) :: (← substituteFields bs rest)

def substituteParams (bs : Bindings) : List Ty → Except EvalFault (List Ty)
  | [] => .ok []
  | t :: rest => do
    let t ← t.substitute bs
    return t :: (← substituteParams bs rest)

end

mutual

/-- The type with every variable replaced, and whether no variable is left in it; a bound type is searched
for variables where it is put in. -/
def resolve (bs : Bindings) : Ty → Except EvalFault (Ty × Bool)
  | .int => .ok (.int, true)
  | .bool => .ok (.bool, true)
  | .string => .ok (.string, true)
  | .var name =>
    match Keyed.find? bs name with
    | some bound => .ok (bound, bound.isGround)
    | none => .error (.missingTypeVar name)
  | .record fields => do
    let (fields, ground) ← resolveFields bs fields
    return (.record fields, ground)
  | .iterator t => do
    let (t, ground) ← t.resolve bs
    return (.iterator t, ground)
  | .index key row => do
    let (key, groundKey) ← key.resolve bs
    let (row, groundRow) ← row.resolve bs
    return (.index key row, groundKey && groundRow)
  | .function params result => do
    let (params, groundParams) ← resolveParams bs params
    let (result, groundResult) ← result.resolve bs
    return (.function params result, groundParams && groundResult)

def resolveFields (bs : Bindings) :
    List (String × Ty) → Except EvalFault (List (String × Ty) × Bool)
  | [] => .ok ([], true)
  | (name, t) :: rest => do
    let (t, ground) ← t.resolve bs
    let (rest, groundRest) ← resolveFields bs rest
    return ((name, t) :: rest, ground && groundRest)

def resolveParams (bs : Bindings) : List Ty → Except EvalFault (List Ty × Bool)
  | [] => .ok ([], true)
  | t :: rest => do
    let (t, ground) ← t.resolve bs
    let (rest, groundRest) ← resolveParams bs rest
    return (t :: rest, ground && groundRest)

end

end Ty

end LiveQuery
