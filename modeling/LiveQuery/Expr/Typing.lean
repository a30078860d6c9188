import LiveQuery.Scope
import LiveQuery.Ty.Match

/-! # Types of expressions

`Expr.infer` gives the type of an expression under the types of the names in scope, or the fault that
it has none. A call matches the declared parameters against the types of its arguments, in order, and
substitutes what their variables were bound to into the declared result. A function expression has
the type it declares, once the type of its body matches the declared result.
-/
namespace LiveQuery

namespace Expr

/-- The type of a field of a value of type `t`. -/
def memberType (name : String) : Ty → Except EvalFault Ty
  | .record fields =>
    match Keyed.find? fields name with
    | some t => .ok t
    | none => .error (.noSuchMember name (.record fields))
  | t => .error (.notARecord name t)

/-- The parameters and the result of the function type that `name` has. -/
def signature (types : TypeScope) (name : String) : Except EvalFault (List Ty × Ty) := do
  match ← types.lookup name with
  | .function params result => return (params, result)
  | _ => throw (.notAFunction name)

/-- Matches one argument against its parameter. -/
def matchArg (param actual : Ty) (bs : Bindings) : Except EvalFault Bindings :=
  match param.matchFrom actual bs with
  | (true, bs) => .ok bs
  | (false, bs) =>
    .error (.typeMismatch ((param.substitute bs).toOption.getD param) actual)

mutual

/-- The type of an expression. -/
def infer (types : TypeScope) : Expr → Except EvalFault Ty
  | .int _ => .ok .int
  | .str _ => .ok .string
  | .var name => types.lookup name
  | .record fields => do return .record (← inferFields types fields)
  | .lambda params result body => do
    let actual ← body.infer (Links.child types params)
    let _ ← result.expect actual
    return .function (params.map Prod.snd) result
  | .call name args _ => do
    let (params, result) ← signature types name
    if params.length ≠ args.length then
      throw (.arity name params.length args.length)
    let bs ← inferArgs types params args []
    result.substitute bs
  | .member e name => do memberType name (← e.infer types)
  | .block bindings result => do
    let types ← inferBindings types bindings
    result.infer types
  | .index i => .ok i.ty
  | .value v => .ok v.ty

def inferFields (types : TypeScope) :
    List (String × Expr) → Except EvalFault (List (String × Ty))
  | [] => .ok []
  | (name, e) :: rest => do
    let t ← e.infer types
    return (name, t) :: (← inferFields types rest)

/-- Matches the types of the arguments against the parameters, in order. -/
def inferArgs (types : TypeScope) : List Ty → List Expr → Bindings → Except EvalFault Bindings
  | param :: params, e :: args, bs => do
    let actual ← e.infer types
    let bs ← matchArg param actual bs
    inferArgs types params args bs
  | _, _, bs => .ok bs

/-- The types in scope after local bindings. -/
def inferBindings (types : TypeScope) : List (String × Expr) → Except EvalFault TypeScope
  | [] => .ok types
  | (name, e) :: rest => do
    let t ← e.infer types
    inferBindings (Links.child types [(name, t)]) rest

end

end Expr

end LiveQuery
