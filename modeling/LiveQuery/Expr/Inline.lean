import LiveQuery.Scope

/-! # Inlining

Replacing the free names of an expression by the values they have in a scope, so that evaluating it
once per row does not look them up each time.

* `Expr.inline` leaves alone the names that function parameters and local bindings hide, takes fields
  of inlined records at once, and resolves calls of built-in functions.
* `Expr.link` gives each unlinked call a cell of the machine's call table.
-/
namespace LiveQuery

/-- The built-in that each cell of the call table has been resolved to. -/
abbrev CallTable := Array (Option Builtin)

/-- The built-in that a call is known to name. -/
def CallSite.resolved? (calls : CallTable) : CallSite → Option Builtin
  | .unlinked => none
  | .cell n => calls[n]?.join
  | .known b => some b

namespace Expr

/-- The built-in that the outermost call of an expression is known to name. -/
def resolved? (calls : CallTable) : Expr → Option Builtin
  | .call _ _ site => site.resolved? calls
  | _ => none

/-- The expression that stands for a value. -/
def ofValue : Value → Expr
  | .index i => .index i
  | v => .value v

/-- The member of an expression, taken at once from an inlined record that has it. -/
def foldMember (e : Expr) (name : String) : Expr :=
  match e with
  | .value (.record fields) =>
    match Keyed.find? fields name with
    | some v => ofValue v
    | none => .member e name
  | _ => .member e name

/-- What inlining in `scope` finds out about a call of `name`. -/
def inlineSite (scope : Scope) (calls : CallTable) (hidden : List String) (name : String)
    (site : CallSite) : CallSite :=
  match site.resolved? calls with
  | some b => .known b
  | none =>
    if hidden.contains name then .unlinked
    else
      match scope.lookup name with
      | .ok (.function (.builtin b)) => .known b
      | _ => .unlinked

mutual

/-- The expression with its free names replaced by their values in `scope`; `hidden` are the names
bound around it. A name that is nowhere stays, for evaluation to report. -/
def inlineWith (scope : Scope) (calls : CallTable) (hidden : List String) : Expr → Expr
  | .var name =>
    if hidden.contains name then .var name
    else
      match scope.lookup name with
      | .ok v => ofValue v
      | .error _ => .var name
  | .int n => .int n
  | .str s => .str s
  | .index i => .index i
  | .value v => .value v
  | .record fields => .record (inlineFields scope calls hidden fields)
  | .lambda params result body =>
    .lambda params result (body.inlineWith scope calls (params.map Prod.fst ++ hidden))
  | .call name args site =>
    .call name (inlineArgs scope calls hidden args) (inlineSite scope calls hidden name site)
  | .member e name => foldMember (e.inlineWith scope calls hidden) name
  | .block bindings result =>
    .block (inlineBindings scope calls hidden bindings)
      (result.inlineWith scope calls ((bindings.map Prod.fst).reverse ++ hidden))

def inlineFields (scope : Scope) (calls : CallTable) (hidden : List String) :
    List (String × Expr) → List (String × Expr)
  | [] => []
  | (name, e) :: rest =>
    (name, e.inlineWith scope calls hidden) :: inlineFields scope calls hidden rest

def inlineArgs (scope : Scope) (calls : CallTable) (hidden : List String) :
    List Expr → List Expr
  | [] => []
  | e :: rest => e.inlineWith scope calls hidden :: inlineArgs scope calls hidden rest

/-- Inlines local bindings; each name hides from the next binding on. -/
def inlineBindings (scope : Scope) (calls : CallTable) (hidden : List String) :
    List (String × Expr) → List (String × Expr)
  | [] => []
  | (name, e) :: rest =>
    (name, e.inlineWith scope calls hidden) :: inlineBindings scope calls (name :: hidden) rest

end

/-- The expression with its free names replaced by their values in `scope`. -/
def inline (scope : Scope) (calls : CallTable) (e : Expr) : Expr := e.inlineWith scope calls []

/-! ## Linking -/

mutual

/-- Gives the unlinked calls the cells `n`, `n + 1` and so on; the result and the first cell left. -/
def link (n : Nat) : Expr → Expr × Nat
  | .record fields => let (fields, n) := linkFields n fields; (.record fields, n)
  | .lambda params result body => let (body, n) := body.link n; (.lambda params result body, n)
  | .call name args site =>
    let (args, n) := linkArgs n args
    match site with
    | .unlinked => (.call name args (.cell n), n + 1)
    | site => (.call name args site, n)
  | .member e name => let (e, n) := e.link n; (.member e name, n)
  | .block bindings result =>
    let (bindings, n) := linkFields n bindings
    let (result, n) := result.link n
    (.block bindings result, n)
  | e => (e, n)

def linkFields (n : Nat) : List (String × Expr) → List (String × Expr) × Nat
  | [] => ([], n)
  | (name, e) :: rest =>
    let (e, n) := e.link n
    let (rest, n) := linkFields n rest
    ((name, e) :: rest, n)

def linkArgs (n : Nat) : List Expr → List Expr × Nat
  | [] => ([], n)
  | e :: rest =>
    let (e, n) := e.link n
    let (rest, n) := linkArgs n rest
    (e :: rest, n)

end

end Expr

end LiveQuery
