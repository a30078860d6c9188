import LiveQuery.Encoding.Key
import LiveQuery.Expr.Inline
import LiveQuery.Proofs.Encoding.Record
import LiveQuery.Proofs.Keyed
import LiveQuery.Proofs.Outcome
import Mathlib.Data.List.Forall2

/-! # Expressions side by side

Evaluating an expression and evaluating it inlined build values that are not equal: a function keeps the body that
it was made from, with names in it on one side and values on the other. A `Pairing` says which values of the two
runs belong together. Data is equal, records and arrays are paired part by part, iterators have one handle, and
functions have one declaration and paired bodies. Expressions are paired (`Pairing.Exprs`) relative to a `Place`,
the names bound around them: they are built alike, but where both can be read off at once (`Pairing.Reads`) only
what is read has to be paired, which covers a name beside its value and a member beside the field it was folded to.

The relation is symmetric (`Values.symm`), it grows with the cells that the two sides have to themselves
(`Values.mono`), and paired values have the same type and text, and paired members.
-/
namespace LiveQuery

/-- Where an expression stands: outside the expression that is inlined, or in it, under binders of these names. -/
inductive Place
  | elsewhere
  | under (hidden : List String)

namespace Place

/-- The place under further binders. -/
def binding (names : List String) : Place → Place
  | elsewhere => elsewhere
  | under hidden => under (names ++ hidden)

/-- Under the binders of a place the scope `s` is `outer` but for the names that they bind. -/
def Fits (outer : Scope) : Place → Scope → Prop
  | elsewhere, _ => True
  | under hidden, s => ∀ name, (name ∈ hidden → Links.binds s name = true) ∧
      (name ∉ hidden → Links.find? s name = Links.find? outer name)

end Place

/-- A call under the binders `hidden` that knows no more than its name tells in `scope`. Its cell, if it has one, is
one of those from `size` on, which are listed with the name of their call and whether that name is hidden. -/
def CallSite.Own (scope : Scope) (size : Nat) (cells : List (String × Bool)) (hidden : List String)
    (name : String) : CallSite → Prop
  | .unlinked => True
  | .cell n => size ≤ n ∧ cells[n - size]? = some (name, decide (name ∈ hidden))
  | .known b => name ∉ hidden ∧ scope.lookup name = .ok (.function (.builtin b))

theorem CallSite.Own.mono {scope : Scope} {size : Nat} {cells cells' : List (String × Bool)}
    {hidden : List String} {name : String} : {σ : CallSite} → σ.Own scope size cells hidden name →
    cells <+: cells' → σ.Own scope size cells' hidden name
  | .unlinked, _, _ => trivial
  | .known _, own, _ => own
  | .cell _, ⟨hsize, hcell⟩, h => by
    obtain ⟨more, rfl⟩ := h
    exact ⟨hsize, (List.getElem?_append_left (List.getElem?_eq_some_iff.mp hcell).1).trans hcell⟩

/-- Whether the cell of a call, if it has one, is below `n`. -/
def CallSite.below (n : Nat) : CallSite → Bool
  | .cell k => k < n
  | .unlinked | .known _ => true

mutual

/-- Whether the calls of an expression have cells below `k`, and those in its values cells below `n`. -/
def Expr.linked (k n : Nat) : Expr → Bool
  | .int _ | .str _ | .var _ | .index _ => true
  | .record fields => Expr.fieldsLinked k n fields
  | .lambda _ _ body => body.linked k n
  | .call _ args site => site.below k && Expr.argsLinked k n args
  | .member e _ => e.linked k n
  | .block bindings result => Expr.fieldsLinked k n bindings && result.linked k n
  | .value v => v.linked n

def Expr.fieldsLinked (k n : Nat) : List (String × Expr) → Bool
  | [] => true
  | (_, e) :: rest => e.linked k n && Expr.fieldsLinked k n rest

def Expr.argsLinked (k n : Nat) : List Expr → Bool
  | [] => true
  | e :: rest => e.linked k n && Expr.argsLinked k n rest

/-- Whether the calls in the functions of a value have cells below `n`. -/
def Value.linked (n : Nat) : Value → Bool
  | .record fields => Value.fieldsLinked n fields
  | .array elements _ => Value.elementsLinked n elements
  | .function f => f.linked n
  | .int _ | .bool _ | .str _ | .iterator .. | .index _ => true

def Value.fieldsLinked (n : Nat) : List (String × Value) → Bool
  | [] => true
  | (_, v) :: rest => v.linked n && Value.fieldsLinked n rest

def Value.elementsLinked (n : Nat) : List Value → Bool
  | [] => true
  | v :: rest => v.linked n && Value.elementsLinked n rest

def Function.linked (n : Nat) : Function → Bool
  | .closure _ _ _ body scope => body.linked n n && Value.linksLinked n scope
  | .builtin _ => true

def Value.linksLinked (n : Nat) : List (List (String × Value)) → Bool
  | [] => true
  | link :: rest => Value.fieldsLinked n link && Value.linksLinked n rest

end

/-- Two runs that start in `scope` with a call table of `size` cells, each with further cells for the calls of its
own expression. -/
structure Pairing where
  scope : Scope
  size : Nat
  left : List (String × Bool) := []
  right : List (String × Bool) := []

/-- Two outcomes are one fault, or results that belong together. -/
inductive Outcomes {α β : Type} (R : α → β → Prop) : Except EvalFault α → Except EvalFault β → Prop
  | ok {a : α} {b : β} (h : R a b) : Outcomes R (.ok a) (.ok b)
  | error (e : EvalFault) : Outcomes R (.error e) (.error e)

namespace Pairing

/-- The same runs with the sides exchanged. -/
def swap (p : Pairing) : Pairing := { p with left := p.right, right := p.left }

/-- The runs `q` are the runs `p`, perhaps with more cells to themselves. -/
structure Extends (p q : Pairing) : Prop where
  scope : q.scope = p.scope
  size : q.size = p.size
  left : p.left <+: q.left
  right : p.right <+: q.right

/-- Two calls of `name` that find the same function. -/
inductive Sites (p : Pairing) : Place → String → CallSite → CallSite → Prop
  | unlinked (place : Place) (name : String) : Sites p place name .unlinked .unlinked
  | known (place : Place) (name : String) (b : Builtin) : Sites p place name (.known b) (.known b)
  | cell (place : Place) (name : String) {n : Nat} (old : n < p.size) : Sites p place name (.cell n) (.cell n)
  | apart {hidden : List String} {name : String} {σ τ : CallSite} (here : σ.Own p.scope p.size p.left hidden name)
      (there : τ.Own p.scope p.size p.right hidden name) : Sites p (.under hidden) name σ τ

/-- The value of an expression that can be read off without evaluating a call. -/
inductive Reads (scope : Scope) : Place → Expr → Value → Prop
  | index (place : Place) (i : Index) : Reads scope place (.index i) (.index i)
  | value (place : Place) (v : Value) : Reads scope place (.value v) v
  | var {hidden : List String} {name : String} {v : Value} (free : name ∉ hidden)
      (found : scope.lookup name = .ok v) : Reads scope (.under hidden) (.var name) v
  | member {place : Place} {e : Expr} {name : String} {u v : Value} (whole : Reads scope place e u)
      (found : u.member name = .ok v) : Reads scope place (.member e name) v

mutual

/-- Values that belong together. -/
inductive Values (p : Pairing) : Value → Value → Prop
  | int (n : Int64) : Values p (.int n) (.int n)
  | bool (b : Bool) : Values p (.bool b) (.bool b)
  | str (s : String) : Values p (.str s) (.str s)
  | record {fs gs : List (String × Value)} (each : Fields p fs gs) : Values p (.record fs) (.record gs)
  | array {us vs : List Value} (each : Elements p us vs) (t : Ty) : Values p (.array us t) (.array vs t)
  | iterator (h : Nat) (t : Ty) : Values p (.iterator h t) (.iterator h t)
  | function {f g : Function} (h : Functions p f g) : Values p (.function f) (.function g)
  | index (i : Index) : Values p (.index i) (.index i)

inductive Fields (p : Pairing) : List (String × Value) → List (String × Value) → Prop
  | nil : Fields p [] []
  | cons (name : String) {u v : Value} {fs gs : List (String × Value)} (head : Values p u v)
      (tail : Fields p fs gs) : Fields p ((name, u) :: fs) ((name, v) :: gs)

inductive Elements (p : Pairing) : List Value → List Value → Prop
  | nil : Elements p [] []
  | cons {u v : Value} {us vs : List Value} (head : Values p u v) (tail : Elements p us vs) :
      Elements p (u :: us) (v :: vs)

/-- Functions that belong together; those made from an expression have it from one evaluation. -/
inductive Functions (p : Pairing) : Function → Function → Prop
  | builtin (b : Builtin) : Functions p (.builtin b) (.builtin b)
  | closure (stamp : Nat) (params : List (String × Ty)) (result : Ty) {place : Place} {body body' : Expr}
      {scope scope' : Scope} (bodies : Exprs p (place.binding (params.map Prod.fst)) body body')
      (scopes : Scopes p scope scope') (fits : place.Fits p.scope scope) (fits' : place.Fits p.scope scope') :
      Functions p (.closure stamp params result body scope) (.closure stamp params result body' scope')

inductive Scopes (p : Pairing) : Scope → Scope → Prop
  | nil : Scopes p [] []
  | cons {link link' : List (String × Value)} {s s' : Scope} (head : Fields p link link')
      (tail : Scopes p s s') : Scopes p (link :: s) (link' :: s')

/-- Expressions that belong together at a place. -/
inductive Exprs (p : Pairing) : Place → Expr → Expr → Prop
  | int (place : Place) (n : Int64) : Exprs p place (.int n) (.int n)
  | str (place : Place) (s : String) : Exprs p place (.str s) (.str s)
  | var (place : Place) (name : String) : Exprs p place (.var name) (.var name)
  | reads {place : Place} {e e' : Expr} {u v : Value} (here : Reads p.scope place e u)
      (there : Reads p.scope place e' v) (same : Values p u v) : Exprs p place e e'
  | record {place : Place} {fs gs : List (String × Expr)} (each : ExprFields p place fs gs) :
      Exprs p place (.record fs) (.record gs)
  | lambda {place : Place} (params : List (String × Ty)) (result : Ty) {body body' : Expr}
      (bodies : Exprs p (place.binding (params.map Prod.fst)) body body') :
      Exprs p place (.lambda params result body) (.lambda params result body')
  | call {place : Place} {name : String} {args args' : List Expr} {σ τ : CallSite} (each : Args p place args args')
      (sites : Sites p place name σ τ) : Exprs p place (.call name args σ) (.call name args' τ)
  | member {place : Place} {e e' : Expr} (name : String) (whole : Exprs p place e e') :
      Exprs p place (.member e name) (.member e' name)
  | result {place : Place} {e e' : Expr} (same : Exprs p place e e') : Exprs p place (.block [] e) (.block [] e')
  | binding {place : Place} {name : String} {e e' result result' : Expr} {rest rest' : List (String × Expr)}
      (bound : Exprs p place e e')
      (inner : Exprs p (place.binding [name]) (.block rest result) (.block rest' result')) :
      Exprs p place (.block ((name, e) :: rest) result) (.block ((name, e') :: rest') result')

inductive ExprFields (p : Pairing) : Place → List (String × Expr) → List (String × Expr) → Prop
  | nil (place : Place) : ExprFields p place [] []
  | cons {place : Place} (name : String) {e e' : Expr} {fs gs : List (String × Expr)} (head : Exprs p place e e')
      (tail : ExprFields p place fs gs) : ExprFields p place ((name, e) :: fs) ((name, e') :: gs)

inductive Args (p : Pairing) : Place → List Expr → List Expr → Prop
  | nil (place : Place) : Args p place [] []
  | cons {place : Place} {e e' : Expr} {es es' : List Expr} (head : Exprs p place e e')
      (tail : Args p place es es') : Args p place (e :: es) (e' :: es')

end

variable {p q : Pairing}

/-! ## The sides exchanged -/

theorem Sites.symm {place : Place} {name : String} {σ τ : CallSite} :
    p.Sites place name σ τ → p.swap.Sites place name τ σ
  | .unlinked place name => .unlinked place name
  | .known place name b => .known place name b
  | .cell place name old => .cell place name old
  | .apart here there => .apart there here

mutual

theorem Values.symm : {u v : Value} → p.Values u v → p.swap.Values v u
  | _, _, .int n => .int n
  | _, _, .bool b => .bool b
  | _, _, .str s => .str s
  | _, _, .record each => .record each.symm
  | _, _, .array each t => .array each.symm t
  | _, _, .iterator h t => .iterator h t
  | _, _, .function h => .function h.symm
  | _, _, .index i => .index i

theorem Fields.symm : {fs gs : List (String × Value)} → p.Fields fs gs → p.swap.Fields gs fs
  | _, _, .nil => .nil
  | _, _, .cons name head tail => .cons name head.symm tail.symm

theorem Elements.symm : {us vs : List Value} → p.Elements us vs → p.swap.Elements vs us
  | _, _, .nil => .nil
  | _, _, .cons head tail => .cons head.symm tail.symm

theorem Functions.symm : {f g : Function} → p.Functions f g → p.swap.Functions g f
  | _, _, .builtin b => .builtin b
  | _, _, .closure stamp params result bodies scopes fits fits' =>
    .closure stamp params result bodies.symm scopes.symm fits' fits

theorem Scopes.symm : {s s' : Scope} → p.Scopes s s' → p.swap.Scopes s' s
  | _, _, .nil => .nil
  | _, _, .cons head tail => .cons head.symm tail.symm

theorem Exprs.symm : {place : Place} → {e e' : Expr} → p.Exprs place e e' → p.swap.Exprs place e' e
  | _, _, _, .int place n => .int place n
  | _, _, _, .str place s => .str place s
  | _, _, _, .var place name => .var place name
  | _, _, _, .reads here there same => .reads there here same.symm
  | _, _, _, .record each => .record each.symm
  | _, _, _, .lambda params result bodies => .lambda params result bodies.symm
  | _, _, _, .call each sites => .call each.symm sites.symm
  | _, _, _, .member name whole => .member name whole.symm
  | _, _, _, .result same => .result same.symm
  | _, _, _, .binding bound inner => .binding bound.symm inner.symm

theorem ExprFields.symm : {place : Place} → {fs gs : List (String × Expr)} → p.ExprFields place fs gs →
    p.swap.ExprFields place gs fs
  | _, _, _, .nil place => .nil place
  | _, _, _, .cons name head tail => .cons name head.symm tail.symm

theorem Args.symm : {place : Place} → {es es' : List Expr} → p.Args place es es' → p.swap.Args place es' es
  | _, _, _, .nil place => .nil place
  | _, _, _, .cons head tail => .cons head.symm tail.symm

end

/-! ## More cells -/

theorem Extends.refl (p : Pairing) : p.Extends p :=
  ⟨rfl, rfl, List.prefix_rfl, List.prefix_rfl⟩

theorem Extends.trans {r : Pairing} (h : p.Extends q) (h' : q.Extends r) : p.Extends r :=
  ⟨h'.scope.trans h.scope, h'.size.trans h.size, h.left.trans h'.left, h.right.trans h'.right⟩

theorem Sites.mono (h : p.Extends q) {place : Place} {name : String} {σ τ : CallSite} :
    p.Sites place name σ τ → q.Sites place name σ τ
  | .unlinked place name => .unlinked place name
  | .known place name b => .known place name b
  | .cell place name old => .cell place name (h.size ▸ old)
  | .apart here there => by
    refine .apart ?_ ?_
    · rw [h.scope, h.size]
      exact here.mono h.left
    · rw [h.scope, h.size]
      exact there.mono h.right

mutual

theorem Values.mono (h : p.Extends q) : {u v : Value} → p.Values u v → q.Values u v
  | _, _, .int n => .int n
  | _, _, .bool b => .bool b
  | _, _, .str s => .str s
  | _, _, .record each => .record (each.mono h)
  | _, _, .array each t => .array (each.mono h) t
  | _, _, .iterator n t => .iterator n t
  | _, _, .function f => .function (f.mono h)
  | _, _, .index i => .index i

theorem Fields.mono (h : p.Extends q) : {fs gs : List (String × Value)} → p.Fields fs gs → q.Fields fs gs
  | _, _, .nil => .nil
  | _, _, .cons name head tail => .cons name (head.mono h) (tail.mono h)

theorem Elements.mono (h : p.Extends q) : {us vs : List Value} → p.Elements us vs → q.Elements us vs
  | _, _, .nil => .nil
  | _, _, .cons head tail => .cons (head.mono h) (tail.mono h)

theorem Functions.mono (h : p.Extends q) : {f g : Function} → p.Functions f g → q.Functions f g
  | _, _, .builtin b => .builtin b
  | _, _, .closure stamp params result bodies scopes fits fits' =>
    .closure stamp params result (bodies.mono h) (scopes.mono h) (h.scope ▸ fits) (h.scope ▸ fits')

theorem Scopes.mono (h : p.Extends q) : {s s' : Scope} → p.Scopes s s' → q.Scopes s s'
  | _, _, .nil => .nil
  | _, _, .cons head tail => .cons (head.mono h) (tail.mono h)

theorem Exprs.mono (h : p.Extends q) : {place : Place} → {e e' : Expr} → p.Exprs place e e' → q.Exprs place e e'
  | _, _, _, .int place n => .int place n
  | _, _, _, .str place s => .str place s
  | _, _, _, .var place name => .var place name
  | _, _, _, .reads here there same => .reads (h.scope ▸ here) (h.scope ▸ there) (same.mono h)
  | _, _, _, .record each => .record (each.mono h)
  | _, _, _, .lambda params result bodies => .lambda params result (bodies.mono h)
  | _, _, _, .call each sites => .call (each.mono h) (sites.mono h)
  | _, _, _, .member name whole => .member name (whole.mono h)
  | _, _, _, .result same => .result (same.mono h)
  | _, _, _, .binding bound inner => .binding (bound.mono h) (inner.mono h)

theorem ExprFields.mono (h : p.Extends q) : {place : Place} → {fs gs : List (String × Expr)} →
    p.ExprFields place fs gs → q.ExprFields place fs gs
  | _, _, _, .nil place => .nil place
  | _, _, _, .cons name head tail => .cons name (head.mono h) (tail.mono h)

theorem Args.mono (h : p.Extends q) : {place : Place} → {es es' : List Expr} → p.Args place es es' →
    q.Args place es es'
  | _, _, _, .nil place => .nil place
  | _, _, _, .cons head tail => .cons (head.mono h) (tail.mono h)

end

/-! ## What paired values have in common -/

theorem Functions.ty {f g : Function} : p.Functions f g → f.ty = g.ty
  | .builtin _ => rfl
  | .closure .. => rfl

theorem Functions.name {f g : Function} : p.Functions f g → f.name = g.name
  | .builtin _ => rfl
  | .closure .. => rfl

theorem Functions.arity {f g : Function} : p.Functions f g → f.arity = g.arity
  | .builtin _ => rfl
  | .closure .. => rfl

theorem Functions.result {f g : Function} : p.Functions f g → f.result = g.result
  | .builtin _ => rfl
  | .closure .. => rfl

mutual

theorem Values.ty : {u v : Value} → p.Values u v → u.ty = v.ty
  | _, _, .int _ | _, _, .bool _ | _, _, .str _ | _, _, .iterator _ _ | _, _, .index _ | _, _, .array _ _ => rfl
  | _, _, .record each => congrArg Ty.record each.types
  | _, _, .function h => h.ty

theorem Fields.types : {fs gs : List (String × Value)} → p.Fields fs gs →
    Value.fieldTypes fs = Value.fieldTypes gs
  | _, _, .nil => rfl
  | _, _, .cons name head tail => by rw [Value.fieldTypes, Value.fieldTypes, head.ty, tail.types]

end

mutual

theorem Values.text : {u v : Value} → p.Values u v → u.text = v.text
  | _, _, .int _ | _, _, .bool _ | _, _, .str _ | _, _, .iterator _ _ | _, _, .index _ => rfl
  | _, _, .record each => by rw [Value.text, Value.text, each.texts]
  | _, _, .array each _ => by rw [Value.text, Value.text, each.texts]
  | _, _, .function h => by rw [Value.text, Value.text, h.name, h.ty]

theorem Fields.texts : {fs gs : List (String × Value)} → p.Fields fs gs →
    Value.fieldTexts fs = Value.fieldTexts gs
  | _, _, .nil => rfl
  | _, _, .cons name head tail => by rw [Value.fieldTexts, Value.fieldTexts, head.text, tail.texts]

theorem Elements.texts : {us vs : List Value} → p.Elements us vs →
    Value.elementTexts us = Value.elementTexts vs
  | _, _, .nil => rfl
  | _, _, .cons head tail => by rw [Value.elementTexts, Value.elementTexts, head.text, tail.texts]

end

theorem Values.toKey {u v : Value} (h : p.Values u v) : u.toKey = v.toKey := by
  have hty := h.ty
  cases h with
  | int | bool | str | iterator | index => rfl
  | record | array | function => exact congrArg (fun t => Except.error (EncodingFault.unsupported t)) hty

theorem Elements.length : {us vs : List Value} → p.Elements us vs → us.length = vs.length
  | _, _, .nil => rfl
  | _, _, .cons _ tail => congrArg (· + 1) tail.length

/-! ## Members and names -/

theorem Fields.find? : {fs gs : List (String × Value)} → p.Fields fs gs → (name : String) →
    Option.Rel p.Values (Keyed.find? fs name) (Keyed.find? gs name)
  | _, _, .nil, _ => .none
  | _, _, .cons name' head tail, name => by
    rw [Keyed.find?_cons, Keyed.find?_cons]
    split
    next => exact .some head
    next => exact tail.find? name

theorem Values.member {u v : Value} (h : p.Values u v) (name : String) :
    Outcomes p.Values (u.member name) (v.member name) := by
  have hty := h.ty
  cases h with
  | record each =>
    simp only [Value.member]
    match Keyed.find? _ name, Keyed.find? _ name, each.find? name with
    | _, _, .some h => exact .ok h
    | _, _, .none => rw [hty]; exact .error _
  | _ =>
    simp only [Value.member]
    rw [hty]
    exact .error _

theorem Scopes.find? : {s s' : Scope} → p.Scopes s s' → (name : String) →
    Option.Rel p.Values (Links.find? s name) (Links.find? s' name)
  | _, _, .nil, _ => .none
  | _, _, .cons head tail, name => by
    rw [Links.find?, Links.find?]
    match Keyed.find? _ name, Keyed.find? _ name, head.find? name with
    | _, _, .some h => exact .some h
    | _, _, .none => exact tail.find? name

theorem Scopes.binds {s s' : Scope} (h : p.Scopes s s') (name : String) :
    Links.binds s name = Links.binds s' name := by
  unfold Links.binds
  match Links.find? s name, Links.find? s' name, h.find? name with
  | _, _, .some _ => rfl
  | _, _, .none => rfl

theorem Values.root {name : String} {v : Value} (h : rootValue? name = some v) : p.Values v v := by
  unfold rootValue? at h
  split at h
  next => cases h; exact .bool true
  next =>
    split at h
    next => cases h; exact .bool false
    next =>
      obtain ⟨b, _, rfl⟩ := Option.map_eq_some_iff.mp h
      exact .function (.builtin b)

theorem Scopes.lookup {s s' : Scope} (h : p.Scopes s s') (name : String) :
    Outcomes p.Values (s.lookup name) (s'.lookup name) := by
  unfold Scope.lookup
  match Links.find? s name, Links.find? s' name, h.find? name with
  | _, _, .some h => exact .ok h
  | _, _, .none =>
    dsimp only
    cases hr : rootValue? name with
    | some v => exact .ok (.root hr)
    | none => exact .error _

theorem Fields.insert {fs gs : List (String × Value)} (h : p.Fields fs gs) (name : String) {u v : Value}
    (hv : p.Values u v) : p.Fields (Keyed.insert fs name u) (Keyed.insert gs name v) := by
  induction fs generalizing gs with
  | nil =>
    cases h
    exact .cons name hv .nil
  | cons f fs ih =>
    cases h with
    | cons name' head tail =>
      rw [Keyed.insert, Keyed.insert]
      split
      next => exact .cons name hv (.cons name' head tail)
      next =>
        split
        next => exact .cons name hv tail
        next => exact .cons name' head (ih tail)

theorem Fields.foldl_insert {fs gs : List (String × Value)} (h : p.Fields fs gs) : {es es' : List (String × Value)} →
    p.Fields es es' → p.Fields (es.foldl (fun m e => Keyed.insert m e.1 e.2) fs)
      (es'.foldl (fun m e => Keyed.insert m e.1 e.2) gs)
  | _, _, .nil => h
  | _, _, .cons name head tail => foldl_insert (h.insert name head) tail

theorem Scopes.child {s s' : Scope} (h : p.Scopes s s') {es es' : List (String × Value)} (he : p.Fields es es') :
    p.Scopes (Links.child s es) (Links.child s' es') :=
  .cons (Fields.foldl_insert .nil he) h

theorem Elements.zip : {us vs : List Value} → p.Elements us vs → (names : List String) →
    p.Fields (names.zip us) (names.zip vs)
  | _, _, _, [] => .nil
  | _, _, .nil, _ :: _ => .nil
  | _, _, .cons head tail, name :: names => .cons name head (tail.zip names)

/-! ## Values paired with themselves -/

mutual

theorem Values.of_isData : (v : Value) → v.IsData → p.Values v v
  | .int n, _ => .int n
  | .bool b, _ => .bool b
  | .str s, _ => .str s
  | .record fields, h => .record (Fields.of_isData fields h.2)

theorem Fields.of_isData : (fields : List (String × Value)) → Value.FieldsAreData fields →
    p.Fields fields fields
  | [], _ => .nil
  | (name, v) :: rest, h => .cons name (Values.of_isData v h.1) (Fields.of_isData rest h.2)

end

theorem Sites.refl (place : Place) (name : String) {σ : CallSite} (h : σ.below p.size = true) :
    p.Sites place name σ σ := by
  cases σ with
  | unlinked => exact .unlinked place name
  | known b => exact .known place name b
  | cell n => exact .cell place name (of_decide_eq_true h)

mutual

theorem Values.refl : (v : Value) → v.linked p.size = true → p.Values v v
  | .int n, _ => .int n
  | .bool b, _ => .bool b
  | .str s, _ => .str s
  | .record fields, h => .record (Fields.refl fields h)
  | .array elements t, h => .array (Elements.refl elements h) t
  | .iterator n t, _ => .iterator n t
  | .function f, h => .function (Functions.refl f h)
  | .index i, _ => .index i

theorem Fields.refl : (fields : List (String × Value)) → Value.fieldsLinked p.size fields = true →
    p.Fields fields fields
  | [], _ => .nil
  | (name, v) :: rest, h =>
    .cons name (Values.refl v (Bool.and_eq_true_iff.mp h).1) (Fields.refl rest (Bool.and_eq_true_iff.mp h).2)

theorem Elements.refl : (elements : List Value) → Value.elementsLinked p.size elements = true →
    p.Elements elements elements
  | [], _ => .nil
  | v :: rest, h =>
    .cons (Values.refl v (Bool.and_eq_true_iff.mp h).1) (Elements.refl rest (Bool.and_eq_true_iff.mp h).2)

theorem Functions.refl : (f : Function) → f.linked p.size = true → p.Functions f f
  | .builtin b, _ => .builtin b
  | .closure stamp params result body scope, h =>
    @Functions.closure p stamp params result .elsewhere body body scope scope
      (Exprs.refl body (Bool.and_eq_true_iff.mp h).1) (Scopes.refl scope (Bool.and_eq_true_iff.mp h).2) trivial trivial

theorem Scopes.refl : (s : List (List (String × Value))) → Value.linksLinked p.size s = true → p.Scopes s s
  | [], _ => .nil
  | link :: rest, h =>
    .cons (Fields.refl link (Bool.and_eq_true_iff.mp h).1) (Scopes.refl rest (Bool.and_eq_true_iff.mp h).2)

theorem Exprs.refl : (e : Expr) → e.linked p.size p.size = true → p.Exprs .elsewhere e e
  | .int n, _ => .int _ n
  | .str s, _ => .str _ s
  | .var name, _ => .var _ name
  | .index i, _ => .reads (.index _ i) (.index _ i) (.index i)
  | .value v, h => .reads (.value _ v) (.value _ v) (Values.refl v h)
  | .record fields, h => .record (ExprFields.refl fields h)
  | .lambda params result body, h => .lambda params result (Exprs.refl body h)
  | .call name args _, h =>
    .call (Args.refl args (Bool.and_eq_true_iff.mp h).2) (.refl _ name (Bool.and_eq_true_iff.mp h).1)
  | .member e name, h => .member name (Exprs.refl e h)
  | .block bindings result, h =>
    Exprs.refl_block bindings (Exprs.refl result (Bool.and_eq_true_iff.mp h).2) (Bool.and_eq_true_iff.mp h).1

theorem Exprs.refl_block {result : Expr} : (bindings : List (String × Expr)) → p.Exprs .elsewhere result result →
    Expr.fieldsLinked p.size p.size bindings = true →
    p.Exprs .elsewhere (.block bindings result) (.block bindings result)
  | [], same, _ => .result same
  | (_, e) :: rest, same, h =>
    .binding (Exprs.refl e (Bool.and_eq_true_iff.mp h).1) (Exprs.refl_block rest same (Bool.and_eq_true_iff.mp h).2)

theorem ExprFields.refl : (fields : List (String × Expr)) → Expr.fieldsLinked p.size p.size fields = true →
    p.ExprFields .elsewhere fields fields
  | [], _ => .nil _
  | (name, e) :: rest, h =>
    .cons name (Exprs.refl e (Bool.and_eq_true_iff.mp h).1) (ExprFields.refl rest (Bool.and_eq_true_iff.mp h).2)

theorem Args.refl : (args : List Expr) → Expr.argsLinked p.size p.size args = true →
    p.Args .elsewhere args args
  | [], _ => .nil _
  | e :: rest, h =>
    .cons (Exprs.refl e (Bool.and_eq_true_iff.mp h).1) (Args.refl rest (Bool.and_eq_true_iff.mp h).2)

end

end Pairing

end LiveQuery
