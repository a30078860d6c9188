import LiveQuery.Proofs.Inlining.Linking
import LiveQuery.Proofs.Inlining.Simulation
import LiveQuery.Proofs.Typing.Inlining

/-! # Inlining keeps the meaning of an expression

Inlined in the scope it is evaluated in, an expression has the type that it had and evaluates to what it evaluated
to (`Machine.inline_keeps`). Its values cannot be told apart from the former ones (`Alike`): data is equal,
functions give values that cannot be told apart, and so do iterators when they are read. Values that were there
before the evaluation are among the arguments that such functions may be given.

The expression may hold calls that were resolved before, and values with functions of their own, as long as every
call of a function has its cell in the call table. It is given cells itself when it is loaded, before and after
inlining, so that no call of it shares a cell with another one.
-/
namespace LiveQuery

/-! ## Types -/

/-- Every name has the type of its value. -/
def Scope.Agrees (scope : Scope) (types : TypeScope) : Prop :=
  ∀ name, TypeScope.lookup types name = (scope.lookup name).map Value.ty

namespace Expr

variable {scope : Scope}

theorem length_inlineArgs (calls : CallTable) (hidden : List String) (args : List Expr) :
    (inlineArgs scope calls hidden args).length = args.length := by
  induction args with
  | nil => rfl
  | cons e rest ih => rw [inlineArgs, List.length_cons, List.length_cons, ih]

theorem infer_ofValue (types : TypeScope) (v : Value) : (ofValue v).infer types = .ok v.ty := by
  cases v with
  | _ => rfl

theorem infer_foldMember {types : TypeScope} {e : Expr} {name : String} {t u : Ty} (he : e.infer types = .ok u)
    (ht : memberType name u = .ok t) : (e.foldMember name).infer types = .ok t := by
  have hwhole : (Expr.member e name).infer types = .ok t := by
    rw [infer, he]
    exact ht
  unfold foldMember
  split
  next fields =>
    split
    next v hv =>
      cases he
      rw [infer_ofValue, ← ht, memberType_ty, Value.member, hv]
      rfl
    next => exact hwhole
  next => exact hwhole

mutual

theorem infer_inlineWith (calls : CallTable) : (e : Expr) → {hidden : List String} → {types : TypeScope} →
    {t : Ty} → Outside scope hidden types → e.infer types = .ok t →
    (e.inlineWith scope calls hidden).infer types = .ok t
  | .int _, _, _, _, _, h => h
  | .str _, _, _, _, _, h => h
  | .index _, _, _, _, _, h => h
  | .value _, _, _, _, _, h => h
  | .var name, hidden, types, t, ho, h => by
    rw [inlineWith]
    split
    next => exact h
    next hn =>
      split
      next v hv =>
        have hty := ho name (by simpa using hn)
        rw [Scope.lookup_types, hv] at hty
        rw [infer_ofValue, ← h, infer, hty]
        rfl
      next => exact h
  | .record fields, _, _, _, ho, h => by
    obtain ⟨ts, hts, h⟩ := ok_of_bind h
    cases h
    exact bind_of_ok (infer_inlineFields calls fields ho hts)
  | .lambda params result body, _, _, _, ho, h => by
    obtain ⟨u, hu, h⟩ := ok_of_bind h
    rw [inlineWith, infer, bind_of_ok (infer_inlineWith calls body (ho.child params) hu)]
    exact h
  | .call name args site, hidden, types, _, ho, h => by
    obtain ⟨⟨params, result⟩, hsig, h⟩ := ok_of_bind h
    rw [inlineWith, infer, bind_of_ok hsig]
    dsimp only at h ⊢
    rw [length_inlineArgs]
    split
    next hn => rw [if_pos hn] at h; cases h
    next hn =>
      rw [if_neg hn] at h
      obtain ⟨bs, hbs, h⟩ := ok_of_bind h
      exact (bind_of_ok (infer_inlineArgs calls args ho hbs)).trans h
  | .member e name, _, _, _, ho, h => by
    obtain ⟨u, hu, h⟩ := ok_of_bind h
    exact infer_foldMember (infer_inlineWith calls e ho hu) h
  | .block bindings result, _, _, _, ho, h => by
    obtain ⟨inner, hinner, h⟩ := ok_of_bind h
    obtain ⟨hbindings, houter⟩ := infer_inlineBindings calls bindings ho hinner
    rw [inlineWith, infer, bind_of_ok hbindings]
    exact infer_inlineWith calls result houter h

theorem infer_inlineFields (calls : CallTable) : (fields : List (String × Expr)) → {hidden : List String} →
    {types : TypeScope} → {ts : List (String × Ty)} → Outside scope hidden types →
    inferFields types fields = .ok ts → inferFields types (inlineFields scope calls hidden fields) = .ok ts
  | [], _, _, _, _, h => h
  | (name, e) :: rest, _, _, _, ho, h => by
    obtain ⟨t, ht, h⟩ := ok_of_bind h
    obtain ⟨ts, hts, h⟩ := ok_of_bind h
    rw [inlineFields, inferFields, bind_of_ok (infer_inlineWith calls e ho ht),
      bind_of_ok (infer_inlineFields calls rest ho hts)]
    exact h

theorem infer_inlineArgs (calls : CallTable) : (args : List Expr) → {hidden : List String} →
    {types : TypeScope} → {params : List Ty} → {bs bs' : Bindings} → Outside scope hidden types →
    inferArgs types params args bs = .ok bs' →
    inferArgs types params (inlineArgs scope calls hidden args) bs = .ok bs'
  | [], _, _, _, _, _, _, h => h
  | e :: rest, _, _, [], _, _, _, h => h
  | e :: rest, _, _, param :: params, _, _, ho, h => by
    obtain ⟨t, ht, h⟩ := ok_of_bind h
    obtain ⟨bs, hbs, h⟩ := ok_of_bind h
    rw [inlineArgs, inferArgs, bind_of_ok (infer_inlineWith calls e ho ht), bind_of_ok hbs]
    exact infer_inlineArgs calls rest ho h

theorem infer_inlineBindings (calls : CallTable) : (bindings : List (String × Expr)) → {hidden : List String} →
    {types types' : TypeScope} → Outside scope hidden types → inferBindings types bindings = .ok types' →
    inferBindings types (inlineBindings scope calls hidden bindings) = .ok types' ∧
      Outside scope ((bindings.map Prod.fst).reverse ++ hidden) types'
  | [], _, _, _, ho, h => by
    cases h
    exact ⟨rfl, ho⟩
  | (name, e) :: rest, hidden, _, _, ho, h => by
    obtain ⟨t, ht, h⟩ := ok_of_bind h
    obtain ⟨hrest, houter⟩ := infer_inlineBindings calls rest (ho.child [(name, t)]) h
    rw [inlineBindings, inferBindings, bind_of_ok (infer_inlineWith calls e ho ht), List.map_cons, List.reverse_cons,
      ← List.append_cons]
    exact ⟨hrest, houter⟩

end

/-- Inlined in a scope that agrees with the types, an expression keeps its type. -/
theorem infer_inline {types : TypeScope} (h : scope.Agrees types) (calls : CallTable) {e : Expr} {t : Ty}
    (ht : e.infer types = .ok t) : (e.inline scope calls).infer types = .ok t :=
  infer_inlineWith calls e (fun name _ => (h name).trans (scope.lookup_types name).symm) ht

end Expr

/-! ## Values that cannot be told apart -/

/-- `x` and `y` end alike on two machines: if either ends with some fuel then so does the other, both with one
fault or with results that `R` relates, and on machines that `M` relates. -/
def Eval.EndAlike {α β : Type} (M : Machine → Machine → Prop) (R : α → β → Prop) (x : Nat → Eval α)
    (y : Nat → Eval β) (m m' : Machine) : Prop :=
  (∀ k r n, (x k).exec m = some (r, n) → ∃ k' r' n', (y k').exec m' = some (r', n') ∧ M n n' ∧ Outcomes R r r') ∧
  (∀ k r' n', (y k).exec m' = some (r', n') → ∃ k' r n, (x k').exec m = some (r, n) ∧ M n n' ∧ Outcomes R r r')

/-- Two values that look alike from outside, with parts that `V` relates. -/
inductive Value.LookAlike (V : Value → Value → Prop) : Value → Value → Prop
  | int (n : Int64) : LookAlike V (.int n) (.int n)
  | bool (b : Bool) : LookAlike V (.bool b) (.bool b)
  | str (s : String) : LookAlike V (.str s) (.str s)
  | index (i : Index) : LookAlike V (.index i) (.index i)
  | record {fs gs : List (String × Value)} (names : fs.map Prod.fst = gs.map Prod.fst)
      (each : List.Forall₂ V (fs.map Prod.snd) (gs.map Prod.snd)) : LookAlike V (.record fs) (.record gs)
  | array {us vs : List Value} (each : List.Forall₂ V us vs) (t : Ty) : LookAlike V (.array us t) (.array vs t)
  | iterator (h h' : Nat) (t : Ty) : LookAlike V (.iterator h t) (.iterator h' t)
  | function {f g : Function} (name : f.name = g.name) (ty : f.ty = g.ty) : LookAlike V (.function f) (.function g)

/-- On machines that `M` relates, values that `V` relates cannot be told apart: they look alike, functions end
alike on arguments that cannot be told apart, iterators give elements that cannot be told apart, and the values are
the same data. Machines that are related have sent the same subscriptions. -/
structure Alike (M : Machine → Machine → Prop) (V : Value → Value → Prop) : Prop where
  look {u v : Value} : V u v → Value.LookAlike V u v
  call {f g : Function} {us vs : List Value} {m m' : Machine} : V (.function f) (.function g) →
    List.Forall₂ V us vs → M m m' → Eval.EndAlike M V (fun k => Eval.call k f us) (fun k => Eval.call k g vs) m m'
  next {h h' : Nat} {t : Ty} {m m' : Machine} : V (.iterator h t) (.iterator h' t) → M m m' →
    Eval.EndAlike M (Option.Rel V) (fun k => Eval.next k h) (fun k => Eval.next k h') m m'
  toJson {u v : Value} {m m' : Machine} : V u v → M m m' →
    Eval.EndAlike M Eq (fun k => Eval.toJson k u) (fun k => Eval.toJson k v) m m'
  sent {m m' : Machine} : M m m' → m.sent = m'.sent

namespace Pairing

variable {p : Pairing}

/-- Machines that belong together and work on one row. -/
def States (p : Pairing) (m m' : Machine) : Prop :=
  ∃ f f' fs fs', f.path = f'.path ∧ p.Machines (f :: fs) (f' :: fs') m m'

theorem Follows.mono {α β : Type} {fs fs' : List Frame} {R Q : α → β → Prop} {x : Eval α} {y : Nat → Eval β}
    (h : p.Follows fs fs' R x y) (hRQ : ∀ a b, R a b → Q a b) : p.Follows fs fs' Q x y := by
  intro m m' hm r n hr
  obtain ⟨r', n', hy, hn, ho⟩ := h m m' hm r n hr
  refine ⟨r', n', hy, hn, ?_⟩
  cases ho with
  | ok hab => exact .ok (hRQ _ _ hab)
  | error e => exact .error e

theorem States.endAlike {α β : Type} {R : α → β → Prop} {x : Nat → Eval α} {y : Nat → Eval β} {m m' : Machine}
    (hm : p.States m m')
    (there : ∀ {f f'} fs fs', f.path = f'.path → ∀ k, p.Follows (f :: fs) (f' :: fs') R (x k) y)
    (back : ∀ {f f'} fs fs', f.path = f'.path → ∀ k,
      p.swap.Follows (f :: fs) (f' :: fs') (fun b a => R a b) (y k) x) :
    Eval.EndAlike p.States R x y m m' := by
  obtain ⟨f, f', fs, fs', hpath, hm⟩ := hm
  refine ⟨fun k r n hr => ?_, fun k r' n' hr => ?_⟩
  · obtain ⟨r', n', ⟨fuel, hy⟩, hn, ho⟩ := there fs fs' hpath k m m' hm r n hr
    exact ⟨fuel, r', n', hy fuel (Nat.le_refl _), ⟨f, f', fs, fs', hpath, hn⟩, ho⟩
  · obtain ⟨r, n, ⟨fuel, hx⟩, hn, ho⟩ := back fs' fs hpath.symm k m' m hm.symm r' n' hr
    refine ⟨fuel, r, n, hx fuel (Nat.le_refl _), ⟨f, f', fs, fs', hpath, hn.symm⟩, ?_⟩
    cases ho with
    | ok hab => exact .ok hab
    | error e => exact .error e

theorem Elements.of_forall₂ {us vs : List Value} (h : List.Forall₂ p.Values us vs) : p.Elements us vs := by
  induction h with
  | nil => exact .nil
  | cons head _ ih => exact .cons head ih

theorem Elements.forall₂ {us vs : List Value} (h : p.Elements us vs) : List.Forall₂ p.Values us vs := by
  induction us generalizing vs with
  | nil =>
    cases h
    exact .nil
  | cons u us ih =>
    cases h with
    | cons head tail => exact .cons head (ih tail)

theorem Fields.elements {fs gs : List (String × Value)} (h : p.Fields fs gs) :
    fs.map Prod.fst = gs.map Prod.fst ∧ p.Elements (fs.map Prod.snd) (gs.map Prod.snd) := by
  induction fs generalizing gs with
  | nil =>
    cases h
    exact ⟨rfl, .nil⟩
  | cons f fs ih =>
    cases h with
    | cons name head tail =>
      obtain ⟨hnames, helements⟩ := ih tail
      exact ⟨congrArg (name :: ·) hnames, .cons head helements⟩

theorem Values.lookAlike {u v : Value} (h : p.Values u v) : Value.LookAlike p.Values u v := by
  cases h with
  | int n => exact .int n
  | bool b => exact .bool b
  | str s => exact .str s
  | record each => exact .record each.elements.1 each.elements.2.forall₂
  | array each t => exact .array each.forall₂ t
  | iterator n t => exact .iterator n n t
  | function h => exact .function h.name h.ty
  | index i => exact .index i

/-- Values that belong together cannot be told apart. -/
theorem alike (p : Pairing) : Alike p.States p.Values where
  look := Values.lookAlike
  call hf hargs hm := by
    cases hf with
    | function hf =>
      have hargs := Elements.of_forall₂ hargs
      exact hm.endAlike (fun fs fs' hpath k => (p.simulates k).call fs fs' hpath hf hargs) fun fs fs' hpath k =>
        ((p.swap.simulates k).call fs fs' hpath hf.symm hargs.symm).mono fun _ _ => Values.symm
  next := fun {n _ _ _ _} hv hm => by
    cases hv
    refine hm.endAlike (fun fs fs' hpath k => (p.simulates k).next fs fs' hpath n) fun fs fs' hpath k =>
      ((p.swap.simulates k).next fs fs' hpath n).mono fun o o' ho => ?_
    cases ho with
    | none => exact .none
    | some h => exact .some h.symm
  toJson hv hm := by
    refine hm.endAlike (fun fs fs' hpath k => (p.simulates k).toJson fs fs' hpath hv) fun fs fs' hpath k =>
      ((p.swap.simulates k).toJson fs fs' hpath hv.symm).mono fun _ _ => Eq.symm
  sent := fun ⟨_, _, _, _, _, hm⟩ => hm.sent

end Pairing

/-! ## Machines -/

/-- Whether the calls in the functions of a source have cells below `n`. -/
def Source.linked (n : Nat) : Source → Bool
  | .elements rest => Value.elementsLinked n rest
  | .mapped _ f => f.linked n
  | .filtered _ test => test.linked n
  | .rows _ | .watched .. => true

def Cell.linked (n : Nat) : Cell → Bool
  | .ready source => source.linked n
  | .busy | .done => true

/-- Whether the calls in the scope and the iterators of a machine have cells of its call table. -/
def Machine.linked (m : Machine) : Bool :=
  Value.linksLinked m.calls.size m.top.scope && m.cells.toList.all (Cell.linked m.calls.size)

namespace Pairing

variable {p : Pairing}

theorem Cells.refl {c : Cell} (h : c.linked p.size = true) : p.Cells c c := by
  cases c with
  | busy => exact .busy
  | done => exact .done
  | ready source =>
    refine .ready ?_
    cases source with
    | elements rest => exact .elements (.refl rest h)
    | mapped inner f => exact .mapped inner (.refl f h)
    | filtered inner test => exact .filtered inner (.refl test h)
    | rows cursor => exact .rows cursor
    | watched inner point base subscriber => exact .watched inner point base subscriber

theorem notes_append (scope : Scope) (calls : CallTable) (cells : List (String × Bool)) (n : Nat) :
    CallTable.Notes scope calls.size cells (calls ++ Array.replicate n none) := by
  intro i name hidden b _ hb
  rw [Array.getElem?_append_right (Nat.le_add_right _ _), Array.getElem?_replicate] at hb
  split at hb <;> cases hb

/-- A machine belongs to itself when it has given cells to an expression, on each side to another one. -/
theorem machines_load {m : Machine} (hm : m.linked = true) (hsize : p.size = m.calls.size) (e e' : Expr) :
    p.Machines (m.top :: m.callers) (m.top :: m.callers) (m.load e).2 (m.load e').2 where
  frames := rfl
  frames' := rfl
  cells := by
    refine List.forall₂_same.mpr fun c hc => .refl ?_
    rw [hsize]
    exact List.all_eq_true.mp (Bool.and_eq_true_iff.mp hm).2 c hc
  calls := by
    refine ⟨fun k hk => ?_, hsize ▸ notes_append _ _ _ _, hsize ▸ notes_append _ _ _ _⟩
    rw [hsize] at hk
    exact (Array.getElem?_append_left hk).trans (Array.getElem?_append_left hk).symm
  stamps := rfl
  rowPath := rfl
  live := rfl
  sent := rfl

/-- Paired expressions, each loaded into the machine, evaluate to values that belong together. -/
theorem Exprs.follows {m : Machine} (hm : m.linked = true) (hscope : p.scope = m.top.scope)
    (hsize : p.size = m.calls.size) {e e' : Expr}
    (h : p.Exprs (.under []) (e.link m.calls.size).1 (e'.link m.calls.size).1) {k : Nat}
    {r : Except EvalFault Value} {n : Machine}
    (hr : (do Eval.eval k (← Eval.load e)).exec m = some (r, n)) :
    ∃ k' r' n', (do Eval.eval k' (← Eval.load e')).exec m = some (r', n') ∧ p.States n n' ∧
      Outcomes p.Values r r' := by
  have hlinks := (Bool.and_eq_true_iff.mp hm).1
  have hfits : (Place.under []).Fits p.scope m.top.scope := by
    rw [hscope]
    exact fun name => ⟨fun hn => absurd hn List.not_mem_nil, fun _ => rfl⟩
  have hat : p.At (.under []) m.top m.top := ⟨.refl _ (hsize ▸ hlinks), hfits, hfits, rfl⟩
  rw [Eval.exec_bind, Eval.exec_load] at hr
  obtain ⟨r', n', ⟨fuel, hy⟩, hn, ho⟩ := (p.simulates k).eval m.callers m.callers hat h _ _
    (machines_load hm hsize e e') r n hr
  refine ⟨fuel, r', n', ?_, ⟨m.top, m.top, m.callers, m.callers, rfl, hn⟩, ho⟩
  rw [Eval.exec_bind, Eval.exec_load]
  exact hy fuel (Nat.le_refl _)

end Pairing

/-- Inlined in the scope that it is evaluated in, an expression keeps its type and evaluates to what it evaluated to:
to the same fault, or to a value that cannot be told apart. -/
theorem Machine.inline_keeps (m : Machine) (hm : m.linked = true) (e : Expr)
    (he : e.linked 0 m.calls.size = true) (types : TypeScope) (htypes : m.top.scope.Agrees types) :
    (∀ t, e.infer types = .ok t → (e.inline m.top.scope m.calls).infer types = .ok t) ∧
    ∃ M V, Alike M V ∧ M m m ∧ (∀ v, v.linked m.calls.size = true → V v v) ∧
      Eval.EndAlike M V (fun k => do Eval.eval k (← Eval.load e))
        (fun k => do Eval.eval k (← Eval.load (e.inline m.top.scope m.calls))) m m := by
  refine ⟨fun t ht => Expr.infer_inline htypes m.calls ht, ?_⟩
  have hlinks := (Bool.and_eq_true_iff.mp hm).1
  obtain ⟨p, hscope, hsize, hleft, hright, hpaired⟩ := Pairing.Exprs.link_both
    (Pairing.Exprs.inlineWith (p := ⟨m.top.scope, m.calls.size, [], []⟩) (.refl _ hlinks) m.calls e [] he) rfl rfl
  have hload : (m.load (.int 0)).2 = m := by
    show { m with calls := m.calls ++ Array.replicate (m.calls.size - m.calls.size) none } = m
    rw [Nat.sub_self, Array.replicate_zero, Array.append_empty]
  have hself := p.machines_load hm hsize (.int 0) (.int 0)
  rw [hload] at hself
  refine ⟨p.States, p.Values, p.alike, ⟨_, _, _, _, rfl, hself⟩, fun v hv => .refl v (hsize ▸ hv), ?_, ?_⟩
  · exact fun k r n hr => hpaired.follows hm hscope hsize hr
  · intro k r' n' hr
    obtain ⟨k', r, n, hx, ⟨f, f', fs, fs', hpath, hn⟩, ho⟩ :=
      Pairing.Exprs.follows (p := p.swap) hm hscope hsize hpaired.symm hr
    refine ⟨k', r, n, hx, ⟨f', f, fs', fs, hpath.symm, hn.symm⟩, ?_⟩
    cases ho with
    | ok h => exact .ok h.symm
    | error e => exact .error e

/-- A function that uses a record of the scope: inlined it holds the field. -/
theorem Machine.inline_keeps_function :
    let m := Machine.start [[("r", .record [("a", .int 7)])]]
    let e := Expr.lambda [("y", .int)] .int (.callOf "plus" [.var "y", .member (.var "r") "a"])
    let types : TypeScope := [[("r", .record [("a", .int)])]]
    m.linked = true ∧ e.linked 0 m.calls.size = true ∧ m.top.scope.Agrees types ∧
      e.infer types = .ok (.function [.int] .int) ∧
      (e.inline m.top.scope m.calls).infer types = .ok (.function [.int] .int) ∧
      ∃ M V, Alike M V ∧ M m m ∧ (∀ v, v.linked m.calls.size = true → V v v) ∧
        Eval.EndAlike M V (fun k => do Eval.eval k (← Eval.load e))
          (fun k => do Eval.eval k (← Eval.load (e.inline m.top.scope m.calls))) m m := by
  intro m e types
  have hm : m.linked = true := by decide
  have he : e.linked 0 m.calls.size = true := by decide
  have htypes : m.top.scope.Agrees types := fun name => m.top.scope.lookup_types name
  have ht : e.infer types = .ok (.function [.int] .int) := by decide +kernel
  obtain ⟨htype, hvalue⟩ := Machine.inline_keeps m hm e he types htypes
  exact ⟨hm, he, htypes, ht, htype _ ht, hvalue⟩

end LiveQuery
