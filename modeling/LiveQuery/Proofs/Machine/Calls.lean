import LiveQuery.Proofs.Machine.Ends
import LiveQuery.Proofs.Typing.Evaluation

/-! # Evaluating the parts of a plan

Rules for the expressions that plans are made of, whose calls are all known to name built-in functions: what
they evaluate to, and which arguments the built-in functions accept.
-/
namespace LiveQuery

namespace Ends

variable {m : Machine} {Q : Value → Machine → Prop}

/-! ## Calls -/

/-- A built-in function on arguments of types that it accepts. -/
theorem call_builtin {b : Builtin} {args : List Value} {t : Ty}
    (haccepts : (Function.builtin b).Accepts (args.map Value.ty) t) (ht : t.Sorted)
    (h : ∀ frame : Frame, frame.path = m.rowPath.getD m.top.path →
      Ends (fun _ => b.apply args) (({ m with rowPath := none } : Machine).push frame) fun v m' =>
        v.ty = t ∧ Q v m'.pop) :
    Ends (fun k => Eval.call k (.builtin b) args) m Q := by
  obtain ⟨bs, ⟨hlength, hmatch⟩, hresult⟩ := haccepts
  have harity : (Function.builtin b).arity = args.length := by
    rw [← Function.length_paramTypes, hlength, List.length_map]
  refine succ (f := fun _ => Eval.call 1 (.builtin b) args) ?_ fun k => rfl
  simp only [Eval.call, ne_eq, harity, not_true_eq_false, if_false]
  refine step (Eval.exec_takeRowPath m) ?_
  refine bind (ofExcept (Builtin.checkArgs_eq hmatch) (bind (inFrame ((h _ rfl).mono fun v m' hv => ?_))))
  obtain ⟨hty, hq⟩ := hv
  exact ofExcept (Builtin.checkResult_eq hresult hty (hty ▸ ht)) hq

theorem call_closure {stamp : Nat} {params : List (String × Ty)} {result : Ty} {body : Expr}
    {scope : Scope} {args : List Value} (hlength : params.length = args.length)
    (h : ∀ frame : Frame, frame.scope = Links.child scope ((params.map Prod.fst).zip args) →
      frame.path = m.rowPath.getD m.top.path →
      Ends (fun k => Eval.eval k body) (({ m with rowPath := none } : Machine).push frame) fun v m' =>
        Q v m'.pop) :
    Ends (fun k => Eval.call k (.closure stamp params result body scope) args) m Q := by
  refine succ (f := fun k => Eval.takeRowPath >>= fun path => Eval.inFrame
    { scope := Links.child scope ((params.map Prod.fst).zip args)
      callee := some (.closure stamp params result body scope), path } (Eval.eval k body)) ?_ fun k => ?_
  · exact step (Eval.exec_takeRowPath m) (inFrame (h _ rfl rfl))
  · simp only [Eval.call, Function.arity, ne_eq, hlength, not_true_eq_false, if_false]

theorem eval_call {name : String} {args : List Expr} {b : Builtin}
    (h : Ends (fun k => args.mapM (Eval.eval k)) m fun vs m' =>
      Ends (fun k => Eval.call k (.builtin b) vs) m' Q) :
    Ends (fun k => Eval.eval k (.call name args (.known b))) m Q := by
  refine succ (f := fun k => Eval.resolve name (.known b) >>= fun f => args.mapM (Eval.eval k) >>= fun vs =>
    Eval.call k f vs) ?_ fun k => rfl
  have hresolve : (Eval.resolve name (.known b)).exec m = some (.ok (.builtin b), m) := rfl
  exact step hresolve (bind h)

/-! ## Other expressions -/

theorem eval_lambda {params : List (String × Ty)} {result : Ty} {body : Expr}
    (h : Q (.function (.closure m.stamps params result body m.top.scope)) { m with stamps := m.stamps + 1 }) :
    Ends (fun k => Eval.eval k (.lambda params result body)) m Q :=
  succ (of_exec (fun _ => rfl) h) fun _ => rfl

theorem eval_index {i : Index} (h : Q (.index i) m) : Ends (fun k => Eval.eval k (.index i)) m Q :=
  succ (pure h) fun _ => rfl

theorem eval_int {n : Int64} (h : Q (.int n) m) : Ends (fun k => Eval.eval k (.int n)) m Q :=
  succ (pure h) fun _ => rfl

theorem eval_record {fields : List (String × Expr)}
    (h : Ends (fun k => fields.mapM fun f => do return (f.1, ← Eval.eval k f.2)) m fun fs m' =>
      Q (.record fs) m') :
    Ends (fun k => Eval.eval k (.record fields)) m Q :=
  succ (bind (h.mono fun _ _ hq => pure hq)) fun _ => rfl

end Ends

/-! ## Tests -/

/-- In the scope `s` the expression has the value `v`, and evaluating it leaves the machine as it was. -/
def Evals (s : Scope) (e : Expr) (v : Value) : Prop :=
  ∀ m : Machine, m.top.scope = s → m.rowPath = none → Ends (fun k => Eval.eval k e) m fun u m' =>
    u = v ∧ m' = m

namespace Evals

variable {s : Scope}

theorem int (n : Int64) : Evals s (.int n) (.int n) :=
  fun _ _ _ => Ends.eval_int ⟨rfl, rfl⟩

theorem str (x : String) : Evals s (.str x) (.str x) :=
  fun _ _ _ => Ends.succ (Ends.pure ⟨rfl, rfl⟩) fun _ => rfl

theorem value (v : Value) : Evals s (.value v) v :=
  fun _ _ _ => Ends.succ (Ends.pure ⟨rfl, rfl⟩) fun _ => rfl

theorem var {name : String} {v : Value} (h : s.lookup name = .ok v) : Evals s (.var name) v := by
  intro m hs _
  refine Ends.succ (f := fun _ => Eval.scope >>= fun s => Eval.ofExcept (s.lookup name)) ?_ fun _ => rfl
  exact Ends.step (Eval.exec_scope m) (Ends.ofExcept (by rw [hs, h]) ⟨rfl, rfl⟩)

theorem member {e : Expr} {v u : Value} {name : String} (he : Evals s e v) (h : v.member name = .ok u) :
    Evals s (.member e name) u := by
  intro m hs hpath
  refine Ends.succ (f := fun k => Eval.eval k e >>= fun v => Eval.ofExcept (v.member name)) ?_ fun _ => rfl
  refine Ends.bind ((he m hs hpath).mono fun v' m' hv => ?_)
  obtain ⟨rfl, rfl⟩ := hv
  exact Ends.ofExcept h ⟨rfl, rfl⟩

/-- A call of a built-in function that only computes. -/
theorem call {name : String} {b : Builtin} {x y : Expr} {u v r : Value} {t : Ty} (hx : Evals s x u)
    (hy : Evals s y v) (haccepts : (Function.builtin b).Accepts [u.ty, v.ty] t) (ht : t.Sorted)
    (happly : ∀ m, (b.apply [u, v]).exec m = some (.ok r, m)) (hr : r.ty = t) :
    Evals s (.call name [x, y] (.known b)) r := by
  intro m hs hpath
  refine Ends.eval_call (Ends.mapM_cons ((hx m hs hpath).mono fun u' m' hu => ?_))
  obtain ⟨rfl, rfl⟩ := hu
  refine Ends.mapM_cons ((hy m' hs hpath).mono fun v' m' hv => Ends.mapM_nil ?_)
  obtain ⟨rfl, rfl⟩ := hv
  refine Ends.call_builtin haccepts ht fun frame _ => Ends.of_exec (fun _ => happly _) ⟨hr, rfl, ?_⟩
  obtain ⟨top, callers, cells, calls, stamps, rowPath, live, sent⟩ := m'
  cases hpath
  rfl

end Evals

end LiveQuery
