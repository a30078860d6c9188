import LiveQuery.Database.Select
import LiveQuery.Proofs.Machine.Run

/-! # More fuel

An evaluation that ends with some fuel ends in the same way with more of it (`Eval.moreFuel`), and so does a
query that is run (`select_mono`). What an expression or a query gives therefore does not depend on the fuel of the
step that runs it (`Eval.eval_unique`, `select_unique`).
-/
namespace LiveQuery

namespace Eval

variable {α β : Type}

/-- Wherever `a` does not run out of fuel, `b` ends as it does. -/
def Below (a b : Eval α) : Prop := ∀ m r, a.exec m = some r → b.exec m = some r

namespace Below

theorem refl (a : Eval α) : Below a a := fun _ _ h => h

theorem outOfFuel (b : Eval α) : Below Eval.outOfFuel b := by
  intro m r h
  cases h

theorem bind {a b : Eval α} {f g : α → Eval β} (h : Below a b) (hf : ∀ x, Below (f x) (g x)) :
    Below (a >>= f) (b >>= g) := by
  intro m r hr
  rw [exec_bind] at hr ⊢
  obtain ⟨⟨x, m'⟩, ha, hr⟩ := Option.bind_eq_some_iff.mp hr
  rw [h m _ ha]
  cases x with
  | ok x => exact hf x m' r hr
  | error e => exact hr

theorem after (a : Eval α) {f g : α → Eval β} (hf : ∀ x, Below (f x) (g x)) : Below (a >>= f) (a >>= g) :=
  bind (refl a) hf

theorem before {a b : Eval α} (h : Below a b) (f : α → Eval β) : Below (a >>= f) (b >>= f) :=
  bind h fun x => refl (f x)

theorem inFrame {a b : Eval α} (h : Below a b) (f : Frame) : Below (Eval.inFrame f a) (Eval.inFrame f b) := by
  intro m r hr
  rw [exec_inFrame] at hr ⊢
  obtain ⟨p, ha, hr⟩ := Option.map_eq_some_iff.mp hr
  rw [h _ _ ha, Option.map_some, hr]

theorem within {a b : Eval α} (h : Below a b) (s : Scope) : Below (Eval.within s a) (Eval.within s b) :=
  after _ fun _ => inFrame h _

theorem outcome {a b : Eval α} (h : Below a b) : Below (Eval.outcome a) (Eval.outcome b) := by
  intro m r hr
  rw [exec_outcome] at hr ⊢
  obtain ⟨p, ha, hr⟩ := Option.map_eq_some_iff.mp hr
  rw [h _ _ ha, Option.map_some, hr]

theorem mapM {f g : α → Eval β} (h : ∀ x, Below (f x) (g x)) (xs : List α) :
    Below (xs.mapM f) (xs.mapM g) := by
  induction xs with
  | nil => exact refl _
  | cons x xs ih =>
    rw [List.mapM_cons, List.mapM_cons]
    exact bind (h x) fun _ => bind ih fun _ => refl _

theorem foldlM {f g : β → α → Eval β} (h : ∀ s x, Below (f s x) (g s x)) (xs : List α) (s : β) :
    Below (xs.foldlM f s) (xs.foldlM g s) := by
  induction xs generalizing s with
  | nil => exact refl _
  | cons x xs ih =>
    rw [List.foldlM_cons, List.foldlM_cons]
    exact bind (h s x) fun s' => ih s'

theorem readCell {f g : Source → Eval (Option (Value × Source))} (h : ∀ source, Below (f source) (g source))
    (n : Nat) : Below (Eval.readCell f n) (Eval.readCell g n) := by
  refine after _ fun m => ?_
  split
  next => exact refl _
  next => exact refl _
  next source _ => exact after _ fun _ => before (outcome (h source)) _

end Below

/-- With more fuel the evaluation ends in the same way, if it ended. -/
def Rises (x : Nat → Eval α) : Prop := ∀ k, Below (x k) (x (k + 1))

theorem Rises.mono {x : Nat → Eval α} (hx : Rises x) {k k' : Nat} (h : k ≤ k') : Below (x k) (x k') := by
  induction h with
  | refl => exact .refl _
  | step _ ih => exact fun m p hp => hx _ m p (ih m p hp)

/-- One more step of fuel changes no part of the evaluator where it ends. -/
structure Grows (fuel : Nat) : Prop where
  eval (e : Expr) : Below (eval fuel e) (eval (fuel + 1) e)
  call (f : Function) (args : List Value) : Below (call fuel f args) (call (fuel + 1) f args)
  next (h : Nat) : Below (next fuel h) (next (fuel + 1) h)
  advance (source : Source) : Below (advance fuel source) (advance (fuel + 1) source)
  seek (h : Nat) (test : Function) : Below (seek fuel h test) (seek (fuel + 1) h test)
  toJson (v : Value) : Below (toJson fuel v) (toJson (fuel + 1) v)
  drain (h : Nat) : Below (drain fuel h) (drain (fuel + 1) h)

namespace Grows

variable {fuel : Nat}

theorem zero : Grows 0 where
  eval _ := by rw [Eval.eval]; exact .outOfFuel _
  call _ _ := by rw [Eval.call]; exact .outOfFuel _
  next _ := by rw [Eval.next]; exact .outOfFuel _
  advance _ := by rw [Eval.advance]; exact .outOfFuel _
  seek _ _ := by rw [Eval.seek]; exact .outOfFuel _
  toJson _ := by rw [Eval.toJson]; exact .outOfFuel _
  drain _ := by rw [Eval.drain]; exact .outOfFuel _

theorem eval_succ (ih : Grows fuel) (e : Expr) : Below (Eval.eval (fuel + 1) e) (Eval.eval (fuel + 2) e) := by
  cases e with
  | int | str | var | lambda | index | value => exact .refl _
  | record fields => exact .before (.mapM (fun f => .before (ih.eval f.2) _) fields) _
  | call name args site =>
    exact .after _ fun f => .bind (.mapM ih.eval args) fun vs => ih.call f vs
  | member e name => exact .before (ih.eval e) _
  | block bindings result =>
    refine .after _ fun s => .bind (.foldlM (fun s b => ?_) bindings s) fun inner => ?_
    · exact .before (.within (ih.eval b.2) s) _
    · exact .within (ih.eval result) inner

theorem call_succ (ih : Grows fuel) (f : Function) (args : List Value) :
    Below (Eval.call (fuel + 1) f args) (Eval.call (fuel + 2) f args) := by
  rw [Eval.call, Eval.call]
  by_cases harity : f.arity ≠ args.length
  · rw [if_pos harity, if_pos harity]
    exact .refl _
  · rw [if_neg harity, if_neg harity]
    refine .after _ fun path => ?_
    cases f with
    | closure stamp params result body scope => exact .inFrame (ih.eval body) _
    | builtin b => exact .refl _

theorem advance_succ (ih : Grows fuel) (source : Source) :
    Below (Eval.advance (fuel + 1) source) (Eval.advance (fuel + 2) source) := by
  cases source with
  | elements rest => cases rest <;> exact .refl _
  | rows cursor => cases cursor <;> exact .refl _
  | mapped inner f =>
    refine .bind (ih.next inner) fun o => ?_
    cases o with
    | none => exact .refl _
    | some v => exact .before (ih.call f [v]) _
  | filtered inner test => exact .before (ih.seek inner test) _
  | watched inner point base subscriber =>
    refine .bind (ih.next inner) fun o => ?_
    cases o with
    | none => exact .refl _
    | some row => exact .after _ fun key => .before (ih.toJson key) _

theorem seek_succ (ih : Grows fuel) (h : Nat) (test : Function) :
    Below (Eval.seek (fuel + 1) h test) (Eval.seek (fuel + 2) h test) := by
  rw [Eval.seek, Eval.seek]
  refine .bind (ih.next h) fun o => ?_
  cases o with
  | none => exact .refl _
  | some v =>
    refine .bind (ih.call test [v]) fun answer => ?_
    split
    next => exact .refl _
    next => exact ih.seek h test
    next => exact .refl _

theorem toJson_succ (ih : Grows fuel) (v : Value) :
    Below (Eval.toJson (fuel + 1) v) (Eval.toJson (fuel + 2) v) := by
  cases v with
  | int | bool | str | function | index => exact .refl _
  | record fields => exact .before (.mapM (fun f => .before (ih.toJson f.2) _) fields) _
  | array elements t => exact .before (.mapM ih.toJson elements) _
  | iterator h t => exact .before (ih.drain h) _

theorem drain_succ (ih : Grows fuel) (h : Nat) :
    Below (Eval.drain (fuel + 1) h) (Eval.drain (fuel + 2) h) := by
  rw [Eval.drain, Eval.drain]
  refine .bind (ih.next h) fun o => ?_
  cases o with
  | none => exact .refl _
  | some v => exact .bind (ih.toJson v) fun _ => .before (ih.drain h) _

end Grows

theorem grows (fuel : Nat) : Grows fuel := by
  induction fuel with
  | zero => exact .zero
  | succ fuel ih =>
    exact {
      eval := ih.eval_succ
      call := ih.call_succ
      next := fun h => by
        rw [Eval.next, Eval.next]
        exact .readCell ih.advance h
      advance := ih.advance_succ
      seek := ih.seek_succ
      toJson := ih.toJson_succ
      drain := ih.drain_succ }

theorem eval_mono {fuel fuel' : Nat} (h : fuel ≤ fuel') (e : Expr) : Below (eval fuel e) (eval fuel' e) :=
  Rises.mono (fun k => (grows k).eval e) h

theorem toJson_mono {fuel fuel' : Nat} (h : fuel ≤ fuel') (v : Value) : Below (toJson fuel v) (toJson fuel' v) :=
  Rises.mono (fun k => (grows k).toJson v) h

/-- An expression is evaluated in one way, whatever the fuel. -/
theorem eval_unique {fuel fuel' : Nat} {e : Expr} {m : Machine} {r r' : Except EvalFault Value × Machine}
    (h : (do eval fuel (← load e) : Eval Value).exec m = some r)
    (h' : (do eval fuel' (← load e) : Eval Value).exec m = some r') : r = r' := by
  rcases Nat.le_total fuel fuel' with hle | hle
  · exact Option.some.inj ((Below.after _ (eval_mono hle) m r h).symm.trans h')
  · exact Option.some.inj (h.symm.trans (Below.after _ (eval_mono hle) m r' h'))

/-- An evaluation to data that ends with some fuel ends in the same way with more of it. -/
theorem moreFuel {fuel fuel' : Nat} (h : fuel ≤ fuel') (e : Expr) :
    Below (do toJson fuel (← eval fuel (← load e))) (do toJson fuel' (← eval fuel' (← load e))) :=
  .after _ fun e => .bind (eval_mono h e) (toJson_mono h)

end Eval

/-! ## Queries -/

section Queries

variable {fuel fuel' : Nat} {schema : Schema} {store : Store} {q : Query}

/-- An evaluation that ends in data has met no fault. -/
theorem Evaluation.exec_of_run {m : Machine} {e : Expr} {j : Json} {sent : List Subscription}
    (h : Evaluation.run fuel m e = some { outcome := .ok j, sent }) :
    ∃ m', (do Eval.toJson fuel (← Eval.eval fuel (← Eval.load e))).exec m = some (.ok j, m') := by
  unfold Evaluation.run at h
  dsimp only at h
  split at h
  next => cases h
  next r m' hrun =>
    obtain ⟨houtcome, -⟩ := Evaluation.mk.inj (Option.some.inj h)
    cases r with
    | error f => cases houtcome
    | ok j' =>
      cases houtcome
      exact ⟨m', hrun⟩

theorem Evaluation.run_mono (h : fuel ≤ fuel') {m : Machine} {e : Expr} {r : Evaluation Json}
    (hr : Evaluation.run fuel m e = some r) : Evaluation.run fuel' m e = some r := by
  unfold Evaluation.run at hr ⊢
  dsimp only at hr ⊢
  split at hr
  next => cases hr
  next r' m' hrun =>
    have hmore := Eval.moreFuel h e m _ hrun
    rw [Eval.exec] at hmore
    rw [hmore]
    exact hr

theorem select_mono (h : fuel ≤ fuel') {anchor : Option Anchor} {r : Evaluation Json}
    (hr : select fuel schema store q anchor = some r) : select fuel' schema store q anchor = some r := by
  unfold select at hr ⊢
  dsimp only at hr ⊢
  split at hr
  next => exact hr
  next =>
    split at hr
    next => exact hr
    next =>
      obtain ⟨r', hrun, hr⟩ := Option.map_eq_some_iff.mp hr
      rw [Evaluation.run_mono h hrun, Option.map_some, hr]

/-- A query that is run gives one result, whatever its fuel. -/
theorem select_unique {anchor : Option Anchor} {r r' : Evaluation Json}
    (hr : select fuel schema store q anchor = some r) (hr' : select fuel' schema store q anchor = some r') :
    r = r' := by
  rcases Nat.le_total fuel fuel' with h | h
  · exact Option.some.inj ((select_mono h hr).symm.trans hr')
  · exact Option.some.inj (hr.symm.trans (select_mono h hr'))

end Queries

end LiveQuery
