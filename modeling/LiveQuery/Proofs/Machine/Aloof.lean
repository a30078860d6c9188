import LiveQuery.Proofs.Inlining.Resolving

/-! # Evaluations that read no iterator

An expression that is evaluated and a function that is called make iterators, but they read none: what they do on a
machine they also do when the iterators it has are changed, and they leave those as they are (`Eval.aloof`). A
combinator keeps this if it looks at the cells of the machine only to count them.
-/
namespace LiveQuery

namespace Machine

variable {m : Machine}

@[simp] theorem size_setCell (m : Machine) (h : Nat) (c : Cell) : (m.setCell h c).cells.size = m.cells.size :=
  Array.size_setIfInBounds

theorem cell_setCell_self {h : Nat} (hh : h < m.cells.size) (c : Cell) : (m.setCell h c).cell h = c := by
  simp only [cell, setCell, Array.getElem?_setIfInBounds_self, if_pos hh, Option.getD_some]

theorem cell_setCell_ne {h g : Nat} (hg : h ≠ g) (c : Cell) : (m.setCell h c).cell g = m.cell g := by
  simp only [cell, setCell, Array.getElem?_setIfInBounds_ne hg]

/-- Giving a cell the contents that it has changes nothing. -/
theorem setCell_cell (m : Machine) (h : Nat) : m.setCell h (m.cell h) = m := by
  have hcells : m.cells.setIfInBounds h (m.cell h) = m.cells := by
    refine Array.ext_getElem? fun i => ?_
    rw [Array.getElem?_setIfInBounds]
    split
    next hi =>
      subst hi
      split
      next hlt => simp only [cell, Array.getElem?_eq_getElem hlt, Option.getD_some]
      next hlt => exact (Array.getElem?_eq_none (Nat.le_of_not_lt hlt)).symm
    next => rfl
  rw [setCell, hcells]

theorem setCell_allocate {h : Nat} (hh : h < m.cells.size) (c : Cell) (source : Source) :
    ((m.setCell h c).allocate source).2 = (m.allocate source).2.setCell h c := by
  have hcells : (m.cells.setIfInBounds h c).push (.ready source) =
      (m.cells.push (.ready source)).setIfInBounds h c := by
    refine Array.ext_getElem? fun i => ?_
    simp only [Array.getElem?_push, Array.getElem?_setIfInBounds, Array.size_setIfInBounds, Array.size_push]
    grind
  simp only [allocate, setCell, hcells]

theorem setCell_pop (m : Machine) (h : Nat) (c : Cell) : (m.setCell h c).pop = m.pop.setCell h c := by
  obtain ⟨top, callers, cells, calls, stamps, rowPath, live, sent⟩ := m
  cases callers <;> rfl

end Machine

namespace Eval

variable {α β : Type}

/-- The evaluation leaves the iterators there are alone: changed before it or after it, they are the same, and so is
all else. -/
structure Aloof (x : Eval α) : Prop where
  setCell : ∀ m h c, h < m.cells.size → x.exec (m.setCell h c) = (x.exec m).map fun p => (p.1, p.2.setCell h c)
  grows : ∀ m r n, x.exec m = some (r, n) → m.cells.size ≤ n.cells.size

namespace Aloof

variable {x : Eval α}

/-- An iterator is after the evaluation what it was before. -/
theorem cell (hx : Aloof x) {m n : Machine} {r : Except EvalFault α} (hr : x.exec m = some (r, n)) {h : Nat}
    (hh : h < m.cells.size) : n.cell h = m.cell h := by
  have hset := hx.setCell m h (m.cell h) hh
  rw [m.setCell_cell, hr] at hset
  obtain ⟨-, hn⟩ := Prod.mk.inj (Option.some.inj hset)
  rw [hn, Machine.cell_setCell_self (Nat.lt_of_lt_of_le hh (hx.grows m r n hr))]

/-! ## Combinators -/

theorem of_exec {r : Except EvalFault α} (he : ∀ m, x.exec m = some (r, m)) : Aloof x where
  setCell m h c _ := by rw [he, he, Option.map_some]
  grows m r' n hr := by
    rw [he] at hr
    cases hr
    exact Nat.le_refl _

theorem pure (a : α) : Aloof (Pure.pure a) := of_exec (exec_pure a)

theorem throw (e : EvalFault) : Aloof (MonadExcept.throw e : Eval α) := of_exec (exec_throw e)

theorem ofExcept (r : Except EvalFault α) : Aloof (Eval.ofExcept r) := of_exec (exec_ofExcept r)

theorem ofEncoding (r : Except EncodingFault α) : Aloof (Eval.ofEncoding r) := of_exec (exec_ofEncoding r)

theorem outOfFuel : Aloof (Eval.outOfFuel : Eval α) where
  setCell _ _ _ _ := rfl
  grows _ _ _ hr := nomatch hr

/-- What changes the machine apart from its cells, looking at what is apart from them. -/
theorem change {g : Machine → Except EvalFault α} {f : Machine → Machine} (he : ∀ m, x.exec m = some (g m, f m))
    (hg : ∀ m h c, g (m.setCell h c) = g m) (hf : ∀ m h c, f (m.setCell h c) = (f m).setCell h c)
    (hcells : ∀ m, (f m).cells = m.cells) : Aloof x where
  setCell m h c _ := by rw [he, he, hg, hf, Option.map_some]
  grows m r n hr := by
    rw [he] at hr
    cases hr
    exact Nat.le_of_eq (congrArg Array.size (hcells m).symm)

theorem allocate (source : Source) : Aloof (Eval.allocate source) where
  setCell m h c hh := by
    rw [exec_allocate, exec_allocate, Option.map_some, Machine.setCell_allocate hh, Machine.size_setCell]
  grows m r n hr := by
    cases hr
    exact Nat.le_of_lt (Array.size_push _ ▸ Nat.lt_succ_self _)

theorem bind (hx : Aloof x) {f : α → Eval β} (hf : ∀ a, Aloof (f a)) : Aloof (x >>= f) where
  setCell m h c hh := by
    rw [exec_bind, exec_bind, hx.setCell m h c hh]
    cases hr : x.exec m with
    | none => rfl
    | some p =>
      obtain ⟨r, n⟩ := p
      cases r with
      | ok a => exact (hf a).setCell n h c (Nat.lt_of_lt_of_le hh (hx.grows m _ n hr))
      | error e => rfl
  grows m r n hr := by
    rw [exec_bind] at hr
    obtain ⟨⟨r₁, n₁⟩, hr₁, hr⟩ := Option.bind_eq_some_iff.mp hr
    have hle := hx.grows m r₁ n₁ hr₁
    cases r₁ with
    | ok a => exact Nat.le_trans hle ((hf a).grows n₁ r n hr)
    | error e =>
      cases hr
      exact hle

/-- What follows a look at the machine that does not depend on its cells. -/
theorem look {F : Machine → Eval β} (hF : ∀ m h c, F (m.setCell h c) = F m) (h : ∀ m, Aloof (F m)) :
    Aloof (get >>= F) where
  setCell m h' c hh := by
    rw [exec_bind, exec_bind, exec_get, exec_get, Option.bind_some, Option.bind_some, next?_ok, next?_ok, hF]
    exact (h m).setCell m h' c hh
  grows m r n hr := by
    rw [exec_bind, exec_get] at hr
    exact (h m).grows m r n hr

theorem outcome (hx : Aloof x) : Aloof (Eval.outcome x) where
  setCell m h c hh := by
    rw [exec_outcome, exec_outcome, hx.setCell m h c hh]
    cases x.exec m <;> rfl
  grows m r n hr := by
    rw [exec_outcome] at hr
    obtain ⟨⟨r₁, n₁⟩, hr₁, hr⟩ := Option.map_eq_some_iff.mp hr
    cases hr
    exact hx.grows m r₁ n₁ hr₁

theorem inFrame (hx : Aloof x) (f : Frame) : Aloof (Eval.inFrame f x) where
  setCell m h c hh := by
    rw [exec_inFrame, exec_inFrame]
    refine (congrArg (Option.map _) (hx.setCell (m.push f) h c hh)).trans ?_
    cases x.exec (m.push f) with
    | none => rfl
    | some p => exact congrArg (fun n => some (p.1, n)) (p.2.setCell_pop h c)
  grows m r n hr := by
    rw [exec_inFrame] at hr
    obtain ⟨⟨r₁, n₁⟩, hr₁, hr⟩ := Option.map_eq_some_iff.mp hr
    have hle := hx.grows _ r₁ n₁ hr₁
    cases hr
    obtain ⟨top, callers, cells, calls, stamps, rowPath, live, sent⟩ := n₁
    cases callers <;> exact hle

theorem path : Aloof Eval.path :=
  change exec_path (fun _ _ _ => rfl) (fun _ _ _ => rfl) fun _ => rfl

theorem scope : Aloof Eval.scope :=
  change exec_scope (fun _ _ _ => rfl) (fun _ _ _ => rfl) fun _ => rfl

theorem within (hx : Aloof x) (s : Scope) : Aloof (Eval.within s x) := path.bind fun _ => hx.inFrame _

theorem takeRowPath : Aloof Eval.takeRowPath :=
  change exec_takeRowPath (fun _ _ _ => rfl) (fun _ _ _ => rfl) fun _ => rfl

theorem freshStamp : Aloof Eval.freshStamp :=
  change exec_freshStamp (fun _ _ _ => rfl) (fun _ _ _ => rfl) fun _ => rfl

theorem send (s : Subscription) : Aloof (Eval.send s) :=
  change (exec_send s) (fun _ _ _ => rfl) (fun _ _ _ => rfl) fun _ => rfl

theorem mapM {f : α → Eval β} (hf : ∀ a, Aloof (f a)) (as : List α) : Aloof (as.mapM f) := by
  induction as with
  | nil => exact pure _
  | cons a as ih =>
    rw [List.mapM_cons]
    exact (hf a).bind fun _ => ih.bind fun _ => pure _

theorem foldlM {f : β → α → Eval β} (hf : ∀ b a, Aloof (f b a)) (as : List α) (b : β) : Aloof (as.foldlM f b) := by
  induction as generalizing b with
  | nil => exact pure _
  | cons a as ih =>
    rw [List.foldlM_cons]
    exact (hf b a).bind ih

/-! ## Built-in functions -/

theorem toIterator (v : Value) : Aloof v.toIterator := by
  cases v with
  | array elements element => exact (allocate _).bind fun _ => pure _
  | iterator h element => exact pure _
  | int | bool | str | record | function | index => exact throw _

theorem listenAt (rows : Value) (point : Int64) (value : Option Value) :
    Aloof (LiveQuery.listenAt rows point value) := by
  refine look (fun _ _ _ => rfl) fun m => ?_
  cases m.live with
  | none => exact pure _
  | some w =>
    have hrows : ∀ p path, Aloof (do
        let inner ← rows.toIterator
        return Value.iterator (← Eval.allocate (.watched inner.1 p path w.subscriber)) inner.2) :=
      fun p path => (toIterator rows).bind fun inner => (allocate _).bind fun _ => pure _
    refine (ofExcept _).bind fun p => path.bind fun _ => ?_
    dsimp only
    split
    next => exact hrows _ _
    next => exact (ofEncoding _).bind fun filter => (send _).bind fun _ => hrows _ _

theorem onInts (b : Builtin) (f : Int64 → Int64 → Except EvalFault Value) (args : List Value) :
    Aloof (b.onInts f args) := by
  unfold Builtin.onInts
  split
  next => exact (ofExcept _).bind fun _ => (ofExcept _).bind fun _ => ofExcept _
  next => exact throw _

theorem onBools (b : Builtin) (f : Bool → Bool → Bool) (args : List Value) : Aloof (b.onBools f args) := by
  unfold Builtin.onBools
  split
  next => exact (ofExcept _).bind fun _ => (ofExcept _).bind fun _ => pure _
  next => exact throw _

theorem onStrs (b : Builtin) (f : String → String → Value) (args : List Value) : Aloof (b.onStrs f args) := by
  unfold Builtin.onStrs
  split
  next => exact (ofExcept _).bind fun _ => (ofExcept _).bind fun _ => pure _
  next => exact throw _

theorem apply (b : Builtin) (args : List Value) : Aloof (b.apply args) := by
  unfold Builtin.apply
  cases b with
  | plus | minus | times | intEq | intLt | intGt => exact onInts _ _ _
  | strEq | concat => exact onStrs _ _ _
  | boolEq | and | or => exact onBools _ _ _
  | not =>
    dsimp only
    split
    next => exact (ofExcept _).bind fun _ => pure _
    next => exact throw _
  | map =>
    dsimp only
    split
    next => exact (ofExcept _).bind fun f => (toIterator _).bind fun inner => (allocate _).bind fun _ => pure _
    next => exact throw _
  | filter =>
    dsimp only
    split
    next => exact (toIterator _).bind fun inner => (ofExcept _).bind fun f => (allocate _).bind fun _ => pure _
    next => exact throw _
  | scan =>
    dsimp only
    split
    next => exact (ofExcept _).bind fun i => (allocate _).bind fun _ => pure _
    next => exact throw _
  | get =>
    dsimp only
    split
    next => exact (ofExcept _).bind fun _ => ofExcept _
    next => exact throw _
  | listen | listenWhere =>
    dsimp only
    split
    next => exact (ofExcept _).bind fun _ => listenAt _ _ _
    next => exact throw _

theorem resolve (name : String) (site : CallSite) : Aloof (Eval.resolve name site) where
  setCell m h c _ := by
    have hcalls : (m.setCell h c).calls = m.calls := rfl
    rw [exec_resolve, exec_resolve, Option.map_some, hcalls]
    cases site.resolved? m.calls <;> rfl
  grows m r n hr := by
    rw [exec_resolve] at hr
    split at hr <;> cases hr <;> exact Nat.le_refl _

end Aloof

/-! ## The evaluator -/

/-- With some fuel, neither an expression nor a function reads an iterator. -/
structure AllAloof (fuel : Nat) : Prop where
  eval (e : Expr) : Aloof (eval fuel e)
  call (f : Function) (args : List Value) : Aloof (call fuel f args)

namespace AllAloof

variable {fuel : Nat}

theorem eval_succ (ih : AllAloof fuel) (e : Expr) : Aloof (Eval.eval (fuel + 1) e) := by
  cases e with
  | int | str | index | value => exact .pure _
  | var name => exact Aloof.scope.bind fun _ => .ofExcept _
  | lambda params result body => exact Aloof.freshStamp.bind fun _ => Aloof.scope.bind fun _ => .pure _
  | record fields =>
    exact (Aloof.mapM (fun f => (ih.eval f.2).bind fun _ => .pure _) fields).bind fun _ => .pure _
  | call name args site =>
    exact (Aloof.resolve name site).bind fun f => (Aloof.mapM ih.eval args).bind fun vs => ih.call f vs
  | member e name => exact (ih.eval e).bind fun _ => .ofExcept _
  | block bindings result =>
    refine Aloof.scope.bind fun s => (Aloof.foldlM (fun s b => ?_) bindings s).bind fun inner => ?_
    · exact ((ih.eval b.2).within s).bind fun _ => .pure _
    · exact (ih.eval result).within inner

theorem call_succ (ih : AllAloof fuel) (f : Function) (args : List Value) :
    Aloof (Eval.call (fuel + 1) f args) := by
  rw [Eval.call]
  by_cases harity : f.arity ≠ args.length
  · rw [if_pos harity]
    exact .throw _
  · rw [if_neg harity]
    refine Aloof.takeRowPath.bind fun path => ?_
    cases f with
    | closure stamp params result body scope => exact (ih.eval body).inFrame _
    | builtin b =>
      exact (Aloof.ofExcept _).bind fun _ => ((Aloof.apply b args).inFrame _).bind fun _ => .ofExcept _

end AllAloof

theorem allAloof (fuel : Nat) : AllAloof fuel := by
  induction fuel with
  | zero =>
    exact {
      eval := fun e => by rw [Eval.eval]; exact .outOfFuel
      call := fun f args => by rw [Eval.call]; exact .outOfFuel }
  | succ fuel ih => exact ⟨ih.eval_succ, ih.call_succ⟩

end Eval

end LiveQuery
