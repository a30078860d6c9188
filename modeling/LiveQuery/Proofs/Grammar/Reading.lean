import LiveQuery.Grammar.Statement
import LiveQuery.Proofs.Outcome
import LiveQuery.Proofs.Typing.Inference

/-! # What is read is well formed

`Reader.Gives r P` says that whatever `r` reads satisfies `P`. It follows the combinators of readers, and
so every type that is read has its records in key order, and every expression is as it is written: in key
order, with nothing known about its calls (`Statement.wellFormed_of_read`).
-/
namespace LiveQuery

/-- Whatever the reader reads satisfies `P`. -/
def Reader.Gives {α : Type} (r : Reader α) (P : α → Prop) : Prop :=
  ∀ i a j, r i = some (a, j) → P a

namespace Reader.Gives

variable {α β : Type} {P : α → Prop} {Q : β → Prop}

theorem pure {a : α} (h : P a) : Reader.Gives (Pure.pure a) P := by
  intro i b j hb
  cases hb
  exact h

theorem failure : Reader.Gives (failure : Reader α) P := by
  intro i b j hb
  cases hb

theorem any (r : Reader α) : r.Gives fun _ => True := fun _ _ _ _ => trivial

theorem bind {r : Reader α} {f : α → Reader β} (h : r.Gives P) (hf : ∀ a, P a → (f a).Gives Q) :
    Reader.Gives (r >>= f) Q := by
  intro i b j hb
  obtain ⟨⟨a, k⟩, hr, hb⟩ := Option.bind_eq_some_iff.mp hb
  exact hf a (h i a k hr) k b j hb

/-- What comes first does not matter. -/
theorem after {r : Reader α} {f : α → Reader β} (hf : ∀ a, (f a).Gives Q) :
    Reader.Gives (r >>= f) Q :=
  (any r).bind fun a _ => hf a

theorem ite {c : Prop} [Decidable c] {r s : Reader α} (hr : c → r.Gives P) (hs : ¬ c → s.Gives P) :
    Reader.Gives (if c then r else s) P := by
  split
  next h => exact hr h
  next h => exact hs h

end Reader.Gives

open Reader.Gives

namespace Grammar

/-! ## Lists -/

theorem moreItems_gives {α : Type} {item : Reader α} {P : α → Prop} (h : item.Gives P) (fuel : Nat) :
    (moreItems item fuel).Gives fun as => ∀ a ∈ as, P a := by
  induction fuel with
  | zero => exact failure
  | succ fuel ih =>
    refine after fun b => ite (fun _ => ?_) (fun _ => pure (by simp))
    refine h.bind fun a ha => ih.bind fun as has => pure ?_
    exact List.forall_mem_cons.mpr ⟨ha, has⟩

theorem items_gives {α : Type} {item : Reader α} {P : α → Prop} (h : item.Gives P) :
    (items item).Gives fun as => ∀ a ∈ as, P a :=
  h.bind fun _ ha => after fun _ => (moreItems_gives h _).bind fun _ has =>
    pure (List.forall_mem_cons.mpr ⟨ha, has⟩)

theorem itemsUntil_gives {α : Type} {item : Reader α} {P : α → Prop} (h : item.Gives P)
    (closing : Char) : (itemsUntil closing item).Gives fun as => ∀ a ∈ as, P a :=
  after fun _ => ite (fun _ => pure (by simp)) fun _ =>
    (items_gives h).bind fun _ has => after fun _ => pure has

theorem named_gives {α : Type} {item : Reader α} {P : α → Prop} (h : item.Gives P) :
    (named item).Gives fun e => P e.2 :=
  after fun _ => after fun _ => h.bind fun _ ha => pure ha

/-! ## Types -/

theorem tyOfWord_gives {r : Reader Ty} (h : r.Gives Ty.Sorted) (w : String) :
    (tyOfWord r w).Gives Ty.Sorted := by
  unfold tyOfWord
  refine ite (fun _ => pure trivial) fun _ => ite (fun _ => pure trivial) fun _ =>
    ite (fun _ => pure trivial) fun _ => ite (fun _ => ?iterator) fun _ => ite (fun _ => ?index) fun _ =>
    ite (fun _ => ?function) fun _ => failure
  case iterator => exact after fun _ => h.bind fun _ ht => after fun _ => pure ht
  case index =>
    exact after fun _ => h.bind fun _ hk => after fun _ => h.bind fun _ hr => after fun _ => pure ⟨hk, hr⟩
  case function =>
    refine after fun _ => (itemsUntil_gives h ')').bind fun _ hp => after fun _ => ?_
    exact h.bind fun _ hr => pure ⟨Ty.sortedList_iff.mpr hp, hr⟩

theorem ty_gives (fuel : Nat) : (ty fuel).Gives Ty.Sorted := by
  induction fuel with
  | zero => exact failure
  | succ fuel ih =>
    refine after fun c => ?_
    split
    next => exact after fun _ => after fun w => ite (fun _ => pure trivial) fun _ => failure
    next =>
      refine after fun _ => (itemsUntil_gives (named_gives ih) '\x7d').bind fun _ hf => pure ?_
      exact Ty.sorted_recordOf hf
    next => exact after fun _ => tyOfWord_gives ih _

/-! ## Expressions -/

end Grammar

namespace Expr

theorem fieldsWellFormed_iff {fields : List (String × Expr)} :
    FieldsWellFormed fields ↔ ∀ f ∈ fields, f.2.WellFormed := by
  induction fields with
  | nil => simp [FieldsWellFormed]
  | cons f fields ih => simp [FieldsWellFormed, ih]

theorem argsWellFormed_iff {args : List Expr} : ArgsWellFormed args ↔ ∀ e ∈ args, e.WellFormed := by
  induction args with
  | nil => simp [ArgsWellFormed]
  | cons e args ih => simp [ArgsWellFormed, ih]

theorem wellFormed_recordOf {fields : List (String × Expr)} (h : ∀ f ∈ fields, f.2.WellFormed) :
    (recordOf fields).WellFormed :=
  ⟨Keyed.ordered_ofList _, fieldsWellFormed_iff.mpr fun f hf => h f (Keyed.mem_of_mem_ofList hf)⟩

theorem wellFormed_callOf {args : List Expr} (name : String) (h : ∀ e ∈ args, e.WellFormed) :
    (callOf name args).WellFormed :=
  ⟨argsWellFormed_iff.mpr h, rfl⟩

end Expr

namespace Grammar

theorem lambdaTail_gives {rt : Reader Ty} {re : Reader Expr} (ht : rt.Gives Ty.Sorted)
    (he : re.Gives Expr.WellFormed) : (lambdaTail rt re).Gives Expr.WellFormed :=
  after fun _ => (itemsUntil_gives (named_gives ht) ')').bind fun _ hp => after fun _ =>
    ht.bind fun _ hr => after fun _ => he.bind fun _ hb => pure ⟨hp, hr, hb⟩

theorem bindings_gives {re : Reader Expr} (he : re.Gives Expr.WellFormed) (fuel : Nat) :
    (bindings re fuel).Gives fun bs => ∀ b ∈ bs, b.2.WellFormed := by
  induction fuel with
  | zero => exact failure
  | succ fuel ih =>
    refine after fun _ => ite (fun _ => ?_) fun _ => pure (by simp)
    refine after fun _ => after fun n => after fun _ => he.bind fun e hwf => after fun _ => ?_
    exact ih.bind fun bs hbs => pure (List.forall_mem_cons.mpr ⟨hwf, hbs⟩)

theorem blockTail_gives {re : Reader Expr} (he : re.Gives Expr.WellFormed) :
    (blockTail re).Gives Expr.WellFormed :=
  after fun _ => after fun _ => (bindings_gives he _).bind fun _ hbs =>
    he.bind fun _ hr => after fun _ => pure ⟨Expr.fieldsWellFormed_iff.mpr hbs, hr⟩

theorem exprOfWord_gives {rt : Reader Ty} {re : Reader Expr} (ht : rt.Gives Ty.Sorted)
    (he : re.Gives Expr.WellFormed) (w : List Char) :
    (exprOfWord rt re w).Gives Expr.WellFormed := by
  refine ite (fun _ => lambdaTail_gives ht he) fun _ => ite (fun _ => blockTail_gives he) fun _ =>
    ite (fun _ => after fun _ => ite (fun _ => ?_) fun _ => pure trivial) fun _ => failure
  exact (itemsUntil_gives he ')').bind fun _ ha => pure (Expr.wellFormed_callOf _ ha)

theorem primary_gives {rt : Reader Ty} {re : Reader Expr} (ht : rt.Gives Ty.Sorted)
    (he : re.Gives Expr.WellFormed) : (primary rt re).Gives Expr.WellFormed := by
  refine after fun c => ?_
  split
  next => exact after fun _ => he.bind fun _ h => after fun _ => pure h
  next =>
    refine after fun _ => (itemsUntil_gives (named_gives he) '\x7d').bind fun _ hf => pure ?_
    exact Expr.wellFormed_recordOf hf
  next => exact after fun _ => pure trivial
  next =>
    exact ite (fun _ => after fun _ => pure trivial) fun _ => after fun _ => exprOfWord_gives ht he _
  next => exact failure

theorem members_gives {e : Expr} (he : e.WellFormed) (fuel : Nat) :
    (members e fuel).Gives Expr.WellFormed := by
  induction fuel generalizing e with
  | zero => exact failure
  | succ fuel ih =>
    refine after fun _ => ite (fun _ => after fun n => ?_) fun _ => pure he
    exact ih (e := .member e n) he

theorem expr_gives (fuel : Nat) : (expr fuel).Gives Expr.WellFormed := by
  induction fuel with
  | zero => exact failure
  | succ fuel ih =>
    refine (primary_gives (ty_gives _) ih).bind fun _ he => after fun _ => ?_
    exact members_gives he _

end Grammar

/-! ## Statements -/

/-- The expressions in a statement are as they are written. -/
def Statement.WellFormed : Statement → Prop
  | .insert _ e | .eval e => e.WellFormed
  | .create _ | .update .. | .delete .. | .select .. => True

/-- The expression in a statement satisfies `P`. -/
def Statement.Each (P : Expr → Prop) : Statement → Prop
  | .insert _ e | .eval e => P e
  | .create _ | .update .. | .delete .. | .select .. => True

theorem Grammar.statement_each {P : Expr → Prop} {fuel : Nat} (he : (expr fuel).Gives P) :
    (statement fuel).Gives (Statement.Each P) := by
  refine after fun w => ite (fun _ => ?create) fun _ => ite (fun _ => ?insert) fun _ =>
    ite (fun _ => ?update) fun _ => ite (fun _ => ?delete) fun _ => ite (fun _ => ?eval) fun _ =>
    ite (fun _ => ?live) fun _ => ?select
  case create =>
    exact after fun _ => after fun _ => after fun _ => after fun _ => after fun _ => after fun _ =>
      pure trivial
  case insert => exact after fun _ => after fun _ => after fun _ => he.bind fun _ h => pure h
  case update =>
    exact after fun _ => after fun _ => after fun _ => after fun _ => after fun _ => pure trivial
  case delete => exact after fun _ => after fun _ => after fun _ => after fun _ => pure trivial
  case eval => exact after fun _ => he.bind fun _ h => pure h
  case live => exact after fun _ => after fun _ => pure trivial
  case select => exact after fun _ => pure trivial

theorem Grammar.readAll_gives {α : Type} {r : Reader α} {P : α → Prop} (h : r.Gives P) {text : String}
    {a : α} (ha : readAll r text = .ok a) : P a := by
  unfold readAll at ha
  split at ha
  next => cases ha
  next b i hb =>
    split at ha
    next => cases ha
    next =>
      cases ha
      exact (h.bind fun _ h => after fun _ => pure h : Reader.Gives _ P) _ a i hb

/-- What every expression satisfies that was read, the expression in a statement that was read satisfies. -/
theorem Statement.each_of_read {P : Expr → Prop} (he : ∀ fuel, (Grammar.expr fuel).Gives P) {text : String}
    {s : Statement} (h : Statement.read text = .ok s) : s.Each P :=
  Grammar.readAll_gives ((Grammar.statement_each (he _)).bind fun _ hs => after fun _ => pure hs) h

/-- The expressions in a statement that was read are as they are written. -/
theorem Statement.wellFormed_of_read {text : String} {s : Statement}
    (h : Statement.read text = .ok s) : s.WellFormed := by
  have heach := Statement.each_of_read Grammar.expr_gives h
  cases s <;> exact heach

end LiveQuery
