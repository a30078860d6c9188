import LiveQuery.Proofs.Machine.Run
import Mathlib.Data.List.Forall2

/-! # What evaluations keep

An evaluation keeps an invariant of the machine if it leads from machines that have it to machines that have it,
whatever its outcome (`Eval.Keeps`); its value, if it has one, passes a test besides. There is a rule for each
way of putting evaluations together.
-/
namespace LiveQuery

namespace Eval

variable {α β : Type}

/-- The evaluation keeps the invariant `I`, and its value satisfies `Q`. -/
def Keeps (I : Machine → Prop) (act : Eval α) (Q : α → Prop) : Prop :=
  ∀ m r m', I m → act.exec m = some (r, m') → I m' ∧ ∀ a, r = .ok a → Q a

namespace Keeps

variable {I : Machine → Prop} {act : Eval α} {Q : α → Prop} {R : β → Prop}

theorem of_exec {r : Except EvalFault α} (he : ∀ m, act.exec m = some (r, m)) (h : ∀ a, r = .ok a → Q a) :
    Keeps I act Q := by
  intro m r' m' hm hr
  rw [he] at hr
  cases hr
  exact ⟨hm, h⟩

theorem pure {a : α} (h : Q a) : Keeps I (Pure.pure a) Q :=
  of_exec (exec_pure a) (by rintro b ⟨⟩; exact h)

theorem throw (f : EvalFault) : Keeps I (MonadExcept.throw f : Eval α) Q :=
  of_exec (exec_throw f) (by simp)

theorem ofExcept {r : Except EvalFault α} (h : ∀ a, r = .ok a → Q a) : Keeps I (Eval.ofExcept r) Q :=
  of_exec (exec_ofExcept r) h

theorem ofEncoding {r : Except EncodingFault α} (h : ∀ a, r = .ok a → Q a) : Keeps I (Eval.ofEncoding r) Q := by
  refine of_exec (exec_ofEncoding r) fun a ha => h a ?_
  cases r with
  | ok b => cases ha; rfl
  | error f => cases ha

theorem outOfFuel : Keeps I (Eval.outOfFuel : Eval α) Q := by
  intro m r m' _ h
  cases h

theorem bind {f : α → Eval β} (h : Keeps I act Q) (hf : ∀ a, Q a → Keeps I (f a) R) :
    Keeps I (act >>= f) R := by
  intro m r m' hm hr
  rw [exec_bind] at hr
  obtain ⟨⟨r₁, m₁⟩, hact, hr⟩ := Option.bind_eq_some_iff.mp hr
  obtain ⟨hm₁, hq⟩ := h m r₁ m₁ hm hact
  cases r₁ with
  | ok a => exact hf a (hq a rfl) m₁ r m' hm₁ hr
  | error e =>
    cases hr
    exact ⟨hm₁, by simp⟩

/-- A first part whose value does not matter. -/
theorem andThen {f : α → Eval β} (h : Keeps I act fun _ => True) (hf : ∀ a, Keeps I (f a) R) :
    Keeps I (act >>= f) R :=
  bind h fun a _ => hf a

/-- What is read off the machine first. -/
theorem read {g : Machine → α} {f : α → Eval β} (he : ∀ m, act.exec m = some (.ok (g m), m))
    (hf : ∀ m, I m → Keeps I (f (g m)) R) : Keeps I (act >>= f) R := by
  intro m r m' hm hr
  rw [exec_bind, he] at hr
  exact hf m hm m r m' hm hr

/-- What changes the machine and has a value that is not tested. -/
theorem change {g : Machine → α} {f : Machine → Machine} (he : ∀ m, act.exec m = some (.ok (g m), f m))
    (hf : ∀ m, I m → I (f m)) : Keeps I act fun _ => True := by
  intro m r m' hm hr
  rw [he] at hr
  cases hr
  exact ⟨hf m hm, fun _ _ => trivial⟩

theorem update {f : Machine → Machine} (hf : ∀ m, I m → I (f m)) :
    Keeps I (modify f : Eval Unit) fun _ => True :=
  change (exec_modify f) hf

/-- Under a frame the invariant may be another one. -/
theorem inFrame {J : Machine → Prop} {f : Frame} (h : Keeps J act Q) (hpush : ∀ m, I m → J (m.push f))
    (hpop : ∀ m : Machine, J m → I m.pop) : Keeps I (Eval.inFrame f act) Q := by
  intro m r m' hm hr
  rw [exec_inFrame] at hr
  obtain ⟨⟨r₁, m₁⟩, hact, hr⟩ := Option.map_eq_some_iff.mp hr
  cases hr
  obtain ⟨hm₁, hq⟩ := h _ r₁ m₁ (hpush m hm) hact
  exact ⟨hpop _ hm₁, hq⟩

theorem outcome (h : Keeps I act Q) : Keeps I (Eval.outcome act) fun r => ∀ a, r = .ok a → Q a := by
  intro m r m' hm hr
  rw [exec_outcome] at hr
  obtain ⟨⟨r₁, m₁⟩, hact, hr⟩ := Option.map_eq_some_iff.mp hr
  cases hr
  obtain ⟨hm₁, hq⟩ := h _ r₁ m₁ hm hact
  exact ⟨hm₁, by rintro a ⟨⟩; exact hq⟩

theorem mono {Q' : α → Prop} (h : Keeps I act Q) (hq : ∀ a, Q a → Q' a) : Keeps I act Q' := by
  intro m r m' hm hr
  obtain ⟨hm', hok⟩ := h m r m' hm hr
  exact ⟨hm', fun a ha => hq a (hok a ha)⟩

theorem mapM {f : α → Eval β} {S : α → β → Prop} {as : List α} (h : ∀ a ∈ as, Keeps I (f a) (S a)) :
    Keeps I (as.mapM f) (List.Forall₂ S as) := by
  induction as with
  | nil => exact pure .nil
  | cons a as ih =>
    rw [List.mapM_cons]
    obtain ⟨ha, has⟩ := List.forall_mem_cons.mp h
    exact bind ha fun b hb => bind (ih has) fun bs hbs => pure (.cons hb hbs)

theorem mapM_all {f : α → Eval β} {as : List α} (h : ∀ a ∈ as, Keeps I (f a) R) :
    Keeps I (as.mapM f) fun bs => ∀ b ∈ bs, R b :=
  mono (mapM h) fun bs hbs => by
    induction hbs with
    | nil => simp
    | cons hb _ ih => exact List.forall_mem_cons.mpr ⟨hb, ih fun a ha => h a (List.mem_cons_of_mem _ ha)⟩

theorem foldlM {f : β → α → Eval β} {as : List α} (h : ∀ b, R b → ∀ a ∈ as, Keeps I (f b a) R) {b : β} (hb : R b) :
    Keeps I (as.foldlM f b) R := by
  induction as generalizing b with
  | nil => exact pure hb
  | cons a as ih =>
    rw [List.foldlM_cons]
    refine bind (h b hb a List.mem_cons_self) fun b' hb' => ih (fun b hb a ha => ?_) hb'
    exact h b hb a (List.mem_cons_of_mem _ ha)

end Keeps

end Eval

end LiveQuery
