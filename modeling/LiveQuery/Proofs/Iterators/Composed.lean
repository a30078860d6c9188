import LiveQuery.Proofs.Iterators.Stacks

/-! # Lists that go through stages

Where the functions of the stages have outcomes that can be told beforehand, what comes through is a list: each
stage makes a list of the list below it, up to the first element that its function fails on (`Stage.composed`).
Drawing the elements one by one gives that list (`Stage.composed_eq`), and the functions that are called on the way
are called on elements of these lists only (`Machine.Tells.draw`).
-/
namespace LiveQuery

namespace Stage

variable {F : Function → Value → Except EvalFault Value} {s : Stage} {stages below : List Stage} {v u : Value}
  {vs rest : List Value}

/-- What a stage makes of a list whose end is a fault or none, when functions have the outcomes `F`: the list ends
where its function fails. -/
def onList (F : Function → Value → Except EvalFault Value) (s : Stage) :
    List Value → Option EvalFault → List Value × Option EvalFault
  | [], fault => ([], fault)
  | v :: vs, fault =>
    match s.apply F v with
    | .ok (some u) => (u :: (s.onList F vs fault).1, (s.onList F vs fault).2)
    | .ok none => s.onList F vs fault
    | .error e => ([], some e)

/-- What the stages, the outermost first, make of a list, and the fault that it ends with. -/
def composed (F : Function → Value → Except EvalFault Value) :
    List Stage → List Value → List Value × Option EvalFault
  | [], vs => (vs, none)
  | s :: below, vs => s.onList F (composed F below vs).1 (composed F below vs).2

theorem composed_nil (F : Function → Value → Except EvalFault Value) (stages : List Stage) :
    composed F stages [] = ([], none) := by
  induction stages with
  | nil => rfl
  | cons s below ih => rw [composed, ih, onList]

/-- An element goes through all the stages before the next one does. -/
theorem composed_cons (F : Function → Value → Except EvalFault Value) (stages : List Stage) (v : Value)
    (vs : List Value) : composed F stages (v :: vs) =
      match pass F stages v with
      | .ok (some u) => (u :: (composed F stages vs).1, (composed F stages vs).2)
      | .ok none => composed F stages vs
      | .error e => ([], some e) := by
  induction stages with
  | nil => rfl
  | cons s below ih =>
    rw [composed, ih, pass]
    cases pass F below v with
    | ok o =>
      cases o with
      | some u =>
        simp only [onList]
        rfl
      | none => rfl
    | error e => rfl

theorem composed_eq (F : Function → Value → Except EvalFault Value) (stages : List Stage) (vs : List Value) :
    composed F stages vs =
      match draw F stages vs with
      | .ok (some (u, rest)) => (u :: (composed F stages rest).1, (composed F stages rest).2)
      | .ok none => ([], none)
      | .error e => ([], some e) := by
  induction vs with
  | nil => exact composed_nil F stages
  | cons v vs ih =>
    rw [composed_cons, draw]
    cases pass F stages v with
    | ok o =>
      cases o with
      | some u => rfl
      | none => exact ih
    | error e => rfl

end Stage

/-! ## Functions whose outcomes are known -/

namespace Machine

/-- The machine after calls of functions of the stages. -/
def Called (stages : List Stage) : Machine → Machine → Prop :=
  Relation.ReflTransGen fun m n => ∃ s ∈ stages, ∃ k v r, (Eval.call k s.function [v]).exec m = some (r, n)

/-- The calls that the stages make of their functions, when elements go through them, end as `F` says, whichever
of them have been made before. -/
def Tells (m : Machine) (all : List Stage) (F : Function → Value → Except EvalFault Value) :
    List Stage → List Value → Prop
  | [], _ => True
  | s :: below, vs => Tells m all F below vs ∧ ∀ v ∈ (Stage.composed F below vs).1, ∀ n, Called all m n →
      ∃ k n', (Eval.call k s.function [v]).exec n = some (F s.function v, n')

namespace Tells

open Eval

variable {m n : Machine} {F : Function → Value → Except EvalFault Value} {all stages : List Stage} {s : Stage}
  {v : Value} {vs : List Value}

theorem nil (m : Machine) (all : List Stage) (F : Function → Value → Except EvalFault Value) (stages : List Stage) :
    m.Tells all F stages [] := by
  induction stages with
  | nil => trivial
  | cons s below ih =>
    refine ⟨ih, fun v hv => ?_⟩
    rw [Stage.composed_nil] at hv
    cases hv

/-- What the stages are told of a list, they are told of the elements that are left, unless one before them failed. -/
theorem tail (h : m.Tells all F stages (v :: vs)) (hv : ∀ e, Stage.pass F stages v ≠ .error e) :
    m.Tells all F stages vs := by
  induction stages with
  | nil => trivial
  | cons s below ih =>
    obtain ⟨hbelow, hs⟩ := h
    have hpass : ∀ e, Stage.pass F below v ≠ .error e := by
      intro e he
      refine hv e ?_
      rw [Stage.pass, he]
      rfl
    refine ⟨ih hbelow hpass, fun u hu => hs u ?_⟩
    rw [Stage.composed_cons]
    cases hp : Stage.pass F below v with
    | ok o =>
      cases o with
      | some w => exact List.mem_cons_of_mem _ hu
      | none => exact hu
    | error e => exact absurd hp (hpass e)

theorem apply {u : Value} (hs : s ∈ all) (hn : Called all m n)
    (h : ∃ k n', (Eval.call k s.function [u]).exec n = some (F s.function u, n')) :
    ∃ n', (s.apply Ample.call u).exec n = some (s.apply F u, n') ∧ Called all m n' := by
  obtain ⟨k, n', hk⟩ := h
  refine ⟨n', ?_, hn.tail ⟨s, hs, k, u, _, hk⟩⟩
  have hcall : (Ample.call s.function u).exec n = some (F s.function u, n') :=
    (Ample.call_tends _ _).exec_iff.mpr ⟨k, hk⟩
  cases s with
  | map f =>
    simp only [Stage.function] at hcall
    simp only [Stage.apply, exec_bind, hcall, Option.bind_some]
    cases F f u <;> rfl
  | filter test =>
    simp only [Stage.function] at hcall
    simp only [Stage.apply, exec_bind, hcall, Option.bind_some]
    cases F test u with
    | error e => rfl
    | ok answer =>
      cases answer with
      | bool b => cases b <;> rfl
      | int | str | record | array | iterator | function | index => rfl

theorem pass (h : m.Tells all F stages (v :: vs)) (hall : stages ⊆ all) (hn : Called all m n) :
    ∃ n', (Stage.pass Ample.call stages v).exec n = some (Stage.pass F stages v, n') ∧ Called all m n' := by
  induction stages with
  | nil => exact ⟨n, rfl, hn⟩
  | cons s below ih =>
    obtain ⟨hbelow, hs⟩ := h
    obtain ⟨hmem, hsub⟩ := List.cons_subset.mp hall
    obtain ⟨n₁, hpass, hn₁⟩ := ih hbelow hsub
    rw [Stage.pass, Stage.pass, exec_bind, hpass, Option.bind_some]
    cases hp : Stage.pass F below v with
    | ok o =>
      cases o with
      | some u =>
        refine apply hmem hn₁ (hs u ?_ n₁ hn₁)
        rw [Stage.composed_cons, hp]
        exact List.mem_cons_self
      | none => exact ⟨n₁, rfl, hn₁⟩
    | error e => exact ⟨n₁, rfl, hn₁⟩

/-- The elements are drawn as they are from a list, and what is left can be told again. -/
theorem draw (h : m.Tells all F stages vs) (hall : stages ⊆ all) (hn : Called all m n) :
    (∃ n', (Stage.draw Ample.call stages vs).exec n = some (Stage.draw F stages vs, n') ∧ Called all m n') ∧
      ∀ u rest, Stage.draw F stages vs = .ok (some (u, rest)) → m.Tells all F stages rest := by
  induction vs generalizing n with
  | nil =>
    refine ⟨⟨n, rfl, hn⟩, fun u rest hu => ?_⟩
    cases hu
  | cons v vs ih =>
    obtain ⟨n₁, hpass, hn₁⟩ := h.pass hall hn
    rw [Stage.draw, Stage.draw, exec_bind, hpass, Option.bind_some]
    cases hp : Stage.pass F stages v with
    | ok o =>
      have htail : m.Tells all F stages vs := h.tail fun e he => by rw [hp] at he; cases he
      cases o with
      | some u =>
        refine ⟨⟨n₁, rfl, hn₁⟩, fun w rest hw => ?_⟩
        cases hw
        exact htail
      | none => exact ih htail hn₁
    | error e =>
      refine ⟨⟨n₁, rfl, hn₁⟩, fun w rest hw => ?_⟩
      cases hw

end Tells

end Machine

end LiveQuery
