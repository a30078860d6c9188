import LiveQuery.Proofs.Iterators.Composed
import LiveQuery.Proofs.Iterators.Finished

/-! # Reading a stack to its end

An iterator is read again and again (`Eval.pulls`). A stack of stages over an array gives what is drawn from the
array's elements, one after another, and once it has reported the end or a fault it gives nothing more
(`Stage.draws`); where the outcomes of the functions are known that is a list and the fault that it ends with
(`Eval.answers`). A stack that has come to its end, or is closed, is done in each of its iterators.
-/
namespace LiveQuery

namespace Eval

/-- The outcomes of reading an iterator a number of times in a row. -/
def pulls (next : Eval (Option Value)) : Nat → Eval (List (Except EvalFault (Option Value)))
  | 0 => return []
  | n + 1 => do
    let r ← outcome next
    return r :: (← pulls next n)

/-- What reading gives of a list that ends with a fault or with none: each element once, then the fault once, then
nothing more. -/
def answers : List Value → Option EvalFault → Nat → List (Except EvalFault (Option Value))
  | _, _, 0 => []
  | v :: vs, fault, n + 1 => .ok (some v) :: answers vs fault n
  | [], some e, n + 1 => .error e :: answers [] none n
  | [], none, n + 1 => .ok none :: answers [] none n

/-- The outcome of reading is not an element. -/
def IsLast : Except EvalFault (Option Value) → Prop
  | .ok (some _) => False
  | .ok none | .error _ => True

end Eval

namespace Stage

/-- The elements that are left when one was drawn: none after the end or a fault. -/
def left : Except EvalFault (Option (Value × List Value)) → List Value
  | .ok (some (_, rest)) => rest
  | .ok none | .error _ => []

/-- The outcomes of drawing a number of times from elements that go through stages. -/
def draws (call : Function → Value → Eval Value) (stages : List Stage) :
    Nat → List Value → Eval (List (Except EvalFault (Option Value)))
  | 0, _ => return []
  | n + 1, vs => do
    let r ← Eval.outcome (draw call stages vs)
    return r.map (Option.map Prod.fst) :: (← draws call stages n (left r))

end Stage

namespace Eval

variable {α : Type} {m : Machine} {h : Nat} {vs : List Value} {stages : List Stage}

/-! ## With as much fuel as is needed -/

theorem Tends.pulls {x : Nat → Eval (Option Value)} {y : Eval (Option Value)} (h : Tends x y) (n : Nat) :
    Tends (fun k => Eval.pulls (x k) n) (Eval.pulls y n) := by
  induction n with
  | zero => exact .const _
  | succ n ih => exact h.outcome.bind fun r => ih.bind fun _ => .const _

namespace Ample

theorem apply_tends (s : Stage) (v : Value) :
    Tends (fun k => s.apply (fun f v => Eval.call k f [v]) v) (s.apply call v) := by
  cases s with
  | map f => exact (call_tends f v).bind fun _ => .const _
  | filter test => exact (call_tends test v).bind fun _ => .const _

theorem pass_tends (stages : List Stage) (v : Value) :
    Tends (fun k => Stage.pass (fun f v => Eval.call k f [v]) stages v) (Stage.pass call stages v) := by
  induction stages with
  | nil => exact .const _
  | cons s below ih =>
    refine ih.bind fun o => ?_
    cases o with
    | some u => exact apply_tends s u
    | none => exact .const _

theorem draw_tends (stages : List Stage) (vs : List Value) :
    Tends (fun k => Stage.draw (fun f v => Eval.call k f [v]) stages vs) (Stage.draw call stages vs) := by
  induction vs with
  | nil => exact .const _
  | cons v rest ih =>
    refine (pass_tends stages v).bind fun o => ?_
    cases o with
    | some u => exact .const _
    | none => exact ih

theorem draws_tends (stages : List Stage) (n : Nat) (vs : List Value) :
    Tends (fun k => Stage.draws (fun f v => Eval.call k f [v]) stages n vs) (Stage.draws call stages n vs) := by
  induction n generalizing vs with
  | zero => exact .const _
  | succ n ih => exact (draw_tends stages vs).outcome.bind fun r => (ih _).bind fun _ => .const _

theorem draws_aloof (stages : List Stage) (n : Nat) (vs : List Value) : Aloof (Stage.draws call stages n vs) := by
  induction n generalizing vs with
  | zero => exact .pure _
  | succ n ih => exact (draw_aloof stages vs).outcome.bind fun r => (ih _).bind fun _ => .pure _

end Ample

/-! ## One after another -/

theorem map_fst_eq_some {o : Option (Except EvalFault α × Machine)} {r : Except EvalFault α} :
    o.map Prod.fst = some r ↔ ∃ n, o = some (r, n) := by
  simp [Option.map_eq_some_iff]

theorem map_fst_map {β : Type} (f : α → β) (o : Option (Except EvalFault α × Machine)) :
    (o.map fun q => (q.1.map f, q.2)).map Prod.fst = (o.map Prod.fst).map (Except.map f) := by
  cases o <;> rfl

theorem exec_pulls_succ (x : Eval (Option Value)) (n : Nat) (m : Machine) :
    (Eval.pulls x (n + 1)).exec m =
      (x.exec m).bind fun p => ((Eval.pulls x n).exec p.2).map fun q => (q.1.map (p.1 :: ·), q.2) := by
  rw [Eval.pulls, exec_bind, exec_outcome]
  cases x.exec m with
  | none => rfl
  | some p =>
    rw [Option.map_some, Option.bind_some, next?_ok, exec_bind, Option.bind_some]
    cases (Eval.pulls x n).exec p.2 with
    | none => rfl
    | some q =>
      obtain ⟨r, n'⟩ := q
      cases r <;> rfl

theorem exec_draws_succ (call : Function → Value → Eval Value) (stages : List Stage) (n : Nat) (vs : List Value)
    (m : Machine) : (Stage.draws call stages (n + 1) vs).exec m =
      ((Stage.draw call stages vs).exec m).bind fun p =>
        ((Stage.draws call stages n (Stage.left p.1)).exec p.2).map
          fun q => (q.1.map (p.1.map (Option.map Prod.fst) :: ·), q.2) := by
  rw [Stage.draws, exec_bind, exec_outcome]
  cases (Stage.draw call stages vs).exec m with
  | none => rfl
  | some p =>
    rw [Option.map_some, Option.bind_some, next?_ok, exec_bind, Option.bind_some]
    cases (Stage.draws call stages n (Stage.left p.1)).exec p.2 with
    | none => rfl
    | some q =>
      obtain ⟨r, n'⟩ := q
      cases r <;> rfl

/-- Nothing is drawn when no elements are left. -/
theorem exec_draws_nil (call : Function → Value → Eval Value) (stages : List Stage) (n : Nat) (m : Machine) :
    (Stage.draws call stages n []).exec m = some (.ok (List.replicate n (.ok none)), m) := by
  induction n with
  | zero => rfl
  | succ n ih =>
    have hdraw : (Stage.draw call stages []).exec m = some (.ok none, m) := rfl
    rw [exec_draws_succ, hdraw, Option.bind_some]
    simp only [Stage.left, ih]
    rfl

theorem exec_pulls_done (hd : m.IsDone h) (n : Nat) :
    (Eval.pulls (Ample.next h) n).exec m = some (.ok (List.replicate n (.ok none)), m) := by
  induction n with
  | zero => rfl
  | succ n ih =>
    rw [exec_pulls_succ, (Ample.next_tends h).exec_iff.mpr ⟨1, exec_next_done hd 0⟩, Option.bind_some, ih]
    rfl

/-! ## Known outcomes -/

theorem answers_nil (n : Nat) : answers [] none n = List.replicate n (.ok none) := by
  induction n with
  | zero => rfl
  | succ n ih => rw [answers, ih, List.replicate_succ]

/-- Functions whose outcomes are known give the elements of the composed list, and then its fault. -/
theorem exec_draws {F : Function → Value → Except EvalFault Value} {all : List Stage} {n₀ : Machine}
    (h : m.Tells all F stages vs) (hall : stages ⊆ all) (hn : Machine.Called all m n₀) (n : Nat) :
    ∃ n', (Stage.draws Ample.call stages n vs).exec n₀ =
      some (.ok (answers (Stage.composed F stages vs).1 (Stage.composed F stages vs).2 n), n') := by
  induction n generalizing vs n₀ with
  | zero => exact ⟨n₀, by cases (Stage.composed F stages vs).1 <;> rfl⟩
  | succ n ih =>
    obtain ⟨⟨n₁, hdraw, hn₁⟩, hrest⟩ := h.draw hall hn
    rw [exec_draws_succ, hdraw, Option.bind_some, Stage.composed_eq]
    match hd : Stage.draw F stages vs with
    | .ok (some (u, rest)) =>
      obtain ⟨n', hn'⟩ := ih (hrest u rest hd) hn₁
      exact ⟨n', by simp only [Stage.left, hn']; rfl⟩
    | .ok none | .error e => exact ⟨n₁, by simp only [Stage.left, exec_draws_nil, answers, answers_nil]; rfl⟩

end Eval

namespace Machine

open Eval

variable {m m' : Machine} {base h : Nat} {vs : List Value} {stages : List Stage} {hs : List Nat}

theorem isDone_setDone (hsize : h < m.cells.size) (hh : h ∈ hs) : (m.setDone hs).IsDone h := by
  refine isDone_iff.mpr ⟨?_, cell_setDone hh⟩
  rw [setDone, Array.size_mapIdx]
  exact hsize

namespace Stacked

/-- What reading the outermost iterator leaves: the stack, with other elements left, or iterators that are done. -/
theorem step {r : Except EvalFault (Option Value)} (stack : m.Stacked base vs stages (h :: hs))
    (hr : (Ample.next h).exec m = some (r, m')) :
    (¬ IsLast r ∧ ∃ rest, m'.Stacked base rest stages (h :: hs)) ∨ ∀ g ∈ h :: hs, m'.IsDone g := by
  rw [stack.exec_next] at hr
  obtain ⟨⟨r₀, n⟩, hdraw, hrestock⟩ := Option.map_eq_some_iff.mp hr
  have hn := stack.keep (Ample.draw_aloof stages vs) hdraw
  match r₀ with
  | .ok (some (v, rest)) =>
    cases hrestock
    exact .inl ⟨id, rest, hn.setBase rest⟩
  | .ok none | .error e =>
    cases hrestock
    exact .inr fun g hg => isDone_setDone (hn.lt_size hg) hg

theorem steps {n : Nat} {rs : List (Except EvalFault (Option Value))} (stack : m.Stacked base vs stages (h :: hs))
    (hr : (Eval.pulls (Ample.next h) n).exec m = some (.ok rs, m')) :
    ((∀ r ∈ rs, ¬ IsLast r) ∧ ∃ rest, m'.Stacked base rest stages (h :: hs)) ∨ ∀ g ∈ h :: hs, m'.IsDone g := by
  induction n generalizing m vs rs with
  | zero =>
    cases hr
    exact .inl ⟨by simp, vs, stack⟩
  | succ n ih =>
    rw [exec_pulls_succ] at hr
    obtain ⟨⟨r, n₁⟩, hnext, hr⟩ := Option.bind_eq_some_iff.mp hr
    obtain ⟨⟨rs', n₂⟩, hrest, hr⟩ := Option.map_eq_some_iff.mp hr
    rcases stack.step hnext with ⟨hlast, rest, stack'⟩ | hdone
    · cases rs' with
      | error e => cases hr
      | ok rs' =>
        cases hr
        rcases ih stack' hrest with ⟨hall, hstack⟩ | hdone
        · exact .inl ⟨List.forall_mem_cons.mpr ⟨hlast, hall⟩, hstack⟩
        · exact .inr hdone
    · rw [exec_pulls_done (hdone h List.mem_cons_self)] at hrest
      cases hrest
      cases hr
      exact .inr hdone

/-- One after another, the outermost iterator gives what is drawn from the elements that are left. -/
theorem map_fst_pulls (stack : m.Stacked base vs stages (h :: hs)) (n : Nat) :
    ((Eval.pulls (Ample.next h) n).exec m).map Prod.fst =
      ((Stage.draws Ample.call stages n vs).exec m).map Prod.fst := by
  induction n generalizing m vs with
  | zero => rfl
  | succ n ih =>
    rw [exec_pulls_succ, exec_draws_succ, stack.exec_next]
    cases hdraw : (Stage.draw Ample.call stages vs).exec m with
    | none => rfl
    | some p =>
      obtain ⟨r, n'⟩ := p
      have hn := stack.keep (Ample.draw_aloof stages vs) hdraw
      have hrest : ((Eval.pulls (Ample.next h) n).exec (restock base (h :: hs) (r, n')).2).map Prod.fst =
          ((Stage.draws Ample.call stages n (Stage.left r)).exec n').map Prod.fst := by
        match r with
        | .ok (some (v, rest)) =>
          refine (ih (hn.setBase rest)).trans ?_
          rw [(Ample.draws_aloof stages n rest).setCell n' base _ (hn.lt_size hn.base_mem), Option.map_map]
          rfl
        | .ok none | .error e =>
          have hh := List.mem_cons_self (a := h) (l := hs)
          rw [Stage.left, exec_draws_nil]
          exact (congrArg (Option.map Prod.fst) (exec_pulls_done (isDone_setDone (hn.lt_size hh) hh) n)).trans rfl
      have hfst : (restock base (h :: hs) (r, n')).1 = r.map (Option.map Prod.fst) := by
        match r with
        | .ok (some (v, rest)) | .ok none | .error e => rfl
      simp only [Option.map_some, Option.bind_some, map_fst_map, hrest, hfst]

/-- Reading a stack gives, in order and each once, the elements that come through the stages one after another, as
far as the end or the first application that fails. Where the functions' outcomes are known, that is the list that
the stages make of the array, and then once the fault that it ends with. After the end or a fault, and after the
outermost iterator was closed, no iterator of the stack ever gives anything. -/
theorem pulled (stack : m.Stacked base vs stages (h :: hs)) :
    (∀ n rs, (∃ k m', (Eval.pulls (Eval.next k h) n).exec m = some (.ok rs, m')) ↔
      ∃ k m', (Stage.draws (fun f v => Eval.call k f [v]) stages n vs).exec m = some (.ok rs, m')) ∧
    (∀ F, m.Tells stages F stages vs → ∀ n, ∃ k m', (Eval.pulls (Eval.next k h) n).exec m =
      some (.ok (answers (Stage.composed F stages vs).1 (Stage.composed F stages vs).2 n), m')) ∧
    ∀ n rs k m', (Eval.pulls (Eval.next k h) n).exec m = some (.ok rs, m') →
      ((∃ r ∈ rs, IsLast r) → m'.Spent (h :: hs)) ∧ (m'.close h).Spent (h :: hs) := by
  have hpulls : ∀ n rs, (∃ k m', (Eval.pulls (Eval.next k h) n).exec m = some (.ok rs, m')) ↔
      ∃ m', (Stage.draws Ample.call stages n vs).exec m = some (.ok rs, m') := by
    intro n rs
    rw [((Ample.next_tends h).pulls n).exists_exec, ← map_fst_eq_some, stack.map_fst_pulls, map_fst_eq_some]
  refine ⟨fun n rs => ?_, fun F htells n => ?_, fun n rs k m' hm' => ?_⟩
  · rw [hpulls, (Ample.draws_tends stages n vs).exists_exec]
  · exact (hpulls n _).mpr (exec_draws htells (List.Subset.refl _) .refl n)
  · rcases stack.steps (((Ample.next_tends h).pulls n).exec_iff.mpr ⟨k, hm'⟩) with ⟨hall, rest, stack'⟩ | hdone
    · refine ⟨fun ⟨r, hr, hlast⟩ => absurd hlast (hall r hr), spent_of_isDone fun g hg => ?_⟩
      rw [stack'.close_eq]
      exact isDone_setDone (stack'.lt_size hg) hg
    · exact ⟨fun _ => spent_of_isDone hdone, spent_of_isDone fun g hg => (hdone g hg).closeFrom _ h⟩

namespace Sample

/-- The function that gives a field of a record. -/
def field (name : String) (t : Ty) : Function :=
  .closure 0 [("row", .record [(name, t)])] t (.member (.var "row") name) Scope.root

/-- What the functions that give fields come to. -/
def fields : Function → Value → Except EvalFault Value
  | .closure _ _ _ (.member _ name) _, v => v.member name
  | f, _ => .error (.notAFunction f.name)

theorem exec_field (name : String) (t : Ty) (v : Value) (n : Machine) :
    (Eval.call 3 (field name t) [v]).exec n = some (fields (field name t) v, { n with rowPath := none }) := by
  have hlookup : Scope.lookup (Links.child Scope.root [("row", v)]) "row" = .ok v := rfl
  rw [field, Eval.call, if_neg (fun hne => hne rfl), exec_bind, exec_takeRowPath, Option.bind_some, next?_ok,
    exec_inFrame]
  simp only [Eval.eval, exec_bind, exec_scope, Option.bind_some, next?_ok, Machine.push_top, List.map_cons,
    List.map_nil, List.zip_cons_cons, List.zip_nil_left, exec_ofExcept, hlookup, Option.map_some, fields]
  rfl

def row (active : Value) (title : String) : Value := .record [("active", active), ("title", .str title)]

/-- Rows of which the fourth has a number where a boolean belongs. -/
def rows : List Value :=
  [row (.bool true) "a", row (.bool false) "b", row (.bool true) "c", row (.int 1) "d", row (.bool true) "e"]

/-- The titles of the active rows. -/
def titles : List Stage := [.map (field "title" .string), .filter (field "active" .bool)]

/-- The iterators over the rows, over the active ones among them, and over their titles. -/
def machine : Machine :=
  { Machine.start Scope.root with cells :=
      #[.ready (.elements rows), .ready (.filtered 0 (field "active" .bool)),
        .ready (.mapped 1 (field "title" .string))] }

end Sample

open Stacked.Sample in
theorem pulled_titles : machine.Stacked 0 rows titles [2, 1, 0] ∧
    ∃ k m', (Eval.pulls (Eval.next k 2) 5).exec machine = some (.ok [.ok (some (.str "a")), .ok (some (.str "c")),
        .error (.typeMismatch .bool .int), .ok none, .ok none], m') ∧ m'.Spent [2, 1, 0] := by
  have stack : machine.Stacked 0 rows titles [2, 1, 0] := .stage rfl (.stage rfl (.elements rfl))
  have htells : machine.Tells titles fields titles rows :=
    ⟨⟨trivial, fun v _ n _ => ⟨3, _, exec_field "active" .bool v n⟩⟩,
      fun v _ n _ => ⟨3, _, exec_field "title" .string v n⟩⟩
  obtain ⟨-, hlist, hspent⟩ := stack.pulled
  have hanswers : answers (Stage.composed fields titles rows).1 (Stage.composed fields titles rows).2 5 =
      [.ok (some (.str "a")), .ok (some (.str "c")), .error (.typeMismatch .bool .int), .ok none, .ok none] := rfl
  obtain ⟨k, m', hrun⟩ := hlist fields htells 5
  rw [hanswers] at hrun
  exact ⟨stack, k, m', hrun, (hspent 5 _ k m' hrun).1 ⟨.ok none, by simp, trivial⟩⟩

end Stacked

end Machine

end LiveQuery
