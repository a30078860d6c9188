import LiveQuery.Proofs.Machine.Invariants

/-! # Frames are taken off

Each call and each inner expression is evaluated under a frame of its own. Whatever comes of it, a value or a fault
from however deep below, the machine has the frames again that it had before (`Eval.balanced`).
-/
namespace LiveQuery

/-- The frames that the machine should have are those that it has. -/
theorem Machine.frames_invariant : Machine.Invariant (fun _ => True) fun fs m => m.frames = fs where
  push f h := congrArg (f :: ·) h
  pop h := Machine.frames_pop h (List.cons_ne_nil _ _)
  allocate h _ := h
  setCell h _ := h
  send h _ := h
  note _ _ _ h := h
  cell {_ _ _ source} _ _ := by cases source <;> trivial
  live _ _ := trivial

namespace Eval

variable {α : Type}

/-- The machine has the frames after the evaluation that it had before it: their scopes, callees and paths. -/
def Balanced (x : Eval α) : Prop := ∀ m r n, x.exec m = some (r, n) → n.frames = m.frames

theorem Balanced.of_keeps {x : Eval α} (h : ∀ f fs, Keeps (fun m => m.frames = f :: fs) x fun _ => True) : Balanced x :=
  fun m r n hr => (h m.top m.callers m r n rfl hr).1

/-- Expressions, in the scope that is there and in any other, calls, readings of iterators, one element or all, and
renderings of values give the frames back. -/
theorem balanced (fuel : Nat) :
    (∀ e, Balanced (eval fuel e)) ∧ (∀ s e, Balanced (within s (eval fuel e))) ∧
      (∀ f args, Balanced (call fuel f args)) ∧ (∀ h, Balanced (next fuel h)) ∧ (∀ h, Balanced (collect fuel h)) ∧
      ∀ v, Balanced (toJson fuel v) := by
  have hall := Machine.frames_invariant.all fuel
  exact ⟨fun e => .of_keeps fun _ _ => hall.eval e,
    fun s e => .of_keeps fun _ _ => Machine.frames_invariant.within s fun _ => hall.eval e,
    fun f args => .of_keeps fun _ _ => hall.call f args, fun h => .of_keeps fun _ _ => hall.next h,
    fun h => .of_keeps fun _ _ => Machine.frames_invariant.collect fuel h, fun v => .of_keeps fun _ _ => hall.toJson v⟩

/-- A machine in a call made for a row, with an iterator that adds one to some numbers, the second of which is the
largest one. -/
def midway : Machine where
  top := { scope := [], callee := some (.builtin .map), path := [.selection "rows"] }
  callers := [{ scope := [] }]
  cells := #[.ready (.elements [.int 1, .int Int64.maxValue]),
    .ready (.mapped 0 (.closure 0 [("n", .int)] .int (.call "plus" [.var "n", .int 1] .unlinked) []))]

/-- The second number fails in a call in a call, in the middle of rendering, and the call for the row goes on where it
was. -/
theorem balanced_midway : ∃ n, (toJson 9 (.iterator 1 .int)).exec midway = some (.error (.overflow "plus"), n) ∧
    n.frames = midway.frames := by
  have hfault : ((toJson 9 (.iterator 1 .int)).exec midway).map Prod.fst = some (.error (.overflow "plus")) := by
    decide +kernel
  obtain ⟨⟨r, n⟩, hn, hr⟩ := Option.map_eq_some_iff.mp hfault
  cases hr
  obtain ⟨-, -, -, -, -, hrender⟩ := balanced 9
  exact ⟨n, hn, hrender _ midway _ n hn⟩

end Eval

end LiveQuery
