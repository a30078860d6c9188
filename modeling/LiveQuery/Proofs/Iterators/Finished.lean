import LiveQuery.Proofs.Machine.Aloof
import LiveQuery.Proofs.Machine.Ends
import LiveQuery.Proofs.Machine.Keeps

/-! # Iterators that are done

An iterator that is done stays so, whatever is evaluated, read, closed or made afterwards (`Machine.Later`), and
reading it gives nothing and changes nothing (`Machine.IsDone.next`).
-/
namespace LiveQuery

namespace Machine

variable {m n : Machine} {g h : Nat}

/-- The machine has the iterator, and it is done. -/
def IsDone (h : Nat) (m : Machine) : Prop := m.cells[h]? = some .done

theorem isDone_iff : m.IsDone h ↔ h < m.cells.size ∧ m.cell h = .done := by
  unfold IsDone cell
  constructor
  · intro hd
    exact ⟨(Array.getElem?_eq_some_iff.mp hd).1, by rw [hd]; rfl⟩
  · rintro ⟨hh, hd⟩
    rw [Array.getElem?_eq_getElem hh] at hd ⊢
    exact congrArg some hd

namespace IsDone

theorem setCell (hd : m.IsDone h) (hg : g ≠ h) (c : Cell) : (m.setCell g c).IsDone h :=
  (Array.getElem?_setIfInBounds_ne hg).trans hd

theorem setCell_done (hd : m.IsDone h) (g : Nat) : (m.setCell g .done).IsDone h := by
  by_cases hg : g = h
  · subst hg
    have hlt := (isDone_iff.mp hd).1
    exact (Array.getElem?_setIfInBounds_self_of_lt hlt)
  · exact hd.setCell hg _

theorem closeFrom (hd : m.IsDone h) (fuel g : Nat) : (Machine.closeFrom fuel g m).IsDone h := by
  induction fuel generalizing g m with
  | zero => exact hd
  | succ fuel ih =>
    have hdone := hd.setCell_done g
    simp only [Machine.closeFrom]
    split
    next source _ =>
      split
      next inner _ => exact ih hdone inner
      next => exact hdone
    next => exact hd

end IsDone

end Machine

namespace Eval

variable {α : Type} {h : Nat}

/-- The evaluation leaves the iterator done if it is. -/
abbrev KeepsDone (h : Nat) (x : Eval α) : Prop := Keeps (Machine.IsDone h) x fun _ => True

namespace KeepsDone

theorem of_aloof {x : Eval α} (hx : Aloof x) : KeepsDone h x := by
  intro m r n hm hr
  obtain ⟨hlt, hd⟩ := Machine.isDone_iff.mp hm
  have hn : n.IsDone h :=
    Machine.isDone_iff.mpr ⟨Nat.lt_of_lt_of_le hlt (hx.grows m r n hr), (hx.cell hr hlt).trans hd⟩
  exact ⟨hn, fun _ _ => trivial⟩

theorem mapM {β : Type} {f : α → Eval β} (hf : ∀ a, KeepsDone h (f a)) (as : List α) : KeepsDone h (as.mapM f) :=
  Keeps.mono (Keeps.mapM fun a _ => hf a) fun _ _ => trivial

theorem readCell {advance : Source → Eval (Option (Value × Source))}
    (hadvance : ∀ source, KeepsDone h (advance source)) (g : Nat) : KeepsDone h (Eval.readCell advance g) := by
  refine Keeps.read (g := id) exec_get fun m hm => ?_
  dsimp only [id]
  split
  next => exact Keeps.pure trivial
  next => exact Keeps.throw _
  next source hcell =>
    -- the iterator that is read is another one, since it is not done
    have hne : g ≠ h := by
      rintro rfl
      rw [(Machine.isDone_iff.mp hm).2] at hcell
      cases hcell
    refine (Keeps.update fun m hm => hm.setCell hne _).andThen fun _ =>
      (Keeps.outcome (hadvance source)).bind fun r _ => ?_
    have hfinish : KeepsDone h (Eval.readCell.finish g source) := by
      refine Keeps.update fun m hm => ?_
      split
      next => exact (hm.closeFrom _ _).setCell_done g
      next => exact hm.setCell_done g
    match r with
    | .ok (some p) => exact (Keeps.update fun m hm => hm.setCell hne _).andThen fun _ => Keeps.pure trivial
    | .ok none => exact hfinish.andThen fun _ => Keeps.pure trivial
    | .error e => exact hfinish.andThen fun _ => Keeps.throw e

end KeepsDone

/-- With some fuel, whatever is read or rendered leaves the iterator done if it is. -/
structure AllKeepDone (h fuel : Nat) : Prop where
  next (g : Nat) : KeepsDone h (next fuel g)
  advance (source : Source) : KeepsDone h (advance fuel source)
  seek (g : Nat) (test : Function) : KeepsDone h (seek fuel g test)
  toJson (v : Value) : KeepsDone h (toJson fuel v)
  drain (g : Nat) : KeepsDone h (drain fuel g)

theorem call_keepsDone (fuel : Nat) (f : Function) (args : List Value) : KeepsDone h (call fuel f args) :=
  .of_aloof ((allAloof fuel).call f args)

namespace AllKeepDone

variable {fuel : Nat}

theorem advance_succ (ih : AllKeepDone h fuel) (source : Source) : KeepsDone h (Eval.advance (fuel + 1) source) := by
  cases source with
  | elements rest => cases rest <;> exact .pure trivial
  | rows cursor =>
    cases cursor with
    | none => exact .pure trivial
    | some cursor =>
      simp only [Eval.advance]
      split
      next => exact (KeepsDone.of_aloof (.ofEncoding _)).andThen fun _ => .pure trivial
      next => exact .pure trivial
  | mapped inner f =>
    refine (ih.next inner).andThen fun o => ?_
    cases o with
    | none => exact .pure trivial
    | some v => exact (call_keepsDone fuel f [v]).andThen fun _ => .pure trivial
  | filtered inner test =>
    refine (ih.seek inner test).andThen fun o => ?_
    cases o <;> exact .pure trivial
  | watched inner point base subscriber =>
    refine (ih.next inner).andThen fun o => ?_
    cases o with
    | none => exact .pure trivial
    | some row =>
      exact (KeepsDone.of_aloof (.ofExcept _)).andThen fun key => (ih.toJson key).andThen fun j =>
        (KeepsDone.of_aloof (.ofEncoding _)).andThen fun bytes => (KeepsDone.of_aloof (.send _)).andThen fun _ =>
          .andThen (.update fun m hm => hm) fun _ => .pure trivial

theorem seek_succ (ih : AllKeepDone h fuel) (g : Nat) (test : Function) :
    KeepsDone h (Eval.seek (fuel + 1) g test) := by
  rw [Eval.seek]
  refine (ih.next g).andThen fun o => ?_
  cases o with
  | none => exact .pure trivial
  | some v =>
    refine (call_keepsDone fuel test [v]).andThen fun answer => ?_
    split
    next => exact .pure trivial
    next => exact ih.seek g test
    next => exact .throw _

theorem toJson_succ (ih : AllKeepDone h fuel) (v : Value) : KeepsDone h (Eval.toJson (fuel + 1) v) := by
  cases v with
  | int | bool | str => exact .pure trivial
  | function | index => exact .throw _
  | record fields =>
    exact .andThen (KeepsDone.mapM (fun f => (ih.toJson f.2).andThen fun _ => .pure trivial) fields)
      fun _ => .pure trivial
  | array elements t => exact .andThen (KeepsDone.mapM ih.toJson elements) fun _ => .pure trivial
  | iterator g t => exact (ih.drain g).andThen fun _ => .pure trivial

theorem drain_succ (ih : AllKeepDone h fuel) (g : Nat) : KeepsDone h (Eval.drain (fuel + 1) g) := by
  rw [Eval.drain]
  refine (ih.next g).andThen fun o => ?_
  cases o with
  | none => exact .pure trivial
  | some v => exact (ih.toJson v).andThen fun _ => (ih.drain g).andThen fun _ => .pure trivial

end AllKeepDone

theorem allKeepDone (h fuel : Nat) : AllKeepDone h fuel := by
  induction fuel with
  | zero =>
    exact {
      next := fun g => by rw [Eval.next]; exact .outOfFuel
      advance := fun source => by rw [Eval.advance]; exact .outOfFuel
      seek := fun g test => by rw [Eval.seek]; exact .outOfFuel
      toJson := fun v => by rw [Eval.toJson]; exact .outOfFuel
      drain := fun g => by rw [Eval.drain]; exact .outOfFuel }
  | succ fuel ih =>
    exact {
      next := fun g => by
        rw [Eval.next]
        exact .readCell ih.advance g
      advance := ih.advance_succ
      seek := ih.seek_succ
      toJson := ih.toJson_succ
      drain := ih.drain_succ }

/-- An iterator that is done gives nothing, and stays as it is. -/
theorem exec_next_done {m : Machine} (hd : m.IsDone h) (fuel : Nat) :
    (next (fuel + 1) h).exec m = some (.ok none, m) := by
  rw [next, Eval.readCell, exec_bind, exec_get, Option.bind_some, next?_ok, (Machine.isDone_iff.mp hd).2]
  rfl

end Eval

/-! ## Later -/

namespace Machine

/-- What a machine may become: something is evaluated, called, read or rendered on it, whatever the outcome, an
iterator is closed, or it changes in a way that leaves its iterators alone, as when iterators or frames are added. -/
inductive Later (m : Machine) : Machine → Prop
  | refl : Later m m
  | eval {n n' : Machine} {fuel : Nat} {e : Expr} {r : Except EvalFault Value} (before : Later m n)
      (run : (Eval.eval fuel e).exec n = some (r, n')) : Later m n'
  | call {n n' : Machine} {fuel : Nat} {f : Function} {args : List Value} {r : Except EvalFault Value}
      (before : Later m n) (run : (Eval.call fuel f args).exec n = some (r, n')) : Later m n'
  | next {n n' : Machine} {fuel h : Nat} {r : Except EvalFault (Option Value)} (before : Later m n)
      (run : (Eval.next fuel h).exec n = some (r, n')) : Later m n'
  | toJson {n n' : Machine} {fuel : Nat} {v : Value} {r : Except EvalFault Json} (before : Later m n)
      (run : (Eval.toJson fuel v).exec n = some (r, n')) : Later m n'
  | close {n : Machine} (h : Nat) (before : Later m n) : Later m (n.close h)
  | beside {n n' : Machine} (before : Later m n) (cells : ∀ h < n.cells.size, n'.cells[h]? = n.cells[h]?) : Later m n'

theorem Later.isDone {m n : Machine} {h : Nat} (hl : m.Later n) (hd : m.IsDone h) : n.IsDone h := by
  induction hl with
  | refl => exact hd
  | eval _ run ih => exact (Eval.KeepsDone.of_aloof ((Eval.allAloof _).eval _) _ _ _ ih run).1
  | call _ run ih => exact (Eval.call_keepsDone _ _ _ _ _ _ ih run).1
  | next _ run ih => exact ((Eval.allKeepDone h _).next _ _ _ _ ih run).1
  | toJson _ run ih => exact ((Eval.allKeepDone h _).toJson _ _ _ _ ih run).1
  | close g _ ih => exact ih.closeFrom _ g
  | beside _ cells ih => exact (cells h (isDone_iff.mp ih).1).trans ih

/-- However the machine goes on, reading one of the iterators gives nothing and changes nothing. -/
def Spent (m : Machine) (hs : List Nat) : Prop :=
  ∀ h ∈ hs, ∀ n, m.Later n → ∀ fuel, (Eval.next (fuel + 1) h).exec n = some (.ok none, n)

theorem spent_of_isDone {m : Machine} {hs : List Nat} (hd : ∀ h ∈ hs, m.IsDone h) : m.Spent hs :=
  fun h hh _ hl fuel => Eval.exec_next_done (hl.isDone (hd h hh)) fuel

end Machine

end LiveQuery
