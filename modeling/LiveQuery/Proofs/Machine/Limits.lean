import LiveQuery.Proofs.Machine.Aloof
import LiveQuery.Proofs.Machine.Fuel

/-! # The evaluator without fuel

An evaluation that takes fuel tends to one that takes none, which ends as it does with enough of it (`Eval.Tends`).
That passes through the combinators, so the evaluations that the evaluator tends to (`Eval.Ample`) satisfy its
equations with the fuel left out.
-/
namespace LiveQuery

namespace Eval

variable {α β : Type}

/-- The evaluation `y` ends as `x` does with enough fuel, and does not end where no amount is enough. -/
structure Tends (x : Nat → Eval α) (y : Eval α) : Prop where
  rises : Rises x
  exec_iff : ∀ {m p}, y.exec m = some p ↔ ∃ k, (x k).exec m = some p

namespace Tends

variable {x : Nat → Eval α} {y z : Eval α}

theorem unique (h : Tends x y) (h' : Tends x z) : y = z :=
  funext fun _ => Option.ext fun _ => h.exec_iff.trans h'.exec_iff.symm

theorem map_exec_iff (h : Tends x y) {γ : Type} {f : Except EvalFault α × Machine → γ} {m : Machine} {p : γ} :
    (y.exec m).map f = some p ↔ ∃ k, ((x k).exec m).map f = some p := by
  simp only [Option.map_eq_some_iff, h.exec_iff]
  exact ⟨fun ⟨q, ⟨k, hq⟩, hp⟩ => ⟨k, q, hq, hp⟩, fun ⟨k, q, hq, hp⟩ => ⟨q, ⟨k, hq⟩, hp⟩⟩

theorem exists_exec (h : Tends x y) {m : Machine} {r : Except EvalFault α} :
    (∃ k n, (x k).exec m = some (r, n)) ↔ ∃ n, y.exec m = some (r, n) := by
  simp only [h.exec_iff]
  exact exists_comm

theorem const (y : Eval α) : Tends (fun _ => y) y :=
  ⟨fun _ => .refl y, fun h => ⟨0, h⟩, fun ⟨_, h⟩ => h⟩

/-- The first unit of fuel does not count. -/
theorem succ (h : Tends x y) : Tends (fun k => x (k + 1)) y :=
  ⟨fun k => h.rises (k + 1), fun hy => (h.exec_iff.mp hy).imp fun k hk => h.rises k _ _ hk,
    fun ⟨k, hk⟩ => h.exec_iff.mpr ⟨k + 1, hk⟩⟩

theorem bind (h : Tends x y) {f : Nat → α → Eval β} {g : α → Eval β} (hf : ∀ a, Tends (fun k => f k a) (g a)) :
    Tends (fun k => x k >>= f k) (y >>= g) where
  rises k := .bind (h.rises k) fun a => (hf a).rises k
  exec_iff {m p} := by
    simp only [exec_bind, Option.bind_eq_some_iff, h.exec_iff]
    constructor
    · rintro ⟨⟨r, n⟩, ⟨k, hk⟩, hp⟩
      cases r with
      | ok a =>
        -- the larger of the two amounts is enough for both parts
        obtain ⟨k', hk'⟩ := (hf a).exec_iff.mp hp
        exact ⟨max k k', _, h.rises.mono (Nat.le_max_left k k') m _ hk,
          (hf a).rises.mono (Nat.le_max_right k k') n p hk'⟩
      | error e => exact ⟨k, _, hk, hp⟩
    · rintro ⟨k, ⟨r, n⟩, hk, hp⟩
      refine ⟨(r, n), ⟨k, hk⟩, ?_⟩
      cases r with
      | ok a => exact (hf a).exec_iff.mpr ⟨k, hp⟩
      | error e => exact hp

theorem outcome (h : Tends x y) : Tends (fun k => Eval.outcome (x k)) (Eval.outcome y) where
  rises k := .outcome (h.rises k)
  exec_iff := by simp only [exec_outcome, h.map_exec_iff, implies_true]

theorem aloof (h : Tends x y) (hx : ∀ k, Aloof (x k)) : Aloof y where
  setCell m i c hi := by
    refine Option.ext fun p => h.exec_iff.trans ?_
    simp only [(hx _).setCell m i c hi, h.map_exec_iff]
  grows m r n hr := by
    obtain ⟨k, hk⟩ := h.exec_iff.mp hr
    exact (hx k).grows m r n hk

end Tends

open Classical in
/-- The evaluation that `x` tends to. -/
noncomputable def limit (x : Nat → Eval α) : Eval α :=
  ExceptT.mk fun m => if h : ∃ p k, (x k).exec m = some p then some h.choose else none

theorem Rises.tends {x : Nat → Eval α} (hx : Rises x) : Tends x (limit x) where
  rises := hx
  exec_iff {m p} := by
    have hdef : (limit x).exec m = open Classical in
        if h : ∃ p k, (x k).exec m = some p then some h.choose else none := rfl
    rw [hdef]
    constructor
    · intro h
      split at h
      next hends =>
        cases h
        exact hends.choose_spec
      next => cases h
    · rintro ⟨k, hk⟩
      have hends : ∃ p k, (x k).exec m = some p := ⟨p, k, hk⟩
      rw [dif_pos hends]
      obtain ⟨k', hk'⟩ := hends.choose_spec
      have hmax := hx.mono (Nat.le_max_left k k') m _ hk
      rw [hx.mono (Nat.le_max_right k k') m _ hk'] at hmax
      exact hmax

/-! ## What the evaluator tends to -/

namespace Ample

/-- The value of a function on an argument. -/
noncomputable def call (f : Function) (v : Value) : Eval Value := limit fun k => Eval.call k f [v]

/-- The next element of an iterator. -/
noncomputable def next (h : Nat) : Eval (Option Value) := limit fun k => Eval.next k h

/-- The next element of a source, and the source after it. -/
noncomputable def advance (source : Source) : Eval (Option (Value × Source)) := limit fun k => Eval.advance k source

/-- The next element of an iterator that passes a test. -/
noncomputable def seek (h : Nat) (test : Function) : Eval (Option Value) := limit fun k => Eval.seek k h test

theorem call_tends (f : Function) (v : Value) : Tends (fun k => Eval.call k f [v]) (call f v) :=
  Rises.tends fun k => (grows k).call f [v]

theorem next_tends (h : Nat) : Tends (fun k => Eval.next k h) (next h) :=
  Rises.tends fun k => (grows k).next h

theorem advance_tends (source : Source) : Tends (fun k => Eval.advance k source) (advance source) :=
  Rises.tends fun k => (grows k).advance source

theorem seek_tends (h : Nat) (test : Function) : Tends (fun k => Eval.seek k h test) (seek h test) :=
  Rises.tends fun k => (grows k).seek h test

theorem call_aloof (f : Function) (v : Value) : Aloof (call f v) :=
  (call_tends f v).aloof fun k => (allAloof k).call f [v]

theorem advance_elements (vs : List Value) : advance (.elements vs) = match vs with
    | [] => pure none
    | v :: rest => pure (some (v, .elements rest)) := by
  refine (advance_tends _).succ.unique ?_
  cases vs <;> exact .const _

theorem advance_mapped (inner : Nat) (f : Function) : advance (.mapped inner f) = do
    match ← next inner with
    | some v => return some (← call f v, .mapped inner f)
    | none => return none := by
  refine (advance_tends _).succ.unique ((next_tends inner).bind fun o => ?_)
  cases o with
  | none => exact .const _
  | some v => exact (call_tends f v).bind fun _ => .const _

theorem advance_filtered (inner : Nat) (test : Function) : advance (.filtered inner test) = do
    match ← seek inner test with
    | some v => return some (v, .filtered inner test)
    | none => return none := by
  refine (advance_tends _).succ.unique ((seek_tends inner test).bind fun o => ?_)
  cases o <;> exact .const _

theorem seek_eq (h : Nat) (test : Function) : seek h test = (do
    match ← next h with
    | none => return none
    | some v =>
      match ← call test v with
      | .bool true => return some v
      | .bool false => seek h test
      | other => throw (.typeMismatch .bool other.ty)) := by
  refine (seek_tends h test).succ.unique ?_
  simp only [Eval.seek]
  refine (next_tends h).bind fun o => ?_
  cases o with
  | none => exact .const _
  | some v =>
    refine (call_tends test v).bind fun answer => ?_
    cases answer with
    | bool b =>
      cases b with
      | true => exact .const _
      | false => exact seek_tends h test
    | int | str | record | array | iterator | function | index => exact .const _

end Ample

end Eval

/-! ## Reading an iterator -/

namespace Machine

/-- A source that gives no more: what it reads from is closed. -/
def closeInner (m : Machine) (source : Source) : Machine :=
  match source.inner? with
  | some inner => m.close inner
  | none => m

/-- What reading an iterator comes to when its source has been read. -/
def settle (h : Nat) (source : Source) :
    Except EvalFault (Option (Value × Source)) × Machine → Except EvalFault (Option Value) × Machine
  | (.ok (some (v, source')), m) => (.ok (some v), m.setCell h (.ready source'))
  | (.ok none, m) => (.ok none, (m.closeInner source).setCell h .done)
  | (.error e, m) => (.error e, (m.closeInner source).setCell h .done)

end Machine

namespace Eval

theorem exec_readCell {advance : Source → Eval (Option (Value × Source))} {h : Nat} {source : Source} {m : Machine}
    (hc : m.cell h = .ready source) :
    (readCell advance h).exec m = ((advance source).exec (m.setCell h .busy)).map (Machine.settle h source) := by
  unfold readCell
  rw [exec_bind, exec_get, Option.bind_some, next?_ok, hc]
  dsimp only
  rw [exec_bind, exec_modify, Option.bind_some, next?_ok, exec_bind, exec_outcome]
  cases (advance source).exec (m.setCell h .busy) with
  | none => rfl
  | some p =>
    obtain ⟨r, n⟩ := p
    match r with
    | .ok (some (v, source')) => rfl
    | .ok none => rfl
    | .error e => rfl

namespace Ample

theorem exec_next {h : Nat} {source : Source} {m : Machine} (hc : m.cell h = .ready source) :
    (next h).exec m = ((advance source).exec (m.setCell h .busy)).map (Machine.settle h source) := by
  refine Option.ext fun p => (next_tends h).succ.exec_iff.trans ?_
  simp only [Eval.next, exec_readCell hc, (advance_tends source).map_exec_iff]

end Ample

end Eval

end LiveQuery
