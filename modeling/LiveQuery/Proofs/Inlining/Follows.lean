import LiveQuery.Proofs.Inlining.Pairing
import LiveQuery.Proofs.Machine.Run

/-! # Evaluations side by side

`Pairing.Machines` says that two machines belong together: their frames are the given ones, their iterators are
paired cell by cell, their call tables agree on the calls that were there at the start, and what each noted about
its own calls is what the names of these calls mean in the scope of the start. Everything else is equal.

`Pairing.Follows` compares an evaluation with one that takes fuel: wherever the first ends, the second ends with
enough fuel, with an outcome and a machine that belong to those of the first. There is a rule for each way of
putting evaluations together.
-/
namespace LiveQuery

/-- What the table holds for the listed cells, those from `size` on, is what the names of their calls mean in
`scope`; it holds nothing for a call whose name is hidden. -/
def CallTable.Notes (scope : Scope) (size : Nat) (cells : List (String × Bool)) (calls : CallTable) : Prop :=
  ∀ i name hidden b, cells[i]? = some (name, hidden) → calls[size + i]?.join = some b →
    hidden = false ∧ scope.lookup name = .ok (.function (.builtin b))

namespace Pairing

/-- Call tables that belong together. -/
structure Tables (p : Pairing) (calls calls' : CallTable) : Prop where
  old : ∀ n < p.size, calls[n]? = calls'[n]?
  left : calls.Notes p.scope p.size p.left
  right : calls'.Notes p.scope p.size p.right

inductive Sources (p : Pairing) : Source → Source → Prop
  | elements {us vs : List Value} (each : p.Elements us vs) : Sources p (.elements us) (.elements vs)
  | mapped (inner : Nat) {f g : Function} (h : p.Functions f g) : Sources p (.mapped inner f) (.mapped inner g)
  | filtered (inner : Nat) {f g : Function} (h : p.Functions f g) :
      Sources p (.filtered inner f) (.filtered inner g)
  | rows (cursor : Option Cursor) : Sources p (.rows cursor) (.rows cursor)
  | watched (inner : Nat) (point : Point) (base : Path) (subscriber : Subscriber) :
      Sources p (.watched inner point base subscriber) (.watched inner point base subscriber)

inductive Cells (p : Pairing) : Cell → Cell → Prop
  | ready {s t : Source} (h : p.Sources s t) : Cells p (.ready s) (.ready t)
  | busy : Cells p .busy .busy
  | done : Cells p .done .done

/-- Machines that belong together, with the frames `fs` and `fs'`. -/
structure Machines (p : Pairing) (fs fs' : List Frame) (m m' : Machine) : Prop where
  frames : m.frames = fs
  frames' : m'.frames = fs'
  cells : List.Forall₂ p.Cells m.cells.toList m'.cells.toList
  calls : p.Tables m.calls m'.calls
  stamps : m.stamps = m'.stamps
  rowPath : m.rowPath = m'.rowPath
  live : m.live = m'.live
  sent : m.sent = m'.sent

variable {p : Pairing}

/-! ## The sides exchanged -/

theorem Tables.symm {calls calls' : CallTable} (h : p.Tables calls calls') : p.swap.Tables calls' calls :=
  ⟨fun n hn => (h.old n hn).symm, h.right, h.left⟩

theorem Sources.symm {s t : Source} : p.Sources s t → p.swap.Sources t s
  | .elements each => .elements each.symm
  | .mapped inner h => .mapped inner h.symm
  | .filtered inner h => .filtered inner h.symm
  | .rows cursor => .rows cursor
  | .watched inner point base subscriber => .watched inner point base subscriber

theorem Cells.symm {c d : Cell} : p.Cells c d → p.swap.Cells d c
  | .ready h => .ready h.symm
  | .busy => .busy
  | .done => .done

theorem Machines.symm {fs fs' : List Frame} {m m' : Machine} (h : p.Machines fs fs' m m') :
    p.swap.Machines fs' fs m' m where
  frames := h.frames'
  frames' := h.frames
  cells := (h.cells.imp fun _ _ => Cells.symm).flip
  calls := h.calls.symm
  stamps := h.stamps.symm
  rowPath := h.rowPath.symm
  live := h.live.symm
  sent := h.sent.symm

/-! ## Steps of the machine -/

theorem Sources.inner? {s t : Source} : p.Sources s t → s.inner? = t.inner?
  | .elements _ => rfl
  | .mapped .. => rfl
  | .filtered .. => rfl
  | .rows _ => rfl
  | .watched .. => rfl

namespace Machines

variable {fs fs' : List Frame} {m m' : Machine}

theorem top {f f' : Frame} (h : p.Machines (f :: fs) (f' :: fs') m m') : m.top = f ∧ m'.top = f' :=
  ⟨(List.cons.inj h.frames).1, (List.cons.inj h.frames').1⟩

theorem push (h : p.Machines fs fs' m m') (f f' : Frame) :
    p.Machines (f :: fs) (f' :: fs') (m.push f) (m'.push f') :=
  { h with
    frames := congrArg (f :: ·) h.frames
    frames' := congrArg (f' :: ·) h.frames' }

theorem pop {f f' g g' : Frame} (h : p.Machines (f :: g :: fs) (f' :: g' :: fs') m m') :
    p.Machines (g :: fs) (g' :: fs') m.pop m'.pop := by
  obtain ⟨top, callers, cells, calls, stamps, rowPath, live, sent⟩ := m
  obtain ⟨top', callers', cells', calls', stamps', rowPath', live', sent'⟩ := m'
  obtain ⟨rfl, rfl⟩ := List.cons.inj h.frames
  obtain ⟨rfl, rfl⟩ := List.cons.inj h.frames'
  exact ⟨rfl, rfl, h.cells, h.calls, h.stamps, h.rowPath, h.live, h.sent⟩

theorem size (h : p.Machines fs fs' m m') : m.cells.size = m'.cells.size := h.cells.length_eq

theorem cell (h : p.Machines fs fs' m m') (n : Nat) : p.Cells (m.cell n) (m'.cell n) := by
  have hcells := h.cells
  simp only [Machine.cell, ← Array.getElem?_toList]
  generalize m.cells.toList = cs, m'.cells.toList = cs' at hcells ⊢
  induction hcells generalizing n with
  | nil => exact .done
  | cons hc _ ih =>
    cases n with
    | zero => exact hc
    | succ n => exact ih n

theorem setCell (h : p.Machines fs fs' m m') (n : Nat) {c c' : Cell} (hc : p.Cells c c') :
    p.Machines fs fs' (m.setCell n c) (m'.setCell n c') := by
  refine { h with cells := ?_ }
  have hcells := h.cells
  simp only [Machine.setCell, Array.toList_setIfInBounds]
  generalize m.cells.toList = cs, m'.cells.toList = cs' at hcells ⊢
  induction hcells generalizing n with
  | nil => exact .nil
  | cons hd tail ih =>
    cases n with
    | zero => exact .cons hc tail
    | succ n => exact .cons hd (ih n)

theorem closeFrom (fuel : Nat) (n : Nat) (h : p.Machines fs fs' m m') :
    p.Machines fs fs' (Machine.closeFrom fuel n m) (Machine.closeFrom fuel n m') := by
  induction fuel generalizing n m m' with
  | zero => exact h
  | succ fuel ih =>
    simp only [Machine.closeFrom]
    have hcell := h.cell n
    generalize m.cell n = c, m'.cell n = c' at hcell ⊢
    cases hcell with
    | ready hs =>
      have hdone := h.setCell n .done
      dsimp only
      rw [hs.inner?]
      split
      next inner _ => exact ih inner hdone
      next => exact hdone
    | busy | done => exact h

theorem close (h : p.Machines fs fs' m m') (n : Nat) : p.Machines fs fs' (m.close n) (m'.close n) := by
  unfold Machine.close
  rw [h.size]
  exact h.closeFrom _ n

theorem allocate (h : p.Machines fs fs' m m') {s t : Source} (hs : p.Sources s t) :
    p.Machines fs fs' (m.allocate s).2 (m'.allocate t).2 := by
  refine { h with cells := ?_ }
  simp only [Machine.allocate, Array.toList_push]
  exact List.rel_append h.cells (.cons (.ready hs) .nil)

end Machines

/-! ## Following -/

/-- Wherever the evaluation `x` ends, `y` ends with enough fuel, and what they end with belongs together. -/
def Follows {α β : Type} (p : Pairing) (fs fs' : List Frame) (R : α → β → Prop) (x : Eval α)
    (y : Nat → Eval β) : Prop :=
  ∀ m m', p.Machines fs fs' m m' → ∀ r n, x.exec m = some (r, n) →
    ∃ r' n', (∃ fuel, ∀ k, fuel ≤ k → (y k).exec m' = some (r', n')) ∧ p.Machines fs fs' n n' ∧ Outcomes R r r'

namespace Follows

variable {α α' β β' : Type} {fs fs' : List Frame} {R : α → β → Prop} {Q : α' → β' → Prop}

theorem of_exec {x : Eval α} {y : Nat → Eval β}
    (h : ∀ m m', p.Machines fs fs' m m' → ∃ r r' n n', x.exec m = some (r, n) ∧
      (∀ k, (y k).exec m' = some (r', n')) ∧ p.Machines fs fs' n n' ∧ Outcomes R r r') :
    p.Follows fs fs' R x y := by
  intro m m' hm r n hr
  obtain ⟨r₁, r', n₁, n', hx, hy, hn, ho⟩ := h m m' hm
  rw [hx] at hr
  cases hr
  exact ⟨r', n', ⟨0, fun k _ => hy k⟩, hn, ho⟩

theorem ofExcept {r : Except EvalFault α} {r' : Except EvalFault β} (h : Outcomes R r r') :
    p.Follows fs fs' R (Eval.ofExcept r) fun _ => Eval.ofExcept r' :=
  of_exec fun m m' hm => ⟨r, r', m, m', Eval.exec_ofExcept r m, fun _ => Eval.exec_ofExcept r' m', hm, h⟩

theorem pure {a : α} {b : β} (h : R a b) : p.Follows fs fs' R (Pure.pure a) fun _ => Pure.pure b :=
  ofExcept (.ok h)

theorem throw (e : EvalFault) : p.Follows fs fs' R (MonadExcept.throw e) fun _ => MonadExcept.throw e :=
  ofExcept (.error e)

theorem outOfFuel {y : Nat → Eval β} : p.Follows fs fs' R Eval.outOfFuel y := by
  intro m m' _ r n hr
  cases hr

theorem succ {x : Eval α} {y z : Nat → Eval β} (h : p.Follows fs fs' R x y) (hz : ∀ k, z (k + 1) = y k) :
    p.Follows fs fs' R x z := by
  intro m m' hm r n hr
  obtain ⟨r', n', ⟨fuel, hy⟩, hn, ho⟩ := h m m' hm r n hr
  refine ⟨r', n', ⟨fuel + 1, fun k hk => ?_⟩, hn, ho⟩
  obtain ⟨k, rfl⟩ : ∃ j, k = j + 1 := ⟨k - 1, by omega⟩
  rw [hz]
  exact hy k (by omega)

theorem shift {x : Eval α} {y : Nat → Eval β} (h : p.Follows fs fs' R x fun k => y (k + 1)) :
    p.Follows fs fs' R x y :=
  h.succ fun _ => rfl

theorem bind {x : Eval α} {y : Nat → Eval β} {f : α → Eval α'} {g : Nat → β → Eval β'}
    (h : p.Follows fs fs' R x y) (hf : ∀ a b, R a b → p.Follows fs fs' Q (f a) fun k => g k b) :
    p.Follows fs fs' Q (x >>= f) fun k => y k >>= g k := by
  intro m m' hm r n hr
  rw [Eval.exec_bind] at hr
  obtain ⟨⟨r₁, n₁⟩, hx, hr⟩ := Option.bind_eq_some_iff.mp hr
  obtain ⟨r₂, n₂, ⟨fuel, hy⟩, hn, ho⟩ := h m m' hm r₁ n₁ hx
  cases ho with
  | error e =>
    cases hr
    refine ⟨.error e, n₂, ⟨fuel, fun k hk => ?_⟩, hn, .error e⟩
    rw [Eval.exec_bind, hy k hk]
    rfl
  | ok hab =>
    obtain ⟨r', n', ⟨fuel', hg⟩, hn', ho'⟩ := hf _ _ hab n₁ n₂ hn r n hr
    refine ⟨r', n', ⟨max fuel fuel', fun k hk => ?_⟩, hn', ho'⟩
    rw [Eval.exec_bind, hy k (by omega)]
    exact hg k (by omega)

theorem read {x : Eval α} {y : Eval β} {u : Machine → α} {v : Machine → β} {f : α → Eval α'}
    {g : Nat → β → Eval β'} (hx : ∀ m, x.exec m = some (.ok (u m), m))
    (hy : ∀ m, y.exec m = some (.ok (v m), m))
    (h : ∀ m m', p.Machines fs fs' m m' → p.Follows fs fs' Q (f (u m)) fun k => g k (v m')) :
    p.Follows fs fs' Q (x >>= f) fun k => y >>= g k := by
  intro m m' hm r n hr
  rw [Eval.exec_bind, hx] at hr
  obtain ⟨r', n', ⟨fuel, hg⟩, hn, ho⟩ := h m m' hm m m' hm r n hr
  refine ⟨r', n', ⟨fuel, fun k hk => ?_⟩, hn, ho⟩
  rw [Eval.exec_bind, hy]
  exact hg k hk

theorem update {u v : Machine → Machine} (h : ∀ m m', p.Machines fs fs' m m' → p.Machines fs fs' (u m) (v m')) :
    p.Follows fs fs' (fun _ _ => True) (modify u : Eval Unit) fun _ => (modify v : Eval Unit) :=
  of_exec fun m m' hm =>
    ⟨.ok (), .ok (), u m, v m', Eval.exec_modify u m, fun _ => Eval.exec_modify v m', h m m' hm, .ok trivial⟩

theorem allocate {s t : Source} (h : p.Sources s t) :
    p.Follows fs fs' Eq (Eval.allocate s) fun _ => Eval.allocate t :=
  of_exec fun m m' hm => ⟨.ok m.cells.size, .ok m'.cells.size, _, _, Eval.exec_allocate s m,
    fun _ => Eval.exec_allocate t m', hm.allocate h, .ok hm.size⟩

theorem send (s : Subscription) :
    p.Follows fs fs' (fun _ _ => True) (Eval.send s) fun _ => Eval.send s :=
  update fun _ _ hm => { hm with sent := congrArg (Array.push · s) hm.sent }

theorem freshStamp : p.Follows fs fs' Eq Eval.freshStamp fun _ => Eval.freshStamp :=
  of_exec fun m m' hm => ⟨.ok m.stamps, .ok m'.stamps, _, _, Eval.exec_freshStamp m,
    fun _ => Eval.exec_freshStamp m', { hm with stamps := congrArg (· + 1) hm.stamps }, .ok hm.stamps⟩

theorem takeRowPath {f f' : Frame} (hpath : f.path = f'.path) :
    p.Follows (f :: fs) (f' :: fs') Eq Eval.takeRowPath fun _ => Eval.takeRowPath :=
  of_exec fun m m' hm => by
    refine ⟨_, _, _, _, Eval.exec_takeRowPath m, fun _ => Eval.exec_takeRowPath m', ?_, .ok ?_⟩
    · exact { hm with rowPath := rfl }
    · rw [hm.rowPath, hm.top.1, hm.top.2, hpath]

theorem outcome {x : Eval α} {y : Nat → Eval β} (h : p.Follows fs fs' R x y) :
    p.Follows fs fs' (Outcomes R) (Eval.outcome x) fun k => Eval.outcome (y k) := by
  intro m m' hm r n hr
  rw [Eval.exec_outcome] at hr
  obtain ⟨⟨r₁, n₁⟩, hx, hr⟩ := Option.map_eq_some_iff.mp hr
  cases hr
  obtain ⟨r', n', ⟨fuel, hy⟩, hn, ho⟩ := h m m' hm r₁ n₁ hx
  refine ⟨.ok r', n', ⟨fuel, fun k hk => ?_⟩, hn, .ok ho⟩
  rw [Eval.exec_outcome, hy k hk]
  rfl

theorem inFrame {x : Eval α} {y : Nat → Eval β} {f f' g g' : Frame}
    (h : p.Follows (g :: f :: fs) (g' :: f' :: fs') R x y) :
    p.Follows (f :: fs) (f' :: fs') R (Eval.inFrame g x) fun k => Eval.inFrame g' (y k) := by
  intro m m' hm r n hr
  rw [Eval.exec_inFrame] at hr
  obtain ⟨⟨r₁, n₁⟩, hx, hr⟩ := Option.map_eq_some_iff.mp hr
  cases hr
  obtain ⟨r', n', ⟨fuel, hy⟩, hn, ho⟩ := h _ _ (hm.push g g') r₁ n₁ hx
  refine ⟨r', n'.pop, ⟨fuel, fun k hk => ?_⟩, hn.pop, ho⟩
  rw [Eval.exec_inFrame, hy k hk]
  rfl

end Follows

end Pairing

end LiveQuery
