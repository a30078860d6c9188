import LiveQuery.Proofs.Machine.Run

/-! # Evaluations that end

`Ends f m Q` says that the evaluation `f`, which takes fuel, has a value on the machine `m` as soon as it has
enough of it, the same value with all more, and that the value and the machine after it satisfy `Q`. The rules
follow the combinators of evaluation, so that fuel is not mentioned in later proofs.
-/
namespace LiveQuery

/-- With enough fuel the evaluation has one value, and with it `Q` holds. -/
def Ends {α : Type} (f : Nat → Eval α) (m : Machine) (Q : α → Machine → Prop) : Prop :=
  ∃ n a m', (∀ k, n ≤ k → (f k).exec m = some (.ok a, m')) ∧ Q a m'

namespace Ends

variable {α β : Type} {f : Nat → Eval α} {m : Machine} {Q Q' : α → Machine → Prop}

theorem mono (h : Ends f m Q) (hQ : ∀ a m', Q a m' → Q' a m') : Ends f m Q' := by
  obtain ⟨n, a, m', hf, hq⟩ := h
  exact ⟨n, a, m', hf, hQ a m' hq⟩

/-- An evaluation that takes no fuel. -/
theorem of_exec {a : α} {m' : Machine} (hf : ∀ k, (f k).exec m = some (.ok a, m')) (hq : Q a m') :
    Ends f m Q :=
  ⟨0, a, m', fun k _ => hf k, hq⟩

theorem pure {a : α} (h : Q a m) : Ends (fun _ => Pure.pure a) m Q :=
  of_exec (fun _ => Eval.exec_pure a m) h

theorem ofExcept {r : Except EvalFault α} {a : α} (hr : r = .ok a) (h : Q a m) :
    Ends (fun _ => Eval.ofExcept r) m Q :=
  of_exec (fun _ => by rw [Eval.exec_ofExcept, hr]) h

theorem ofEncoding {r : Except EncodingFault α} {a : α} (hr : r = .ok a) (h : Q a m) :
    Ends (fun _ => Eval.ofEncoding r) m Q :=
  of_exec (fun _ => by rw [Eval.exec_ofEncoding, hr]; rfl) h

/-- A recursive call that spends one unit of fuel. -/
theorem succ {g : Nat → Eval α} (h : Ends f m Q) (hg : ∀ k, g (k + 1) = f k) : Ends g m Q := by
  obtain ⟨n, a, m', hf, hq⟩ := h
  refine ⟨n + 1, a, m', fun k hk => ?_, hq⟩
  obtain ⟨k, rfl⟩ : ∃ j, k = j + 1 := ⟨k - 1, by omega⟩
  rw [hg]
  exact hf k (by omega)

theorem bind {g : Nat → α → Eval β} {P : β → Machine → Prop}
    (h : Ends f m fun a m' => Ends (fun k => g k a) m' P) : Ends (fun k => f k >>= g k) m P := by
  obtain ⟨n, a, m', hf, n', b, m'', hg, hp⟩ := h
  refine ⟨n + n', b, m'', fun k hk => ?_, hp⟩
  rw [Eval.exec_bind, hf k (by omega)]
  exact hg k (by omega)

/-- What a first step that takes no fuel leaves to do. -/
theorem step {x : Eval α} {g : Nat → α → Eval β} {P : β → Machine → Prop} {a : α} {m' : Machine}
    (hx : x.exec m = some (.ok a, m')) (h : Ends (fun k => g k a) m' P) :
    Ends (fun k => x >>= g k) m P :=
  bind (of_exec (fun _ => hx) h)

theorem inFrame {frame : Frame} (h : Ends f (m.push frame) fun a m' => Q a m'.pop) :
    Ends (fun k => Eval.inFrame frame (f k)) m Q := by
  obtain ⟨n, a, m', hf, hq⟩ := h
  refine ⟨n, a, m'.pop, fun k hk => ?_, hq⟩
  rw [Eval.exec_inFrame, hf k hk]
  rfl

theorem outcome {P : Except EvalFault α → Machine → Prop} (h : Ends f m fun a m' => P (.ok a) m') :
    Ends (fun k => Eval.outcome (f k)) m P := by
  obtain ⟨n, a, m', hf, hq⟩ := h
  refine ⟨n, .ok a, m', fun k hk => ?_, hq⟩
  rw [Eval.exec_outcome, hf k hk]
  rfl

theorem mapM_nil {f : Nat → α → Eval β} {P : List β → Machine → Prop} (h : P [] m) :
    Ends (fun k => [].mapM (f k)) m P := by
  have hnil : ∀ k, ([].mapM (f k)).exec m = some (.ok [], m) := by
    intro k
    rw [List.mapM_nil, Eval.exec_pure]
  exact of_exec hnil h

theorem mapM_cons {f : Nat → α → Eval β} {a : α} {as : List α} {P : List β → Machine → Prop}
    (h : Ends (fun k => f k a) m fun b m' => Ends (fun k => as.mapM (f k)) m' fun bs m'' =>
      P (b :: bs) m'') : Ends (fun k => (a :: as).mapM (f k)) m P := by
  have hcons : ∀ k, (a :: as).mapM (f k) = f k a >>= fun b => as.mapM (f k) >>= fun bs =>
      Pure.pure (b :: bs) := fun k => List.mapM_cons
  simp only [hcons]
  exact bind (h.mono fun b m' h => bind (h.mono fun bs m'' h => pure h))

end Ends

/-! ## Cells -/

namespace Machine

variable {m m' m'' : Machine} {pre post : List Cell} {c : Cell}

theorem cell_of_cells (h : m.cells.toList = pre ++ c :: post) : m.cell pre.length = c := by
  rw [cell, ← Array.getElem?_toList, h, List.getElem?_append_right (Nat.le_refl _), Nat.sub_self]
  rfl

theorem cells_setCell (h : m.cells.toList = pre ++ c :: post) (c' : Cell) :
    (m.setCell pre.length c').cells.toList = pre ++ c' :: post := by
  rw [setCell, Array.toList_setIfInBounds, h, List.set_append_right _ _ (Nat.le_refl _), Nat.sub_self]
  rfl

theorem cells_allocate (m : Machine) (source : Source) :
    (m.allocate source).2.cells.toList = m.cells.toList ++ [.ready source] :=
  Array.toList_push

/-- An iterator that is done is closed already. -/
theorem close_of_done {h : Nat} (hd : m.cell h = .done) : m.close h = m := by
  rw [close, closeFrom, hd]

/-- After an evaluation in `m` the machine is `m'`: its cells are `cells`, it has sent `sent` besides what it
had, and it remembers the path `rowPath`. -/
structure Becomes (m m' : Machine) (cells : List Cell) (sent : List Subscription)
    (rowPath : Option Path) : Prop where
  frames : m'.frames = m.frames
  live : m'.live = m.live
  cells : m'.cells.toList = cells
  sent : m'.sent.toList = m.sent.toList ++ sent
  rowPath : m'.rowPath = rowPath

namespace Becomes

variable {cells cells' : List Cell} {sent sent' : List Subscription} {path path' : Option Path}

theorem trans (h : m.Becomes m' cells sent path) (h' : m'.Becomes m'' cells' sent' path') :
    m.Becomes m'' cells' (sent ++ sent') path' where
  frames := h'.frames.trans h.frames
  live := h'.live.trans h.live
  cells := h'.cells
  sent := by rw [h'.sent, h.sent, List.append_assoc]
  rowPath := h'.rowPath

theorem refl (m : Machine) : m.Becomes m m.cells.toList [] m.rowPath :=
  ⟨rfl, rfl, rfl, (List.append_nil _).symm, rfl⟩

/-- What a call does under its frame it does without it, the path of the last row apart. -/
theorem pop {frame : Frame} (h : (({ m with rowPath := path } :
    Machine).push frame).Becomes m' cells sent path') :
    m.Becomes m'.pop cells sent path' := by
  have hframes : m'.pop.frames = m.frames := Machine.frames_pop h.frames (List.cons_ne_nil _ _)
  obtain ⟨top, callers, cs, calls, stamps, rowPath, live, out⟩ := m'
  cases callers with
  | nil => cases h.frames
  | cons f rest => exact ⟨hframes, h.live, h.cells, h.sent, h.rowPath⟩

end Becomes

end Machine

namespace Ends

variable {m : Machine} {pre post : List Cell}

theorem next {source : Source} {Q : Option Value → Machine → Prop}
    (hcells : m.cells.toList = pre ++ .ready source :: post)
    (h : Ends (fun k => Eval.advance k source) (m.setCell pre.length .busy) fun r m' =>
      match r with
      | some (v, source') => Q (some v) (m'.setCell pre.length (.ready source'))
      | none => (∀ inner, source.inner? = some inner → m'.cell inner = .done) ∧
          Q none (m'.setCell pre.length .done)) :
    Ends (fun k => Eval.next k pre.length) m Q := by
  refine succ (f := fun k => Eval.readCell (Eval.advance k) pre.length) ?_ fun k => rfl
  refine step (Eval.exec_get m) ?_
  simp only [Machine.cell_of_cells hcells]
  refine step (Eval.exec_modify _ m) ?_
  refine bind (outcome (h.mono fun r m' hr => ?_))
  match r, hr with
  | some (v, source'), hr => exact step (Eval.exec_modify _ m') (pure hr)
  | none, ⟨hdone, hq⟩ =>
    have hfinish : (Eval.readCell.finish pre.length source).exec m' =
        some (.ok (), m'.setCell pre.length .done) := by
      rw [Eval.readCell.finish, Eval.exec_modify]
      cases hi : source.inner? with
      | none => rfl
      | some inner => simp only [Machine.close_of_done (hdone inner hi)]
    exact step hfinish (pure hq)

end Ends

end LiveQuery
