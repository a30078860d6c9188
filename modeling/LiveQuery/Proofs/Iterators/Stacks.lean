import LiveQuery.Proofs.Machine.Ends
import LiveQuery.Proofs.Machine.Limits

/-! # Stacks of iterators

Stages that map and filter stand on an iterator over a list, each reading the one below it (`Machine.Stacked`). What
reading the outermost one comes to is said of the list alone (`Stage.draw`): the elements are taken one by one, and
each goes through all the stages until one comes out. The iterator on the list then has the rest; if nothing came
out, or a function failed on the way, every iterator of the stack is done (`Machine.Stacked.exec_next`).
-/
namespace LiveQuery

/-! ## What stages do to a list -/

/-- What is done to the elements of an iterator. -/
inductive Stage
  | map (f : Function)
  | filter (test : Function)

namespace Stage

/-- The function of a stage. -/
def function : Stage → Function
  | map f => f
  | filter test => test

/-- The built-in function that makes an iterator for a stage. -/
def builtin : Stage → Builtin
  | map _ => .map
  | filter _ => .filter

/-- The source that applies a stage to what an iterator gives. -/
def source (inner : Nat) : Stage → Source
  | map f => .mapped inner f
  | filter test => .filtered inner test

theorem inner?_source (s : Stage) (inner : Nat) : (s.source inner).inner? = some inner := by
  cases s <;> rfl

theorem source_ne_elements (s : Stage) (inner : Nat) (vs : List Value) : s.source inner ≠ .elements vs := by
  cases s <;> exact nofun

theorem inner_eq_of_source {s s' : Stage} {inner inner' : Nat} (h : s.source inner = s'.source inner') :
    inner = inner' := by
  have hinner := s.inner?_source inner
  rw [h, inner?_source] at hinner
  exact (Option.some.inj hinner).symm

section

variable {M : Type → Type} [Monad M] [MonadExcept EvalFault M] (call : Function → Value → M Value)

/-- What a stage makes of an element, if the element comes through. -/
def apply : Stage → Value → M (Option Value)
  | map f, v => do return some (← call f v)
  | filter test, v => do
    match ← call test v with
    | .bool true => return some v
    | .bool false => return none
    | other => throw (.typeMismatch .bool other.ty)

/-- What the stages, the outermost first, make of an element. -/
def pass : List Stage → Value → M (Option Value)
  | [], v => return some v
  | s :: below, v => do
    match ← pass below v with
    | some u => s.apply call u
    | none => return none

/-- The first of the elements that comes through the stages, and the elements after it. -/
def draw (stages : List Stage) : List Value → M (Option (Value × List Value))
  | [] => return none
  | v :: rest => do
    match ← pass call stages v with
    | some u => return some (u, rest)
    | none => draw stages rest

/-- What comes through one more stage is drawn from what comes through those below it. -/
theorem draw_cons [LawfulMonad M] (s : Stage) (below : List Stage) (vs : List Value) :
    draw call (s :: below) vs = (do
      match ← draw call below vs with
      | none => return none
      | some (u, rest) =>
        match ← s.apply call u with
        | some w => return some (w, rest)
        | none => draw call (s :: below) rest) := by
  induction vs with
  | nil => simp only [draw, pure_bind]
  | cons v rest ih =>
    rw [draw, draw, pass, bind_assoc, bind_assoc]
    refine bind_congr fun o => ?_
    cases o with
    | some u => rw [pure_bind]
    | none =>
      rw [pure_bind]
      exact ih

end

end Stage

/-! ## Iterators that are done -/

namespace Machine

variable {m n : Machine} {hs : List Nat} {h : Nat}

theorem setCell_setCell (m : Machine) (h : Nat) (c c' : Cell) : (m.setCell h c).setCell h c' = m.setCell h c' := by
  simp only [setCell, Array.setIfInBounds_setIfInBounds]

theorem setCell_comm {h g : Nat} (hg : h ≠ g) (m : Machine) (c d : Cell) :
    (m.setCell h c).setCell g d = (m.setCell g d).setCell h c := by
  simp only [setCell, Array.setIfInBounds_comm _ _ hg]

/-- Some iterators done at once. -/
def setDone (m : Machine) (hs : List Nat) : Machine :=
  { m with cells := m.cells.mapIdx fun h c => if h ∈ hs then .done else c }

theorem cell_setDone (hh : h ∈ hs) : (m.setDone hs).cell h = .done := by
  simp only [cell, setDone, Array.getElem?_mapIdx, if_pos hh]
  cases m.cells[h]? <;> rfl

theorem setDone_setCell (hh : h ∈ hs) (c : Cell) : (m.setCell h c).setDone hs = m.setDone hs := by
  have hcells : (m.cells.setIfInBounds h c).mapIdx (fun g c => if g ∈ hs then .done else c) =
      m.cells.mapIdx fun g c => if g ∈ hs then .done else c := by
    refine Array.ext_getElem? fun i => ?_
    rw [Array.getElem?_mapIdx, Array.getElem?_mapIdx, Array.getElem?_setIfInBounds]
    grind
  simp only [setDone, setCell, hcells]

theorem setCell_setDone : (m.setDone hs).setCell h .done = m.setDone (h :: hs) := by
  have hcells : (m.cells.mapIdx fun g c => if g ∈ hs then .done else c).setIfInBounds h .done =
      m.cells.mapIdx fun g c => if g ∈ h :: hs then .done else c := by
    refine Array.ext_getElem? fun i => ?_
    rw [Array.getElem?_mapIdx, Array.getElem?_setIfInBounds, Array.getElem?_mapIdx]
    grind
  simp only [setDone, setCell, hcells]

/-- It is the same whether one of them is done before the others or with them. -/
theorem setDone_setCell_done : (m.setCell h .done).setDone hs = m.setDone (h :: hs) := by
  have hcells : (m.cells.setIfInBounds h .done).mapIdx (fun g c => if g ∈ hs then .done else c) =
      m.cells.mapIdx fun g c => if g ∈ h :: hs then .done else c := by
    refine Array.ext_getElem? fun i => ?_
    rw [Array.getElem?_mapIdx, Array.getElem?_setIfInBounds, Array.getElem?_mapIdx]
    grind
  simp only [setDone, setCell, hcells]

theorem setDone_singleton (m : Machine) (h : Nat) : m.setDone [h] = m.setCell h .done := by
  have hnone : m.setDone [] = m := by
    have hcells : m.cells.mapIdx (fun h c => if h ∈ [] then .done else c) = m.cells :=
      Array.ext_getElem? fun i => by simp
    simp only [setDone, hcells]
  rw [← setCell_setDone, hnone]

/-! ## Stacks -/

theorem lt_of_ready {source : Source} (hc : m.cell h = .ready source) : h < m.cells.size := by
  by_contra hh
  rw [cell, Array.getElem?_eq_none (Nat.le_of_not_lt hh)] at hc
  cases hc

/-- The iterators, the outermost first, are stages over the iterator `base`, which has the elements `vs` to give. -/
inductive Stacked (m : Machine) (base : Nat) (vs : List Value) : List Stage → List Nat → Prop
  | elements (here : m.cell base = .ready (.elements vs)) : Stacked m base vs [] [base]
  | stage {s : Stage} {stages : List Stage} {h inner : Nat} {hs : List Nat}
      (here : m.cell h = .ready (s.source inner)) (below : Stacked m base vs stages (inner :: hs)) :
      Stacked m base vs (s :: stages) (h :: inner :: hs)

namespace Stacked

variable {base inner : Nat} {vs rest : List Value} {s : Stage} {stages : List Stage}

theorem base_mem (stack : m.Stacked base vs stages hs) : base ∈ hs := by
  induction stack with
  | elements => exact List.mem_singleton_self _
  | stage _ _ ih => exact List.mem_cons_of_mem _ ih

theorem lt_size (stack : m.Stacked base vs stages hs) (hh : h ∈ hs) : h < m.cells.size := by
  induction stack with
  | elements here =>
    rw [List.mem_singleton.mp hh]
    exact lt_of_ready here
  | stage here _ ih =>
    rcases List.mem_cons.mp hh with rfl | hh
    · exact lt_of_ready here
    · exact ih hh

/-- A stack is the same on machines where its iterators are. -/
theorem congr (stack : m.Stacked base vs stages hs) (hn : ∀ h ∈ hs, n.cell h = m.cell h) :
    n.Stacked base vs stages hs := by
  induction stack with
  | elements here => exact .elements ((hn _ (List.mem_singleton_self _)).trans here)
  | stage here _ ih =>
    obtain ⟨hh, hbelow⟩ := List.forall_mem_cons.mp hn
    exact .stage (hh.trans here) (ih hbelow)

/-- What stands on an iterator is told by its source, so the iterators below it are known. -/
theorem length_eq {base' : Nat} {vs' : List Value} {stages' : List Stage} {hs' : List Nat}
    (stack : m.Stacked base vs stages (h :: hs)) (stack' : m.Stacked base' vs' stages' (h :: hs')) :
    hs.length = hs'.length := by
  induction hs generalizing h stages hs' stages' with
  | nil =>
    cases stack with
    | elements here =>
      cases stack' with
      | elements => rfl
      | stage here' _ => exact absurd (Cell.ready.inj (here'.symm.trans here)) (Stage.source_ne_elements _ _ _)
  | cons inner hs ih =>
    cases stack with
    | stage here below =>
      cases stack' with
      | elements here' => exact absurd (Cell.ready.inj (here.symm.trans here')) (Stage.source_ne_elements _ _ _)
      | stage here' below' =>
        obtain rfl := Stage.inner_eq_of_source (Cell.ready.inj (here.symm.trans here'))
        simp only [List.length_cons, ih below below']

theorem exists_of_mem {g : Nat} (stack : m.Stacked base vs stages hs) (hg : g ∈ hs) :
    ∃ stages' hs', m.Stacked base vs stages' (g :: hs') ∧ hs'.length < hs.length := by
  induction stack with
  | elements here =>
    obtain rfl := List.mem_singleton.mp hg
    exact ⟨_, [], .elements here, Nat.zero_lt_one⟩
  | stage here below ih =>
    rcases List.mem_cons.mp hg with rfl | hg
    · exact ⟨_, _, .stage here below, Nat.lt_succ_self _⟩
    · obtain ⟨stages', hs', stack', hlt⟩ := ih hg
      exact ⟨stages', hs', stack', Nat.lt_succ_of_lt hlt⟩

/-- No iterator stands on itself. -/
theorem not_mem (stack : m.Stacked base vs stages (h :: hs)) : h ∉ hs := by
  intro hh
  cases stack with
  | elements => cases hh
  | stage here below =>
    obtain ⟨stages', hs', stack', hlt⟩ := below.exists_of_mem hh
    exact absurd ((Stacked.stage here below).length_eq stack') (Nat.ne_of_gt hlt)

theorem nodup (stack : m.Stacked base vs stages hs) : hs.Nodup := by
  induction stack with
  | elements => exact List.nodup_singleton _
  | stage here below ih => exact List.nodup_cons.mpr ⟨(Stacked.stage here below).not_mem, ih⟩

theorem length_le (stack : m.Stacked base vs stages hs) : hs.length ≤ m.cells.size := by
  have hsub : hs ⊆ List.range m.cells.size := fun h hh => List.mem_range.mpr (stack.lt_size hh)
  calc hs.length ≤ (List.range m.cells.size).length := (stack.nodup.subperm hsub).length_le
    _ = m.cells.size := List.length_range

/-- Something else happens to an iterator that the stack stands below. -/
theorem setCell_above (stack : m.Stacked base vs stages hs) (hh : h ∉ hs) (c : Cell) :
    (m.setCell h c).Stacked base vs stages hs :=
  stack.congr fun g hg => cell_setCell_ne (fun heq : h = g => hh (heq ▸ hg)) c

/-- The elements that are left are others. -/
theorem setBase (stack : m.Stacked base vs stages hs) (rest : List Value) :
    (m.setCell base (.ready (.elements rest))).Stacked base rest stages hs := by
  induction stack with
  | elements here => exact .elements (cell_setCell_self (lt_of_ready here) _)
  | @stage s stages h inner hs here below ih =>
    have hne : base ≠ h := fun heq => (Stacked.stage here below).not_mem (heq ▸ below.base_mem)
    exact .stage ((cell_setCell_ne hne _).trans here) ih

/-- Closing the outermost iterator closes them all. -/
theorem closeFrom_eq {fuel : Nat} (stack : m.Stacked base vs stages (h :: hs)) (hfuel : hs.length < fuel) :
    m.closeFrom fuel h = m.setDone (h :: hs) := by
  obtain ⟨fuel, rfl⟩ : ∃ k, fuel = k + 1 := ⟨fuel - 1, by omega⟩
  induction hs generalizing m h stages fuel with
  | nil =>
    cases stack with
    | elements here => simp only [closeFrom, here, Source.inner?, setDone_singleton]
  | cons inner hs ih =>
    obtain ⟨fuel, rfl⟩ : ∃ k, fuel = k + 1 := ⟨fuel - 1, by rw [List.length_cons] at hfuel; omega⟩
    have habove := stack.not_mem
    cases stack with
    | @stage s _ _ _ _ here below =>
      rw [closeFrom, here]
      simp only [s.inner?_source]
      rw [ih (below.setCell_above habove _) fuel (Nat.lt_of_succ_lt_succ hfuel), setDone_setCell_done]

theorem close_eq (stack : m.Stacked base vs stages (h :: hs)) : m.close h = m.setDone (h :: hs) :=
  stack.closeFrom_eq (Nat.lt_succ_of_lt stack.length_le)

/-- One more stage on the outermost iterator. -/
theorem allocate (stack : m.Stacked base vs stages (h :: hs)) (s : Stage) :
    (m.allocate (s.source h)).2.Stacked base vs (s :: stages) (m.cells.size :: h :: hs) := by
  refine .stage ?_ (stack.congr fun g hg => ?_)
  · simp only [cell, Machine.allocate, Array.getElem?_push_size, Option.getD_some]
  · have hlt := stack.lt_size hg
    simp only [cell, Machine.allocate, Array.getElem?_push_lt hlt, Array.getElem?_eq_getElem hlt]

end Stacked

/-- An iterator over an array is a stack without stages. -/
theorem stacked_elements (m : Machine) (vs : List Value) :
    (m.allocate (.elements vs)).2.Stacked m.cells.size vs [] [m.cells.size] :=
  .elements (by simp only [cell, allocate, Array.getElem?_push_size, Option.getD_some])

/-- `map` and `filter` put a stage on a stack. -/
theorem Stacked.exec_apply {base : Nat} {vs : List Value} {stages : List Stage}
    (stack : m.Stacked base vs stages (h :: hs)) (s : Stage) (t : Ty) :
    ∃ u n, (s.builtin.apply [.iterator h t, .function s.function]).exec m = some (.ok (.iterator m.cells.size u), n) ∧
      n.Stacked base vs (s :: stages) (m.cells.size :: h :: hs) := by
  cases s with
  | map f => exact ⟨f.result, _, rfl, stack.allocate (.map f)⟩
  | filter test => exact ⟨t, _, rfl, stack.allocate (.filter test)⟩

/-- `map` and `filter` of an array are a stage on an iterator over it. -/
theorem exec_apply_array (m : Machine) (vs : List Value) (s : Stage) (t : Ty) :
    ∃ u n, (s.builtin.apply [.array vs t, .function s.function]).exec m =
        some (.ok (.iterator (m.cells.size + 1) u), n) ∧
      n.Stacked m.cells.size vs [s] [m.cells.size + 1, m.cells.size] := by
  have stack := (m.stacked_elements vs).allocate s
  have hsize : (m.allocate (.elements vs)).2.cells.size = m.cells.size + 1 := Array.size_push _
  rw [hsize] at stack
  cases s with
  | map f => exact ⟨f.result, _, by rw [← hsize]; rfl, stack⟩
  | filter test => exact ⟨t, _, by rw [← hsize]; rfl, stack⟩

end Machine

/-! ## Reading a stack -/

namespace Eval

/-- What reading an iterator gives when elements are drawn for it: one of them, or the end. -/
def deliver (given : List Value → Machine → Machine) (ended : Machine → Machine) :
    Except EvalFault (Option (Value × List Value)) × Machine → Except EvalFault (Option Value) × Machine
  | (.ok (some (v, rest)), m) => (.ok (some v), given rest m)
  | (.ok none, m) => (.ok none, ended m)
  | (.error e, m) => (.error e, ended m)

theorem map_deliver_congr {given given' : List Value → Machine → Machine} {ended ended' : Machine → Machine}
    {f : Machine → Machine} {o : Option (Except EvalFault (Option (Value × List Value)) × Machine)}
    (hgiven : ∀ r n, o = some (r, n) → ∀ rest, given rest (f n) = given' rest n)
    (hended : ∀ r n, o = some (r, n) → ended (f n) = ended' n) :
    (o.map fun p => (p.1, f p.2)).map (deliver given ended) = o.map (deliver given' ended') := by
  cases o with
  | none => rfl
  | some p =>
    obtain ⟨r, n⟩ := p
    match r with
    | .ok (some (v, rest)) => simp only [Option.map_some, deliver, hgiven _ n rfl]
    | .ok none => simp only [Option.map_some, deliver, hended _ n rfl]
    | .error e => simp only [Option.map_some, deliver, hended _ n rfl]

namespace Ample

theorem apply_aloof (s : Stage) (v : Value) : Aloof (s.apply call v) := by
  cases s with
  | map f => exact (call_aloof f v).bind fun _ => .pure _
  | filter test =>
    refine (call_aloof test v).bind fun u => ?_
    split
    next => exact .pure _
    next => exact .pure _
    next => exact .throw _

theorem pass_aloof (stages : List Stage) (v : Value) : Aloof (Stage.pass call stages v) := by
  induction stages with
  | nil => exact .pure _
  | cons s below ih =>
    refine ih.bind fun o => ?_
    cases o with
    | some u => exact apply_aloof s u
    | none => exact .pure _

theorem draw_aloof (stages : List Stage) (vs : List Value) : Aloof (Stage.draw call stages vs) := by
  induction vs with
  | nil => exact .pure _
  | cons v rest ih =>
    refine (pass_aloof stages v).bind fun o => ?_
    cases o with
    | some u => exact .pure _
    | none => exact ih

/-- Fewer elements are left when one has come through. -/
theorem length_of_draw {stages : List Stage} {vs rest : List Value} {u : Value} {m n : Machine}
    (h : (Stage.draw call stages vs).exec m = some (.ok (some (u, rest)), n)) : rest.length < vs.length := by
  induction vs generalizing m with
  | nil => cases h
  | cons v vs ih =>
    rw [Stage.draw, exec_bind] at h
    obtain ⟨⟨r, m'⟩, -, h⟩ := Option.bind_eq_some_iff.mp h
    match r with
    | .ok (some w) =>
      cases h
      exact Nat.lt_succ_self _
    | .ok none => exact Nat.lt_succ_of_lt (ih h)
    | .error e => cases h

/-- A source that applies a stage reads on until an element comes through. -/
theorem advance_source (s : Stage) (inner : Nat) : advance (s.source inner) = (do
    match ← next inner with
    | none => return none
    | some u =>
      match ← s.apply call u with
      | some w => return some (w, s.source inner)
      | none => advance (s.source inner)) := by
  cases s with
  | map f =>
    refine (advance_mapped inner f).trans (bind_congr fun o => ?_)
    cases o with
    | none => rfl
    | some u => simp only [Stage.apply, bind_assoc, pure_bind]; rfl
  | filter test =>
    refine (advance_filtered inner test).trans ?_
    rw [seek_eq, bind_assoc]
    refine bind_congr fun o => ?_
    cases o with
    | none => simp only [pure_bind]
    | some u =>
      simp only [Stage.apply, bind_assoc]
      refine bind_congr fun answer => ?_
      cases answer with
      | bool b =>
        cases b with
        | true => simp only [pure_bind]; rfl
        | false => simp only [pure_bind]; exact (advance_filtered inner test).symm
      | int | str | record | array | iterator | function | index => rfl

end Ample

end Eval

namespace Machine

/-- What reading a stack comes to when elements are drawn from what it has left. -/
def restock (base : Nat) (hs : List Nat) :
    Except EvalFault (Option (Value × List Value)) × Machine → Except EvalFault (Option Value) × Machine :=
  Eval.deliver (fun rest m => m.setCell base (.ready (.elements rest))) (·.setDone hs)

namespace Stacked

open Eval

variable {m n : Machine} {base h inner : Nat} {vs rest : List Value} {s : Stage} {stages below : List Stage}
  {hs : List Nat}

/-- An evaluation that reads no iterator leaves a stack as it is. -/
theorem keep {α : Type} {x : Eval α} {r : Except EvalFault α} (stack : m.Stacked base vs stages hs) (hx : Aloof x)
    (hr : x.exec m = some (r, n)) : n.Stacked base vs stages hs :=
  stack.congr fun _ hg => hx.cell hr (stack.lt_size hg)

/-- The source of a stage that ends or fails leaves the whole stack done. -/
theorem closeInner_eq (stack : m.Stacked base vs below (inner :: hs)) (s : Stage) (h : Nat) :
    (m.closeInner (s.source inner)).setCell h .done = m.setDone (h :: inner :: hs) := by
  simp only [closeInner, s.inner?_source]
  rw [stack.close_eq, setCell_setDone]

theorem closeInner_done (s : Stage) (h : Nat) :
    ((m.setDone (inner :: hs)).closeInner (s.source inner)).setCell h .done = m.setDone (h :: inner :: hs) := by
  simp only [closeInner, s.inner?_source]
  rw [close_of_done (cell_setDone List.mem_cons_self), setCell_setDone]

/-- What a stage comes to, given what the stack below it comes to. The induction is on the elements that are left
below: a filter that lets one go reads on. -/
theorem settle_advance (hinner : ∀ m vs, m.Stacked base vs below (inner :: hs) →
      (Ample.next inner).exec m = ((Stage.draw Ample.call below vs).exec m).map (restock base (inner :: hs)))
    (s : Stage) (h : Nat) {vs : List Value} {m : Machine} (stack : m.Stacked base vs below (inner :: hs)) :
    ((Ample.advance (s.source inner)).exec m).map (settle h (s.source inner)) =
      ((Stage.draw Ample.call (s :: below) vs).exec m).map
        (deliver (fun rest m => (m.setCell base (.ready (.elements rest))).setCell h (.ready (s.source inner)))
          (·.setDone (h :: inner :: hs))) := by
  induction hlength : vs.length using Nat.strongRecOn generalizing vs m with
  | ind length ih =>
  rw [Ample.advance_source, Stage.draw_cons, exec_bind, exec_bind, hinner m vs stack]
  cases hdraw : (Stage.draw Ample.call below vs).exec m with
  | none => rfl
  | some p =>
    obtain ⟨r, n⟩ := p
    have hn := stack.keep (Ample.draw_aloof below vs) hdraw
    have hdone : base ∈ h :: inner :: hs := List.mem_cons_of_mem h stack.base_mem
    match r with
    | .error e | .ok none =>
      simp only [Option.map_some, restock, deliver, Option.bind_some, next?_error, next?_ok, exec_pure, settle,
        closeInner_done]
    | .ok (some (u, rest)) =>
      have hbase := hn.lt_size hn.base_mem
      simp only [Option.map_some, restock, deliver, Option.bind_some, next?_ok]
      rw [exec_bind, exec_bind, (Ample.apply_aloof s u).setCell n base _ hbase]
      cases happly : (s.apply Ample.call u).exec n with
      | none => rfl
      | some q =>
        obtain ⟨r', n'⟩ := q
        have hn' := hn.keep (Ample.apply_aloof s u) happly
        match r' with
        | .error e =>
          simp only [Option.map_some, Option.bind_some, next?_error, settle, deliver,
            (hn'.setBase rest).closeInner_eq, setDone_setCell hdone]
        | .ok (some w) => rfl
        | .ok none =>
          simp only [Option.map_some, Option.bind_some, next?_ok]
          rw [ih rest.length (hlength ▸ Ample.length_of_draw hdraw) (hn'.setBase rest) rfl,
            (Ample.draw_aloof _ rest).setCell n' base _ (hn'.lt_size hn'.base_mem)]
          refine map_deliver_congr (f := (·.setCell base _)) (fun r n _ more => ?_) fun r n _ => ?_
          · rw [setCell_setCell]
          · exact setDone_setCell hdone _

/-- Reading the outermost iterator of a stack draws from the elements that the stack has left. -/
theorem exec_next (stack : m.Stacked base vs stages (h :: hs)) :
    (Ample.next h).exec m = ((Stage.draw Ample.call stages vs).exec m).map (restock base (h :: hs)) := by
  induction stages generalizing m vs h hs with
  | nil =>
    cases stack with
    | elements here =>
      rw [Ample.exec_next here, Ample.advance_elements]
      cases vs with
      | nil => simp only [Stage.draw, exec_pure, Option.map_some, settle, restock, deliver, closeInner, Source.inner?,
          setDone_singleton, setCell_setCell]
      | cons v vs => simp only [Stage.draw, Stage.pass, pure_bind, exec_pure, Option.map_some, settle, restock, deliver,
          setCell_setCell]
  | cons s below ih =>
    have habove := stack.not_mem
    cases stack with
    | @stage _ _ _ inner hs here stack =>
      rw [Ample.exec_next here, settle_advance (fun m vs stack => ih stack) s h (stack.setCell_above habove .busy),
        (Ample.draw_aloof _ vs).setCell m h _ (lt_of_ready here)]
      refine map_deliver_congr (f := (·.setCell h .busy)) (fun r n hr rest => ?_) fun r n hr => ?_
      · -- below the stage the base has changed, and the stage itself is put back as it was
        have hne : h ≠ base := fun heq => habove (heq ▸ stack.base_mem)
        have hcell : n.cell h = .ready (s.source inner) :=
          ((Ample.draw_aloof _ vs).cell hr (lt_of_ready here)).trans here
        have hset : (n.setCell base (.ready (.elements rest))).cell h = .ready (s.source inner) :=
          (cell_setCell_ne hne.symm _).trans hcell
        rw [setCell_comm hne, setCell_setCell, ← hset, setCell_cell]
      · exact setDone_setCell List.mem_cons_self _

end Stacked

end Machine

end LiveQuery
