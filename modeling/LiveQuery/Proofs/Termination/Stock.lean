import Mathlib.Logic.Relation
import LiveQuery.Proofs.Machine.Run

/-! # Evaluations that come to an end

`Halts g s f Q` says that the evaluation `f`, which takes fuel, ends on every machine with the stock `g` in
the scope `s` as soon as it has enough of it, in the same way with all more: in a fault, or in a value that
satisfies `Q` on a later stock. The rules follow the combinators of evaluation.

* `Stock` is what a machine has handed out: for each iterator the source that it reads from, for each cell
  of the call table the name that is called there. No query is live on it.
* `Source.Becomes` is what reading makes of a source. A later stock has more iterators, and those of the
  earlier one have been read further (`Stock.Le`).
-/
namespace LiveQuery

/-! ## Sources that are read -/

/-- A source before and after an element of its own was read. Those that read from another iterator stay as
they are. -/
inductive Source.Moves : Source → Source → Prop
  | element (v : Value) (rest : List Value) : Moves (.elements (v :: rest)) (.elements rest)
  | row {c c' : Cursor} {e : Bytes × Bytes} (h : c.next = (some e, c')) :
      Moves (.rows (some c)) (.rows (some c'))

/-- What a source may be after any number of elements were read. -/
def Source.Becomes : Source → Source → Prop := Relation.ReflTransGen Source.Moves

namespace Source.Becomes

variable {source : Source}

theorem elements {rest : List Value} (h : Source.Becomes (.elements rest) source) :
    ∃ rest', source = .elements rest' ∧ rest' <:+ rest := by
  induction h with
  | refl => exact ⟨rest, rfl, List.suffix_refl rest⟩
  | tail _ h ih =>
    obtain ⟨rest', rfl, hsuffix⟩ := ih
    cases h with
    | element v rest'' => exact ⟨rest'', rfl, (List.suffix_cons v rest'').trans hsuffix⟩

theorem mapped {inner : Nat} {f : Function} (h : Source.Becomes (.mapped inner f) source) :
    source = .mapped inner f := by
  induction h with
  | refl => rfl
  | tail _ h ih => subst ih; cases h

theorem filtered {inner : Nat} {test : Function} (h : Source.Becomes (.filtered inner test) source) :
    source = .filtered inner test := by
  induction h with
  | refl => rfl
  | tail _ h ih => subst ih; cases h

theorem noRows (h : Source.Becomes (.rows none) source) : source = .rows none := by
  induction h with
  | refl => rfl
  | tail _ h ih => subst ih; cases h

end Source.Becomes

/-! ## Stocks -/

/-- What a machine has handed out. -/
structure Stock where
  /-- What each iterator reads from, as far as it has been read. -/
  sources : List Source := []
  /-- For each cell of the call table the name that is called there, and whether a link binds it. -/
  sites : List (String × Bool) := []

/-- A later stock: iterators were added and read. -/
structure Stock.Le (g g' : Stock) : Prop where
  sources : ∀ (h : Nat) (source : Source), g.sources[h]? = some source →
    ∃ source', g'.sources[h]? = some source' ∧ source.Becomes source'
  sites : g'.sites = g.sites

namespace Stock

variable {g g' g'' : Stock}

theorem Le.refl (g : Stock) : g.Le g := ⟨fun _ source h => ⟨source, h, .refl⟩, rfl⟩

theorem Le.trans (h : g.Le g') (h' : g'.Le g'') : g.Le g'' := by
  refine ⟨fun n source hn => ?_, h'.sites.trans h.sites⟩
  obtain ⟨source', hn', hb⟩ := h.sources n source hn
  obtain ⟨source'', hn'', hb'⟩ := h'.sources n source' hn'
  exact ⟨source'', hn'', Relation.ReflTransGen.trans hb hb'⟩

/-- The stock with one more iterator. -/
def add (g : Stock) (source : Source) : Stock := { g with sources := g.sources ++ [source] }

theorem le_add (g : Stock) (source : Source) : g.Le (g.add source) := by
  refine ⟨fun n source' hn => ⟨source', ?_, .refl⟩, rfl⟩
  obtain ⟨hlt, -⟩ := List.getElem?_eq_some_iff.mp hn
  rw [add, List.getElem?_append_left hlt, hn]

theorem getElem?_add (g : Stock) (source : Source) :
    (g.add source).sources[g.sources.length]? = some source :=
  List.getElem?_concat_length

/-- The stock after an element of an iterator was read. -/
def read (g : Stock) (h : Nat) (source : Source) : Stock := { g with sources := g.sources.set h source }

theorem le_read {h : Nat} {source source' : Source} (hs : g.sources[h]? = some source)
    (hb : source.Becomes source') : g.Le (g.read h source') := by
  refine ⟨fun n source'' hn => ?_, rfl⟩
  obtain ⟨hlt, -⟩ := List.getElem?_eq_some_iff.mp hn
  by_cases hne : h = n
  · subst hne
    cases Option.some.inj (hs.symm.trans hn)
    exact ⟨source', List.getElem?_set_self hlt, hb⟩
  · exact ⟨source'', by rw [read, List.getElem?_set_ne hne, hn], .refl⟩

end Stock

/-- A machine has the stock: its iterators that can be read stand where the stock says, and what its call
table has noted holds of the names that are called. -/
structure Machine.Stocks (g : Stock) (m : Machine) : Prop where
  quiet : m.live = none
  size : m.cells.size = g.sources.length
  ready : ∀ (h : Nat) (source : Source), m.cells[h]? = some (.ready source) → g.sources[h]? = some source
  calls : ∀ (n : Nat) (b : Builtin), m.calls[n]? = some (some b) →
    ∃ name, g.sites[n]? = some (name, false) ∧ rootValue? name = some (.function (.builtin b))

namespace Machine.Stocks

variable {g : Stock} {m : Machine}

theorem push (h : m.Stocks g) (f : Frame) : (m.push f).Stocks g := ⟨h.quiet, h.size, h.ready, h.calls⟩

theorem pop (h : m.Stocks g) : m.pop.Stocks g := by
  unfold Machine.pop
  split
  next => exact h
  next => exact ⟨h.quiet, h.size, h.ready, h.calls⟩

/-- Fields that the stock does not look at may change. -/
theorem congr {m' : Machine} (h : m.Stocks g) (hl : m'.live = m.live) (hc : m'.cells = m.cells)
    (hk : m'.calls = m.calls) : m'.Stocks g :=
  ⟨hl ▸ h.quiet, hc ▸ h.size, hc ▸ h.ready, hk ▸ h.calls⟩

theorem allocate (h : m.Stocks g) (source : Source) : (m.allocate source).2.Stocks (g.add source) where
  quiet := h.quiet
  size := by simp [Machine.allocate, Stock.add, h.size]
  ready := by
    intro n source' hn
    simp only [Machine.allocate, Array.getElem?_push] at hn
    split at hn
    next heq =>
      cases Option.some.inj hn
      rw [heq, h.size]
      exact g.getElem?_add source
    next =>
      have hs := h.ready n source' hn
      obtain ⟨hlt, -⟩ := List.getElem?_eq_some_iff.mp hs
      rw [Stock.add, List.getElem?_append_left hlt, hs]
  calls := h.calls

/-- A cell that cannot be read says nothing about its source. -/
theorem setCell (h : m.Stocks g) {n : Nat} {c : Cell}
    (hc : ∀ source, c = .ready source → g.sources[n]? = some source) : (m.setCell n c).Stocks g where
  quiet := h.quiet
  size := by simp [Machine.setCell, h.size]
  ready := by
    intro k source hk
    simp only [Machine.setCell, Array.getElem?_setIfInBounds] at hk
    split at hk
    next heq =>
      subst heq
      split at hk
      next => exact hc source (Option.some.inj hk)
      next => cases hk
    next => exact h.ready k source hk
  calls := h.calls

theorem setCell_busy (h : m.Stocks g) (n : Nat) : (m.setCell n .busy).Stocks g := h.setCell fun _ hc => nomatch hc

theorem setCell_done (h : m.Stocks g) (n : Nat) : (m.setCell n .done).Stocks g := h.setCell fun _ hc => nomatch hc

theorem closeFrom (fuel n : Nat) {m : Machine} (h : m.Stocks g) : (Machine.closeFrom fuel n m).Stocks g := by
  induction fuel generalizing n m with
  | zero => exact h
  | succ fuel ih =>
    simp only [Machine.closeFrom]
    split
    next source _ =>
      split
      next inner _ => exact ih inner (h.setCell_done n)
      next => exact h.setCell_done n
    next => exact h

/-- The cell of an iterator goes on with the next source. -/
theorem setCell_read (h : m.Stocks g) {n : Nat} {source : Source} (hn : n < g.sources.length) :
    (m.setCell n (.ready source)).Stocks (g.read n source) where
  quiet := h.quiet
  size := by simp [Machine.setCell, Stock.read, h.size]
  ready := by
    intro k source' hk
    simp only [Machine.setCell, Array.getElem?_setIfInBounds] at hk
    split at hk
    next heq =>
      subst heq
      split at hk
      next =>
        cases Option.some.inj hk
        exact List.getElem?_set_self hn
      next => cases hk
    next hne =>
      rw [Stock.read, List.getElem?_set_ne hne]
      exact h.ready k source' hk
  calls := h.calls

/-- Only the first look-up of a free name is noted. -/
theorem note (h : m.Stocks g) {n : Nat} {name : String} {b : Builtin} (hs : g.sites[n]? = some (name, false))
    (hb : rootValue? name = some (.function (.builtin b))) :
    ({ m with calls := m.calls.setIfInBounds n (some b) } : Machine).Stocks g where
  quiet := h.quiet
  size := h.size
  ready := h.ready
  calls := by
    intro k b' hk
    simp only [Array.getElem?_setIfInBounds] at hk
    split at hk
    next heq =>
      subst heq
      split at hk
      next => cases Option.some.inj (Option.some.inj hk); exact ⟨name, hs, hb⟩
      next => cases hk
    next => exact h.calls k b' hk

end Machine.Stocks

/-! ## The logic -/

/-- The evaluation ends with enough fuel, and a value that it ends in satisfies `Q`. -/
def Halts {α : Type} (g : Stock) (s : Scope) (f : Nat → Eval α) (Q : Stock → α → Prop) : Prop :=
  ∀ m, m.Stocks g → m.top.scope = s → ∃ n r m' g', (∀ k, n ≤ k → (f k).exec m = some (r, m')) ∧
    g.Le g' ∧ m'.Stocks g' ∧ m'.frames = m.frames ∧ ∀ a, r = .ok a → Q g' a

namespace Halts

variable {α β : Type} {g : Stock} {s : Scope} {f : Nat → Eval α} {Q : Stock → α → Prop} {P : Stock → β → Prop}

theorem mono {Q' : Stock → α → Prop} (h : Halts g s f Q) (hQ : ∀ g' a, g.Le g' → Q g' a → Q' g' a) :
    Halts g s f Q' := by
  intro m hm hs
  obtain ⟨n, r, m', g', hf, hg, hm', hframes, hq⟩ := h m hm hs
  exact ⟨n, r, m', g', hf, hg, hm', hframes, fun a ha => hQ g' a hg (hq a ha)⟩

/-- An evaluation that takes no fuel and leaves the machine alone. -/
theorem of_exec {act : Eval α} {r : Except EvalFault α} (he : ∀ m, act.exec m = some (r, m))
    (h : ∀ a, r = .ok a → Q g a) : Halts g s (fun _ => act) Q :=
  fun m hm _ => ⟨0, r, m, g, fun _ _ => he m, .refl g, hm, rfl, h⟩

theorem pure {a : α} (h : Q g a) : Halts g s (fun _ => Pure.pure a) Q :=
  of_exec (Eval.exec_pure a) (by rintro b ⟨⟩; exact h)

theorem throw (e : EvalFault) : Halts g s (fun _ => MonadExcept.throw e) Q :=
  of_exec (Eval.exec_throw e) (by simp)

theorem ofExcept {r : Except EvalFault α} (h : ∀ a, r = .ok a → Q g a) :
    Halts g s (fun _ => Eval.ofExcept r) Q :=
  of_exec (Eval.exec_ofExcept r) h

theorem ofEncoding {r : Except EncodingFault α} (h : ∀ a, r = .ok a → Q g a) :
    Halts g s (fun _ => Eval.ofEncoding r) Q := by
  refine of_exec (Eval.exec_ofEncoding r) fun a ha => ?_
  cases r with
  | ok b => cases ha; exact h a rfl
  | error e => cases ha

/-- A recursive call that spends one unit of fuel. -/
theorem succ {f' : Nat → Eval α} (h : Halts g s f Q) (hf : ∀ k, f' (k + 1) = f k) : Halts g s f' Q := by
  intro m hm hs
  obtain ⟨n, r, m', g', hexec, hrest⟩ := h m hm hs
  refine ⟨n + 1, r, m', g', fun k hk => ?_, hrest⟩
  obtain ⟨j, rfl⟩ : ∃ j, k = j + 1 := ⟨k - 1, by omega⟩
  rw [hf]
  exact hexec j (by omega)

theorem bind {x : Nat → Eval β} {f : Nat → β → Eval α} (h : Halts g s x P)
    (hf : ∀ g' b, g.Le g' → P g' b → Halts g' s (fun k => f k b) Q) : Halts g s (fun k => x k >>= f k) Q := by
  intro m hm hs
  obtain ⟨n, r, m₁, g₁, hx, hg₁, hm₁, hframes₁, hp⟩ := h m hm hs
  cases r with
  | error e =>
    refine ⟨n, .error e, m₁, g₁, fun k hk => ?_, hg₁, hm₁, hframes₁, by simp⟩
    rw [Eval.exec_bind, hx k hk]
    rfl
  | ok b =>
    have hs₁ : m₁.top.scope = s := by rw [Machine.top_eq_of_frames hframes₁, hs]
    obtain ⟨n', r, m₂, g₂, hf, hg₂, hm₂, hframes₂, hq⟩ := hf g₁ b hg₁ (hp b rfl) m₁ hm₁ hs₁
    refine ⟨n + n', r, m₂, g₂, fun k hk => ?_, hg₁.trans hg₂, hm₂, hframes₂.trans hframes₁, hq⟩
    rw [Eval.exec_bind, hx k (by omega)]
    exact hf k (by omega)

/-- Reading the machine first. -/
theorem read {x : Eval β} {f : Nat → β → Eval α} {v : Machine → β} (he : ∀ m, x.exec m = some (.ok (v m), m))
    (hf : ∀ m, m.Stocks g → m.top.scope = s → Halts g s (fun k => f k (v m)) Q) :
    Halts g s (fun k => x >>= f k) Q := by
  intro m hm hs
  obtain ⟨n, r, m', g', hexec, hrest⟩ := hf m hm hs m hm hs
  refine ⟨n, r, m', g', fun k hk => ?_, hrest⟩
  rw [Eval.exec_bind, he]
  exact hexec k hk

theorem inFrame {frame : Frame} (h : Halts g frame.scope f Q) :
    Halts g s (fun k => Eval.inFrame frame (f k)) Q := by
  intro m hm _
  obtain ⟨n, r, m', g', hf, hg, hm', hframes, hq⟩ := h (m.push frame) (hm.push frame) rfl
  refine ⟨n, r, m'.pop, g', fun k hk => ?_, hg, hm'.pop, Machine.frames_pop hframes (List.cons_ne_nil _ _),
    hq⟩
  rw [Eval.exec_inFrame, hf k hk]
  rfl

theorem within {s' : Scope} (h : Halts g s' f Q) : Halts g s (fun k => Eval.within s' (f k)) Q :=
  read Eval.exec_path fun _ _ _ => inFrame h

theorem outcome (h : Halts g s f Q) :
    Halts g s (fun k => Eval.outcome (f k)) fun g' r => ∀ a, r = .ok a → Q g' a := by
  intro m hm hs
  obtain ⟨n, r, m', g', hf, hg, hm', hframes, hq⟩ := h m hm hs
  refine ⟨n, .ok r, m', g', fun k hk => ?_, hg, hm', hframes, by rintro a ⟨⟩; exact hq⟩
  rw [Eval.exec_outcome, hf k hk]
  rfl

theorem allocate (source : Source) : Halts g s (fun _ => Eval.allocate source) fun g' h =>
    g' = g.add source ∧ h = g.sources.length := by
  intro m hm _
  refine ⟨0, .ok m.cells.size, _, g.add source, fun _ _ => rfl, g.le_add source, hm.allocate source, rfl, ?_⟩
  rintro h ⟨⟩
  exact ⟨rfl, hm.size⟩

theorem scope : Halts g s (fun _ => Eval.scope) fun g' s' => g' = g ∧ s' = s := by
  intro m hm hs
  refine ⟨0, .ok m.top.scope, m, g, fun _ _ => rfl, .refl g, hm, rfl, ?_⟩
  rintro s' ⟨⟩
  exact ⟨rfl, hs⟩

theorem takeRowPath : Halts g s (fun _ => Eval.takeRowPath) fun g' _ => g' = g := by
  intro m hm _
  refine ⟨0, _, _, g, fun _ _ => Eval.exec_takeRowPath m, .refl g, hm.congr rfl rfl rfl, rfl, fun _ _ => rfl⟩

theorem freshStamp : Halts g s (fun _ => Eval.freshStamp) fun g' _ => g' = g := by
  intro m hm _
  exact ⟨0, _, _, g, fun _ _ => Eval.exec_freshStamp m, .refl g, hm.congr rfl rfl rfl, rfl, fun _ _ => rfl⟩

/-- A change of the machine that the stock does not notice. -/
theorem update {f : Machine → Machine} (hf : ∀ m, m.Stocks g → (f m).Stocks g)
    (hframes : ∀ m, (f m).frames = m.frames) :
    Halts g s (fun _ => (modify f : Eval Unit)) fun g' _ => g' = g := by
  intro m hm _
  exact ⟨0, .ok (), f m, g, fun _ _ => rfl, .refl g, hf m hm, hframes m, fun _ _ => rfl⟩

/-- One after the other, each on the stock that those before it leave. -/
theorem mapM {f : Nat → α → Eval β} {P : Stock → α → Prop} (hP : ∀ {g g' a}, g.Le g' → P g a → P g' a)
    (hf : ∀ {g a}, P g a → Halts g s (fun k => f k a) fun _ _ => True) {as : List α} (h : ∀ a ∈ as, P g a) :
    Halts g s (fun k => as.mapM (f k)) fun _ _ => True := by
  induction as generalizing g with
  | nil =>
    simp only [List.mapM_nil]
    exact pure trivial
  | cons a as ih =>
    simp only [List.mapM_cons]
    refine (hf (h a List.mem_cons_self)).bind fun g₁ b hg₁ _ => ?_
    refine (ih fun a' ha' => hP hg₁ (h a' (List.mem_cons_of_mem _ ha'))).bind fun _ _ _ _ => ?_
    exact pure trivial

end Halts

end LiveQuery
