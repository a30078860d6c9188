import LiveQuery.Machine.Evaluate
import LiveQuery.Proofs.Typing.Inference

/-! # Safe evaluations

A logic for evaluations that cannot go wrong. `Safe w s act Q` says that `act`, run in scope `s` on a
machine that agrees with `w`, ends without a typing fault, on a machine that agrees with a later world
and has the same frames, and that its value satisfies `Q` there. The rules follow the combinators of
evaluation.
-/
namespace LiveQuery

/-- Whether a fault is one that typing rules out. -/
def EvalFault.isTyping : EvalFault → Bool
  | .notInScope _ | .typeMismatch .. | .missingTypeVar _ | .arity .. | .notARecord ..
  | .noSuchMember .. | .notAFunction _ | .returnContract .. => true
  | .notSerializable _ | .rowNotFound .. | .iteratorBusy | .overflow _ | .unknownPoint _
  | .encoding _ => false

/-! ## Typed functions and sources -/

/-- The types of the declared parameters. -/
def Function.paramTypes : Function → List Ty
  | .closure _ params _ _ _ => params.map Prod.snd
  | .builtin b => b.params.map Prod.snd

theorem Function.ty_eq (f : Function) : f.ty = .function f.paramTypes f.result := by
  cases f <;> rfl

theorem Function.length_paramTypes (f : Function) : f.paramTypes.length = f.arity := by
  cases f <;> simp [paramTypes, arity]

/-- Arguments of types `ts` match the declared parameters, under the bindings `bs`. -/
structure Function.Takes (f : Function) (ts : List Ty) (bs : Bindings) : Prop where
  length : f.paramTypes.length = ts.length
  bindings : Ty.matchParams f.paramTypes ts [] = (true, bs)

/-- Arguments of types `ts` are accepted and give a result of type `t`. -/
def Function.Accepts (f : Function) (ts : List Ty) (t : Ty) : Prop :=
  ∃ bs, f.Takes ts bs ∧ f.result.substitute bs = .ok t

/-- A stored entry that holds data of type `t`. -/
def HoldsData (t : Ty) (e : Bytes × Bytes) : Prop :=
  ∃ v, Value.decode e.2 = .ok v ∧ v.ty = t ∧ v.IsData

/-- The elements of a source have type `t`. -/
inductive Source.HasType (w : World) : Source → Ty → Prop
  | elements {rest : List Value} {t : Ty} (each : ∀ v ∈ rest, Sound w v)
      (types : ∀ v ∈ rest, v.ty = t) : Source.HasType w (.elements rest) t
  | mapped {inner : Nat} {f : Function} {a t : Ty} (known : w.elements[inner]? = some a)
      (sound : Sound w (.function f)) (accepts : f.Accepts [a] t) :
      Source.HasType w (.mapped inner f) t
  | filtered {inner : Nat} {test : Function} {t : Ty} (known : w.elements[inner]? = some t)
      (sound : Sound w (.function test)) (accepts : test.Accepts [t] .bool) :
      Source.HasType w (.filtered inner test) t
  | noRows {t : Ty} : Source.HasType w (.rows none) t
  | rows {c : Cursor} {t : Ty} (batch : ∀ e ∈ c.batch, HoldsData t e)
      (source : ∀ b, c.source = some b → ∀ e ∈ b, HoldsData t e) :
      Source.HasType w (.rows (some c)) t

theorem Source.HasType.mono {w w' : World} (hw : w.Le w') {source : Source} {t : Ty}
    (h : source.HasType w t) : source.HasType w' t := by
  cases h with
  | elements each types => exact .elements (fun v hv => (each v hv).mono hw) types
  | mapped known sound accepts =>
    exact .mapped (World.getElem?_of_prefix hw.elements known) (sound.mono hw) accepts
  | filtered known sound accepts =>
    exact .filtered (World.getElem?_of_prefix hw.elements known) (sound.mono hw) accepts
  | noRows => exact .noRows
  | rows batch source => exact .rows batch source

/-! ## Machines -/

/-- A machine agrees with a world. No query is live on it. -/
structure Machine.Agrees (w : World) (m : Machine) : Prop where
  quiet : m.live = none
  cells_size : m.cells.size = w.elements.length
  sources : ∀ (h : Nat) (source : Source), m.cells[h]? = some (.ready source) →
    ∃ t, w.elements[h]? = some t ∧ source.HasType w t
  calls_size : m.calls.size = w.sites.length
  calls : ∀ (n : Nat) (b : Builtin), m.calls[n]? = some (some b) →
    ∃ name, w.sites[n]? = some (name, false) ∧ rootValue? name = some (.function (.builtin b))

namespace Machine.Agrees

variable {w : World} {m : Machine}

theorem start (s : Scope) : (Machine.start s).Agrees {} where
  quiet := rfl
  cells_size := rfl
  sources := by simp [Machine.start]
  calls_size := rfl
  calls := by simp [Machine.start]

theorem push (h : m.Agrees w) (f : Frame) : (m.push f).Agrees w :=
  ⟨h.quiet, h.cells_size, h.sources, h.calls_size, h.calls⟩

theorem pop (h : m.Agrees w) : m.pop.Agrees w := by
  unfold Machine.pop
  split
  next => exact h
  next => exact ⟨h.quiet, h.cells_size, h.sources, h.calls_size, h.calls⟩

/-- A new iterator extends the world. -/
theorem allocate (h : m.Agrees w) {source : Source} {t : Ty} (hs : source.HasType w t) :
    (m.allocate source).2.Agrees { w with elements := w.elements ++ [t] } where
  quiet := h.quiet
  cells_size := by simp [Machine.allocate, h.cells_size]
  sources := by
    intro n source' hn
    have hle : w.Le { w with elements := w.elements ++ [t] } :=
      ⟨List.prefix_append _ _, List.prefix_refl _⟩
    simp only [Machine.allocate, Array.getElem?_push] at hn
    split at hn
    next heq =>
      cases Option.some.inj hn
      exact ⟨t, by simp [heq, h.cells_size], hs.mono hle⟩
    next =>
      obtain ⟨u, hu, hu'⟩ := h.sources n source' hn
      exact ⟨u, World.getElem?_of_prefix hle.elements hu, hu'.mono hle⟩
  calls_size := h.calls_size
  calls := h.calls

/-- A cell may be set to anything that cannot be read or still has its type. -/
theorem setCell (h : m.Agrees w) {n : Nat} {c : Cell}
    (hc : ∀ source, c = .ready source → ∃ t, w.elements[n]? = some t ∧ source.HasType w t) :
    (m.setCell n c).Agrees w where
  quiet := h.quiet
  cells_size := by simp [Machine.setCell, h.cells_size]
  sources := by
    intro k source hk
    simp only [Machine.setCell, Array.getElem?_setIfInBounds] at hk
    split at hk
    next heq =>
      subst heq
      split at hk
      next => exact hc source (Option.some.inj hk)
      next => cases hk
    next => exact h.sources k source hk
  calls_size := h.calls_size
  calls := h.calls

theorem setCell_busy (h : m.Agrees w) (n : Nat) : (m.setCell n .busy).Agrees w :=
  h.setCell fun _ hc => nomatch hc

theorem setCell_done (h : m.Agrees w) (n : Nat) : (m.setCell n .done).Agrees w :=
  h.setCell fun _ hc => nomatch hc

theorem closeFrom (fuel n : Nat) {m : Machine} (h : m.Agrees w) :
    (Machine.closeFrom fuel n m).Agrees w := by
  induction fuel generalizing n m with
  | zero => exact h
  | succ fuel ih =>
    simp only [Machine.closeFrom]
    split
    next source _ =>
      split
      next inner _ => exact ih inner (h.setCell_done n)
      next => exact h.setCell_done n
    next => exact h

/-- Only the first look-up of a free name is noted. -/
theorem note (h : m.Agrees w) {n : Nat} {name : String} {b : Builtin}
    (hs : w.sites[n]? = some (name, false)) (hb : rootValue? name = some (.function (.builtin b))) :
    ({ m with calls := m.calls.setIfInBounds n (some b) } : Machine).Agrees w where
  quiet := h.quiet
  cells_size := h.cells_size
  sources := h.sources
  calls_size := by simp [h.calls_size]
  calls := by
    intro k b' hk
    simp only [Array.getElem?_setIfInBounds] at hk
    split at hk
    next heq =>
      subst heq
      split at hk
      next => cases Option.some.inj (Option.some.inj hk); exact ⟨name, hs, hb⟩
      next => cases hk
    next => exact h.calls k b' hk

/-- Fields that the agreement does not look at may change. -/
theorem congr {m' : Machine} (h : m.Agrees w) (hl : m'.live = m.live) (hc : m'.cells = m.cells)
    (hk : m'.calls = m.calls) : m'.Agrees w :=
  ⟨hl ▸ h.quiet, hc ▸ h.cells_size, hc ▸ h.sources, hk ▸ h.calls_size, hk ▸ h.calls⟩

/-- A machine of which a linked expression was loaded. -/
theorem load (h : m.Agrees w) {more : List (String × Bool)} {e : Expr}
    (he : (e.link w.sites.length).2 = w.sites.length + more.length) :
    (m.load e).2.Agrees (w.addSites more) where
  quiet := h.quiet
  cells_size := h.cells_size
  sources := by
    intro n source hn
    obtain ⟨t, ht, hs⟩ := h.sources n source hn
    exact ⟨t, ht, hs.mono (w.le_addSites more)⟩
  calls_size := by
    simp only [Machine.load, Array.size_append, Array.size_replicate, h.calls_size, he,
      World.length_addSites]
    omega
  calls := by
    intro n b hn
    simp only [Machine.load, Array.getElem?_append, Array.getElem?_replicate] at hn
    split at hn
    next =>
      obtain ⟨name, hs, hb⟩ := h.calls n b hn
      exact ⟨name, World.getElem?_of_prefix (List.prefix_append _ _) hs, hb⟩
    next => split at hn <;> simp at hn

end Machine.Agrees

/-! ## The logic -/

/-- What holds of an outcome: of its value, or of its fault that typing does not rule it out. -/
def Meets {α : Type} (Q : α → Prop) : Except EvalFault α → Prop
  | .ok a => Q a
  | .error f => f.isTyping = false

/-- An evaluation that cannot go wrong. -/
def Safe {α : Type} (w : World) (s : Scope) (act : Eval α) (Q : World → α → Prop) : Prop :=
  ∀ m, m.Agrees w → m.top.scope = s → ∀ r m', act.exec m = some (r, m') →
    ∃ w', w.Le w' ∧ m'.Agrees w' ∧ m'.frames = m.frames ∧ Meets (Q w') r

namespace Safe

variable {α β : Type} {w : World} {s : Scope} {Q : World → α → Prop} {P : World → β → Prop}

/-- An evaluation that leaves the machine alone. -/
theorem of_exec {act : Eval α} {r : Except EvalFault α} (he : ∀ m, act.exec m = some (r, m))
    (h : Meets (Q w) r) : Safe w s act Q := by
  intro m hm _ r' m' hr
  rw [he] at hr
  cases hr
  exact ⟨w, World.Le.refl w, hm, rfl, h⟩

theorem pure {a : α} (h : Q w a) : Safe w s (Pure.pure a) Q :=
  of_exec (Eval.exec_pure a) h

theorem throw {f : EvalFault} (h : f.isTyping = false) : Safe w s (MonadExcept.throw f) Q :=
  of_exec (Eval.exec_throw f) h

theorem ofExcept {r : Except EvalFault α} (h : Meets (Q w) r) : Safe w s (Eval.ofExcept r) Q :=
  of_exec (Eval.exec_ofExcept r) h

theorem outOfFuel : Safe w s (Eval.outOfFuel : Eval α) Q := by
  intro m _ _ r m' h
  cases h

theorem mono {Q' : World → α → Prop} {act : Eval α} (h : Safe w s act Q)
    (hQ : ∀ w' a, w.Le w' → Q w' a → Q' w' a) : Safe w s act Q' := by
  intro m hm hs r m' hr
  obtain ⟨w', hw, hm', hf, hq⟩ := h m hm hs r m' hr
  refine ⟨w', hw, hm', hf, ?_⟩
  cases r with
  | ok a => exact hQ w' a hw hq
  | error f => exact hq

theorem bind {act : Eval β} {f : β → Eval α} (h : Safe w s act P)
    (hf : ∀ w' b, w.Le w' → P w' b → Safe w' s (f b) Q) : Safe w s (act >>= f) Q := by
  intro m hm hs r m' hr
  rw [Eval.exec_bind] at hr
  cases he : act.exec m with
  | none => rw [he] at hr; cases hr
  | some p =>
    obtain ⟨r₁, m₁⟩ := p
    rw [he] at hr
    obtain ⟨w₁, hw₁, hm₁, hf₁, hq₁⟩ := h m hm hs r₁ m₁ he
    cases r₁ with
    | error e =>
      cases hr
      exact ⟨w₁, hw₁, hm₁, hf₁, hq₁⟩
    | ok b =>
      have hs₁ : m₁.top.scope = s := by rw [Machine.top_eq_of_frames hf₁]; exact hs
      obtain ⟨w₂, hw₂, hm₂, hf₂, hq₂⟩ := hf w₁ b hw₁ hq₁ m₁ hm₁ hs₁ r m' hr
      exact ⟨w₂, hw₁.trans hw₂, hm₂, hf₂.trans hf₁, hq₂⟩

/-- A step that is known to have a value is passed over. -/
theorem bind_ok {r : Except EvalFault β} {b : β} {f : β → Eval α} (hr : r = .ok b)
    (h : Safe w s (f b) Q) : Safe w s (Eval.ofExcept r >>= f) Q := by
  subst hr
  exact h

theorem inFrame {f : Frame} {act : Eval α} (h : Safe w f.scope act Q) :
    Safe w s (Eval.inFrame f act) Q := by
  intro m hm _ r m' hr
  rw [Eval.exec_inFrame] at hr
  obtain ⟨⟨r₁, m₁⟩, he, hr⟩ := Option.map_eq_some_iff.mp hr
  cases hr
  obtain ⟨w', hw, hm', hf, hq⟩ := h (m.push f) (hm.push f) rfl r₁ m₁ he
  exact ⟨w', hw, hm'.pop, Machine.frames_pop hf (List.cons_ne_nil _ _), hq⟩

/-- Reading the machine first. -/
theorem read {act : Eval β} {f : β → Eval α} {g : Machine → β}
    (he : ∀ m, act.exec m = some (.ok (g m), m))
    (hf : ∀ m, m.Agrees w → m.top.scope = s → Safe w s (f (g m)) Q) : Safe w s (act >>= f) Q := by
  intro m hm hs r m' hr
  rw [Eval.exec_bind, he] at hr
  exact hf m hm hs m hm hs r m' hr

theorem within {s' : Scope} {act : Eval α} (h : Safe w s' act Q) :
    Safe w s (Eval.within s' act) Q :=
  read Eval.exec_path fun _ _ _ => inFrame h

theorem outcome {act : Eval α} (h : Safe w s act Q) :
    Safe w s (Eval.outcome act) (fun w' r => Meets (Q w') r) := by
  intro m hm hs r m' hr
  rw [Eval.exec_outcome] at hr
  obtain ⟨⟨r₁, m₁⟩, he, hr⟩ := Option.map_eq_some_iff.mp hr
  cases hr
  exact h m hm hs r₁ m₁ he

theorem allocate {source : Source} {t : Ty} (h : source.HasType w t) :
    Safe w s (Eval.allocate source) (fun w' n => w'.elements[n]? = some t) := by
  intro m hm _ r m' hr
  cases hr
  refine ⟨{ w with elements := w.elements ++ [t] },
    ⟨List.prefix_append _ _, List.prefix_refl _⟩, hm.allocate h, rfl, ?_⟩
  show (w.elements ++ [t])[m.cells.size]? = some t
  rw [hm.cells_size, List.getElem?_concat_length]

/-- A change of the machine that the world does not notice. -/
theorem update {f : Machine → Machine} (ha : ∀ m, m.Agrees w → (f m).Agrees w)
    (hf : ∀ m, (f m).frames = m.frames) :
    Safe w s (modify f : Eval Unit) (fun w' _ => w' = w) := by
  intro m hm _ r m' hr
  cases hr
  exact ⟨w, World.Le.refl w, ha m hm, hf m, rfl⟩

end Safe

end LiveQuery
