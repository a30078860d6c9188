import LiveQuery.Proofs.Inlining.Resolving

/-! # Built-in functions side by side

A built-in function on arguments that belong together has outcomes that belong together (`Follows.apply`): it looks
at the data and the types of its arguments, which are equal, and hands on the functions it is given.
-/
namespace LiveQuery

theorem Builtin.apply_of_length_ne (b : Builtin) {args : List Value} (h : args.length ≠ b.params.length) :
    b.apply args = throw (.arity b.name b.params.length args.length) := by
  cases b <;> unfold apply <;> dsimp only [onInts, onBools, onStrs] <;> split
  all_goals first | rfl | exact absurd rfl h

theorem Outcomes.of_forall {α : Type} {R : α → α → Prop} {r : Except EvalFault α} (h : ∀ a, r = .ok a → R a a) :
    Outcomes R r r := by
  cases r with
  | ok a => exact .ok (h a rfl)
  | error e => exact .error e

namespace Pairing

variable {p : Pairing}

namespace Values

variable {u v : Value}

theorem asInt (h : p.Values u v) : u.asInt = v.asInt := by
  have hty := h.ty
  cases h with
  | int | bool | str | iterator | index => rfl
  | record | array | function => exact congrArg (fun t => Except.error (EvalFault.typeMismatch .int t)) hty

theorem asBool (h : p.Values u v) : u.asBool = v.asBool := by
  have hty := h.ty
  cases h with
  | int | bool | str | iterator | index => rfl
  | record | array | function => exact congrArg (fun t => Except.error (EvalFault.typeMismatch .bool t)) hty

theorem asStr (h : p.Values u v) : u.asStr = v.asStr := by
  have hty := h.ty
  cases h with
  | int | bool | str | iterator | index => rfl
  | record | array | function => exact congrArg (fun t => Except.error (EvalFault.typeMismatch .string t)) hty

theorem asIndex (h : p.Values u v) : u.asIndex = v.asIndex := by
  have hty := h.ty
  cases h with
  | int | bool | str | iterator | index => rfl
  | record | array | function =>
    exact congrArg (fun t => Except.error (EvalFault.typeMismatch (.index (.var "K") (.var "R")) t)) hty

theorem asFunction (h : p.Values u v) : Outcomes p.Functions u.asFunction v.asFunction := by
  have htext := h.text
  cases h with
  | function h => exact .ok h
  | int | bool | str | iterator | index => exact .error _
  | record | array =>
    simp only [Value.asFunction, htext]
    exact .error _

theorem get (h : p.Values u v) (i : Index) : i.get u = i.get v := by
  simp only [Index.get, h.text, h.toKey]

end Values

namespace Elements

variable {us vs : List Value} {n : Nat}

theorem cons_inv (h : p.Elements us vs) (hn : us.length = n + 1) :
    ∃ u v us' vs', us = u :: us' ∧ vs = v :: vs' ∧ p.Values u v ∧ p.Elements us' vs' := by
  cases h with
  | nil => cases hn
  | cons head tail => exact ⟨_, _, _, _, rfl, rfl, head, tail⟩

theorem one (h : p.Elements us vs) (hn : us.length = 1) : ∃ u v, us = [u] ∧ vs = [v] ∧ p.Values u v := by
  obtain ⟨u, v, us', vs', rfl, rfl, hu, htail⟩ := h.cons_inv hn
  cases htail with
  | nil => exact ⟨u, v, rfl, rfl, hu⟩
  | cons => cases hn

theorem two (h : p.Elements us vs) (hn : us.length = 2) :
    ∃ u v u' v', us = [u, u'] ∧ vs = [v, v'] ∧ p.Values u v ∧ p.Values u' v' := by
  obtain ⟨u, v, us', vs', rfl, rfl, hu, htail⟩ := h.cons_inv hn
  obtain ⟨u', v', rfl, rfl, hu'⟩ := htail.one (Nat.succ.inj hn)
  exact ⟨u, v, u', v', rfl, rfl, hu, hu'⟩

end Elements

theorem Elements.checkArgs : {us vs : List Value} → p.Elements us vs → (params : List (String × Ty)) →
    (bs : Bindings) → Builtin.checkArgs params us bs = Builtin.checkArgs params vs bs
  | _, _, .nil, _, _ => by simp only [Builtin.checkArgs]
  | _, _, .cons _ _, [], _ => by simp only [Builtin.checkArgs]
  | _, _, .cons head tail, (_, declared) :: params, bs => by
    simp only [Builtin.checkArgs, head.ty, tail.checkArgs params]

theorem Values.checkResult {u v : Value} (h : p.Values u v) (b : Builtin) (bs : Bindings) :
    Outcomes p.Values (b.checkResult bs u) (b.checkResult bs v) := by
  unfold Builtin.checkResult
  rw [h.ty]
  cases b.result.substitute bs with
  | error e => exact .error e
  | ok declared =>
    dsimp only [bind, Except.bind]
    cases declared.matching? v.ty with
    | some _ => exact .ok h
    | none => exact .error _

namespace Follows

variable {f f' : Frame} {fs fs' : List Frame}

theorem check {α β β' : Type} {Q : β → β' → Prop} {fs fs' : List Frame} (r : Except EvalFault α)
    {x : α → Eval β} {y : Nat → α → Eval β'} (h : ∀ a, r = .ok a → p.Follows fs fs' Q (x a) fun k => y k a) :
    p.Follows fs fs' Q (Eval.ofExcept r >>= x) fun k => Eval.ofExcept r >>= y k := by
  refine bind (R := fun a b => a = b ∧ r = .ok a) (ofExcept (.of_forall fun _ ha => ⟨rfl, ha⟩)) ?_
  rintro a _ ⟨rfl, ha⟩
  exact h a ha

theorem encoded {α β β' : Type} {Q : β → β' → Prop} {fs fs' : List Frame} (r : Except EncodingFault α)
    {x : α → Eval β} {y : Nat → α → Eval β'} (h : ∀ a, r = .ok a → p.Follows fs fs' Q (x a) fun k => y k a) :
    p.Follows fs fs' Q (Eval.ofEncoding r >>= x) fun k => Eval.ofEncoding r >>= y k := by
  have hr : (Eval.ofEncoding r : Eval α) = Eval.ofExcept (r.mapError .encoding) := by
    cases r <;> rfl
  rw [hr]
  exact check _ fun a ha => h a (ok_of_mapError ha)

theorem toIterator {u v : Value} (h : p.Values u v) :
    p.Follows fs fs' Eq u.toIterator fun _ => v.toIterator := by
  have hty := h.ty
  cases h with
  | iterator n t => exact pure rfl
  | array each t =>
    refine bind (allocate (.elements each)) ?_
    rintro n _ rfl
    exact pure rfl
  | int | bool | str | index => exact throw _
  | record | function =>
    simp only [Value.toIterator, hty]
    exact throw _

theorem iterator {s t : Source} (h : p.Sources s t) (element : Ty) :
    p.Follows fs fs' p.Values (return .iterator (← Eval.allocate s) element) fun _ =>
      return .iterator (← Eval.allocate t) element := by
  refine bind (allocate h) ?_
  rintro n _ rfl
  exact pure (.iterator n element)

theorem listenAt {rows rows' : Value} (h : p.Values rows rows') (point : Int64) {value value' : Option Value}
    (hvalue : Option.Rel p.Values value value') (hpath : f.path = f'.path) :
    p.Follows (f :: fs) (f' :: fs') p.Values (LiveQuery.listenAt rows point value) fun _ =>
      LiveQuery.listenAt rows' point value' := by
  have hfilter : ∀ q : Point, q.filter value = q.filter value' := by
    intro q
    cases hvalue with
    | none => rfl
    | some h =>
      unfold Point.filter
      cases q.filterColumn with
      | none => rfl
      | some column => dsimp only; rw [h.toKey]
  refine read (u := id) (v := id) Eval.exec_get Eval.exec_get fun m m' hm => ?_
  dsimp only [id]
  rw [hm.live]
  cases m'.live with
  | none => exact pure h
  | some w =>
    refine check _ fun q _ => read Eval.exec_path Eval.exec_path fun n n' hn => ?_
    rw [hn.top.1, hn.top.2, hpath]
    have hiterator : ∀ path, p.Follows (f :: fs) (f' :: fs') p.Values (do
        let inner ← rows.toIterator
        return Value.iterator (← Eval.allocate (.watched inner.1 q path w.subscriber)) inner.2) fun _ => do
        let inner ← rows'.toIterator
        return Value.iterator (← Eval.allocate (.watched inner.1 q path w.subscriber)) inner.2 := by
      intro path
      refine bind (toIterator h) ?_
      rintro ⟨inner, element⟩ _ rfl
      exact iterator (.watched inner q path w.subscriber) element
    rw [hfilter]
    split
    next => exact hiterator _
    next =>
      refine encoded _ fun filter _ => ?_
      exact bind (send _) fun _ _ _ => hiterator _

variable {us vs : List Value}

theorem onInts (b : Builtin) {g : Int64 → Int64 → Except EvalFault Value}
    (hg : ∀ m n v, g m n = .ok v → v.IsData) (h : p.Elements us vs) (hn : us.length = 2) :
    p.Follows fs fs' p.Values (b.onInts g us) fun _ => b.onInts g vs := by
  obtain ⟨x, x', y, y', rfl, rfl, hx, hy⟩ := h.two hn
  simp only [Builtin.onInts, hx.asInt, hy.asInt]
  exact check _ fun m _ => check _ fun n _ => ofExcept (.of_forall fun v hv => .of_isData v (hg m n v hv))

theorem onBools (b : Builtin) (g : Bool → Bool → Bool) (h : p.Elements us vs) (hn : us.length = 2) :
    p.Follows fs fs' p.Values (b.onBools g us) fun _ => b.onBools g vs := by
  obtain ⟨x, x', y, y', rfl, rfl, hx, hy⟩ := h.two hn
  simp only [Builtin.onBools, hx.asBool, hy.asBool]
  exact check _ fun m _ => check _ fun n _ => pure (.bool _)

theorem onStrs (b : Builtin) {g : String → String → Value} (hg : ∀ s t, (g s t).IsData) (h : p.Elements us vs)
    (hn : us.length = 2) : p.Follows fs fs' p.Values (b.onStrs g us) fun _ => b.onStrs g vs := by
  obtain ⟨x, x', y, y', rfl, rfl, hx, hy⟩ := h.two hn
  simp only [Builtin.onStrs, hx.asStr, hy.asStr]
  exact check _ fun s _ => check _ fun t _ => pure (.of_isData _ (hg s t))

theorem apply (b : Builtin) (h : p.Elements us vs) (hpath : f.path = f'.path) :
    p.Follows (f :: fs) (f' :: fs') p.Values (b.apply us) fun _ => b.apply vs := by
  by_cases hn : us.length = b.params.length
  case neg =>
    rw [b.apply_of_length_ne hn, b.apply_of_length_ne (h.length ▸ hn), h.length]
    exact throw _
  unfold Builtin.apply
  cases b with
  | plus | minus | times => exact onInts _ (fun _ _ _ => Builtin.isData_of_checkedInt) h hn
  | intEq | intLt | intGt => exact onInts _ (by rintro m n v ⟨⟩; trivial) h hn
  | strEq | concat => exact onStrs _ (fun _ _ => trivial) h hn
  | boolEq | and | or => exact onBools _ _ h hn
  | not =>
    obtain ⟨x, x', rfl, rfl, hx⟩ := h.one hn
    dsimp only
    rw [hx.asBool]
    exact check _ fun x _ => pure (.bool _)
  | map =>
    obtain ⟨xs, xs', g, g', rfl, rfl, hxs, hg⟩ := h.two hn
    refine bind (ofExcept hg.asFunction) fun g g' hg => bind (toIterator hxs) ?_
    rintro ⟨inner, element⟩ _ rfl
    dsimp only
    rw [hg.result]
    exact iterator (.mapped inner hg) _
  | filter =>
    obtain ⟨xs, xs', g, g', rfl, rfl, hxs, hg⟩ := h.two hn
    refine bind (toIterator hxs) ?_
    rintro ⟨inner, element⟩ _ rfl
    exact bind (ofExcept hg.asFunction) fun g g' hg => iterator (.filtered inner hg) element
  | scan =>
    obtain ⟨x, x', rfl, rfl, hx⟩ := h.one hn
    dsimp only
    rw [hx.asIndex]
    exact check _ fun i _ => iterator (.rows _) i.row
  | get =>
    obtain ⟨x, x', key, key', rfl, rfl, hx, hkey⟩ := h.two hn
    dsimp only
    rw [hx.asIndex]
    refine check _ fun i _ => ?_
    rw [hkey.get]
    exact ofExcept (.of_forall fun v hv => .of_isData v (Index.isData_of_get hv))
  | listen =>
    obtain ⟨rows, rows', point, point', rfl, rfl, hrows, hpoint⟩ := h.two hn
    dsimp only
    rw [hpoint.asInt]
    exact check _ fun n _ => listenAt hrows n .none hpath
  | listenWhere =>
    obtain ⟨rows, rows', rest, rest', rfl, rfl, hrows, hrest⟩ := h.cons_inv hn
    obtain ⟨point, point', value, value', rfl, rfl, hpoint, hvalue⟩ := hrest.two (Nat.succ.inj hn)
    dsimp only
    rw [hpoint.asInt]
    exact check _ fun n _ => listenAt hrows n (.some hvalue) hpath

end Follows

end Pairing

end LiveQuery
