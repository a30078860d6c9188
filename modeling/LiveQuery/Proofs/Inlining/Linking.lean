import LiveQuery.Proofs.Inlining.Pairing

/-! # An expression beside its inlined form

An expression belongs to the expression that inlining makes of it (`Exprs.inlineWith`): where a name was replaced
or a member folded, both sides can be read off, and where a call was resolved its name tells as much. Giving the
calls of either side cells of their own keeps the two together (`Exprs.link`).
-/
namespace LiveQuery

namespace Pairing

variable {p q : Pairing}

/-! ## Inlining -/

theorem reads_ofValue (scope : Scope) (place : Place) (v : Value) : Reads scope place (Expr.ofValue v) v := by
  cases v with
  | index i => exact .index place i
  | _ => exact .value place _

theorem Sites.inline (calls : CallTable) (hidden : List String) (name : String) {σ : CallSite}
    (h : σ.below 0 = true) :
    p.Sites (.under hidden) name σ (Expr.inlineSite p.scope calls hidden name σ) := by
  unfold Expr.inlineSite
  cases σ with
  | cell n => exact absurd (of_decide_eq_true h : n < 0) (Nat.not_lt_zero n)
  | known b => exact .known _ name b
  | unlinked =>
    refine .apart trivial ?_
    simp only [CallSite.resolved?]
    split
    next => trivial
    next hn =>
      split
      next b hb => exact ⟨by simpa using hn, hb⟩
      next => trivial

/-- A member of an expression beside the field that it is folded to. -/
theorem Exprs.foldMember {place : Place} {e e' : Expr} (h : p.Exprs place e e') (name : String) :
    p.Exprs place (.member e name) (e'.foldMember name) := by
  unfold Expr.foldMember
  split
  next fields =>
    split
    next v hv =>
      cases h with
      | reads here there same =>
        cases there
        cases same with
        | record each =>
          have hfind := each.find? name
          rw [hv] at hfind
          cases hu : Keyed.find? _ name with
          | none => rw [hu] at hfind; cases hfind
          | some u =>
            rw [hu] at hfind
            cases hfind with
            | some same =>
              refine .reads (.member here ?_) (reads_ofValue _ _ v) same
              simp only [Value.member, hu]
    next => exact .member name h
  next => exact .member name h

mutual

theorem Exprs.inlineWith (hs : p.Scopes p.scope p.scope) (calls : CallTable) : (e : Expr) →
    (hidden : List String) → e.linked 0 p.size = true →
    p.Exprs (.under hidden) e (e.inlineWith p.scope calls hidden)
  | .int n, _, _ => .int _ n
  | .str s, _, _ => .str _ s
  | .index i, _, _ => .reads (.index _ i) (.index _ i) (.index i)
  | .value v, _, h => .reads (.value _ v) (.value _ v) (.refl v h)
  | .var name, hidden, _ => by
    rw [Expr.inlineWith]
    split
    next => exact .var _ name
    next hn =>
      split
      next v hv =>
        have hself := hs.lookup name
        rw [hv] at hself
        cases hself with
        | ok same => exact .reads (.var (by simpa using hn) hv) (reads_ofValue _ _ v) same
      next => exact .var _ name
  | .record fields, hidden, h => .record (ExprFields.inlineWith hs calls fields hidden h)
  | .lambda params result body, hidden, h =>
    .lambda params result (Exprs.inlineWith hs calls body (params.map Prod.fst ++ hidden) h)
  | .call name args σ, hidden, h =>
    .call (Args.inlineWith hs calls args hidden (Bool.and_eq_true_iff.mp h).2)
      (.inline calls hidden name (Bool.and_eq_true_iff.mp h).1)
  | .member e name, hidden, h => (Exprs.inlineWith hs calls e hidden h).foldMember name
  | .block bindings result, hidden, h =>
    Exprs.inlineWith_block hs calls bindings hidden (Bool.and_eq_true_iff.mp h).1
      (Exprs.inlineWith hs calls result _ (Bool.and_eq_true_iff.mp h).2)

theorem Exprs.inlineWith_block (hs : p.Scopes p.scope p.scope) (calls : CallTable) {result : Expr} :
    (bindings : List (String × Expr)) → (hidden : List String) → Expr.fieldsLinked 0 p.size bindings = true →
    p.Exprs (.under ((bindings.map Prod.fst).reverse ++ hidden)) result
      (result.inlineWith p.scope calls ((bindings.map Prod.fst).reverse ++ hidden)) →
    p.Exprs (.under hidden) (.block bindings result) (.block (Expr.inlineBindings p.scope calls hidden bindings)
      (result.inlineWith p.scope calls ((bindings.map Prod.fst).reverse ++ hidden)))
  | [], _, _, same => .result same
  | (name, e) :: rest, hidden, h, same => by
    rw [Expr.inlineBindings]
    rw [List.map_cons, List.reverse_cons, ← List.append_cons] at same ⊢
    exact .binding (Exprs.inlineWith hs calls e hidden (Bool.and_eq_true_iff.mp h).1)
      (Exprs.inlineWith_block hs calls rest (name :: hidden) (Bool.and_eq_true_iff.mp h).2 same)

theorem ExprFields.inlineWith (hs : p.Scopes p.scope p.scope) (calls : CallTable) :
    (fields : List (String × Expr)) → (hidden : List String) → Expr.fieldsLinked 0 p.size fields = true →
    p.ExprFields (.under hidden) fields (Expr.inlineFields p.scope calls hidden fields)
  | [], _, _ => .nil _
  | (name, e) :: rest, hidden, h =>
    .cons name (Exprs.inlineWith hs calls e hidden (Bool.and_eq_true_iff.mp h).1)
      (ExprFields.inlineWith hs calls rest hidden (Bool.and_eq_true_iff.mp h).2)

theorem Args.inlineWith (hs : p.Scopes p.scope p.scope) (calls : CallTable) :
    (args : List Expr) → (hidden : List String) → Expr.argsLinked 0 p.size args = true →
    p.Args (.under hidden) args (Expr.inlineArgs p.scope calls hidden args)
  | [], _, _ => .nil _
  | e :: rest, hidden, h =>
    .cons (Exprs.inlineWith hs calls e hidden (Bool.and_eq_true_iff.mp h).1)
      (Args.inlineWith hs calls rest hidden (Bool.and_eq_true_iff.mp h).2)

end

/-! ## Linking -/

theorem Reads.link {scope : Scope} {place : Place} {e : Expr} {v : Value} (h : Reads scope place e v) (n : Nat) :
    e.link n = (e, n) := by
  induction h with
  | index | value | var => rfl
  | member _ _ ih => rw [Expr.link, ih]

/-- The first cell that the first side does not have. -/
def next (p : Pairing) : Nat := p.size + p.left.length

/-- The runs `r` are the runs `q`, perhaps with more cells on the first side. -/
structure Grows (q r : Pairing) : Prop extends q.Extends r where
  same : r.right = q.right

theorem Grows.refl (q : Pairing) : q.Grows q := ⟨.refl q, rfl⟩

theorem Grows.trans {r s : Pairing} (h : q.Grows r) (h' : r.Grows s) : q.Grows s :=
  ⟨h.toExtends.trans h'.toExtends, h'.same.trans h.same⟩

/-- The cell after those of the first side, given to a call. -/
def more (q : Pairing) (name : String) (hidden : Bool) : Pairing :=
  { q with left := q.left ++ [(name, hidden)] }

theorem Grows.more (q : Pairing) (name : String) (hidden : Bool) : q.Grows (q.more name hidden) :=
  ⟨⟨rfl, rfl, List.prefix_append _ _, List.prefix_rfl⟩, rfl⟩

theorem next_more (q : Pairing) (name : String) (hidden : Bool) : (q.more name hidden).next = q.next + 1 := by
  rw [next, next, more, List.length_append, List.length_singleton, Nat.add_assoc]

theorem Sites.more {hidden : List String} {name : String} {τ : CallSite}
    (h : q.Sites (.under hidden) name .unlinked τ) :
    (q.more name (decide (name ∈ hidden))).Sites (.under hidden) name (.cell q.next) τ := by
  have hcell : (CallSite.cell q.next).Own q.scope q.size (q.left ++ [(name, decide (name ∈ hidden))]) hidden name := by
    refine ⟨Nat.le_add_right _ _, ?_⟩
    rw [next, Nat.add_sub_cancel_left, List.getElem?_concat_length]
  refine .apart hcell ?_
  cases h with
  | unlinked => trivial
  | apart _ there => exact there

mutual

theorem Exprs.link : {hidden : List String} → {e e' : Expr} → p.Exprs (.under hidden) e e' → (q : Pairing) →
    p.Extends q → ∃ r linked, q.Grows r ∧ e.link q.next = (linked, r.next) ∧ r.Exprs (.under hidden) linked e'
  | _, _, _, .int _ n, q, _ => ⟨q, _, .refl q, rfl, .int _ n⟩
  | _, _, _, .str _ s, q, _ => ⟨q, _, .refl q, rfl, .str _ s⟩
  | _, _, _, .var _ name, q, _ => ⟨q, _, .refl q, rfl, .var _ name⟩
  | _, _, _, .reads here there same, q, h =>
    ⟨q, _, .refl q, here.link _, (Exprs.reads here there same).mono h⟩
  | _, _, _, .record each, q, h => by
    obtain ⟨r, fields, hr, hlink, heach⟩ := each.link q h
    exact ⟨r, _, hr, by rw [Expr.link, hlink], .record heach⟩
  | _, _, _, .lambda params result bodies, q, h => by
    obtain ⟨r, body, hr, hlink, hbody⟩ := Exprs.link bodies q h
    exact ⟨r, _, hr, by rw [Expr.link, hlink], .lambda params result hbody⟩
  | hidden, _, _, @Exprs.call _ _ name _ _ σ _ each sites, q, h => by
    obtain ⟨r, args, hr, hlink, heach⟩ := each.link q h
    have hsites := sites.mono (h.trans hr.toExtends)
    cases σ with
    | unlinked =>
      have hmore := Grows.more r name (decide (name ∈ hidden))
      refine ⟨_, _, hr.trans hmore, ?_, .call (heach.mono hmore.toExtends) hsites.more⟩
      rw [Expr.link, hlink, next_more]
    | cell n => exact ⟨r, _, hr, by rw [Expr.link, hlink], .call heach hsites⟩
    | known b => exact ⟨r, _, hr, by rw [Expr.link, hlink], .call heach hsites⟩
  | _, _, _, .member name whole, q, h => by
    obtain ⟨r, e, hr, hlink, he⟩ := whole.link q h
    exact ⟨r, _, hr, by rw [Expr.link, hlink], .member name he⟩
  | _, _, _, .result same, q, h => by
    obtain ⟨r, e, hr, hlink, he⟩ := same.link q h
    exact ⟨r, _, hr, by simp only [Expr.link, Expr.linkFields, hlink], .result he⟩
  | _, _, _, @Exprs.binding _ _ _ _ _ result _ rest _ bound inner, q, h => by
    obtain ⟨r, e, hr, hlink, he⟩ := bound.link q h
    obtain ⟨r', block, hr', hblock, hinner⟩ := Exprs.link inner r (h.trans hr.toExtends)
    cases hfields : Expr.linkFields r.next rest with
    | mk rest' n =>
      cases hresult : result.link n with
      | mk result' n' =>
        simp only [Expr.link, hfields, hresult] at hblock
        obtain ⟨rfl, rfl⟩ := Prod.mk.inj hblock
        refine ⟨r', _, hr.trans hr', ?_, .binding (he.mono hr'.toExtends) hinner⟩
        simp only [Expr.link, Expr.linkFields, hlink, hfields, hresult]

theorem ExprFields.link : {hidden : List String} → {fs gs : List (String × Expr)} →
    p.ExprFields (.under hidden) fs gs → (q : Pairing) → p.Extends q →
    ∃ r linked, q.Grows r ∧ Expr.linkFields q.next fs = (linked, r.next) ∧ r.ExprFields (.under hidden) linked gs
  | _, _, _, .nil _, q, _ => ⟨q, _, .refl q, rfl, .nil _⟩
  | _, _, _, .cons name head tail, q, h => by
    obtain ⟨r, e, hr, hlink, he⟩ := head.link q h
    obtain ⟨r', rest, hr', hlink', hrest⟩ := tail.link r (h.trans hr.toExtends)
    refine ⟨r', _, hr.trans hr', ?_, .cons name (he.mono hr'.toExtends) hrest⟩
    simp only [Expr.linkFields, hlink, hlink']

theorem Args.link : {hidden : List String} → {es es' : List Expr} →
    p.Args (.under hidden) es es' → (q : Pairing) → p.Extends q →
    ∃ r linked, q.Grows r ∧ Expr.linkArgs q.next es = (linked, r.next) ∧ r.Args (.under hidden) linked es'
  | _, _, _, .nil _, q, _ => ⟨q, _, .refl q, rfl, .nil _⟩
  | _, _, _, .cons head tail, q, h => by
    obtain ⟨r, e, hr, hlink, he⟩ := head.link q h
    obtain ⟨r', rest, hr', hlink', hrest⟩ := tail.link r (h.trans hr.toExtends)
    refine ⟨r', _, hr.trans hr', ?_, .cons (he.mono hr'.toExtends) hrest⟩
    simp only [Expr.linkArgs, hlink, hlink']

end

/-- Both sides with cells of their own for their calls. -/
theorem Exprs.link_both {hidden : List String} {e e' : Expr} (h : p.Exprs (.under hidden) e e')
    (hleft : p.left = []) (hright : p.right = []) :
    ∃ r : Pairing, r.scope = p.scope ∧ r.size = p.size ∧ (e.link p.size).2 = p.size + r.left.length ∧
      (e'.link p.size).2 = p.size + r.right.length ∧
      r.Exprs (.under hidden) (e.link p.size).1 (e'.link p.size).1 := by
  obtain ⟨q, linked, hq, hlink, he⟩ := h.link p (.refl p)
  obtain ⟨r, linked', hr, hlink', he'⟩ := he.symm.link q.swap (.refl _)
  have hnext : p.next = p.size := by rw [next, hleft, List.length_nil, Nat.add_zero]
  have hswap : q.swap.next = p.size := by
    show q.size + q.right.length = p.size
    rw [hq.size, hq.same, hright, List.length_nil, Nat.add_zero]
  have hsize : r.size = p.size := hr.size.trans hq.size
  have hqleft : q.left = r.right := hr.same.symm
  rw [hnext] at hlink
  rw [hswap] at hlink'
  refine ⟨r.swap, hr.scope.trans hq.scope, hsize, ?_, ?_, ?_⟩
  · rw [hlink, next, hqleft, hq.size]
    rfl
  · rw [hlink', next, hsize]
    rfl
  · rw [hlink, hlink']
    exact he'.symm

end Pairing

end LiveQuery
