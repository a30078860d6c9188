import LiveQuery.Proofs.Termination.Builtins
import LiveQuery.Proofs.Typing.Soundness

/-! # Typed expressions come to an end

An expression of a type, in which no value stands in place of a name, ends in a value of the type, in every scope
whose values hold and on every stock (`HasType.halts`). The induction follows the typing, so it needs no bound on
the calls that are made: a call of a function ends because the function's value says so.
-/
namespace LiveQuery

/-! ## Expressions without values -/

namespace Expr

mutual

/-- No value stands in the expression in place of a name. -/
def Written : Expr → Prop
  | .int _ | .str _ | .var _ => True
  | .record fields => FieldsWritten fields
  | .lambda _ _ body => body.Written
  | .call _ args _ => ArgsWritten args
  | .member e _ => e.Written
  | .block bindings result => FieldsWritten bindings ∧ result.Written
  | .index _ | .value _ => False

def FieldsWritten : List (String × Expr) → Prop
  | [] => True
  | (_, e) :: rest => e.Written ∧ FieldsWritten rest

def ArgsWritten : List Expr → Prop
  | [] => True
  | e :: rest => e.Written ∧ ArgsWritten rest

end

mutual

theorem written_link : (e : Expr) → (n : Nat) → e.WellFormed → (e.link n).1.Written
  | .int _, _, _ | .str _, _, _ | .var _, _, _ => trivial
  | .record fields, n, h => fieldsWritten_link fields n h.2
  | .lambda _ _ body, n, h => written_link body n h.2.2
  | .call name args site, n, h => by
    obtain ⟨hargs, rfl⟩ := h
    exact argsWritten_link args n hargs
  | .member e _, n, h => written_link e n h
  | .block bindings result, n, h => ⟨fieldsWritten_link bindings n h.1, written_link result _ h.2⟩
  | .index _, _, h | .value _, _, h => h.elim

theorem fieldsWritten_link : (fields : List (String × Expr)) → (n : Nat) → FieldsWellFormed fields →
    FieldsWritten (linkFields n fields).1
  | [], _, _ => trivial
  | (_, e) :: rest, n, h => ⟨written_link e n h.1, fieldsWritten_link rest _ h.2⟩

theorem argsWritten_link : (args : List Expr) → (n : Nat) → ArgsWellFormed args →
    ArgsWritten (linkArgs n args).1
  | [], _, _ => trivial
  | e :: rest, n, h => ⟨written_link e n h.1, argsWritten_link rest _ h.2⟩

end

end Expr

/-! ## Types in key order -/

/-- The types of the names of a scope have their records in key order. -/
def TypeScope.Sorted (types : TypeScope) : Prop := ∀ link ∈ types, ∀ e ∈ link, e.2.Sorted

namespace TypeScope.Sorted

variable {types : TypeScope}

theorem child (h : types.Sorted) {entries : List (String × Ty)} (he : ∀ e ∈ entries, e.2.Sorted) :
    TypeScope.Sorted (Links.child types entries) := by
  intro link hl e hmem
  rcases List.mem_cons.mp hl with rfl | hl
  · exact he e (Keyed.mem_of_mem_ofList hmem)
  · exact h link hl e hmem

theorem find? (h : types.Sorted) {name : String} {t : Ty} (ht : Links.find? types name = some t) : t.Sorted := by
  induction types with
  | nil => cases ht
  | cons link types ih =>
    simp only [Links.find?] at ht
    split at ht
    next u hu =>
      cases ht
      exact h link List.mem_cons_self _ (Keyed.mem_of_find? hu)
    next => exact ih (fun l hl => h l (List.mem_cons_of_mem _ hl)) ht

theorem lookup (h : types.Sorted) {name : String} {t : Ty} (ht : types.lookup name = .ok t) : t.Sorted := by
  unfold TypeScope.lookup at ht
  split at ht
  next u hu => cases ht; exact h.find? hu
  next =>
    split at ht
    next u hu =>
      cases ht
      unfold rootType? at hu
      split at hu
      next => cases hu; trivial
      next =>
        obtain ⟨b, -, rfl⟩ := Option.map_eq_some_iff.mp hu
        exact b.sorted_ty
    next => cases ht

theorem signature (h : types.Sorted) {name : String} {params : List Ty} {result : Ty}
    (hs : Expr.signature types name = .ok (params, result)) :
    types.lookup name = .ok (.function params result) ∧ Ty.SortedList params ∧ result.Sorted := by
  obtain ⟨t, ht, hs⟩ := ok_of_bind hs
  split at hs
  next => cases hs; exact ⟨ht, h.lookup ht⟩
  next => cases hs

end TypeScope.Sorted

mutual

theorem HasType.sorted {w : World} : {types : TypeScope} → {e : Expr} → {t : Ty} → HasType w types e t →
    types.Sorted → t.Sorted
  | _, _, _, .int _, _ | _, _, _, .str _, _ => trivial
  | _, _, _, .var known, h => h.lookup known
  | _, .record _, _, .record ordered each, h => by
    obtain ⟨hkeys, hsorted⟩ := each.sorted h
    refine ⟨?_, hsorted⟩
    rw [Keyed.ordered_iff_keys, hkeys, ← Keyed.ordered_iff_keys]
    exact ordered
  | _, _, _, .lambda params_proper result_proper _ _, _ => by
    refine ⟨Ty.sortedList_iff.mpr fun t ht => ?_, result_proper.sorted⟩
    obtain ⟨p, hp, rfl⟩ := List.mem_map.mp ht
    exact (params_proper p hp).sorted
  | _, _, _, .call signature each _ inst resolved _, h => by
    have hbs : Ty.SortedBindings [] := fun _ he => nomatch he
    exact Ty.sorted_of_substitute _ _ _ (h.signature signature).2.2
      (Ty.sortedBindings_of_matchParams _ _ _ _ (each.sorted h) hbs inst) resolved
  | _, _, _, .member whole known, h =>
    Ty.sortedFields_iff.mp (whole.sorted h).2 _ (Keyed.mem_of_find? known)
  | _, _, _, .result typed, h => typed.sorted h
  | _, _, _, .binding typed inner, h =>
    inner.sorted (h.child fun e he => by rw [List.mem_singleton.mp he]; exact typed.sorted h)
  | _, _, _, .index sound, _ => sound.ty_sorted
  | _, _, _, .value sound, _ => sound.ty_sorted

theorem FieldsHaveType.sorted {w : World} : {types : TypeScope} → {fields : List (String × Expr)} →
    {ts : List (String × Ty)} → FieldsHaveType w types fields ts → types.Sorted →
    Keyed.keys ts = Keyed.keys fields ∧ Ty.SortedFields ts
  | _, _, _, .nil, _ => ⟨rfl, trivial⟩
  | _, _, _, .cons head tail, h =>
    ⟨congrArg (_ :: ·) (tail.sorted h).1, head.sorted h, (tail.sorted h).2⟩

theorem ArgsHaveType.sorted {w : World} : {types : TypeScope} → {args : List Expr} → {ts : List Ty} →
    ArgsHaveType w types args ts → types.Sorted → Ty.SortedList ts
  | _, _, _, .nil, _ => trivial
  | _, _, _, .cons head tail, h => ⟨head.sorted h, tail.sorted h⟩

end

/-! ## Calls -/

theorem length_of_holdsArgs {ts : List Ty} {g : Stock} {args : List Value} (h : holdsArgs ts g args) :
    ts.length = args.length := by
  induction ts generalizing args with
  | nil =>
    simp only [holdsArgs] at h
    rw [h, List.length_nil, List.length_nil]
  | cons t ts ih =>
    simp only [holdsArgs] at h
    obtain ⟨v, rest, rfl, -, hrest⟩ := h
    exact congrArg Nat.succ (ih hrest)

/-- Looking a function up takes no fuel. -/
theorem Eval.exec_resolve_ne_none (name : String) (site : CallSite) (m : Machine) :
    (Eval.resolve name site).exec m ≠ none := by
  rw [Eval.resolve, exec_bind, exec_get, Option.bind_some, next?_ok]
  split
  next => simp
  next =>
    rw [exec_bind, exec_ofExcept, Option.bind_some]
    cases m.top.scope.lookup name with
    | error e => simp
    | ok v =>
      rw [next?_ok]
      split
      next =>
        split
        next =>
          split
          next => simp
          next => exact Option.some_ne_none _
        next => simp
      next => simp

/-- The function that a call names holds as its signature says. -/
theorem Halts.resolve {g : Stock} {s : Scope} {types : TypeScope} {w : World} {name : String}
    {site : CallSite} {params : List Ty} {result : Ty} (hs : s.Holds g types) (hsites : g.sites = w.sites)
    (known : types.lookup name = .ok (.function params result)) (hsite : site.Agrees w types name) :
    Halts g s (fun _ => Eval.resolve name site) fun g' f =>
      g' = g ∧ (Ty.function params result).Holds g (.function f) := by
  obtain ⟨v, hv, hholds⟩ := hs.lookup known
  intro m hm htop
  cases hexec : (Eval.resolve name site).exec m with
  | none => exact absurd hexec (Eval.exec_resolve_ne_none name site m)
  | some p =>
    obtain ⟨r, m'⟩ := p
    suffices h : m'.Stocks g ∧ m'.frames = m.frames ∧
        ∀ f, r = .ok f → (Ty.function params result).Holds g (.function f) from
      ⟨0, r, m', g, fun _ _ => hexec, .refl g, h.1, h.2.1, fun f hf => ⟨rfl, h.2.2 f hf⟩⟩
    rw [Eval.resolve, Eval.exec_bind, Eval.exec_get, Option.bind_some, Eval.next?_ok] at hexec
    cases hres : site.resolved? m.calls with
    | some b =>
      rw [hres] at hexec
      cases hexec
      refine ⟨hm, rfl, ?_⟩
      rintro f ⟨⟩
      cases site with
      | unlinked => cases hres
      | known b' =>
        cases hres
        obtain ⟨t, ht, hsig⟩ := ok_of_bind hsite
        cases known.symm.trans ht
        cases hsig
        exact Ty.holds_builtin b g
      | cell n =>
        obtain ⟨name', hn, hroot⟩ := hm.calls n b (Option.join_eq_some_iff.mp hres)
        rw [hsites] at hn
        obtain ⟨rfl, hb⟩ := Prod.mk.inj (Option.some.inj (hn.symm.trans hsite))
        rw [← hs.binds] at hb
        cases hroot.symm.trans ((Scope.lookup_of_not_binds hb.symm).mp hv)
        exact hholds
    | none =>
      rw [hres, htop] at hexec
      simp only [hv, Eval.exec_bind, Eval.exec_ofExcept, Option.bind_some, Eval.next?_ok] at hexec
      split at hexec
      next f =>
        have hf : ∀ f', Except.ok f = (Except.ok f' : Except EvalFault Function) →
            (Ty.function params result).Holds g (.function f') := by
          rintro f' ⟨⟩
          exact hholds
        split at hexec
        next b n =>
          split at hexec
          next => cases hexec; exact ⟨hm, rfl, hf⟩
          next hb =>
            cases hexec
            rw [Bool.not_eq_true] at hb
            refine ⟨hm.note ?_ ((Scope.lookup_of_not_binds hb).mp hv), rfl, hf⟩
            rw [hsites, ← hb, hs.binds]
            exact hsite
        next => cases hexec; exact ⟨hm, rfl, hf⟩
      next => cases hexec; exact ⟨hm, rfl, by simp⟩

/-- A call ends if its function holds and its arguments match the parameters. -/
theorem Halts.call {g : Stock} {s : Scope} {f : Function} {args : List Value} {params ts : List Ty}
    {result t : Ty} {bs : Bindings} (hf : (Ty.function params result).Holds g (.function f))
    (hparams : Ty.SortedList params) (hts : Ty.SortedList ts) (hargs : holdsArgs ts g args)
    (length : params.length = ts.length) (hm : Ty.matchParams params ts [] = (true, bs))
    (ht : result.substitute bs = .ok t) : Halts g s (fun k => Eval.call k f args) t.Holds := by
  simp only [Ty.Holds] at hf
  rcases hf with hf | ⟨b, hf, hb⟩ | ⟨hground, f', hf, h⟩
  · cases hf
  · cases hf
    cases hb
    rw [List.length_map] at length
    exact Builtin.call_halts fun s => b.apply_halts hargs length hm ht
  · cases hf
    simp only [Ty.isGround, Bool.and_eq_true] at hground
    obtain ⟨rfl, -⟩ := Ty.eq_of_matchParams _ _ _ _ hground.1 hparams hts length hm
    cases (Ty.substitute_of_ground result bs hground.2).symm.trans ht
    exact h g s args (.refl g) hargs

/-- The function that a function expression makes holds if its body ends in values of its result. -/
theorem Ty.Holds.closure {g : Stock} {types : TypeScope} {stamp : Nat} {params : List (String × Ty)}
    {result : Ty} {body : Expr} {scope : Scope} (hparams : ∀ p ∈ params, p.2.Proper) (hresult : result.Proper)
    (hs : scope.Holds g types)
    (hbody : ∀ g' s, g.Le g' → s.Holds g' (Links.child types params) →
      Halts g' s (fun k => Eval.eval k body) result.Holds) :
    (Ty.function (params.map Prod.snd) result).Holds g
      (.function (.closure stamp params result body scope)) := by
  simp only [Ty.Holds]
  refine Or.inr (Or.inr ⟨?_, _, rfl, fun g' s args hg hargs => ?_⟩)
  · simp only [Ty.isGround, Bool.and_eq_true, Ty.groundList_iff]
    refine ⟨fun t ht => ?_, hresult.ground⟩
    obtain ⟨p, hp, rfl⟩ := List.mem_map.mp ht
    exact (hparams p hp).ground
  · have harity : (Function.closure stamp params result body scope).arity = args.length := by
      rw [← length_of_holdsArgs hargs, List.length_map, Function.arity]
    refine Halts.succ (Halts.takeRowPath.bind fun g₁ path _ hg₁ => ?_) fun k => by
      rw [Eval.call, if_neg (not_not_intro harity)]
    subst hg₁
    exact Halts.inFrame (hbody g₁ _ hg ((hs.later hg).child (EntriesHold.of_args hargs)))

/-! ## Expressions -/

mutual

/-- A typed expression without values in it ends in a value of its type. -/
theorem HasType.halts {w : World} : {types : TypeScope} → {e : Expr} → {t : Ty} → HasType w types e t →
    e.Written → types.Sorted → ∀ {g : Stock} {s : Scope}, g.sites = w.sites → s.Holds g types →
    Halts g s (fun k => Eval.eval k e) t.Holds
  | _, _, _, .int n, _, _, g, _, _, _ =>
    Halts.succ (Halts.pure (Ty.holds_of_isData .int g (v := .int n) trivial)) fun k => rfl
  | _, _, _, .str x, _, _, g, _, _, _ =>
    Halts.succ (Halts.pure (Ty.holds_of_isData .string g (v := .str x) trivial)) fun k => rfl
  | _, .var name, t, .var known, _, _, g, s, _, hs => by
    refine Halts.succ (Halts.scope.bind fun g₁ s₁ _ h => ?_) fun k => by rw [Eval.eval]
    obtain ⟨rfl, rfl⟩ := h
    obtain ⟨v, hv, hholds⟩ := hs.lookup known
    rw [hv]
    exact Halts.ofExcept (by rintro u ⟨⟩; exact hholds)
  | types, .record fields, .record ts, .record _ each, hw, htypes, g, s, hsites, hs => by
    refine Halts.succ ((each.halts hw htypes hsites hs).bind fun g₁ vs _ hvs => ?_) fun k => by rw [Eval.eval]
    refine Halts.pure ?_
    simp only [Ty.Holds]
    exact Or.inr ⟨vs, rfl, hvs⟩
  | types, .lambda params result body, _, .lambda hp hr body_typed returns, hw, htypes, g, s, hsites, hs => by
    refine Halts.succ (Halts.freshStamp.bind fun g₁ stamp _ h => ?_) fun k => by rw [Eval.eval]
    subst h
    refine Halts.scope.bind fun g₂ s₂ _ h => ?_
    obtain ⟨rfl, rfl⟩ := h
    have hinner : TypeScope.Sorted (Links.child types params) := htypes.child fun p hp' => (hp p hp').sorted
    cases Ty.eq_of_expect hr (body_typed.sorted hinner) returns
    refine Halts.pure (Ty.Holds.closure hp hr hs fun g' s' hg hs' => ?_)
    exact body_typed.halts hw hinner (hg.sites.trans hsites) hs'
  | types, .call name args site, t, .call signature each length inst resolved agrees, hw, htypes, g, s,
      hsites, hs => by
    obtain ⟨known, hparams, -⟩ := htypes.signature signature
    refine Halts.succ ((Halts.resolve hs hsites known agrees).bind fun g₁ f _ hf => ?_) fun k => by
      rw [Eval.eval]
    obtain ⟨rfl, hf⟩ := hf
    refine (each.halts hw htypes hsites hs).bind fun g₂ vs hg₂ hvs => ?_
    exact Halts.call (Ty.Holds.later _ hg₂ hf) hparams (each.sorted htypes) hvs length inst resolved
  | types, .member e name, t, .member whole known, hw, htypes, g, s, hsites, hs => by
    refine Halts.succ ((whole.halts hw htypes hsites hs).bind fun g₁ v _ hv => ?_) fun k => by rw [Eval.eval]
    exact Halts.ofExcept fun u hu => hv.member known hu
  | types, .block [] e, t, .result typed, hw, htypes, g, s, hsites, hs => by
    refine Halts.succ (Halts.scope.bind fun g₁ s₁ _ h => ?_) fun k => by rw [Eval.eval]
    obtain ⟨rfl, rfl⟩ := h
    exact Halts.within (typed.halts hw.2 htypes hsites hs)
  | types, .block ((name, e) :: rest) result, t, .binding typed inner, hw, htypes, g, s, hsites, hs => by
    refine Halts.succ (Halts.scope.bind fun g₁ s₁ _ h => ?_) fun k => by rw [Eval.eval]
    obtain ⟨rfl, rfl⟩ := h
    simp only [List.foldlM_cons, bind_assoc, pure_bind]
    refine (Halts.within (typed.halts hw.1.1 htypes hsites hs)).bind fun g₂ v hg₂ hv => ?_
    refine inner.block_halts rfl hw.1.2 hw.2 (htypes.child ?_) (hg₂.sites.trans hsites)
      ((hs.later hg₂).child (.cons ⟨rfl, hv⟩ .nil))
    intro entry hentry
    rw [List.mem_singleton.mp hentry]
    exact typed.sorted htypes
  | _, _, _, .index _, hw, _, _, _, _, _ | _, _, _, .value _, hw, _, _, _, _, _ => hw.elim

/-- What is left of a block ends, in the scope that the bindings before it have made. -/
theorem HasType.block_halts {w : World} : {types : TypeScope} → {e : Expr} → {t : Ty} →
    HasType w types e t → ∀ {bindings : List (String × Expr)} {result : Expr}, e = .block bindings result →
    Expr.FieldsWritten bindings → result.Written → types.Sorted → ∀ {g : Stock} {s inner : Scope},
    g.sites = w.sites → inner.Holds g types → Halts g s (fun k => do
      let inner ← bindings.foldlM
        (fun s (name, e) => do return Links.child s [(name, ← Eval.within s (Eval.eval k e))]) inner
      Eval.within inner (Eval.eval k result)) t.Holds
  | _, _, _, .result typed, _, _, rfl, _, hw, htypes, g, s, inner, hsites, hs => by
    simp only [List.foldlM_nil, pure_bind]
    exact Halts.within (typed.halts hw htypes hsites hs)
  | _, _, _, .binding typed inner, _, _, rfl, hb, hw, htypes, g, s, outer, hsites, hs => by
    simp only [List.foldlM_cons, bind_assoc, pure_bind]
    refine (Halts.within (typed.halts hb.1 htypes hsites hs)).bind fun g₂ v hg₂ hv => ?_
    refine inner.block_halts rfl hb.2 hw (htypes.child ?_) (hg₂.sites.trans hsites)
      ((hs.later hg₂).child (.cons ⟨rfl, hv⟩ .nil))
    intro entry hentry
    rw [List.mem_singleton.mp hentry]
    exact typed.sorted htypes

theorem FieldsHaveType.halts {w : World} : {types : TypeScope} → {fields : List (String × Expr)} →
    {ts : List (String × Ty)} → FieldsHaveType w types fields ts → Expr.FieldsWritten fields →
    types.Sorted → ∀ {g : Stock} {s : Scope}, g.sites = w.sites → s.Holds g types →
    Halts g s (fun k => fields.mapM fun (name, e) => do return (name, ← Eval.eval k e)) (holdsFields ts)
  | _, _, _, .nil, _, _, g, s, _, _ => by
    simp only [List.mapM_nil]
    exact Halts.pure rfl
  | _, _, _, .cons head tail, hw, htypes, g, s, hsites, hs => by
    simp only [List.mapM_cons, bind_assoc, pure_bind]
    refine (head.halts hw.1 htypes hsites hs).bind fun g₁ v hg₁ hv => ?_
    refine (tail.halts hw.2 htypes (hg₁.sites.trans hsites) (hs.later hg₁)).bind fun g₂ vs hg₂ hvs => ?_
    refine Halts.pure ?_
    simp only [holdsFields]
    exact ⟨v, vs, rfl, Ty.Holds.later _ hg₂ hv, hvs⟩

theorem ArgsHaveType.halts {w : World} : {types : TypeScope} → {args : List Expr} → {ts : List Ty} →
    ArgsHaveType w types args ts → Expr.ArgsWritten args → types.Sorted →
    ∀ {g : Stock} {s : Scope}, g.sites = w.sites → s.Holds g types →
    Halts g s (fun k => args.mapM (Eval.eval k)) (holdsArgs ts)
  | _, _, _, .nil, _, _, g, s, _, _ => by
    simp only [List.mapM_nil]
    exact Halts.pure rfl
  | _, _, _, .cons head tail, hw, htypes, g, s, hsites, hs => by
    simp only [List.mapM_cons]
    refine (head.halts hw.1 htypes hsites hs).bind fun g₁ v hg₁ hv => ?_
    refine (tail.halts hw.2 htypes (hg₁.sites.trans hsites) (hs.later hg₁)).bind fun g₂ vs hg₂ hvs => ?_
    refine Halts.pure ?_
    simp only [holdsArgs]
    exact ⟨v, vs, rfl, Ty.Holds.later _ hg₂ hv, hvs⟩

end

end LiveQuery
