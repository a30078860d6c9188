import LiveQuery.Proofs.Machine.Run
import LiveQuery.Proofs.Typing.Judgement

/-! # Inferred types are types

An expression as it is written or planned (`Expr.WellFormed`), whose annotations have no type variables
(`Expr.groundAnnotations`), has the type that is inferred for it, in the sense of the judgement
(`Expr.hasType_of_infer`). It keeps it when its calls are linked to the call table (`HasType.link`).
-/
namespace LiveQuery

namespace Expr

mutual

/-- An expression as it is written or planned: records and record types hold their fields in key order,
nothing is known about calls yet, and no value stands in place of a name. -/
def WellFormed : Expr → Prop
  | .int _ | .str _ | .var _ => True
  | .record fields => Keyed.Ordered fields ∧ FieldsWellFormed fields
  | .lambda params result body => (∀ p ∈ params, p.2.Sorted) ∧ result.Sorted ∧ body.WellFormed
  | .call _ args site => ArgsWellFormed args ∧ site = .unlinked
  | .member e _ => e.WellFormed
  | .block bindings result => FieldsWellFormed bindings ∧ result.WellFormed
  | .index _ | .value _ => False

def FieldsWellFormed : List (String × Expr) → Prop
  | [] => True
  | (_, e) :: rest => e.WellFormed ∧ FieldsWellFormed rest

def ArgsWellFormed : List Expr → Prop
  | [] => True
  | e :: rest => e.WellFormed ∧ ArgsWellFormed rest

end

mutual

/-- Whether no type variable occurs in the annotations of an expression. -/
def groundAnnotations : Expr → Bool
  | .int _ | .str _ | .var _ | .index _ | .value _ => true
  | .record fields => groundFields fields
  | .lambda params result body =>
    params.all (fun p => p.2.isGround) && result.isGround && body.groundAnnotations
  | .call _ args _ => groundArgs args
  | .member e _ => e.groundAnnotations
  | .block bindings result => groundFields bindings && result.groundAnnotations

def groundFields : List (String × Expr) → Bool
  | [] => true
  | (_, e) :: rest => e.groundAnnotations && groundFields rest

def groundArgs : List Expr → Bool
  | [] => true
  | e :: rest => e.groundAnnotations && groundArgs rest

end

/-! ## Inference -/

theorem matchFrom_of_matchArg {param actual : Ty} {bs bs' : Bindings}
    (h : matchArg param actual bs = .ok bs') : param.matchFrom actual bs = (true, bs') := by
  unfold matchArg at h
  split at h
  next hm => cases h; exact hm
  next => cases h

mutual

theorem hasType_of_infer (w : World) : (e : Expr) → (types : TypeScope) → (t : Ty) → e.WellFormed →
    e.groundAnnotations = true → e.infer types = .ok t → HasType w types e t
  | .int n, _, _, _, _, h => by cases h; exact .int n
  | .str s, _, _, _, _, h => by cases h; exact .str s
  | .var _, _, _, _, _, h => .var h
  | .record fields, types, t, hw, hg, h => by
    obtain ⟨ts, hts, h⟩ := ok_of_bind h
    cases h
    exact .record hw.1 (fieldsHaveType_of_infer w fields types ts hw.2 hg hts)
  | .lambda params result body, types, t, hw, hg, h => by
    simp only [groundAnnotations, Bool.and_eq_true, List.all_eq_true] at hg
    obtain ⟨actual, ha, h⟩ := ok_of_bind h
    obtain ⟨bs, hbs, h⟩ := ok_of_bind h
    cases h
    exact .lambda (fun p hp => ⟨hg.1.1 p hp, hw.1 p hp⟩) ⟨hg.1.2, hw.2.1⟩
      (hasType_of_infer w body _ actual hw.2.2 hg.2 ha) hbs
  | .call name args site, types, t, hw, hg, h => by
    obtain ⟨⟨params, result⟩, hs, h⟩ := ok_of_bind h
    simp only [ne_eq] at h
    split at h
    next => cases h
    next hl =>
      simp only [Decidable.not_not] at hl
      obtain ⟨bs, hbs, h⟩ := ok_of_bind h
      obtain ⟨ts, hts, hlen, hm⟩ := argsHaveType_of_infer w params args types [] bs hl hw.1 hg hbs
      exact .call hs hts hlen hm h (by rw [hw.2]; trivial)
  | .member e name, types, t, hw, hg, h => by
    obtain ⟨whole, he, h⟩ := ok_of_bind h
    obtain ⟨fields, rfl, hfield⟩ := memberType_eq_ok_iff.mp h
    exact .member (hasType_of_infer w e types _ hw hg he) hfield
  | .block bindings result, types, t, hw, hg, h => by
    simp only [groundAnnotations, Bool.and_eq_true] at hg
    obtain ⟨inner, hi, h⟩ := ok_of_bind h
    exact blockHasType_of_infer w bindings result types inner t hw.1 hg.1 hi
      (hasType_of_infer w result inner t hw.2 hg.2 h)
  | .index _, _, _, hw, _, _ => hw.elim
  | .value _, _, _, hw, _, _ => hw.elim

theorem fieldsHaveType_of_infer (w : World) : (fields : List (String × Expr)) →
    (types : TypeScope) → (ts : List (String × Ty)) → FieldsWellFormed fields →
    groundFields fields = true → inferFields types fields = .ok ts →
    FieldsHaveType w types fields ts
  | [], _, _, _, _, h => by cases h; exact .nil
  | (name, e) :: rest, types, ts, hw, hg, h => by
    simp only [groundFields, Bool.and_eq_true] at hg
    obtain ⟨t, ht, h⟩ := ok_of_bind h
    obtain ⟨us, hus, h⟩ := ok_of_bind h
    cases h
    exact .cons (hasType_of_infer w e types t hw.1 hg.1 ht)
      (fieldsHaveType_of_infer w rest types us hw.2 hg.2 hus)

theorem argsHaveType_of_infer (w : World) : (params : List Ty) → (args : List Expr) →
    (types : TypeScope) → (bs bs' : Bindings) → params.length = args.length →
    ArgsWellFormed args → groundArgs args = true → inferArgs types params args bs = .ok bs' →
    ∃ ts, ArgsHaveType w types args ts ∧ params.length = ts.length ∧
      Ty.matchParams params ts bs = (true, bs')
  | [], [], _, bs, bs', _, _, _, h => by
    simp only [inferArgs, Except.ok.injEq] at h
    exact ⟨[], .nil, rfl, by simp only [Ty.matchParams, h]⟩
  | [], _ :: _, _, _, _, hl, _, _, _ => by cases hl
  | _ :: _, [], _, _, _, hl, _, _, _ => by cases hl
  | param :: params, e :: args, types, bs, bs', hl, hw, hg, h => by
    simp only [groundArgs, Bool.and_eq_true] at hg
    simp only [inferArgs] at h
    obtain ⟨actual, ha, h⟩ := ok_of_bind h
    obtain ⟨bs₁, hb, h⟩ := ok_of_bind h
    obtain ⟨ts, hts, hlen, hm⟩ :=
      argsHaveType_of_infer w params args types bs₁ bs' (Nat.succ.inj hl) hw.2 hg.2 h
    refine ⟨actual :: ts, .cons (hasType_of_infer w e types actual hw.1 hg.1 ha) hts,
      congrArg Nat.succ hlen, ?_⟩
    simp only [Ty.matchParams, matchFrom_of_matchArg hb, hm]

theorem blockHasType_of_infer (w : World) : (bindings : List (String × Expr)) → (result : Expr) →
    (types inner : TypeScope) → (t : Ty) → FieldsWellFormed bindings →
    groundFields bindings = true → inferBindings types bindings = .ok inner →
    HasType w inner result t → HasType w types (.block bindings result) t
  | [], _, _, _, _, _, _, h, hr => by cases h; exact .result hr
  | (name, e) :: rest, result, types, inner, t, hw, hg, h, hr => by
    simp only [groundFields, Bool.and_eq_true] at hg
    obtain ⟨u, hu, h⟩ := ok_of_bind h
    exact .binding (hasType_of_infer w e types u hw.1 hg.1 hu)
      (blockHasType_of_infer w rest result _ inner t hw.2 hg.2 h hr)

end

end Expr

/-! ## Linking -/

/-- The world with more cells in the call table. -/
def World.addSites (w : World) (more : List (String × Bool)) : World :=
  { w with sites := w.sites ++ more }

theorem World.le_addSites (w : World) (more : List (String × Bool)) : w.Le (w.addSites more) :=
  ⟨List.prefix_refl _, List.prefix_append _ _⟩

@[simp] theorem World.addSites_addSites (w : World) (a b : List (String × Bool)) :
    (w.addSites a).addSites b = w.addSites (a ++ b) := by
  simp only [addSites, List.append_assoc]

@[simp] theorem World.length_addSites (w : World) (more : List (String × Bool)) :
    (w.addSites more).sites.length = w.sites.length + more.length :=
  List.length_append

theorem Expr.keys_linkFields (fields : List (String × Expr)) (n : Nat) :
    Keyed.keys (linkFields n fields).1 = Keyed.keys fields := by
  induction fields generalizing n with
  | nil => rfl
  | cons f fields ih =>
    simp only [linkFields, Keyed.keys, List.map_cons] at ih ⊢
    rw [ih]

mutual

/-- Linking keeps types; the new cells stand for the calls that were given them. -/
theorem HasType.link {w w' : World} (hw : w.Le w') : {types : TypeScope} → {e : Expr} → {t : Ty} →
    HasType w types e t → ∃ more, HasType (w'.addSites more) types (e.link w'.sites.length).1 t ∧
      (e.link w'.sites.length).2 = w'.sites.length + more.length
  | _, _, _, .int n => ⟨[], .int n, rfl⟩
  | _, _, _, .str s => ⟨[], .str s, rfl⟩
  | _, _, _, .var known => ⟨[], .var known, rfl⟩
  | _, _, _, .index sound => ⟨[], .index (sound.mono (hw.trans (w'.le_addSites []))), rfl⟩
  | _, _, _, .value sound => ⟨[], .value (sound.mono (hw.trans (w'.le_addSites []))), rfl⟩
  | _, .record fields, _, .record ordered each => by
    obtain ⟨more, h, hn⟩ := each.link hw
    refine ⟨more, .record ?_ h, hn⟩
    rw [Keyed.ordered_iff_keys, Expr.keys_linkFields, ← Keyed.ordered_iff_keys]
    exact ordered
  | _, _, _, .lambda hp hr body returns => by
    obtain ⟨more, h, hn⟩ := body.link hw
    exact ⟨more, .lambda hp hr h returns, hn⟩
  | types, .call name _ site, _, .call signature each length inst resolved agrees => by
    obtain ⟨more, h, hn⟩ := each.link hw
    have hle := hw.trans (w'.le_addSites more)
    cases site with
    | unlinked =>
      have hlast := (w'.addSites more).le_addSites [(name, Links.binds types name)]
      refine ⟨more ++ [(name, Links.binds types name)], ?_, ?_⟩
      · rw [← World.addSites_addSites]
        refine .call signature (h.mono hlast) length inst resolved ?_
        simp only [CallSite.Agrees, World.addSites]
        rw [hn, ← List.length_append, List.getElem?_concat_length]
      · simp only [Expr.link, hn, List.length_append, List.length_cons, List.length_nil]
        omega
    | cell n => exact ⟨more, .call signature h length inst resolved (agrees.mono hle), hn⟩
    | known b => exact ⟨more, .call signature h length inst resolved (agrees.mono hle), hn⟩
  | _, _, _, .member whole known => by
    obtain ⟨more, h, hn⟩ := whole.link hw
    exact ⟨more, .member h known, hn⟩
  | _, _, _, .result typed => by
    obtain ⟨more, h, hn⟩ := typed.link hw
    exact ⟨more, .result h, hn⟩
  | _, _, _, .binding typed inner => by
    obtain ⟨more, h, hn⟩ := typed.link hw
    obtain ⟨rest, hr, hm⟩ := inner.link (hw.trans (w'.le_addSites more))
    rw [World.length_addSites, ← hn] at hr hm
    rw [World.addSites_addSites] at hr
    refine ⟨more ++ rest, .binding (h.mono ?_) hr, ?_⟩
    · rw [← World.addSites_addSites]
      exact World.le_addSites _ _
    · rw [List.length_append, ← Nat.add_assoc, ← hn]
      exact hm

theorem FieldsHaveType.link {w w' : World} (hw : w.Le w') : {types : TypeScope} →
    {fields : List (String × Expr)} → {ts : List (String × Ty)} → FieldsHaveType w types fields ts →
    ∃ more, FieldsHaveType (w'.addSites more) types (Expr.linkFields w'.sites.length fields).1 ts ∧
      (Expr.linkFields w'.sites.length fields).2 = w'.sites.length + more.length
  | _, _, _, .nil => ⟨[], .nil, rfl⟩
  | _, _, _, .cons head tail => by
    obtain ⟨more, h, hn⟩ := head.link hw
    obtain ⟨rest, hr, hm⟩ := tail.link (hw.trans (w'.le_addSites more))
    rw [World.length_addSites, ← hn] at hr hm
    rw [World.addSites_addSites] at hr
    refine ⟨more ++ rest, .cons (h.mono ?_) hr, ?_⟩
    · rw [← World.addSites_addSites]
      exact World.le_addSites _ _
    · rw [List.length_append, ← Nat.add_assoc, ← hn]
      exact hm

theorem ArgsHaveType.link {w w' : World} (hw : w.Le w') : {types : TypeScope} →
    {args : List Expr} → {ts : List Ty} → ArgsHaveType w types args ts →
    ∃ more, ArgsHaveType (w'.addSites more) types (Expr.linkArgs w'.sites.length args).1 ts ∧
      (Expr.linkArgs w'.sites.length args).2 = w'.sites.length + more.length
  | _, _, _, .nil => ⟨[], .nil, rfl⟩
  | _, _, _, .cons head tail => by
    obtain ⟨more, h, hn⟩ := head.link hw
    obtain ⟨rest, hr, hm⟩ := tail.link (hw.trans (w'.le_addSites more))
    rw [World.length_addSites, ← hn] at hr hm
    rw [World.addSites_addSites] at hr
    refine ⟨more ++ rest, .cons (h.mono ?_) hr, ?_⟩
    · rw [← World.addSites_addSites]
      exact World.le_addSites _ _
    · rw [List.length_append, ← Nat.add_assoc, ← hn]
      exact hm

end

end LiveQuery
