import LiveQuery.Proofs.Typing.Soundness

/-! # Inlining keeps types

Under the types of a scope, an expression has the same type after its free names have been replaced by
their values in that scope (`HasType.inline`). `Outside` says which names inlining may replace: those
that mean under the binders around the expression what they mean in the scope.
-/
namespace LiveQuery

/-- The names that are not hidden have the types that they have in the scope. -/
def Outside (scope : Scope) (hidden : List String) (types : TypeScope) : Prop :=
  ∀ name, hidden.contains name = false → TypeScope.lookup types name = TypeScope.lookup scope.types name

theorem Links.find?_child_of_not_mem {α : Type} (links : Links α) {entries : List (String × α)}
    {name : String} (h : name ∉ entries.map Prod.fst) :
    Links.find? (Links.child links entries) name = Links.find? links name := by
  simp only [Links.child, Links.find?, Keyed.find?_ofList_eq_none h]

namespace Outside

variable {scope : Scope} {hidden : List String} {types : TypeScope}

theorem none (scope : Scope) : Outside scope [] scope.types := fun _ _ => rfl

theorem child (h : Outside scope hidden types) (entries : List (String × Ty)) :
    Outside scope (entries.map Prod.fst ++ hidden) (Links.child types entries) := by
  intro name hn
  rw [List.contains_eq_mem, decide_eq_false_iff_not, List.mem_append, not_or] at hn
  rw [← h name (by rw [List.contains_eq_mem, decide_eq_false_iff_not]; exact hn.2)]
  simp only [TypeScope.lookup, Links.find?_child_of_not_mem types hn.1]

end Outside

namespace Expr

theorem keys_inlineFields (scope : Scope) (calls : CallTable) (hidden : List String)
    (fields : List (String × Expr)) :
    Keyed.keys (inlineFields scope calls hidden fields) = Keyed.keys fields := by
  induction fields with
  | nil => rfl
  | cons f fields ih => exact congrArg (f.1 :: ·) ih

end Expr

/-- A sound value stands for itself as an expression. -/
theorem Sound.hasType_ofValue {w : World} {v : Value} (h : Sound w v) (types : TypeScope) :
    HasType w types (Expr.ofValue v) v.ty := by
  cases v with
  | index i => exact .index h
  | _ => exact .value h

/-- The member that is taken at once has the type of the member. -/
theorem HasType.foldMember {w : World} {types : TypeScope} {e : Expr} {name : String}
    {ts : List (String × Ty)} {t : Ty} (whole : HasType w types e (.record ts))
    (known : Keyed.find? ts name = some t) : HasType w types (e.foldMember name) t := by
  unfold Expr.foldMember
  split
  next fields =>
    generalize hu : Ty.record ts = u at whole
    cases whole with
    | value sound =>
      cases hu
      split
      next v hv =>
        rw [Value.fieldTypes_eq, Keyed.find?_mapValues, hv] at known
        cases known
        cases sound with
        | record _ each => exact (each _ (Keyed.mem_of_find? hv)).hasType_ofValue types
      next => exact .member (.value sound) known
  next => exact .member whole known

/-- What inlining finds out about a call agrees with the names in scope. -/
theorem CallSite.Agrees.inline {w : World} {scope : Scope} {hidden : List String} {types : TypeScope}
    {name : String} {site : CallSite} (ho : Outside scope hidden types)
    (h : site.Agrees w types name) :
    (Expr.inlineSite scope #[] hidden name site).Agrees w types name := by
  unfold Expr.inlineSite
  cases hr : site.resolved? #[] with
  | some b =>
    cases site with
    | known b' => cases hr; exact h
    | unlinked => cases hr
    | cell n => simp [CallSite.resolved?] at hr
  | none =>
    simp only []
    split
    next => trivial
    next hn =>
      split
      next b hb =>
        have ht := ho name (by simpa using hn)
        rw [Scope.lookup_types, hb] at ht
        simp only [CallSite.Agrees, Expr.signature, ht]
        rfl
      next => trivial

mutual

theorem HasType.inlineWith {w : World} {scope : Scope} (hs : scope.AllSound w) :
    {types : TypeScope} → {hidden : List String} → {e : Expr} → {t : Ty} →
    Outside scope hidden types → HasType w types e t →
    HasType w types (e.inlineWith scope #[] hidden) t
  | _, _, _, _, _, .int n => .int n
  | _, _, _, _, _, .str s => .str s
  | _, _, _, _, _, .index sound => .index sound
  | _, _, _, _, _, .value sound => .value sound
  | types, hidden, .var name, t, ho, .var known => by
    unfold Expr.inlineWith
    split
    next => exact .var known
    next hn =>
      split
      next v hv =>
        have ht := ho name (by simpa using hn)
        rw [known, Scope.lookup_types, hv] at ht
        cases ht
        exact (hs.lookup hv).hasType_ofValue types
      next => exact .var known
  | _, _, _, _, ho, .record ordered each => by
    refine .record ?_ (each.inlineWith hs ho)
    rw [Keyed.ordered_iff_keys, Expr.keys_inlineFields, ← Keyed.ordered_iff_keys]
    exact ordered
  | _, _, _, _, ho, .lambda hp hr body returns =>
    .lambda hp hr (body.inlineWith hs (ho.child _)) returns
  | _, _, _, _, ho, .call signature each length inst resolved agrees =>
    .call signature (each.inlineWith hs ho) length inst resolved (agrees.inline ho)
  | _, _, _, _, ho, .member whole known => (whole.inlineWith hs ho).foldMember known
  | _, _, _, _, ho, .result typed => .result (typed.inlineWith hs ho)
  | _, hidden, .block ((name, e) :: rest) result, _, ho, .binding typed inner => by
    have hrest := inner.inlineWith hs (ho.child [(name, _)])
    rw [Expr.inlineWith, Expr.inlineBindings, List.map_cons, List.reverse_cons, ← List.append_cons]
    exact .binding (typed.inlineWith hs ho) hrest

theorem FieldsHaveType.inlineWith {w : World} {scope : Scope} (hs : scope.AllSound w) :
    {types : TypeScope} → {hidden : List String} → {fields : List (String × Expr)} →
    {ts : List (String × Ty)} → Outside scope hidden types → FieldsHaveType w types fields ts →
    FieldsHaveType w types (Expr.inlineFields scope #[] hidden fields) ts
  | _, _, _, _, _, .nil => .nil
  | _, _, _, _, ho, .cons head tail => .cons (head.inlineWith hs ho) (tail.inlineWith hs ho)

theorem ArgsHaveType.inlineWith {w : World} {scope : Scope} (hs : scope.AllSound w) :
    {types : TypeScope} → {hidden : List String} → {args : List Expr} → {ts : List Ty} →
    Outside scope hidden types → ArgsHaveType w types args ts →
    ArgsHaveType w types (Expr.inlineArgs scope #[] hidden args) ts
  | _, _, _, _, _, .nil => .nil
  | _, _, _, _, ho, .cons head tail => .cons (head.inlineWith hs ho) (tail.inlineWith hs ho)

end

/-- An expression keeps its type when its names are replaced by their values. -/
theorem HasType.inline {w : World} {scope : Scope} {e : Expr} {t : Ty} (hs : scope.AllSound w)
    (h : HasType w scope.types e t) : HasType w scope.types (e.inline scope #[]) t :=
  h.inlineWith hs (Outside.none scope)

end LiveQuery
