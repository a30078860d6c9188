import LiveQuery.Proofs.Termination.Iterators
import LiveQuery.Proofs.Typing.Judgement

/-! # Values that come to an end

What a value of a type may be so that whatever is done with it ends (`Ty.Holds`): a function ends when it is
called on values of its parameter types, now or on a later stock, and an iterator gives a bounded number of
values of its element type. The definition follows the type.

Data stands in for a value of any type, since the rows of a store are trusted without a look: whatever is done
with data ends as well, if only in a fault. A type with variables in it is that of a built-in function.
-/
namespace LiveQuery

mutual

/-- The value stands for one of the type, on this stock and on later ones. -/
def Ty.Holds : Ty → Stock → Value → Prop
  | .int, _, v | .bool, _, v | .string, _, v | .var _, _, v => v.IsData
  | .record ts, g, v => v.IsData ∨ ∃ fields, v = .record fields ∧ holdsFields ts g fields
  | .iterator t, g, v => v.IsData ∨
      (∃ elements u, v = .array elements u ∧ ∀ x ∈ elements, t.Holds g x) ∨
      ∃ h u n, v = .iterator h u ∧ Supplies t.Holds n g h
  | .function ps r, g, v => v.IsData ∨
      (∃ b, v = .function (.builtin b) ∧ b.ty = .function ps r) ∨
      (Ty.function ps r).isGround = true ∧ ∃ f, v = .function f ∧ ∀ g' s args, g.Le g' →
        holdsArgs ps g' args → Halts g' s (fun k => Eval.call k f args) r.Holds
  | .index _ _, _, v => v.IsData ∨ ∃ i, v = .index i ∧ ∀ b, i.rows = some b → Keyed.Ordered b

def holdsFields : List (String × Ty) → Stock → List (String × Value) → Prop
  | [], _, fields => fields = []
  | (name, t) :: ts, g, fields =>
    ∃ v rest, fields = (name, v) :: rest ∧ t.Holds g v ∧ holdsFields ts g rest

def holdsArgs : List Ty → Stock → List Value → Prop
  | [], _, args => args = []
  | t :: ts, g, args => ∃ v rest, args = v :: rest ∧ t.Holds g v ∧ holdsArgs ts g rest

end

/-! ## Data and later stocks -/

theorem Ty.holds_of_isData (t : Ty) (g : Stock) {v : Value} (h : v.IsData) : t.Holds g v := by
  cases t with
  | int | bool | string | var => simpa only [Ty.Holds] using h
  | record | iterator | function | index => simpa only [Ty.Holds] using Or.inl h

theorem Ty.holds_builtin (b : Builtin) (g : Stock) : b.ty.Holds g (.function (.builtin b)) := by
  simp only [Builtin.ty, Ty.Holds]
  exact Or.inr (Or.inl ⟨b, rfl, rfl⟩)

mutual

theorem Ty.Holds.later : (t : Ty) → {g g' : Stock} → {v : Value} → g.Le g' → t.Holds g v → t.Holds g' v
  | .int, _, _, _, _, h | .bool, _, _, _, _, h | .string, _, _, _, _, h | .var _, _, _, _, _, h => by
    simpa only [Ty.Holds] using h
  | .record ts, g, g', v, hg, h => by
    simp only [Ty.Holds] at h ⊢
    rcases h with h | ⟨fields, rfl, h⟩
    · exact Or.inl h
    · exact Or.inr ⟨fields, rfl, holdsFields_later ts hg h⟩
  | .iterator t, g, g', v, hg, h => by
    simp only [Ty.Holds] at h ⊢
    rcases h with h | ⟨elements, u, rfl, h⟩ | ⟨n, u, m, rfl, h⟩
    · exact Or.inl h
    · exact Or.inr (Or.inl ⟨elements, u, rfl, fun x hx => Ty.Holds.later t hg (h x hx)⟩)
    · exact Or.inr (Or.inr ⟨n, u, m, rfl, h.later hg⟩)
  | .function ps r, g, g', v, hg, h => by
    simp only [Ty.Holds] at h ⊢
    rcases h with h | h | ⟨hground, f, rfl, h⟩
    · exact Or.inl h
    · exact Or.inr (Or.inl h)
    · exact Or.inr (Or.inr ⟨hground, f, rfl, fun g'' s args hg' => h g'' s args (hg.trans hg')⟩)
  | .index k r, g, g', v, _, h => by simpa only [Ty.Holds] using h

theorem holdsFields_later : (ts : List (String × Ty)) → {g g' : Stock} → {fields : List (String × Value)} →
    g.Le g' → holdsFields ts g fields → holdsFields ts g' fields
  | [], _, _, _, _, h => by simpa only [holdsFields] using h
  | (name, t) :: ts, g, g', fields, hg, h => by
    simp only [holdsFields] at h ⊢
    obtain ⟨v, rest, rfl, hv, hrest⟩ := h
    exact ⟨v, rest, rfl, Ty.Holds.later t hg hv, holdsFields_later ts hg hrest⟩

end

theorem Ty.kept_holds (t : Ty) : Stock.Kept t.Holds := fun _ _ _ hg h => Ty.Holds.later t hg h

/-! ## Records -/

theorem find?_of_holdsFields {ts : List (String × Ty)} {g : Stock} {fields : List (String × Value)}
    {name : String} {v : Value} {t : Ty} (h : holdsFields ts g fields) (ht : Keyed.find? ts name = some t)
    (hv : Keyed.find? fields name = some v) : t.Holds g v := by
  induction ts generalizing fields with
  | nil => cases ht
  | cons field ts ih =>
    obtain ⟨name', t'⟩ := field
    simp only [holdsFields] at h
    obtain ⟨v', rest, rfl, hv', hrest⟩ := h
    rw [Keyed.find?_cons] at ht hv
    split at ht
    next heq =>
      rw [if_pos heq] at hv
      cases ht
      cases hv
      exact hv'
    next hne =>
      rw [if_neg hne] at hv
      exact ih hrest ht hv

/-- A member that a value has stands for one of its type. -/
theorem Ty.Holds.member {ts : List (String × Ty)} {g : Stock} {v u : Value} {name : String} {t : Ty}
    (h : (Ty.record ts).Holds g v) (ht : Keyed.find? ts name = some t) (hu : v.member name = .ok u) :
    t.Holds g u := by
  unfold Value.member at hu
  split at hu
  next fields =>
    split at hu
    next w hw =>
      cases hu
      simp only [Ty.Holds] at h
      rcases h with h | ⟨fields', heq, h⟩
      · exact t.holds_of_isData g (Value.fieldsAreData_iff.mp h.2 _ (Keyed.mem_of_find? hw))
      · cases heq
        exact find?_of_holdsFields h ht hw
    next => cases hu
  next => cases hu

/-! ## Scopes -/

/-- Under every name of the links stands a value of its type. -/
def Scope.Holds (g : Stock) (types : TypeScope) (s : Scope) : Prop :=
  ∀ name, Option.Rel (fun t v => Ty.Holds t g v) (Links.find? types name) (Links.find? s name)

/-- Entries for the names of some types. -/
def EntriesHold (g : Stock) (types : List (String × Ty)) (entries : List (String × Value)) : Prop :=
  List.Forall₂ (fun t v => t.1 = v.1 ∧ t.2.Holds g v.2) types entries

theorem EntriesHold.find?_ofList {g : Stock} {types : List (String × Ty)} {entries : List (String × Value)}
    (h : EntriesHold g types entries) (name : String) :
    Option.Rel (fun t v => Ty.Holds t g v) (Keyed.find? (Keyed.ofList types) name)
      (Keyed.find? (Keyed.ofList entries) name) := by
  have hfold : ∀ (ms : List (String × Ty)) (ns : List (String × Value)),
      (∀ name, Option.Rel (fun t v => Ty.Holds t g v) (Keyed.find? ms name) (Keyed.find? ns name)) →
      ∀ name, Option.Rel (fun t v => Ty.Holds t g v)
        (Keyed.find? (types.foldl (fun m e => Keyed.insert m e.1 e.2) ms) name)
        (Keyed.find? (entries.foldl (fun m e => Keyed.insert m e.1 e.2) ns) name) := by
    induction h with
    | nil => exact fun ms ns hms => hms
    | cons hhead _ ih =>
      intro ms ns hms
      refine ih _ _ fun name => ?_
      rw [Keyed.find?_insert, Keyed.find?_insert, hhead.1]
      split
      next => exact .some hhead.2
      next => exact hms name
  exact hfold [] [] (fun _ => .none) name

namespace Scope.Holds

variable {g g' : Stock} {types : TypeScope} {s : Scope}

theorem later (h : s.Holds g types) (hg : g.Le g') : s.Holds g' types := by
  intro name
  have hname := h name
  revert hname
  generalize Links.find? types name = t
  generalize Links.find? s name = v
  rintro (hv | _)
  · exact .some (Ty.Holds.later _ hg hv)
  · exact .none

theorem binds (h : s.Holds g types) (name : String) : Links.binds s name = Links.binds types name := by
  have hname := h name
  revert hname
  rw [Links.binds, Links.binds]
  generalize Links.find? types name = t
  generalize Links.find? s name = v
  rintro (_ | _) <;> rfl

theorem child (h : s.Holds g types) {ts : List (String × Ty)} {entries : List (String × Value)}
    (he : EntriesHold g ts entries) : Scope.Holds g (Links.child types ts) (Links.child s entries) := by
  intro name
  have hname := he.find?_ofList name
  simp only [Links.child, Links.find?]
  revert hname
  generalize Keyed.find? (Keyed.ofList ts) name = t
  generalize Keyed.find? (Keyed.ofList entries) name = v
  rintro (hv | _)
  · exact .some hv
  · exact h name

theorem root : Scope.Holds g TypeScope.root Scope.root := fun _ => .none

/-- Under a name that has a type stands a value of it. -/
theorem lookup (h : s.Holds g types) {name : String} {t : Ty} (ht : types.lookup name = .ok t) :
    ∃ v, Scope.lookup s name = .ok v ∧ t.Holds g v := by
  have hname := h name
  rw [TypeScope.lookup] at ht
  rw [Scope.lookup]
  generalize Links.find? types name = found, Links.find? s name = value at hname ht ⊢
  cases hname with
  | some hv =>
    cases ht
    exact ⟨_, rfl, hv⟩
  | none =>
    rw [Scope.rootType?_eq] at ht
    cases hroot : rootValue? name with
    | none => rw [hroot] at ht; cases ht
    | some v =>
      rw [hroot] at ht
      cases ht
      refine ⟨v, rfl, ?_⟩
      unfold rootValue? at hroot
      split at hroot
      next => cases hroot; exact Ty.holds_of_isData _ g trivial
      next =>
        split at hroot
        next => cases hroot; exact Ty.holds_of_isData _ g trivial
        next =>
          obtain ⟨b, -, rfl⟩ := Option.map_eq_some_iff.mp hroot
          exact Ty.holds_builtin b g

end Scope.Holds

/-- The arguments of a call stand under the names of the parameters. -/
theorem EntriesHold.of_args {g : Stock} {params : List (String × Ty)} {args : List Value}
    (h : holdsArgs (params.map Prod.snd) g args) :
    EntriesHold g params ((params.map Prod.fst).zip args) := by
  induction params generalizing args with
  | nil => exact .nil
  | cons p params ih =>
    simp only [List.map_cons, holdsArgs] at h
    obtain ⟨v, rest, rfl, hv, hrest⟩ := h
    exact .cons ⟨rfl, hv⟩ (ih hrest)

end LiveQuery
