import LiveQuery.Proofs.Inlining.Follows
import LiveQuery.Proofs.Machine.Fuel

/-! # Names side by side

What an expression reads off and what a call finds under a name, on two machines that belong together. A call that
knows only what its name tells finds what the name means in the innermost scope, whatever its cell holds
(`CallSite.Own.resolve`); so two such calls find functions that belong together, though one of them may have been
noted and the other looked up (`Follows.resolve`).
-/
namespace LiveQuery

/-- The function that a scope has under a name. -/
def Scope.function (scope : Scope) (name : String) : Except EvalFault Function :=
  match scope.lookup name with
  | .ok (.function f) => .ok f
  | .ok _ => .error (.notAFunction name)
  | .error e => .error e

/-- The call table after a call of `name` was looked up. -/
def Machine.noted (m : Machine) (name : String) (site : CallSite) : CallTable :=
  match site with
  | .cell n =>
    match m.top.scope.function name with
    | .ok (.builtin b) => if Links.binds m.top.scope name then m.calls else m.calls.setIfInBounds n (some b)
    | _ => m.calls
  | .unlinked | .known _ => m.calls

theorem Eval.exec_resolve (name : String) (site : CallSite) (m : Machine) :
    (Eval.resolve name site).exec m = some (match site.resolved? m.calls with
      | some b => (.ok (.builtin b), m)
      | none => (m.top.scope.function name, { m with calls := m.noted name site })) := by
  unfold Eval.resolve
  rw [Eval.exec_bind, Eval.exec_get, Option.bind_some, Eval.next?_ok]
  cases site.resolved? m.calls with
  | some b => rfl
  | none =>
    dsimp only
    rw [Eval.exec_bind, Eval.exec_ofExcept, Option.bind_some]
    unfold Machine.noted Scope.function
    cases m.top.scope.lookup name with
    | error e => cases site <;> rfl
    | ok v =>
      rw [Eval.next?_ok]
      cases v with
      | function f =>
        cases f with
        | closure => cases site <;> rfl
        | builtin b =>
          cases site with
          | unlinked | known => rfl
          | cell n => dsimp only; cases Links.binds m.top.scope name <;> rfl
      | _ => cases site <;> rfl

/-! ## Notes -/

namespace CallTable

variable {scope : Scope} {size : Nat} {cells : List (String × Bool)} {calls : CallTable}

theorem Notes.set_old (h : calls.Notes scope size cells) {n : Nat} (hn : n < size) (b : Option Builtin) :
    Notes scope size cells (calls.setIfInBounds n b) := by
  intro i name hidden b' hi hb
  rw [Array.getElem?_setIfInBounds_ne (by omega)] at hb
  exact h i name hidden b' hi hb

theorem Notes.set_own (h : calls.Notes scope size cells) {i : Nat} {name : String}
    (hi : cells[i]? = some (name, false)) {b : Builtin} (hb : scope.lookup name = .ok (.function (.builtin b))) :
    Notes scope size cells (calls.setIfInBounds (size + i) (some b)) := by
  intro j name' hidden b' hj hb'
  by_cases hij : i = j
  · subst hij
    rw [hi] at hj
    cases hj
    rw [Array.getElem?_setIfInBounds_self] at hb'
    split at hb'
    next => cases hb'; exact ⟨rfl, hb⟩
    next => cases hb'
  · rw [Array.getElem?_setIfInBounds_ne (by omega)] at hb'
    exact h j name' hidden b' hj hb'

end CallTable

/-! ## A call that knows what its name tells -/

namespace Place

variable {outer s : Scope} {hidden : List String} {name : String}

theorem Fits.lookup (h : (under hidden).Fits outer s) (hn : name ∉ hidden) :
    s.lookup name = outer.lookup name := by
  unfold Scope.lookup
  rw [(h name).2 hn]

theorem Fits.child {place : Place} (h : place.Fits outer s) {entries : List (String × Value)}
    {names : List String} (hnames : Keyed.keys entries = names) :
    (place.binding names).Fits outer (Links.child s entries) := by
  cases place with
  | elsewhere => trivial
  | under hidden =>
    subst hnames
    intro name
    simp only [Links.binds, Links.child, Links.find?, List.mem_append]
    cases hf : Keyed.find? (Keyed.ofList entries) name with
    | some v =>
      have hmem : name ∈ Keyed.keys entries := by
        by_contra hn
        rw [Keyed.find?_ofList_eq_none hn] at hf
        cases hf
      exact ⟨fun _ => rfl, fun hn => absurd (.inl hmem) hn⟩
    | none =>
      have hmem : name ∉ Keyed.keys entries := Keyed.not_mem_keys_of_find?_ofList hf
      exact ⟨fun hn => (h name).1 (hn.resolve_left hmem), fun hn => (h name).2 fun hn' => hn (.inr hn')⟩

end Place

theorem CallSite.Own.resolve {scope : Scope} {size : Nat} {cells : List (String × Bool)} {hidden : List String}
    {name : String} {σ : CallSite} {m : Machine} (own : σ.Own scope size cells hidden name)
    (fits : (Place.under hidden).Fits scope m.top.scope) (notes : m.calls.Notes scope size cells) :
    ∃ calls, (Eval.resolve name σ).exec m = some (m.top.scope.function name, { m with calls }) ∧
      (∀ n < size, calls[n]? = m.calls[n]?) ∧ calls.Notes scope size cells := by
  have hknown : ∀ b, name ∉ hidden → scope.lookup name = .ok (.function (.builtin b)) →
      m.top.scope.function name = .ok (.builtin b) := by
    intro b hn hb
    unfold Scope.function
    rw [fits.lookup hn, hb]
  rw [Eval.exec_resolve]
  cases σ with
  | unlinked =>
    exact ⟨m.calls, rfl, fun _ _ => rfl, notes⟩
  | known b =>
    refine ⟨m.calls, ?_, fun _ _ => rfl, notes⟩
    simp only [CallSite.resolved?, hknown b own.1 own.2]
  | cell n =>
    obtain ⟨hsize, hcell⟩ := own
    obtain ⟨i, rfl⟩ : ∃ i, n = size + i := ⟨n - size, by omega⟩
    rw [Nat.add_sub_cancel_left] at hcell
    simp only [CallSite.resolved?]
    cases hr : (m.calls[size + i]?).join with
    | some b =>
      obtain ⟨hfree, hb⟩ := notes i name _ b hcell hr
      rw [decide_eq_false_iff_not] at hfree
      exact ⟨m.calls, by rw [hknown b hfree hb], fun _ _ => rfl, notes⟩
    | none =>
      refine ⟨m.noted name (.cell (size + i)), rfl, ?_⟩
      simp only [Machine.noted]
      split
      next b hf =>
        split
        next => exact ⟨fun _ _ => rfl, notes⟩
        next hfree =>
          -- a hidden name is bound, so what is noted is what the name means at the start
          have hn : name ∉ hidden := fun h => hfree ((fits name).1 h)
          rw [decide_eq_false hn] at hcell
          refine ⟨fun k hk => Array.getElem?_setIfInBounds_ne (by omega), notes.set_own hcell ?_⟩
          rw [← fits.lookup hn]
          unfold Scope.function at hf
          split at hf
          next h => cases hf; exact h
          next => cases hf
          next => cases hf
      next => exact ⟨fun _ _ => rfl, notes⟩

namespace Pairing

variable {p : Pairing}

/-! ## Calls side by side -/

/-- Frames that evaluate paired expressions at a place. -/
structure At (p : Pairing) (place : Place) (f f' : Frame) : Prop where
  scopes : p.Scopes f.scope f'.scope
  fits : place.Fits p.scope f.scope
  fits' : place.Fits p.scope f'.scope
  path : f.path = f'.path

theorem Scopes.function {s s' : Scope} (h : p.Scopes s s') (name : String) :
    Outcomes p.Functions (s.function name) (s'.function name) := by
  unfold Scope.function
  match s.lookup name, s'.lookup name, h.lookup name with
  | _, _, .error e => exact .error e
  | _, _, .ok h =>
    cases h with
    | function h => exact .ok h
    | _ => exact .error _

variable {place : Place} {f f' : Frame} {fs fs' : List Frame} {m m' : Machine} {name : String}

theorem Machines.noted (h : p.Machines (f :: fs) (f' :: fs') m m') (hs : p.Scopes f.scope f'.scope) (name : String)
    {n : Nat} (hn : n < p.size) : p.Tables (m.noted name (.cell n)) (m'.noted name (.cell n)) := by
  unfold Machine.noted
  rw [h.top.1, h.top.2, hs.binds name]
  match f.scope.function name, f'.scope.function name, hs.function name with
  | _, _, .error e => exact h.calls
  | _, _, .ok hf =>
    cases hf with
    | closure => exact h.calls
    | builtin b =>
      dsimp only
      split
      next => exact h.calls
      next =>
        refine ⟨fun k hk => ?_, h.calls.left.set_old hn _, h.calls.right.set_old hn _⟩
        have hold := h.calls.old k hk
        by_cases hkn : n = k
        · subst hkn
          simp only [Array.getElem?_setIfInBounds_self]
          have hsize : m.calls.size ≤ n ↔ m'.calls.size ≤ n := by
            rw [← Array.getElem?_eq_none_iff, ← Array.getElem?_eq_none_iff, hold]
          simp only [← Nat.not_le, hsize]
        · rw [Array.getElem?_setIfInBounds_ne hkn, Array.getElem?_setIfInBounds_ne hkn]
          exact hold

namespace Follows

theorem resolve (at_ : p.At place f f') {σ τ : CallSite} (sites : p.Sites place name σ τ) :
    p.Follows (f :: fs) (f' :: fs') p.Functions (Eval.resolve name σ) fun _ => Eval.resolve name τ := by
  refine of_exec fun m m' hm => ?_
  have hf : Outcomes p.Functions (m.top.scope.function name) (m'.top.scope.function name) := by
    rw [hm.top.1, hm.top.2]
    exact at_.scopes.function name
  cases sites with
  | unlinked =>
    refine ⟨_, _, _, _, Eval.exec_resolve .., fun _ => Eval.exec_resolve .., ?_, hf⟩
    exact hm
  | known _ _ b =>
    exact ⟨_, _, _, _, Eval.exec_resolve .., fun _ => Eval.exec_resolve .., hm, .ok (.builtin b)⟩
  | @cell _ _ n old =>
    have hcell : CallSite.resolved? m.calls (.cell n) = CallSite.resolved? m'.calls (.cell n) := by
      simp only [CallSite.resolved?, hm.calls.old n old]
    cases hr : CallSite.resolved? m'.calls (.cell n) with
    | some b =>
      refine ⟨.ok (.builtin b), .ok (.builtin b), m, m', ?_, fun _ => ?_, hm, .ok (.builtin b)⟩
      · rw [Eval.exec_resolve, hcell, hr]
      · rw [Eval.exec_resolve, hr]
    | none =>
      refine ⟨_, _, { m with calls := m.noted name (.cell n) }, { m' with calls := m'.noted name (.cell n) },
        ?_, fun _ => ?_, ?_, hf⟩
      · rw [Eval.exec_resolve, hcell, hr]
      · rw [Eval.exec_resolve, hr]
      · exact { hm with calls := hm.noted at_.scopes name old }
  | apart here there =>
    obtain ⟨calls, hx, hold, hnotes⟩ := here.resolve (hm.top.1 ▸ at_.fits) hm.calls.left
    obtain ⟨calls', hy, hold', hnotes'⟩ := there.resolve (hm.top.2 ▸ at_.fits') hm.calls.right
    refine ⟨_, _, _, _, hx, fun _ => hy, { hm with calls := ⟨fun n hn => ?_, hnotes, hnotes'⟩ }, hf⟩
    rw [hold n hn, hold' n hn, hm.calls.old n hn]

end Follows

end Pairing

end LiveQuery
