import LiveQuery.Proofs.Grammar.Literals
import LiveQuery.Proofs.Grammar.Types

/-! # Members taken of functions

The text of an expression has no parentheses. Where a member is taken of a function, the text shows the member behind
the function's body, and there it belongs to the last part of the body. `Expr.regrouped` is the expression that is
grouped like this. It has the same text, and it is another expression unless no member is taken of a function
(`Expr.regrouped_eq_iff`).

Conditions on an expression and all that it is made of are conditions on single nodes, carried along by
`Expr.Everywhere`.
-/
namespace LiveQuery

namespace Expr

/-! ## Parts -/

/-- The expressions that an expression is made of directly. -/
def parts : Expr → List Expr
  | .record fields => fields.map Prod.snd
  | .lambda _ _ body => [body]
  | .call _ args _ => args
  | .member e _ => [e]
  | .block bindings result => bindings.map Prod.snd ++ [result]
  | .int _ | .str _ | .var _ | .index _ | .value _ => []

theorem sizeOf_lt_of_mem_values {fields : List (String × Expr)} {x : Expr} (h : x ∈ fields.map Prod.snd) :
    sizeOf x < sizeOf fields := by
  obtain ⟨⟨n, e⟩, hf, rfl⟩ := List.mem_map.mp h
  have hlt := List.sizeOf_lt_of_mem hf
  simp only [Prod.mk.sizeOf_spec] at hlt
  simp only
  omega

theorem sizeOf_lt_of_mem_parts {e x : Expr} (h : x ∈ e.parts) : sizeOf x < sizeOf e := by
  cases e with
  | record fields =>
    have hlt := sizeOf_lt_of_mem_values h
    rw [record.sizeOf_spec]
    omega
  | lambda params result body =>
    rw [List.mem_singleton.mp h, lambda.sizeOf_spec]
    omega
  | call n args site =>
    have hlt := List.sizeOf_lt_of_mem (show x ∈ args from h)
    rw [call.sizeOf_spec]
    omega
  | member e n =>
    rw [List.mem_singleton.mp h, member.sizeOf_spec]
    omega
  | block bindings result =>
    rw [block.sizeOf_spec]
    rcases List.mem_append.mp h with h | h
    · have hlt := sizeOf_lt_of_mem_values h
      omega
    · rw [List.mem_singleton.mp h]
      omega
  | int _ | str _ | var _ | index _ | value _ => cases h

/-- Induction over the parts of an expression. -/
theorem partsInduction {motive : Expr → Prop} (h : ∀ e : Expr, (∀ x ∈ e.parts, motive x) → motive e) (e : Expr) :
    motive e :=
  h e fun x hx =>
    have := sizeOf_lt_of_mem_parts hx
    partsInduction h x
termination_by sizeOf e

/-- The expression and all that it is made of, at any depth, satisfy `p`. -/
inductive Everywhere (p : Expr → Prop) : Expr → Prop
  | mk {e : Expr} (here : p e) (inside : ∀ x ∈ e.parts, Everywhere p x) : Everywhere p e

section Everywhere

variable {p : Expr → Prop} {e : Expr}

theorem Everywhere.here (h : e.Everywhere p) : p e := by
  cases h with | mk here _ => exact here

theorem Everywhere.inside (h : e.Everywhere p) : ∀ x ∈ e.parts, x.Everywhere p := by
  cases h with | mk _ inside => exact inside

theorem Everywhere.record {fields : List (String × Expr)} (here : p (.record fields))
    (h : ∀ x ∈ fields.map Prod.snd, x.Everywhere p) : (record fields).Everywhere p :=
  ⟨here, h⟩

theorem Everywhere.call {n : String} {args : List Expr} {site : CallSite} (here : p (.call n args site))
    (h : ∀ x ∈ args, x.Everywhere p) : (call n args site).Everywhere p :=
  ⟨here, h⟩

theorem Everywhere.lambda {params : List (String × Ty)} {result : Ty} {body : Expr}
    (here : p (.lambda params result body)) (h : body.Everywhere p) : (lambda params result body).Everywhere p :=
  ⟨here, List.forall_mem_singleton.mpr h⟩

theorem Everywhere.member {n : String} (here : p (.member e n)) (h : e.Everywhere p) : (member e n).Everywhere p :=
  ⟨here, List.forall_mem_singleton.mpr h⟩

theorem Everywhere.block {bindings : List (String × Expr)} {result : Expr} (here : p (.block bindings result))
    (hb : ∀ x ∈ bindings.map Prod.snd, x.Everywhere p) (hr : result.Everywhere p) :
    (block bindings result).Everywhere p :=
  ⟨here, List.forall_mem_append.mpr ⟨hb, List.forall_mem_singleton.mpr hr⟩⟩

/-- Whether the expression and all that it is made of satisfy `p`, for parts within parts up to a depth. -/
def within (p : Expr → Bool) : (depth : Nat) → Expr → Bool
  | 0, _ => false
  | depth + 1, e => p e && e.parts.all (within p depth)

theorem Everywhere.of_within {p : Expr → Bool} {depth : Nat} {e : Expr} (h : within p depth e = true) :
    e.Everywhere fun x => p x = true := by
  induction depth generalizing e with
  | zero => cases h
  | succ depth ih =>
    obtain ⟨hhere, hinside⟩ := Bool.and_eq_true_iff.mp h
    exact ⟨hhere, fun x hx => ih (List.all_eq_true.mp hinside x hx)⟩

end Everywhere

/-! ## Conditions on one node -/

/-- A node of an expression that was read: its names and annotations can be read, fields are in key order, and
nothing is known about a call. -/
def Plain : Expr → Prop
  | .int _ | .str _ => True
  | .var n => Grammar.Name n
  | .record fields => Keyed.Ordered fields ∧ ∀ f ∈ fields, Grammar.Name f.1
  | .lambda params result _ =>
    (∀ p ∈ params, Grammar.Name p.1 ∧ p.2.Sorted ∧ p.2.Readable) ∧ result.Sorted ∧ result.Readable
  | .call n _ site => Grammar.Name n ∧ site = .unlinked
  | .member _ n => Grammar.Name n
  | .block bindings _ => ∀ b ∈ bindings, Grammar.Name b.1
  | .index _ | .value _ => False

/-- Whether a node is not a text with a character in it that is written with an escape that is not read. -/
def isLegible : Expr → Bool
  | .str s => s.toList.all Text.isLegible
  | _ => true

/-- Whether a node is not a member of a function. -/
def isGrouped : Expr → Bool
  | .member (.lambda ..) _ => false
  | _ => true

/-- Every character in a text is written as itself, or with an escape that is read. -/
def Legible (e : Expr) : Prop := e.isLegible = true

/-- No member is taken of a function. -/
def Grouped (e : Expr) : Prop := e.isGrouped = true

/-! ## Grouping -/

/-- The member of an expression, read from its text: a function takes the member into its body. -/
def takeMember : Expr → String → Expr
  | .lambda params result body, n => .lambda params result (body.takeMember n)
  | e, n => .member e n

mutual

/-- The expression that the text of an expression writes. -/
def regrouped : Expr → Expr
  | .record fields => .record (regroupedFields fields)
  | .lambda params result body => .lambda params result body.regrouped
  | .call n args site => .call n (regroupedArgs args) site
  | .member e n => e.regrouped.takeMember n
  | .block bindings result => .block (regroupedFields bindings) result.regrouped
  | .int n => .int n
  | .str s => .str s
  | .var n => .var n
  | .index i => .index i
  | .value v => .value v

def regroupedFields : List (String × Expr) → List (String × Expr)
  | [] => []
  | (n, e) :: rest => (n, e.regrouped) :: regroupedFields rest

def regroupedArgs : List Expr → List Expr
  | [] => []
  | e :: rest => e.regrouped :: regroupedArgs rest

end

theorem regroupedFields_eq (fields : List (String × Expr)) :
    regroupedFields fields = Keyed.mapValues regrouped fields := by
  induction fields with
  | nil => rfl
  | cons f fields ih => rw [regroupedFields, ih]; rfl

theorem regroupedArgs_eq (args : List Expr) : regroupedArgs args = args.map regrouped := by
  induction args with
  | nil => rfl
  | cons e args ih => rw [regroupedArgs, ih, List.map_cons]

/-! ### The text stays -/

theorem text_takeMember (e : Expr) (n : String) : (e.takeMember n).text = e.text ++ "." ++ n := by
  induction e using partsInduction with
  | h e ih =>
    cases e with
    | lambda params result body =>
      rw [takeMember, text, text, ih body (List.mem_singleton_self body)]
      simp only [String.append_assoc]
    | _ => rfl

theorem fieldTexts_regrouped {fields : List (String × Expr)}
    (h : ∀ x ∈ fields.map Prod.snd, x.regrouped.text = x.text) :
    fieldTexts (regroupedFields fields) = fieldTexts fields := by
  induction fields with
  | nil => rfl
  | cons f fields ih =>
    obtain ⟨hf, hfields⟩ := List.forall_mem_cons.mp h
    rw [regroupedFields, fieldTexts, fieldTexts, ih hfields, hf]

theorem bindingsText_regrouped {bindings : List (String × Expr)}
    (h : ∀ x ∈ bindings.map Prod.snd, x.regrouped.text = x.text) :
    bindingsText (regroupedFields bindings) = bindingsText bindings := by
  induction bindings with
  | nil => rfl
  | cons b bindings ih =>
    obtain ⟨hb, hbindings⟩ := List.forall_mem_cons.mp h
    rw [regroupedFields, bindingsText, bindingsText, ih hbindings, hb]

theorem argTexts_regrouped {args : List Expr} (h : ∀ x ∈ args, x.regrouped.text = x.text) :
    argTexts (regroupedArgs args) = argTexts args := by
  induction args with
  | nil => rfl
  | cons e args ih =>
    obtain ⟨he, hargs⟩ := List.forall_mem_cons.mp h
    rw [regroupedArgs, argTexts, argTexts, ih hargs, he]

theorem text_regrouped (e : Expr) : e.regrouped.text = e.text := by
  induction e using partsInduction with
  | h e ih =>
    cases e with
    | record fields => rw [regrouped, text, text, fieldTexts_regrouped ih]
    | lambda params result body => rw [regrouped, text, text, ih body (List.mem_singleton_self body)]
    | call n args site =>
      have hargs : ∀ x ∈ args, x.regrouped.text = x.text := ih
      rw [regrouped, text, text, argTexts_regrouped hargs]
    | member e n => rw [regrouped, text_takeMember, text, ih e (List.mem_singleton_self e)]
    | block bindings result =>
      obtain ⟨hbindings, hresult⟩ := List.forall_mem_append.mp ih
      rw [regrouped, text, text, bindingsText_regrouped hbindings, hresult result (List.mem_singleton_self result)]
    | int _ | str _ | var _ | index _ | value _ => rfl

/-! ### The conditions on nodes stay -/

theorem values_regroupedFields (fields : List (String × Expr)) :
    (regroupedFields fields).map Prod.snd = (fields.map Prod.snd).map regrouped := by
  rw [regroupedFields_eq, Keyed.mapValues, List.map_map, List.map_map]
  rfl

/-- A condition on nodes that does not look into their parts. -/
structure Outer (p : Expr → Prop) : Prop where
  record {fields : List (String × Expr)} : p (.record fields) → p (.record (Keyed.mapValues regrouped fields))
  lambda {params : List (String × Ty)} {result : Ty} {body body' : Expr} :
    p (.lambda params result body) → p (.lambda params result body')
  call {n : String} {args args' : List Expr} {site : CallSite} : p (.call n args site) → p (.call n args' site)
  member {e e' : Expr} {n : String} : p (.member e n) → p (.member e' n)
  block {bindings : List (String × Expr)} {result result' : Expr} :
    p (.block bindings result) → p (.block (Keyed.mapValues regrouped bindings) result')

theorem outer_plain : Outer Plain where
  record h := ⟨h.1.mapValues _, by
    intro f hf
    obtain ⟨g, hg, rfl⟩ := List.mem_map.mp hf
    exact h.2 g hg⟩
  lambda h := h
  call h := h
  member h := h
  block h := by
    intro b hb
    obtain ⟨c, hc, rfl⟩ := List.mem_map.mp hb
    exact h c hc

theorem outer_legible : Outer Legible :=
  ⟨fun _ => rfl, fun _ => rfl, fun _ => rfl, fun _ => rfl, fun _ => rfl⟩

theorem Everywhere.takeMember {p : Expr → Prop} (hp : Outer p) {e : Expr} {n : String} (he : e.Everywhere p)
    (hn : p (.member e n)) : (e.takeMember n).Everywhere p := by
  induction he with
  | @mk e here inside ih =>
    cases e with
    | lambda params result body =>
      exact .lambda (hp.lambda here) (ih body (List.mem_singleton_self body) (hp.member hn))
    | _ => exact .member hn ⟨here, inside⟩

theorem Everywhere.regrouped {p : Expr → Prop} (hp : Outer p) {e : Expr} (he : e.Everywhere p) :
    e.regrouped.Everywhere p := by
  induction he with
  | @mk e here inside ih =>
    cases e with
    | record fields =>
      refine .record (by rw [regroupedFields_eq]; exact hp.record here) ?_
      rw [values_regroupedFields]
      exact List.forall_mem_map.mpr ih
    | lambda params result body => exact .lambda (hp.lambda here) (ih body (List.mem_singleton_self body))
    | call n args site =>
      refine .call (hp.call here) ?_
      rw [regroupedArgs_eq]
      exact List.forall_mem_map.mpr ih
    | member e n => exact (ih e (List.mem_singleton_self e)).takeMember hp (hp.member here)
    | block bindings result =>
      obtain ⟨hbindings, hresult⟩ := List.forall_mem_append.mp ih
      refine .block (by rw [regroupedFields_eq]; exact hp.block here) ?_
        (hresult result (List.mem_singleton_self result))
      rw [values_regroupedFields]
      exact List.forall_mem_map.mpr hbindings
    | int _ | str _ | var _ | index _ | value _ => exact ⟨here, inside⟩

/-! ### Where nothing changes -/

theorem grouped_takeMember {e : Expr} (n : String) (he : e.Everywhere Grouped) :
    (e.takeMember n).Everywhere Grouped := by
  induction he with
  | @mk e here inside ih =>
    cases e with
    | lambda params result body => exact .lambda rfl (ih body (List.mem_singleton_self body))
    | _ => exact .member rfl ⟨here, inside⟩

theorem grouped_regrouped (e : Expr) : e.regrouped.Everywhere Grouped := by
  induction e using partsInduction with
  | h e ih =>
    cases e with
    | record fields =>
      refine .record rfl ?_
      rw [values_regroupedFields]
      exact List.forall_mem_map.mpr ih
    | lambda params result body => exact .lambda rfl (ih body (List.mem_singleton_self body))
    | call n args site =>
      refine .call rfl ?_
      rw [regroupedArgs_eq]
      exact List.forall_mem_map.mpr ih
    | member e n => exact grouped_takeMember n (ih e (List.mem_singleton_self e))
    | block bindings result =>
      obtain ⟨hbindings, hresult⟩ := List.forall_mem_append.mp ih
      refine .block rfl ?_ (hresult result (List.mem_singleton_self result))
      rw [values_regroupedFields]
      exact List.forall_mem_map.mpr hbindings
    | int _ | str _ | var _ | index _ | value _ => exact ⟨rfl, by simp [Expr.regrouped, parts]⟩

theorem regroupedFields_self {fields : List (String × Expr)} (h : ∀ x ∈ fields.map Prod.snd, x.regrouped = x) :
    regroupedFields fields = fields := by
  induction fields with
  | nil => rfl
  | cons f fields ih =>
    obtain ⟨hf, hfields⟩ := List.forall_mem_cons.mp h
    rw [regroupedFields, hf, ih hfields]

theorem regrouped_of_grouped {e : Expr} (he : e.Everywhere Grouped) : e.regrouped = e := by
  induction he with
  | @mk e here inside ih =>
    cases e with
    | record fields => rw [regrouped, regroupedFields_self ih]
    | lambda params result body => rw [regrouped, ih body (List.mem_singleton_self body)]
    | call n args site =>
      have hargs : args.map regrouped = args.map id := List.map_congr_left ih
      rw [regrouped, regroupedArgs_eq, hargs, List.map_id]
    | member e n =>
      rw [regrouped, ih e (List.mem_singleton_self e)]
      cases e with
      | lambda params result body => cases here
      | _ => rfl
    | block bindings result =>
      obtain ⟨hbindings, hresult⟩ := List.forall_mem_append.mp ih
      rw [regrouped, regroupedFields_self hbindings, hresult result (List.mem_singleton_self result)]
    | int _ | str _ | var _ | index _ | value _ => rfl

/-- An expression is grouped like its text where no member is taken of a function, and only there. -/
theorem regrouped_eq_iff (e : Expr) : e.regrouped = e ↔ e.Everywhere Grouped :=
  ⟨fun h => h ▸ grouped_regrouped e, regrouped_of_grouped⟩

end Expr

end LiveQuery
