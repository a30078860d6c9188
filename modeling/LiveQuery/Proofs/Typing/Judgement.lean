import LiveQuery.Expr.Inline
import LiveQuery.Expr.Typing
import LiveQuery.Proofs.Encoding.Record
import LiveQuery.Proofs.Typing.Ground

/-! # Typed expressions and sound values

A typing judgement for expressions that the machine may run, and with it what it means for a value to
be sound: it is what its type says, now and when it is used later.

* `World` records what the machine has handed out: the element type of every iterator, and what every
  cell of the call table stands for. It only grows.
* `HasType w Γ e t` says that `e` has type `t` under the names of `Γ`; its annotations have no variables
  and its calls agree with the call table.
* `Sound w v` says that `v` is a sound value. A closure is sound if what it has captured is and its body
  has the result type; an index is if its rows are rows of its type.
-/
namespace LiveQuery

/-- A type as it may be annotated: without variables, its records in key order. -/
structure Ty.Proper (t : Ty) : Prop where
  ground : t.isGround = true
  sorted : t.Sorted

/-! ## The types of a scope -/

/-- The types of the names of a scope. -/
def Scope.types (s : Scope) : TypeScope := s.map (Keyed.mapValues Value.ty)

theorem Value.fieldTypes_eq (fields : List (String × Value)) :
    Value.fieldTypes fields = Keyed.mapValues Value.ty fields := by
  induction fields with
  | nil => rfl
  | cons f fs ih => simp [Value.fieldTypes, Keyed.mapValues, ih]

/-- A type has a member if it is that of records with such a field. -/
theorem Expr.memberType_eq_ok_iff {name : String} {t u : Ty} :
    memberType name t = .ok u ↔ ∃ fields, t = .record fields ∧ Keyed.find? fields name = some u := by
  cases t with
  | record fields =>
    simp only [memberType, Ty.record.injEq, exists_eq_left']
    cases Keyed.find? fields name with
    | none => simp
    | some w => simp
  | _ => simp [memberType]

/-- The type of a member is a member of the type, and where there is none the fault is the same. -/
theorem Expr.memberType_ty (v : Value) (name : String) : memberType name v.ty = (v.member name).map Value.ty := by
  cases v with
  | record fields =>
    simp only [Value.ty, memberType, Value.member, Value.fieldTypes_eq, Keyed.find?_mapValues]
    cases Keyed.find? fields name with
    | none => rfl
    | some u => rfl
  | function f => cases f <;> rfl
  | _ => rfl

namespace Scope

theorem types_child (s : Scope) (entries : List (String × Value)) :
    Scope.types (Links.child s entries) =
      Links.child s.types (Keyed.mapValues Value.ty entries) := by
  simp only [Scope.types, Links.child, List.map_cons, Keyed.mapValues_ofList]

theorem find?_types (s : Scope) (name : String) :
    Links.find? s.types name = (Links.find? s name).map Value.ty := by
  induction s with
  | nil => rfl
  | cons link s ih =>
    simp only [Scope.types, List.map_cons, Links.find?, Keyed.find?_mapValues] at ih ⊢
    cases Keyed.find? link name with
    | none => exact ih
    | some v => rfl

theorem binds_types (s : Scope) (name : String) : Links.binds s.types name = Links.binds s name := by
  simp only [Links.binds, find?_types, Option.isSome_map]

theorem rootType?_eq (name : String) : rootType? name = (rootValue? name).map Value.ty := by
  simp only [rootType?, rootValue?]
  split
  next h => rcases h with rfl | rfl <;> rfl
  next h =>
    simp only [not_or] at h
    rw [if_neg h.1, if_neg h.2]
    cases Builtin.ofName? name <;> rfl

/-- Under every name stand a value and its type, or neither. -/
theorem lookup_types (s : Scope) (name : String) :
    TypeScope.lookup s.types name = (Scope.lookup s name).map Value.ty := by
  simp only [TypeScope.lookup, Scope.lookup, find?_types, rootType?_eq]
  cases Links.find? s name with
  | some v => rfl
  | none => cases rootValue? name <;> rfl

theorem lookup_of_types {s : Scope} {name : String} {t : Ty}
    (h : TypeScope.lookup s.types name = .ok t) : ∃ v, Scope.lookup s name = .ok v ∧ v.ty = t := by
  rw [lookup_types] at h
  cases hv : Scope.lookup s name with
  | error e => rw [hv] at h; cases h
  | ok v => rw [hv] at h; exact ⟨v, rfl, Except.ok.inj h⟩

end Scope

/-! ## Worlds -/

/-- What the machine has handed out so far. -/
structure World where
  /-- The element type of each iterator. -/
  elements : List Ty := []
  /-- For each cell of the call table the name that is called there, and whether a link binds it. -/
  sites : List (String × Bool) := []

/-- A later world knows everything that an earlier one does. -/
structure World.Le (w w' : World) : Prop where
  elements : w.elements <+: w'.elements
  sites : w.sites <+: w'.sites

namespace World

theorem Le.refl (w : World) : w.Le w := ⟨List.prefix_refl _, List.prefix_refl _⟩

theorem Le.trans {w w' w'' : World} (h : w.Le w') (h' : w'.Le w'') : w.Le w'' :=
  ⟨h.elements.trans h'.elements, h.sites.trans h'.sites⟩

theorem getElem?_of_prefix {α : Type} {l l' : List α} (h : l <+: l') {n : Nat} {a : α}
    (ha : l[n]? = some a) : l'[n]? = some a := by
  obtain ⟨hn, rfl⟩ := List.getElem?_eq_some_iff.mp ha
  exact List.prefix_iff_getElem?.mp h n hn

end World

/-- The rows that a handle reads are data of its row type. -/
structure Index.Sound (i : Index) : Prop where
  key : i.key.Proper
  row : i.row.Proper
  rows : ∀ b, i.rows = some b → ∀ e ∈ b, ∃ v, Value.decode e.2 = .ok v ∧ v.ty = i.row ∧ v.IsData

/-! ## The judgement -/

/-- Whether what is known at a call agrees with the names in scope. -/
def CallSite.Agrees (w : World) (types : TypeScope) (name : String) : CallSite → Prop
  | .unlinked => True
  | .cell n => w.sites[n]? = some (name, Links.binds types name)
  | .known b => Expr.signature types name = .ok (b.params.map Prod.snd, b.result)

mutual

/-- A value that is what its type says. -/
inductive Sound (w : World) : Value → Prop
  | int (n : Int64) : Sound w (.int n)
  | bool (b : Bool) : Sound w (.bool b)
  | str (s : String) : Sound w (.str s)
  | record {fields : List (String × Value)} (ordered : Keyed.Ordered fields)
      (each : ∀ f ∈ fields, Sound w f.2) : Sound w (.record fields)
  | array {elements : List Value} {t : Ty} (proper : t.Proper) (each : ∀ v ∈ elements, Sound w v)
      (types : ∀ v ∈ elements, v.ty = t) : Sound w (.array elements t)
  | iterator {h : Nat} {t : Ty} (proper : t.Proper) (known : w.elements[h]? = some t) :
      Sound w (.iterator h t)
  | builtin (b : Builtin) : Sound w (.function (.builtin b))
  | closure {stamp : Nat} {params : List (String × Ty)} {result actual : Ty} {body : Expr}
      {scope : Scope} {bs : Bindings}
      (params_proper : ∀ p ∈ params, p.2.Proper) (result_proper : result.Proper)
      (captured : ∀ link ∈ scope, ∀ e ∈ link, Sound w e.2)
      (body_typed : HasType w (Links.child scope.types params) body actual)
      (returns : result.expect actual = .ok bs) :
      Sound w (.function (.closure stamp params result body scope))
  | index {i : Index} (rows : i.Sound) : Sound w (.index i)

/-- An expression of a type. -/
inductive HasType (w : World) : TypeScope → Expr → Ty → Prop
  | int {types : TypeScope} (n : Int64) : HasType w types (.int n) .int
  | str {types : TypeScope} (s : String) : HasType w types (.str s) .string
  | var {types : TypeScope} {name : String} {t : Ty} (known : types.lookup name = .ok t) :
      HasType w types (.var name) t
  | record {types : TypeScope} {fields : List (String × Expr)} {ts : List (String × Ty)}
      (ordered : Keyed.Ordered fields) (each : FieldsHaveType w types fields ts) :
      HasType w types (.record fields) (.record ts)
  | lambda {types : TypeScope} {params : List (String × Ty)} {result actual : Ty} {body : Expr}
      {bs : Bindings} (params_proper : ∀ p ∈ params, p.2.Proper) (result_proper : result.Proper)
      (body_typed : HasType w (Links.child types params) body actual)
      (returns : result.expect actual = .ok bs) :
      HasType w types (.lambda params result body) (.function (params.map Prod.snd) result)
  | call {types : TypeScope} {name : String} {args : List Expr} {site : CallSite}
      {params ts : List Ty} {result t : Ty} {bs : Bindings}
      (signature : Expr.signature types name = .ok (params, result))
      (each : ArgsHaveType w types args ts) (length : params.length = ts.length)
      (instance_ : Ty.matchParams params ts [] = (true, bs)) (resolved : result.substitute bs = .ok t)
      (agrees : site.Agrees w types name) :
      HasType w types (.call name args site) t
  | member {types : TypeScope} {e : Expr} {name : String} {fields : List (String × Ty)} {t : Ty}
      (whole : HasType w types e (.record fields)) (known : Keyed.find? fields name = some t) :
      HasType w types (.member e name) t
  | result {types : TypeScope} {e : Expr} {t : Ty} (typed : HasType w types e t) :
      HasType w types (.block [] e) t
  | binding {types : TypeScope} {name : String} {e result : Expr} {rest : List (String × Expr)}
      {t u : Ty} (typed : HasType w types e t)
      (inner : HasType w (Links.child types [(name, t)]) (.block rest result) u) :
      HasType w types (.block ((name, e) :: rest) result) u
  | index {types : TypeScope} {i : Index} (sound : Sound w (.index i)) :
      HasType w types (.index i) i.ty
  | value {types : TypeScope} {v : Value} (sound : Sound w v) : HasType w types (.value v) v.ty

inductive FieldsHaveType (w : World) : TypeScope → List (String × Expr) → List (String × Ty) → Prop
  | nil {types : TypeScope} : FieldsHaveType w types [] []
  | cons {types : TypeScope} {name : String} {e : Expr} {t : Ty} {fields : List (String × Expr)}
      {ts : List (String × Ty)} (head : HasType w types e t) (tail : FieldsHaveType w types fields ts) :
      FieldsHaveType w types ((name, e) :: fields) ((name, t) :: ts)

inductive ArgsHaveType (w : World) : TypeScope → List Expr → List Ty → Prop
  | nil {types : TypeScope} : ArgsHaveType w types [] []
  | cons {types : TypeScope} {e : Expr} {t : Ty} {args : List Expr} {ts : List Ty}
      (head : HasType w types e t) (tail : ArgsHaveType w types args ts) :
      ArgsHaveType w types (e :: args) (t :: ts)

end

/-- Every value of a scope is sound. -/
def Scope.AllSound (w : World) (s : Scope) : Prop := ∀ link ∈ s, ∀ e ∈ link, Sound w e.2

theorem CallSite.Agrees.mono {w w' : World} {types : TypeScope} {name : String} {site : CallSite}
    (hw : w.Le w') (h : site.Agrees w types name) : site.Agrees w' types name := by
  cases site with
  | unlinked => trivial
  | cell n => exact World.getElem?_of_prefix hw.sites h
  | known b => exact h

theorem Literal.ty_value (l : Literal) : l.value.ty = l.ty := by
  cases l <;> rfl

/-! ## Types of sound values -/

theorem Builtin.sorted_ty (b : Builtin) : b.ty.Sorted := by
  cases b <;> simp [Builtin.ty, Builtin.params, Builtin.result, Ty.Sorted, Ty.SortedList]

theorem Sound.ty_sorted {w : World} : {v : Value} → Sound w v → v.ty.Sorted
  | _, .int _ | _, .bool _ | _, .str _ => trivial
  | .record fields, .record ordered each => by
    refine ⟨?_, Ty.sortedFields_iff.mpr ?_⟩
    · rw [Value.fieldTypes_eq]
      exact ordered.mapValues _
    · intro f hf
      rw [Value.fieldTypes_eq] at hf
      obtain ⟨e, he, rfl⟩ := List.mem_map.mp hf
      exact (each e he).ty_sorted
  | _, .array proper _ _ => proper.sorted
  | _, .iterator proper _ => proper.sorted
  | _, .builtin b => b.sorted_ty
  | _, .closure hp hr _ _ _ => by
    refine ⟨Ty.sortedList_iff.mpr fun t ht => ?_, hr.sorted⟩
    obtain ⟨p, hp', rfl⟩ := List.mem_map.mp ht
    exact (hp p hp').sorted
  | _, .index rows => ⟨rows.key.sorted, rows.row.sorted⟩

mutual

/-- Data is sound in every world. -/
theorem Value.IsData.sound (w : World) : (v : Value) → v.IsData → Sound w v
  | .int n, _ => .int n
  | .bool b, _ => .bool b
  | .str s, _ => .str s
  | .record fields, h => .record h.1 (Value.FieldsAreData.sound w fields h.2)

theorem Value.FieldsAreData.sound (w : World) : (fields : List (String × Value)) →
    Value.FieldsAreData fields → ∀ f ∈ fields, Sound w f.2
  | [], _, _, hf => nomatch hf
  | (_, v) :: rest, h, f, hf => by
    rcases List.mem_cons.mp hf with rfl | hf
    · exact Value.IsData.sound w v h.1
    · exact Value.FieldsAreData.sound w rest h.2 f hf

end

/-! ## Growth -/

mutual

theorem Sound.mono {w w' : World} (hw : w.Le w') : {v : Value} → Sound w v → Sound w' v
  | _, .int n => .int n
  | _, .bool b => .bool b
  | _, .str s => .str s
  | _, .record ordered each => .record ordered fun f hf => (each f hf).mono hw
  | _, .array proper each types => .array proper (fun v hv => (each v hv).mono hw) types
  | _, .iterator proper known => .iterator proper (World.getElem?_of_prefix hw.elements known)
  | _, .builtin b => .builtin b
  | _, .closure hp hr captured body returns =>
    .closure hp hr (fun link hl e he => (captured link hl e he).mono hw) (body.mono hw) returns
  | _, .index rows => .index rows

theorem HasType.mono {w w' : World} (hw : w.Le w') :
    {types : TypeScope} → {e : Expr} → {t : Ty} → HasType w types e t → HasType w' types e t
  | _, _, _, .int n => .int n
  | _, _, _, .str s => .str s
  | _, _, _, .var known => .var known
  | _, _, _, .record ordered each => .record ordered (each.mono hw)
  | _, _, _, .lambda hp hr body returns => .lambda hp hr (body.mono hw) returns
  | _, _, _, .call signature each length inst resolved agrees =>
    .call signature (each.mono hw) length inst resolved (agrees.mono hw)
  | _, _, _, .member whole known => .member (whole.mono hw) known
  | _, _, _, .result typed => .result (typed.mono hw)
  | _, _, _, .binding typed inner => .binding (typed.mono hw) (inner.mono hw)
  | _, _, _, .index sound => .index (sound.mono hw)
  | _, _, _, .value sound => .value (sound.mono hw)

theorem FieldsHaveType.mono {w w' : World} (hw : w.Le w') :
    {types : TypeScope} → {fields : List (String × Expr)} → {ts : List (String × Ty)} →
    FieldsHaveType w types fields ts → FieldsHaveType w' types fields ts
  | _, _, _, .nil => .nil
  | _, _, _, .cons head tail => .cons (head.mono hw) (tail.mono hw)

theorem ArgsHaveType.mono {w w' : World} (hw : w.Le w') :
    {types : TypeScope} → {args : List Expr} → {ts : List Ty} →
    ArgsHaveType w types args ts → ArgsHaveType w' types args ts
  | _, _, _, .nil => .nil
  | _, _, _, .cons head tail => .cons (head.mono hw) (tail.mono hw)

end

end LiveQuery
