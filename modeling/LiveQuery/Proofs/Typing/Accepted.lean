import LiveQuery.Proofs.Typing.Evaluation

/-! # What built-in functions accept

The types of the arguments with which plans call built-in functions, and the types of the results. A call on
arguments of such types has a type (`Expr.infer_callOf`), and the parts of an expression that has a type have
types (`Expr.infer_of_callOf` and its like).
-/
namespace LiveQuery

namespace Ty

theorem matchVar_fresh (name : String) {c : Ty} (bs : Bindings) (hc : c.Proper)
    (h : Keyed.find? bs name = none) : matchVar name c bs = (true, Keyed.insert bs name c) := by
  cases c with
  | var other => exact absurd rfl (hc.ne_var other)
  | _ => simp [matchVar, h]

theorem matchVar_bound (name : String) {c : Ty} (bs : Bindings) (hc : c.Proper)
    (h : Keyed.find? bs name = some c) : matchVar name c bs = (true, bs) := by
  cases c with
  | var other => exact absurd rfl (hc.ne_var other)
  | _ => simp [matchVar, h]

theorem Proper.iterator {t : Ty} (h : t.Proper) : (Ty.iterator t).Proper := ⟨h.ground, h.sorted⟩

end Ty

/-- A built-in function accepts arguments of the declared types; the result has no variables to replace. -/
theorem Builtin.accepts_declared {b : Builtin} (hr : b.result.isGround = true) :
    (Function.builtin b).Accepts (b.params.map Prod.snd) b.result :=
  ⟨[], ⟨rfl, Ty.matchParams_self _ [] b.sorted_ty.1⟩, Ty.substitute_of_ground _ _ hr⟩

namespace Builtin

variable {k r t : Ty}

theorem accepts_scan (hk : k.Proper) (hr : r.Proper) :
    (Function.builtin .scan).Accepts [.index k r] (.iterator r) := by
  refine ⟨[("K", k), ("R", r)], ⟨rfl, ?_⟩, rfl⟩
  have hkey : Ty.matchVar "K" k [] = (true, [("K", k)]) := Ty.matchVar_fresh "K" [] hk rfl
  have hrow : Ty.matchVar "R" r [("K", k)] = (true, [("K", k), ("R", r)]) :=
    Ty.matchVar_fresh "R" [("K", k)] hr rfl
  simp [Function.paramTypes, params, Ty.matchParams, Ty.matchFrom, hkey, hrow]

theorem accepts_filter (hr : r.Proper) :
    (Function.builtin .filter).Accepts [.iterator r, .function [r] .bool] (.iterator r) := by
  refine ⟨[("A", r)], ⟨rfl, ?_⟩, rfl⟩
  have hfresh : Ty.matchVar "A" r [] = (true, [("A", r)]) := Ty.matchVar_fresh "A" [] hr rfl
  have hbound := Ty.matchVar_bound "A" [("A", r)] hr rfl
  simp [Function.paramTypes, params, Ty.matchParams, Ty.matchFrom, hfresh, hbound]

theorem accepts_map (hr : r.Proper) (ht : t.Proper) :
    (Function.builtin .map).Accepts [.iterator r, .function [r] t] (.iterator t) := by
  refine ⟨[("A", r), ("B", t)], ⟨rfl, ?_⟩, rfl⟩
  have hfresh : Ty.matchVar "A" r [] = (true, [("A", r)]) := Ty.matchVar_fresh "A" [] hr rfl
  have hbound := Ty.matchVar_bound "A" [("A", r)] hr rfl
  have hresult : Ty.matchVar "B" t [("A", r)] = (true, [("A", r), ("B", t)]) :=
    Ty.matchVar_fresh "B" [("A", r)] ht rfl
  simp [Function.paramTypes, params, Ty.matchParams, Ty.matchFrom, hfresh, hbound, hresult]

theorem accepts_listen (hr : r.Proper) :
    (Function.builtin .listen).Accepts [.iterator r, .int] (.iterator r) := by
  refine ⟨[("R", r)], ⟨rfl, ?_⟩, rfl⟩
  have hfresh : Ty.matchVar "R" r [] = (true, [("R", r)]) := Ty.matchVar_fresh "R" [] hr rfl
  simp [Function.paramTypes, params, Ty.matchParams, Ty.matchFrom, hfresh]

theorem accepts_listenWhere (hr : r.Proper) (ht : t.Proper) :
    (Function.builtin .listenWhere).Accepts [.iterator r, .int, t] (.iterator r) := by
  refine ⟨[("R", r), ("V", t)], ⟨rfl, ?_⟩, rfl⟩
  have hfresh : Ty.matchVar "R" r [] = (true, [("R", r)]) := Ty.matchVar_fresh "R" [] hr rfl
  have hvalue : Ty.matchVar "V" t [("R", r)] = (true, [("R", r), ("V", t)]) :=
    Ty.matchVar_fresh "V" [("R", r)] ht rfl
  simp [Function.paramTypes, params, Ty.matchParams, Ty.matchFrom, hfresh, hvalue]

end Builtin

/-! ## Inference at calls -/

namespace Expr

variable {types : TypeScope} {name : String} {args : List Expr} {ts : List Ty} {t : Ty}

theorem inferArgs_of_infer {params : List Ty} {bs bs' : Bindings}
    (hargs : List.Forall₂ (fun e t => e.infer types = .ok t) args ts)
    (h : Ty.matchParams params ts bs = (true, bs')) : inferArgs types params args bs = .ok bs' := by
  induction hargs generalizing params bs with
  | nil =>
    cases params with
    | nil => simpa [Ty.matchParams, inferArgs] using h
    | cons p ps => simpa [Ty.matchParams, inferArgs] using h
  | @cons e t args ts he _ ih =>
    cases params with
    | nil => simpa [Ty.matchParams, inferArgs] using h
    | cons p ps =>
      obtain ⟨bs₁, hp, hps⟩ := Ty.matchParams_cons h
      have harg : matchArg p t bs = .ok bs₁ := by
        simp only [matchArg, hp]
      rw [inferArgs, bind_of_ok he, bind_of_ok harg]
      exact ih hps

/-- A call of a built-in function on arguments of types that it accepts. -/
theorem infer_callOf {b : Builtin} (hb : types.lookup b.name = .ok b.ty)
    (hargs : List.Forall₂ (fun e t => e.infer types = .ok t) args ts)
    (h : (Function.builtin b).Accepts ts t) : (callOf b.name args).infer types = .ok t := by
  obtain ⟨bs, ⟨hlength, hmatch⟩, hresult⟩ := h
  have hsignature : signature types b.name = .ok (b.params.map Prod.snd, b.result) := by
    simp only [signature, hb]
    rfl
  have harity : (b.params.map Prod.snd).length = args.length := by
    rw [hargs.length_eq]
    exact hlength
  rw [callOf, infer, bind_of_ok hsignature]
  simp only [ne_eq, harity, not_true_eq_false, if_false]
  have hbs : inferArgs types (b.params.map Prod.snd) args [] = .ok bs := inferArgs_of_infer hargs hmatch
  rw [bind_of_ok hbs]
  exact hresult

theorem infer_of_inferArgs {params : List Ty} {bs bs' : Bindings} (hlength : params.length = args.length)
    (h : inferArgs types params args bs = .ok bs') : ∀ e ∈ args, ∃ u, e.infer types = .ok u := by
  induction args generalizing params bs with
  | nil => simp
  | cons e args ih =>
    cases params with
    | nil => cases hlength
    | cons p ps =>
      simp only [inferArgs] at h
      obtain ⟨u, hu, h⟩ := ok_of_bind h
      obtain ⟨bs₁, -, h⟩ := ok_of_bind h
      exact List.forall_mem_cons.mpr ⟨⟨u, hu⟩, ih (Nat.succ.inj hlength) h⟩

/-- The arguments of a call that has a type have types. -/
theorem infer_of_callOf (h : (callOf name args).infer types = .ok t) : ∀ e ∈ args, ∃ u, e.infer types =
    .ok u := by
  obtain ⟨⟨params, result⟩, -, h⟩ := ok_of_bind h
  simp only [ne_eq] at h
  split at h
  next => cases h
  next hlength =>
    obtain ⟨bs, hbs, -⟩ := ok_of_bind h
    exact infer_of_inferArgs (Decidable.not_not.mp hlength) hbs

theorem infer_of_lambda {params : List (String × Ty)} {result : Ty} {body : Expr}
    (h : (lambda params result body).infer types = .ok t) :
    ∃ u, body.infer (Links.child types params) = .ok u := by
  obtain ⟨u, hu, -⟩ := ok_of_bind h
  exact ⟨u, hu⟩

theorem infer_lambda {params : List (String × Ty)} {result : Ty} {body : Expr} (hresult : result.Sorted)
    (h : body.infer (Links.child types params) = .ok result) :
    (lambda params result body).infer types = .ok (.function (params.map Prod.snd) result) := by
  have hexpect : result.expect result = .ok [] := by
    simp only [Ty.expect, Ty.matching?_self hresult]
  rw [infer, bind_of_ok h, bind_of_ok hexpect]
  rfl

theorem infer_member {e : Expr} {fields : List (String × Ty)} (he : e.infer types = .ok (.record fields))
    (h : Keyed.find? fields name = some t) : (member e name).infer types = .ok t := by
  rw [infer, bind_of_ok he]
  exact memberType_eq_ok_iff.mpr ⟨fields, rfl, h⟩

/-- The fields of a record that has a type have the types of its fields. -/
theorem forall₂_of_inferFields {fields : List (String × Expr)} {ts : List (String × Ty)}
    (h : inferFields types fields = .ok ts) :
    List.Forall₂ (fun f u => f.1 = u.1 ∧ f.2.infer types = .ok u.2) fields ts := by
  induction fields generalizing ts with
  | nil =>
    cases h
    exact .nil
  | cons f fields ih =>
    obtain ⟨u, hu, h⟩ := ok_of_bind h
    obtain ⟨us, hus, h⟩ := ok_of_bind h
    cases h
    exact .cons ⟨rfl, hu⟩ (ih hus)

theorem infer_of_record {fields : List (String × Expr)} (h : (record fields).infer types = .ok t) :
    ∀ f ∈ fields, ∃ u, f.2.infer types = .ok u := by
  obtain ⟨ts, hts, -⟩ := ok_of_bind h
  have hall := forall₂_of_inferFields hts
  clear hts h
  induction hall with
  | nil => simp
  | cons hf _ ih => exact List.forall_mem_cons.mpr ⟨⟨_, hf.2⟩, ih⟩

end Expr

end LiveQuery
