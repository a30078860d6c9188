import LiveQuery.Proofs.Typing.Catalog
import LiveQuery.Proofs.Typing.Inlining

/-! # Evaluations do not go wrong

A `Session` is one machine in the scope of a catalog on which expressions are evaluated one after another,
and their values used: members are taken, iterators read, functions called on values obtained before, and
values turned into data, in any order and as often as one likes, also after a fault. As long as the
expressions have types and no type variables in their annotations, no `Request` fails with a typing fault,
and every value is of the type that was inferred or declared (`Session.request_meets`). Here nobody listens;
that the plan of a live query does not go wrong either is shown with what it evaluates to.
-/
namespace LiveQuery

/-- Something to do with the machine and the values obtained so far. -/
inductive Request
  | evaluate (e : Expr)
  /-- Evaluates an expression in which the names were replaced by their values before. -/
  | inlined (e : Expr)
  | member (v : Value) (name : String)
  | next (handle : Nat) (element : Ty)
  | call (f : Function) (args : List Value)
  | json (v : Value)

namespace Request

/-- What a request does; the values that it obtains. -/
def run (fuel : Nat) (scope : Scope) : Request → Eval (List Value)
  | .evaluate e => do return [← Eval.eval fuel (← Eval.load e)]
  | .inlined e => do return [← Eval.eval fuel (← Eval.load (e.inline scope #[]))]
  | .member v name => do return [← Eval.ofExcept (v.member name)]
  | .next h _ => do return (← Eval.next fuel h).toList
  | .call f args => do return [← Eval.call fuel f args]
  | .json v => do
    let _ ← Eval.toJson fuel v
    return []

/-- The requests that one may make: to evaluate an expression that has a type and whose annotations have
no type variables, and to use values that were obtained, according to their types. -/
def Allowed (types : TypeScope) (pool : List Value) : Request → Prop
  | .evaluate e | .inlined e =>
    e.WellFormed ∧ e.groundAnnotations = true ∧ ∃ t, e.infer types = .ok t
  | .member v name => v ∈ pool ∧ ∃ t, Expr.memberType name v.ty = .ok t
  | .next h t => .iterator h t ∈ pool
  | .call f args => .function f ∈ pool ∧ args ⊆ pool ∧ ∃ bs, f.Takes (args.map Value.ty) bs
  | .json v => v ∈ pool

/-- The type that a request promises for the values that it obtains. -/
def Promises (types : TypeScope) (v : Value) : Request → Prop
  | .evaluate e | .inlined e => e.infer types = .ok v.ty
  | .member whole name => Expr.memberType name whole.ty = .ok v.ty
  | .next _ t => v.ty = t
  | .call f args => f.Accepts (args.map Value.ty) v.ty
  | .json _ => False

end Request

/-- The values of an outcome. -/
def obtained : Except EvalFault (List Value) → List Value
  | .ok vs => vs
  | .error _ => []

/-- A machine in the scope of a catalog and the values obtained on it, after some requests. -/
inductive Session (schema : Schema) (store : Store) : Machine → List Value → Prop
  | start : Session schema store (Machine.start (Catalog.scope schema store)) []
  | request {m m' : Machine} {pool : List Value} {r : Request} {fuel : Nat}
      {outcome : Except EvalFault (List Value)} (before : Session schema store m pool)
      (allowed : r.Allowed (Catalog.types schema) pool)
      (run : (r.run fuel (Catalog.scope schema store)).exec m = some (outcome, m')) :
      Session schema store m' (pool ++ obtained outcome)

/-! ## Requests are safe -/

theorem Safe.load {w : World} {s : Scope} {types : TypeScope} {e : Expr} {t : Ty}
    (h : HasType w types e t) : Safe w s (Eval.load e) (fun w' e' => HasType w' types e' t) := by
  intro m hm _ r m' hr
  rw [Eval.exec_load] at hr
  cases hr
  obtain ⟨more, htyped, hcount⟩ := h.link (World.Le.refl w)
  refine ⟨w.addSites more, w.le_addSites more, hm.load hcount, rfl, ?_⟩
  show HasType (w.addSites more) types (e.link m.calls.size).1 t
  rw [hm.calls_size]
  exact htyped

/-- An expression that has a type is made ready and evaluated safely. -/
theorem Safe.eval_load {w : World} {s : Scope} {e : Expr} {t : Ty} (hs : s.AllSound w)
    (h : HasType w s.types e t) (fuel : Nat) :
    Safe w s (do Eval.eval fuel (← Eval.load e)) (Gives t) :=
  (Safe.load h).bind fun _ _ hw he => (soundAt fuel).eval (hs.mono hw) he

theorem Safe.singleton {w : World} {s : Scope} {act : Eval Value} {t : Ty} (h : Safe w s act (Gives t)) :
    Safe w s (do return [← act]) (fun w' vs => ∀ v ∈ vs, Gives t w' v) :=
  h.bind fun _ v _ hv => Safe.pure fun u hu => by
    cases List.mem_singleton.mp hu
    exact hv

section Requests

variable {w : World} {s : Scope} {pool : List Value}

/-- The values that a request obtains are sound and of the type it promises. -/
def Request.Fulfils (types : TypeScope) (r : Request) (w : World) (vs : List Value) : Prop :=
  ∀ v ∈ vs, Sound w v ∧ r.Promises types v

theorem Safe.request {r : Request} (hs : s.AllSound w) (hpool : ∀ v ∈ pool, Sound w v)
    (h : r.Allowed s.types pool) (fuel : Nat) :
    Safe w s (r.run fuel s) (r.Fulfils s.types) := by
  cases r with
  | evaluate e =>
    obtain ⟨hwf, hground, t, ht⟩ := h
    have htyped := Expr.hasType_of_infer w e s.types t hwf hground ht
    refine (Safe.eval_load hs htyped fuel).singleton.mono fun w' vs _ hvs v hv => ?_
    exact ⟨(hvs v hv).1, by rw [Request.Promises, (hvs v hv).2, ht]⟩
  | inlined e =>
    obtain ⟨hwf, hground, t, ht⟩ := h
    have htyped := (Expr.hasType_of_infer w e s.types t hwf hground ht).inline hs
    refine (Safe.eval_load hs htyped fuel).singleton.mono fun w' vs _ hvs v hv => ?_
    exact ⟨(hvs v hv).1, by rw [Request.Promises, (hvs v hv).2, ht]⟩
  | member v name =>
    obtain ⟨hv, t, ht⟩ := h
    obtain ⟨ts, hty, known⟩ := Expr.memberType_eq_ok_iff.mp ht
    obtain ⟨u, hu, hgives⟩ := (hpool v hv).member hty known
    rw [Request.run, hu]
    have hsafe : Safe w s (Eval.ofExcept (.ok u)) (Gives t) := Safe.ofExcept hgives
    refine hsafe.singleton.mono fun w' vs _ hvs x hx => ?_
    exact ⟨(hvs x hx).1, by rw [Request.Promises, (hvs x hx).2, ht]⟩
  | next n t =>
    have hknown : w.elements[n]? = some t := by
      cases hpool _ h with
      | iterator _ known => exact known
    refine ((soundAt fuel).next hknown).bind fun w' o _ ho => Safe.pure fun v hv => ?_
    exact ho v (Option.mem_toList.mp hv)
  | call f args =>
    obtain ⟨hf, hargs, bs, htakes⟩ := h
    have hsound : ∀ v ∈ args, Sound w v := fun v hv => hpool v (hargs hv)
    obtain ⟨t, ht⟩ := Function.accepts_of_takes (hpool _ hf) hsound htakes
    have haccepts : f.Accepts (args.map Value.ty) t := ⟨bs, htakes, ht⟩
    refine ((soundAt fuel).call (hpool _ hf) hsound haccepts).singleton.mono fun w' vs _ hvs v hv => ?_
    exact ⟨(hvs v hv).1, by rw [Request.Promises, (hvs v hv).2]; exact haccepts⟩
  | json v =>
    exact ((soundAt fuel).toJson (hpool v h)).bind fun _ _ _ _ => Safe.pure fun v hv =>
      absurd hv List.not_mem_nil

end Requests

namespace Session

variable {schema : Schema} {store : Store} {m m' : Machine} {pool : List Value}

/-- Between two requests the machine agrees with a world in which all values are sound. -/
theorem invariant (hrows : RowsTyped schema store) (h : Session schema store m pool) :
    ∃ w, m.Agrees w ∧ m.frames = (Machine.start (Catalog.scope schema store)).frames ∧
      ∀ v ∈ pool, Sound w v := by
  induction h with
  | start => exact ⟨{}, Machine.Agrees.start _, rfl, by simp⟩
  | @request m m' pool r fuel outcome _ allowed run ih =>
    obtain ⟨w, hm, hframes, hpool⟩ := ih
    rw [← Catalog.types_scope schema store] at allowed
    obtain ⟨w', hw, hm', hframes', hmeets⟩ := Safe.request (Catalog.allSound_scope hrows w) hpool
      allowed fuel m hm (congrArg Frame.scope (Machine.top_eq_of_frames hframes)) outcome m' run
    refine ⟨w', hm', hframes'.trans hframes, fun v hv => ?_⟩
    rcases List.mem_append.mp hv with hv | hv
    · exact (hpool v hv).mono hw
    · cases outcome with
      | ok vs => exact (hmeets v hv).1
      | error f => cases hv

/-- No request fails with a typing fault, and what it obtains is of the type it promises. -/
theorem request_meets {r : Request} {fuel : Nat} {outcome : Except EvalFault (List Value)}
    (hrows : RowsTyped schema store) (h : Session schema store m pool)
    (allowed : r.Allowed (Catalog.types schema) pool)
    (run : (r.run fuel (Catalog.scope schema store)).exec m = some (outcome, m')) :
    Meets (fun vs => ∀ v ∈ vs, r.Promises (Catalog.types schema) v) outcome := by
  obtain ⟨w, hm, hframes, hpool⟩ := h.invariant hrows
  rw [← Catalog.types_scope schema store] at allowed ⊢
  obtain ⟨w', -, -, -, hmeets⟩ := Safe.request (Catalog.allSound_scope hrows w) hpool allowed fuel m hm
    (congrArg Frame.scope (Machine.top_eq_of_frames hframes)) outcome m' run
  cases outcome with
  | ok vs => exact fun v hv => (hmeets v hv).2
  | error f => exact hmeets

/-! ## One table, one row -/

namespace Sample

/-- A table of whole numbers. -/
def numbers : Schema :=
  [("t", ⟨"t", [⟨"id", .int, none⟩], ⟨"id", .int, none⟩, ⟨"t", [⟨"id", .int, true, none⟩]⟩⟩)]

/-- The number one in it. -/
def one : Store :=
  { buckets := [("t", [([128, 0, 0, 0, 0, 0, 0, 1], [2, 22, 3, 17, 9, 105, 100])])] }

/-- The row under the key one. -/
def row : Expr := .callOf "get" [.member (.member (.var "tables") "t") "id", .int 1]

theorem rowsTyped : RowsTyped numbers one := by
  intro e he entry hentry
  cases List.mem_singleton.mp he
  cases List.mem_singleton.mp hentry
  exact ⟨.record [("id", .int 1)], rfl, rfl⟩

end Sample

open Session.Sample in
/-- The row is read from the table, and it is of the type that is inferred for it. -/
theorem request_meets_row : ∃ m',
    ((Request.evaluate row).run 9 (Catalog.scope numbers one)).exec
      (Machine.start (Catalog.scope numbers one)) = some (.ok [.record [("id", .int 1)]], m') ∧
    Meets (fun vs => ∀ v ∈ vs, (Request.evaluate row).Promises (Catalog.types numbers) v)
      (.ok [.record [("id", .int 1)]]) := by
  have hrun : ∃ m', ((Request.evaluate row).run 9 (Catalog.scope numbers one)).exec
      (Machine.start (Catalog.scope numbers one)) = some (.ok [.record [("id", .int 1)]], m') :=
    ⟨_, by with_unfolding_all rfl⟩
  obtain ⟨m', hrun⟩ := hrun
  have hallowed : (Request.evaluate row).Allowed (Catalog.types numbers) [] :=
    ⟨⟨⟨trivial, trivial, trivial⟩, rfl⟩, rfl, .record [("id", .int)], by with_unfolding_all rfl⟩
  exact ⟨m', hrun, request_meets rowsTyped .start hallowed hrun⟩

end Session

end LiveQuery
