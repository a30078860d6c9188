import LiveQuery.Database.Select
import LiveQuery.Proofs.Store
import LiveQuery.Proofs.Termination.Expressions

/-! # Evaluations to data come to an end

An expression that passes the check of its type evaluates to data or fails, on every store, if its annotations
have no type variables (`Expr.run_halts`). With a type variable in an annotation a function can be applied to
itself, and an expression that passes the check need not end (`Expr.run_selfApplication`).
-/
namespace LiveQuery

/-! ## Values as data -/

mutual

/-- Data turns into data. -/
theorem Value.IsData.toJson_halts {g : Stock} {s : Scope} : (v : Value) → v.IsData →
    Halts g s (fun k => Eval.toJson k v) fun _ _ => True
  | .int _, _ | .bool _, _ | .str _, _ => Halts.succ (Halts.pure trivial) fun k => rfl
  | .record fields, h => by
    refine Halts.succ ((Value.FieldsAreData.toJson_halts fields h.2).bind fun _ _ _ _ => ?_) fun k => by
      rw [Eval.toJson]
    exact Halts.pure trivial

theorem Value.FieldsAreData.toJson_halts {g : Stock} {s : Scope} : (fields : List (String × Value)) →
    Value.FieldsAreData fields →
    Halts g s (fun k => fields.mapM fun (name, v) => do return (name, ← Eval.toJson k v)) fun _ _ => True
  | [], _ => by
    simp only [List.mapM_nil]
    exact Halts.pure trivial
  | (name, v) :: rest, h => by
    simp only [List.mapM_cons, bind_assoc, pure_bind]
    refine (Value.IsData.toJson_halts v h.1).bind fun _ _ _ _ => ?_
    exact (Value.FieldsAreData.toJson_halts rest h.2).bind fun _ _ _ _ => Halts.pure trivial

end

/-- Reading an iterator to its end, if each of its values turns into data. -/
theorem Supplies.drain_halts {P : Stock → Value → Prop} (hP : ∀ g s v, P g v →
    Halts g s (fun k => Eval.toJson k v) fun _ _ => True) {n h : Nat} {g : Stock} {s : Scope}
    (hy : Supplies P n g h) : Halts g s (fun k => Eval.drain k h) fun _ _ => True := by
  induction n using Nat.strongRecOn generalizing g with
  | ind n ih =>
    refine Halts.succ (hy.next.bind fun g₁ o _ ho => ?_) fun k => by rw [Eval.drain]
    cases o with
    | none => exact Halts.pure trivial
    | some v =>
      obtain ⟨hv, m, hm, hy'⟩ := ho v rfl
      refine (hP g₁ s v hv).bind fun g₂ j hg₂ _ => ?_
      exact (ih m hm (hy'.later hg₂)).bind fun _ _ _ _ => Halts.pure trivial

mutual

/-- A value that holds turns into data or fails. -/
theorem Ty.Holds.toJson_halts : (t : Ty) → (g : Stock) → (s : Scope) → (v : Value) → t.Holds g v →
    Halts g s (fun k => Eval.toJson k v) fun _ _ => True
  | .int, _, _, v, h | .bool, _, _, v, h | .string, _, _, v, h | .var _, _, _, v, h => by
    simp only [Ty.Holds] at h
    exact h.toJson_halts
  | .record ts, g, s, v, h => by
    simp only [Ty.Holds] at h
    rcases h with h | ⟨fields, rfl, h⟩
    · exact h.toJson_halts
    · refine Halts.succ ((holdsFields_toJson_halts ts g s fields h).bind fun _ _ _ _ => ?_) fun k => by
        rw [Eval.toJson]
      exact Halts.pure trivial
  | .iterator t, g, s, v, h => by
    simp only [Ty.Holds] at h
    rcases h with h | ⟨elements, u, rfl, h⟩ | ⟨n, u, m, rfl, h⟩
    · exact h.toJson_halts
    · refine Halts.succ ((Halts.mapM (P := t.Holds) (fun hg h => Ty.Holds.later t hg h)
        (fun h => Ty.Holds.toJson_halts t _ s _ h) h).bind fun _ _ _ _ => ?_) fun k => by rw [Eval.toJson]
      exact Halts.pure trivial
    · refine Halts.succ ((h.drain_halts fun g s v => Ty.Holds.toJson_halts t g s v).bind
        fun _ _ _ _ => ?_) fun k => by rw [Eval.toJson]
      exact Halts.pure trivial
  | .function ps r, g, s, v, h => by
    simp only [Ty.Holds] at h
    rcases h with h | ⟨b, rfl, -⟩ | ⟨-, f, rfl, -⟩
    · exact h.toJson_halts
    · exact Halts.succ (Halts.throw (.notSerializable b.ty)) fun k => rfl
    · exact Halts.succ (Halts.throw (.notSerializable f.ty)) fun k => rfl
  | .index k r, g, s, v, h => by
    simp only [Ty.Holds] at h
    rcases h with h | ⟨i, rfl, -⟩
    · exact h.toJson_halts
    · exact Halts.succ (Halts.throw (.notSerializable i.ty)) fun k => rfl

theorem holdsFields_toJson_halts : (ts : List (String × Ty)) → (g : Stock) → (s : Scope) →
    (fields : List (String × Value)) → holdsFields ts g fields →
    Halts g s (fun k => fields.mapM fun (name, v) => do return (name, ← Eval.toJson k v)) fun _ _ => True
  | [], g, s, fields, h => by
    simp only [holdsFields] at h
    subst h
    simp only [List.mapM_nil]
    exact Halts.pure trivial
  | (name, t) :: ts, g, s, fields, h => by
    simp only [holdsFields] at h
    obtain ⟨v, rest, rfl, hv, hrest⟩ := h
    simp only [List.mapM_cons, bind_assoc, pure_bind]
    refine (Ty.Holds.toJson_halts t g s v hv).bind fun g₁ _ hg₁ _ => ?_
    refine (holdsFields_toJson_halts ts g₁ s rest (holdsFields_later ts hg₁ hrest)).bind fun _ _ _ _ => ?_
    exact Halts.pure trivial

end

/-! ## The handles on tables -/

theorem holdsFields_insert {ts : List (String × Ty)} {g : Stock} {fields : List (String × Value)}
    {name : String} {t : Ty} {v : Value} (h : holdsFields ts g fields) (hv : t.Holds g v) :
    holdsFields (Keyed.insert ts name t) g (Keyed.insert fields name v) := by
  induction ts generalizing fields with
  | nil =>
    simp only [holdsFields] at h
    subst h
    simp only [Keyed.insert, holdsFields]
    exact ⟨v, [], rfl, hv, rfl⟩
  | cons field ts ih =>
    obtain ⟨name', t'⟩ := field
    simp only [holdsFields] at h
    obtain ⟨v', rest, rfl, hv', hrest⟩ := h
    simp only [Keyed.insert]
    split
    next =>
      simp only [holdsFields]
      exact ⟨v, _, rfl, hv, v', rest, rfl, hv', hrest⟩
    next =>
      split
      next =>
        simp only [holdsFields]
        exact ⟨v, rest, rfl, hv, hrest⟩
      next =>
        simp only [holdsFields]
        exact ⟨v', _, rfl, hv', ih hrest⟩

theorem Ty.holds_recordOf {g : Stock} {ts : List (String × Ty)} {entries : List (String × Value)}
    (h : EntriesHold g ts entries) : (Ty.recordOf ts).Holds g (Value.recordOf entries) := by
  have hfold : ∀ (ms : List (String × Ty)) (ns : List (String × Value)), holdsFields ms g ns →
      holdsFields (ts.foldl (fun m e => Keyed.insert m e.1 e.2) ms) g
        (entries.foldl (fun m e => Keyed.insert m e.1 e.2) ns) := by
    induction h with
    | nil => exact fun ms ns hms => hms
    | cons hhead _ ih =>
      intro ms ns hms
      rw [List.foldl_cons, List.foldl_cons, ← hhead.1]
      exact ih _ _ (holdsFields_insert hms hhead.2)
  simp only [Ty.recordOf, Ty.Holds]
  exact Or.inr ⟨_, rfl, hfold [] [] (by simp only [holdsFields])⟩

/-- The handles on the tables of an ordered store hold, whatever its rows are. -/
theorem Catalog.holds_scope (schema : Schema) {store : Store} (h : store.Ordered) (g : Stock) :
    Scope.Holds g (Catalog.types schema) (Catalog.scope schema store) := by
  refine Scope.Holds.root.child (.cons ⟨rfl, Ty.holds_recordOf ?_⟩ .nil)
  induction schema with
  | nil => exact .nil
  | cons e schema ih =>
    refine .cons ⟨rfl, ?_⟩ ih
    simp only [Table.indexType, Ty.Holds, holdsFields]
    refine Or.inr ⟨_, rfl, _, [], rfl, Or.inr ⟨_, rfl, fun b hb => ?_⟩, rfl⟩
    rw [← Store.entries_of_bucket? hb]
    exact h.entries _

theorem Catalog.sorted_types (schema : Schema) : TypeScope.Sorted (Catalog.types schema) := by
  refine TypeScope.Sorted.child (by simp [TypeScope.Sorted, TypeScope.root]) fun e he => ?_
  rw [List.mem_singleton.mp he]
  refine Ty.sorted_recordOf fun f hf => ?_
  obtain ⟨⟨_, t⟩, -, rfl⟩ := List.mem_map.mp hf
  refine ⟨by simp [Keyed.Ordered], ⟨⟨?_, ?_⟩, trivial⟩⟩
  · cases t.primaryKey.type <;> trivial
  · refine Ty.sorted_recordOf fun f hf => ?_
    obtain ⟨c, -, rfl⟩ := List.mem_map.mp hf
    cases c.type <;> trivial

/-! ## Evaluating to data -/

/-- An expression that passes the check of its type, and whose annotations have no type variables, is evaluated
to data or fails, whatever is stored. -/
theorem Expr.run_halts {schema : Schema} {store : Store} {e : Expr} {t : Ty} (ordered : store.Ordered)
    (written : e.WellFormed) (ground : e.groundAnnotations = true)
    (typed : e.infer (Catalog.types schema) = .ok t) :
    ∃ n r, ∀ fuel, n ≤ fuel →
      Evaluation.run fuel (Machine.start (Catalog.scope schema store)) e = some r := by
  obtain ⟨sites, hlinked, -⟩ := (hasType_of_infer {} e _ t written ground typed).link (World.Le.refl {})
  have hstocks : ((Machine.start (Catalog.scope schema store)).load e).2.Stocks { sites := sites } := by
    refine ⟨rfl, rfl, by simp [Machine.load, Machine.start], fun n b hn => ?_⟩
    simp [Machine.load, Machine.start, Array.getElem?_replicate] at hn
  have heval := (hlinked.halts (written_link e 0 written) (Catalog.sorted_types schema) (g := { sites := sites })
    (by rfl) (Catalog.holds_scope schema ordered _)).bind fun g v _ hv => Ty.Holds.toJson_halts t g _ v hv
  obtain ⟨n, r, m', -, hexec, -⟩ := heval _ hstocks rfl
  refine ⟨n, { outcome := r.mapError .eval, sent := m'.sent.toList }, fun fuel hfuel => ?_⟩
  have hrun : (do Eval.toJson fuel (← Eval.eval fuel (← Eval.load e))).exec
      (Machine.start (Catalog.scope schema store)) = some (r, m') := by
    rw [Eval.exec_bind, Eval.exec_load, Option.bind_some, Eval.next?_ok]
    exact hexec fuel hfuel
  rw [Eval.exec] at hrun
  simp only [Evaluation.run, hrun]

namespace Sample

/-- A table of texts under whole numbers. -/
def texts : Schema :=
  [("t", ⟨"t", [⟨"id", .int, none⟩, ⟨"n", .string, none⟩], ⟨"id", .int, none⟩,
    ⟨"t", [⟨"id", .int, true, none⟩, ⟨"n", .string, false, none⟩]⟩⟩)]

/-- A row that has no text, only its key. -/
def keyAlone : Store :=
  { buckets := [("t", [([128, 0, 0, 0, 0, 0, 0, 1], [2, 22, 3, 17, 9, 105, 100])])] }

/-- The whole number after each key. -/
def nextKeys : Expr :=
  .callOf "map" [.callOf "scan" [.member (.member (.var "tables") "t") "id"],
    .lambda [("r", .record [("id", .int), ("n", .string)])] .int
      (.callOf "plus" [.member (.var "r") "id", .int 1])]

/-- A function of functions that applies its argument to itself, applied to itself. -/
def selfApplication : Expr :=
  .block [("w", .lambda [("x", .function [.var "A"] .int)] .int (.callOf "x" [.var "x"]))]
    (.callOf "w" [.var "w"])

end Sample

open Sample in
/-- The keys after those of a table are computed, though its row is not of its type. -/
theorem Expr.run_halts_nextKeys : ∃ n r, ∀ fuel, n ≤ fuel →
    Evaluation.run fuel (Machine.start (Catalog.scope texts keyAlone)) nextKeys = some r := by
  refine run_halts (t := .iterator .int) ⟨?_, fun name => ?_⟩ ?_ rfl (by with_unfolding_all rfl)
  · simp [keyAlone, Keyed.Ordered]
  · simp only [Store.entries, Store.bucket?, keyAlone, Keyed.find?_cons]
    split <;> simp [Keyed.Ordered, Keyed.find?]
  · have hrow : (Ty.record [("id", .int), ("n", .string)]).Sorted := by
      refine ⟨List.pairwise_pair.mpr ?_, trivial, trivial, trivial⟩
      decide
    have hkey : Ty.int.Sorted := trivial
    simp [nextKeys, WellFormed, ArgsWellFormed, callOf, hrow, hkey]

/-! ## Self-application -/

/-- The function that calls its argument on itself, as some evaluation has made it. -/
def Function.selfCalling (stamp : Nat) (ty result : Ty) (scope : Scope) : Function :=
  .closure stamp [("x", ty)] result (.call "x" [.var "x"] (.cell 0)) scope

/-- Calling it on itself has no end. -/
theorem Eval.exec_selfCalling {stamp : Nat} {ty result : Ty} {scope : Scope} (fuel : Nat) :
    ∀ (name : String) (site : CallSite) (m : Machine),
      Links.find? m.top.scope name = some (.function (.selfCalling stamp ty result scope)) →
      site.resolved? m.calls = none → (CallSite.cell 0).resolved? m.calls = none →
      (Eval.eval fuel (.call name [.var name] site)).exec m = none := by
  induction fuel using Nat.strongRecOn with
  | ind fuel ih =>
    intro name site m hfind hsite hcell
    let f := Function.selfCalling stamp ty result scope
    have hlookup : Scope.lookup m.top.scope name = .ok (.function f) := by rw [Scope.lookup, hfind]
    have hresolve : (Eval.resolve name site).exec m = some (.ok f, m) := by
      simp only [Eval.resolve, exec_bind, exec_get, Option.bind_some, next?_ok, hsite, exec_ofExcept, hlookup]
      rfl
    rcases fuel with _ | _ | fuel
    · rfl
    · rw [Eval.eval, exec_bind, hresolve, Option.bind_some, next?_ok, exec_bind, List.mapM_cons, exec_bind]
      rfl
    · have hargs : ([Expr.var name].mapM (Eval.eval (fuel + 1))).exec m = some (.ok [.function f], m) := by
        simp only [List.mapM_cons, List.mapM_nil, Eval.eval, exec_bind, exec_scope, Option.bind_some, next?_ok,
          exec_ofExcept, hlookup, exec_pure]
      have hbody := ih fuel (by omega) "x" (.cell 0) ({ m with rowPath := none }.push
        { scope := Links.child scope [("x", .function f)], callee := some f, path := m.rowPath.getD m.top.path })
        rfl hcell hcell
      rw [Eval.eval, exec_bind, hresolve, Option.bind_some, next?_ok, exec_bind, hargs, Option.bind_some,
        next?_ok, Eval.call, if_neg (by simp [f, Function.selfCalling, Function.arity]), exec_bind,
        exec_takeRowPath, Option.bind_some, next?_ok]
      show (Eval.inFrame _ (Eval.eval fuel (.call "x" [.var "x"] (.cell 0)))).exec _ = none
      rw [exec_inFrame]
      exact Option.map_eq_none_iff.mpr hbody

open Sample in
/-- A function that applies its argument to itself passes the check, since a type variable in an annotation is
taken as a pattern that the type of any argument matches; applied to itself it has no end. -/
theorem Expr.run_selfApplication : selfApplication.WellFormed ∧
    selfApplication.infer (Catalog.types []) = .ok .int ∧
    ∀ fuel, Evaluation.run fuel (Machine.start (Catalog.scope [] {})) selfApplication = none := by
  refine ⟨?_, by with_unfolding_all rfl, fun fuel => ?_⟩
  · simp [selfApplication, WellFormed, FieldsWellFormed, ArgsWellFormed, callOf, Ty.Sorted, Ty.SortedList]
  · have hexec : (do Eval.toJson fuel (← Eval.eval fuel (← Eval.load selfApplication))).exec
        (Machine.start (Catalog.scope [] {})) = none := by
      rw [Eval.exec_bind, Eval.exec_load, Option.bind_some, Eval.next?_ok, Eval.exec_bind]
      rcases fuel with _ | _ | fuel
      · rfl
      · rfl
      · have hlambda : ∀ m : Machine, (Eval.eval (fuel + 1) (.lambda [("x", .function [.var "A"] .int)] .int
            (.call "x" [.var "x"] (.cell 0)))).exec m = some (.ok (.function
              (.selfCalling m.stamps (.function [.var "A"] .int) .int m.top.scope)),
              { m with stamps := m.stamps + 1 }) := by
          intro m
          simp only [Eval.eval, Eval.exec_bind, Eval.exec_freshStamp, Eval.exec_scope, Option.bind_some,
            Eval.next?_ok, Eval.exec_pure]
          rfl
        show ((Eval.eval (fuel + 2) (.block [("w", .lambda [("x", .function [.var "A"] .int)] .int
            (.call "x" [.var "x"] (.cell 0)))] (.call "w" [.var "w"] (.cell 1)))).exec _).bind _ = none
        rw [Eval.eval]
        simp only [List.foldlM_cons, List.foldlM_nil, bind_assoc, pure_bind, Eval.exec_bind, Eval.exec_scope,
          Option.bind_some, Eval.next?_ok, Eval.exec_within, hlambda, Option.map_some]
        rw [Eval.exec_selfCalling (fuel + 1) "w" (.cell 1) _ rfl rfl rfl]
        rfl
    rw [Eval.exec] at hexec
    simp only [Evaluation.run, hexec]

end LiveQuery
