import LiveQuery.Proofs.Typing.Evaluation

/-! # Contracts of built-in functions

The value that a built-in function gives has a type that its arguments determine (`Builtin.givenType`), and a call
holds it to the declared result under the bindings that the arguments made. The two agree or the declaration has no
type, with one exception (`Builtin.result_given`): what `filter` is given may have elements of its own type variable,
which then matches without being bound, and be bound by the test. That is the only call that breaks its contract
(`Eval.call_breaks_iff`).
-/
namespace LiveQuery

/-! ## Matching a variable -/

namespace Ty

variable {name : String} {c u : Ty} {bs bs' : Bindings}

/-- A variable that was not bound before is bound to what it matched, if it is bound at all. -/
theorem eq_of_matchVar (h : matchVar name c bs = (true, bs')) (hn : Keyed.find? bs name = none)
    (hu : Keyed.find? bs' name = some u) : u = c := by
  obtain ⟨-, rfl⟩ | ⟨-, hb, -⟩ | ⟨-, -, rfl⟩ := matchVar_cases h
  · rw [hn] at hu
    cases hu
  · rw [hn] at hb
    cases hb
  · rw [Keyed.find?_insert, if_pos rfl] at hu
    exact (Option.some.inj hu).symm

/-- No other variable is bound by matching one. -/
theorem find?_matchVar_of_ne {other : String} (h : matchVar name c bs = (true, bs')) (hne : name ≠ other) :
    Keyed.find? bs' other = Keyed.find? bs other := by
  obtain ⟨-, rfl⟩ | ⟨-, -, rfl⟩ | ⟨-, -, rfl⟩ := matchVar_cases h
  · rfl
  · rfl
  · exact Keyed.find?_insert_of_ne _ _ hne

/-- A variable that is not bound can stand for anything but another variable. -/
theorem matchVar_of_free (hc : ∀ n, c ≠ .var n) (hn : Keyed.find? bs name = none) :
    matchVar name c bs = (true, Keyed.insert bs name c) := by
  unfold matchVar
  split
  next other => exact absurd rfl (hc other)
  next => rw [hn]

/-- Nothing but a variable matches a variable. -/
theorem matching?_iterator_var_of_ne {p : Ty} (h : ∀ n, p ≠ .var n) :
    (Ty.iterator p).matching? (.iterator (.var name)) = none := by
  cases p with
  | var n => exact absurd rfl (h n)
  | _ => simp [matching?, matchFrom]

/-- The declaration of `filter` takes elements of its own variable, which the test then binds. -/
theorem matchParams_filter {p : Ty} (h : ∀ n, p ≠ .var n) :
    matchParams [.iterator (.var name), .function [.var name] .bool] [.iterator (.var name), .function [p] .bool] [] =
      (true, Keyed.insert [] name p) := by
  have hfree : matchVar name p [] = (true, Keyed.insert [] name p) := matchVar_of_free h rfl
  have hself : matchVar name (.var name) [] = (true, []) := by simp [matchVar]
  simp only [matchParams, matchFrom, hself, hfree, List.length_cons, List.length_nil, if_true]

end Ty

/-! ## What is declared and what is given -/

namespace Builtin

/-- The type of what a built-in function gives on arguments of the types. -/
def givenType : Builtin → List Ty → Ty
  | .map, [_, .function _ result] => .iterator result
  | .filter, [xs, _] => xs
  | .scan, [.index _ row] => .iterator row
  | .get, [.index _ row, _] => row
  | .listen, [rows, _] => rows
  | .listenWhere, [rows, _, _] => rows
  | b, _ => b.result

/-- The function is `filter`, the elements have the very type variable that it is declared with, and its test takes
values of the type `p`, which that variable is bound to. -/
structure Captures (b : Builtin) (ts : List Ty) (p : Ty) : Prop where
  filter : b = .filter
  types : ts = [.iterator (.var "A"), .function [p] .bool]
  bound : ∀ n, p ≠ .var n

variable {ts : List Ty} {bs : Bindings} {t : Ty}

theorem map_given (h : Function.Takes (.builtin .map) ts bs) (ht : Builtin.map.result.substitute bs = .ok t) :
    t = Builtin.map.givenType ts := by
  obtain ⟨hlen, hm⟩ := h
  obtain ⟨xs, f, rfl⟩ := List.length_eq_two.mp hlen.symm
  obtain ⟨bs₁, hxs, hm⟩ := Ty.matchParams_cons hm
  obtain ⟨bs₂, hf, hm⟩ := Ty.matchParams_cons hm
  cases Ty.matchParams_nil hm
  obtain ⟨e, -, hA⟩ := Ty.iterator_of_matchFrom hxs
  obtain ⟨p, r, bs₃, rfl, hA', hB⟩ := Ty.function_of_matchFrom hf
  obtain ⟨u, rfl, hu⟩ := Ty.iterator_of_substitute ht
  have hfree : Keyed.find? bs₃ "B" = none := by
    rw [Ty.find?_matchVar_of_ne hA' (by decide), Ty.find?_matchVar_of_ne hA (by decide)]
    rfl
  rw [Ty.matchFrom] at hB
  rw [Ty.eq_of_matchVar hB hfree hu]
  rfl

/-- What `filter` is declared to give has the elements of what it is given, unless these are of the variable that the
test binds. -/
theorem filter_given (hs : Ty.SortedList ts) (h : Function.Takes (.builtin .filter) ts bs)
    (ht : Builtin.filter.result.substitute bs = .ok t) :
    t = Builtin.filter.givenType ts ∨ ∃ p, Builtin.filter.Captures ts p ∧ t = .iterator p := by
  obtain ⟨hlen, hm⟩ := h
  obtain ⟨xs, f, rfl⟩ := List.length_eq_two.mp hlen.symm
  obtain ⟨bs₁, hxs, hm⟩ := Ty.matchParams_cons hm
  obtain ⟨bs₂, hf, hm⟩ := Ty.matchParams_cons hm
  cases Ty.matchParams_nil hm
  obtain ⟨e, rfl, hA⟩ := Ty.iterator_of_matchFrom hxs
  obtain ⟨p, r, bs₃, rfl, hA', hbool⟩ := Ty.function_of_matchFrom hf
  obtain ⟨rfl, rfl⟩ := Ty.eq_of_matchFrom .bool r bs₃ bs rfl trivial hs.2.1.2 hbool
  obtain ⟨u, rfl, hu⟩ := Ty.iterator_of_substitute ht
  obtain ⟨rfl, rfl⟩ | ⟨-, hbound, -⟩ | ⟨-, -, rfl⟩ := Ty.matchVar_cases hA
  · obtain rfl := Ty.eq_of_matchVar hA' rfl hu
    refine .inr ⟨u, ⟨rfl, rfl, fun n hn => ?_⟩, rfl⟩
    -- a variable as the test's parameter would leave the declared one without a binding
    subst hn
    obtain ⟨-, rfl⟩ | ⟨hvar, -⟩ | ⟨hvar, -⟩ := Ty.matchVar_cases hA'
    · cases hu
    · exact hvar n rfl
    · exact hvar n rfl
  · cases hbound
  · have hkept := Ty.find?_of_matchVar hA' (Keyed.find?_insert_self [] "A" e)
    rw [Option.some.inj (hu.symm.trans hkept)]
    exact .inl rfl

theorem scan_given (h : Function.Takes (.builtin .scan) ts bs) (ht : Builtin.scan.result.substitute bs = .ok t) :
    t = Builtin.scan.givenType ts := by
  obtain ⟨hlen, hm⟩ := h
  obtain ⟨x, rfl⟩ := List.length_eq_one_iff.mp hlen.symm
  obtain ⟨bs₁, hx, hm⟩ := Ty.matchParams_cons hm
  cases Ty.matchParams_nil hm
  obtain ⟨k, r, bs₂, rfl, hK, hR⟩ := Ty.index_of_matchFrom hx
  obtain ⟨u, rfl, hu⟩ := Ty.iterator_of_substitute ht
  rw [Ty.eq_of_matchVar hR (Ty.find?_matchVar_of_ne hK (by decide)) hu]
  rfl

theorem get_given (h : Function.Takes (.builtin .get) ts bs) (ht : Builtin.get.result.substitute bs = .ok t) :
    t = Builtin.get.givenType ts := by
  obtain ⟨hlen, hm⟩ := h
  obtain ⟨x, key, rfl⟩ := List.length_eq_two.mp hlen.symm
  obtain ⟨bs₁, hx, hm⟩ := Ty.matchParams_cons hm
  obtain ⟨bs₂, hkey, hm⟩ := Ty.matchParams_cons hm
  cases Ty.matchParams_nil hm
  obtain ⟨k, r, bs₃, rfl, hK, hR⟩ := Ty.index_of_matchFrom hx
  rw [Ty.matchFrom] at hkey
  have hu := Ty.find?_of_substitute ht
  rw [Ty.find?_matchVar_of_ne hkey (by decide)] at hu
  exact Ty.eq_of_matchVar hR (Ty.find?_matchVar_of_ne hK (by decide)) hu

theorem listen_given (h : Function.Takes (.builtin .listen) ts bs)
    (ht : Builtin.listen.result.substitute bs = .ok t) : t = Builtin.listen.givenType ts := by
  obtain ⟨hlen, hm⟩ := h
  obtain ⟨rows, point, rfl⟩ := List.length_eq_two.mp hlen.symm
  obtain ⟨bs₁, hrows, hm⟩ := Ty.matchParams_cons hm
  obtain ⟨bs₂, hpoint, hm⟩ := Ty.matchParams_cons hm
  cases Ty.matchParams_nil hm
  obtain ⟨e, rfl, hR⟩ := Ty.iterator_of_matchFrom hrows
  obtain rfl := Ty.eq_of_matchFrom_int hpoint
  obtain ⟨u, rfl, hu⟩ := Ty.iterator_of_substitute ht
  rw [Ty.eq_of_matchVar hR rfl hu]
  rfl

theorem listenWhere_given (h : Function.Takes (.builtin .listenWhere) ts bs)
    (ht : Builtin.listenWhere.result.substitute bs = .ok t) : t = Builtin.listenWhere.givenType ts := by
  obtain ⟨hlen, hm⟩ := h
  obtain ⟨rows, point, value, rfl⟩ := List.length_eq_three.mp hlen.symm
  obtain ⟨bs₁, hrows, hm⟩ := Ty.matchParams_cons hm
  obtain ⟨bs₂, hpoint, hm⟩ := Ty.matchParams_cons hm
  obtain ⟨bs₃, hvalue, hm⟩ := Ty.matchParams_cons hm
  cases Ty.matchParams_nil hm
  obtain ⟨e, rfl, hR⟩ := Ty.iterator_of_matchFrom hrows
  obtain rfl := Ty.eq_of_matchFrom_int hpoint
  rw [Ty.matchFrom] at hvalue
  obtain ⟨u, rfl, hu⟩ := Ty.iterator_of_substitute ht
  rw [Ty.find?_matchVar_of_ne hvalue (by decide)] at hu
  rw [Ty.eq_of_matchVar hR rfl hu]
  rfl

/-- What a built-in function is declared to give on arguments that match its parameters is what it gives, unless its
variable is captured. -/
theorem result_given {b : Builtin} (hs : Ty.SortedList ts) (h : Function.Takes (.builtin b) ts bs)
    (ht : b.result.substitute bs = .ok t) :
    t = b.givenType ts ∨ ∃ p, b.Captures ts p ∧ t = .iterator p := by
  cases b with
  | map => exact .inl (map_given h ht)
  | filter => exact filter_given hs h ht
  | scan => exact .inl (scan_given h ht)
  | get => exact .inl (get_given h ht)
  | listen => exact .inl (listen_given h ht)
  | listenWhere => exact .inl (listenWhere_given h ht)
  | _ =>
    cases ht
    exact .inl rfl

end Builtin

/-! ## What is given -/

/-- Whether a fault is one of the check on results. -/
def EvalFault.isContract : EvalFault → Bool
  | .returnContract .. => true
  | _ => false

/-- What holds of an outcome: of its value, or of its fault that it is not one of the check on results. -/
def Honours {α : Type} (Q : α → Prop) : Except EvalFault α → Prop
  | .ok a => Q a
  | .error f => f.isContract = false

/-- Wherever the evaluation ends, it honours `Q`. -/
def Eval.Delivers {α : Type} (act : Eval α) (Q : α → Prop) : Prop :=
  ∀ m r m', act.exec m = some (r, m') → Honours Q r

namespace Eval.Delivers

variable {α β : Type} {act : Eval α} {Q : α → Prop} {R : β → Prop}

theorem ofExcept {r : Except EvalFault α} (h : Honours Q r) : (Eval.ofExcept r).Delivers Q := by
  intro m r' m' hr
  rw [exec_ofExcept] at hr
  cases hr
  exact h

theorem pure {a : α} (h : Q a) : Eval.Delivers (Pure.pure a) Q := ofExcept (r := .ok a) h

theorem throw {f : EvalFault} (h : f.isContract = false) : Eval.Delivers (MonadExcept.throw f : Eval α) Q :=
  ofExcept (r := .error f) h

theorem ofEncoding {r : Except EncodingFault α} : (Eval.ofEncoding r).Delivers fun _ => True := by
  intro m r' m' hr
  rw [exec_ofEncoding] at hr
  cases hr
  cases r <;> trivial

theorem bind {f : α → Eval β} (h : act.Delivers Q) (hf : ∀ a, Q a → (f a).Delivers R) : (act >>= f).Delivers R := by
  intro m r m' hr
  rw [exec_bind] at hr
  obtain ⟨⟨r₁, m₁⟩, hact, hr⟩ := Option.bind_eq_some_iff.mp hr
  have hfirst := h m r₁ m₁ hact
  cases r₁ with
  | ok a => exact hf a hfirst m₁ r m' hr
  | error e =>
    cases hr
    exact hfirst

/-- A first step that always has a value. -/
theorem step {g : Machine → α} {f : Machine → Machine} {k : α → Eval β}
    (he : ∀ m, act.exec m = some (.ok (g m), f m)) (hk : ∀ a, (k a).Delivers R) : (act >>= k).Delivers R := by
  intro m r m' hr
  rw [exec_bind, he] at hr
  exact hk _ _ r m' hr

end Eval.Delivers

theorem Value.asInt_honours (v : Value) : Honours (fun _ => True) v.asInt := by cases v <;> trivial

theorem Value.asBool_honours (v : Value) : Honours (fun _ => True) v.asBool := by cases v <;> trivial

theorem Value.asStr_honours (v : Value) : Honours (fun _ => True) v.asStr := by cases v <;> trivial

theorem Value.asFunction_honours (v : Value) : Honours (fun f => v = .function f) v.asFunction := by
  cases v <;> rfl

theorem Value.asIndex_honours (v : Value) : Honours (fun i => v = .index i) v.asIndex := by
  cases v <;> rfl

theorem Value.toIterator_delivers (v : Value) : v.toIterator.Delivers fun p => v.ty = .iterator p.2 := by
  cases v with
  | array => exact .step (Eval.exec_allocate _) fun _ => .pure rfl
  | iterator => exact .pure rfl
  | _ => exact .throw rfl

theorem checkedInt_honours (operation : String) (n : Int) :
    Honours (fun v => v.ty = .int) (checkedInt operation n) := by
  unfold checkedInt
  split
  next => rfl
  next => rfl

/-- The rows of the index that can be read at all are of its row type. -/
def Index.HoldsRows (i : Index) : Prop :=
  ∀ bucket, i.rows = some bucket → ∀ e ∈ bucket, ∀ v, Value.decode e.2 = .ok v → v.ty = i.row

theorem Index.get_honours {i : Index} (h : i.HoldsRows) (key : Value) :
    Honours (fun v => v.ty = i.row) (i.get key) := by
  unfold Index.get
  cases hb : i.rows with
  | none => rfl
  | some b =>
    cases hk : key.toKey with
    | error e => rfl
    | ok k =>
      cases hf : Keyed.find? b k with
      | none =>
        simp only [hf]
        rfl
      | some bytes =>
        cases hv : Value.decode bytes with
        | error e =>
          simp only [hf, hv]
          rfl
        | ok v =>
          simp only [hf, hv]
          exact h b hb _ (Keyed.mem_of_find? hf) v hv

theorem Watch.point_honours (w : Watch) (n : Int64) : Honours (fun _ => True) (w.point n) := by
  unfold Watch.point
  split
  next => rfl
  next => split <;> trivial

/-- Live or not, what is listened to is given out with the type that it has. -/
theorem listenAt_delivers (rows : Value) (point : Int64) (value : Option Value) :
    (listenAt rows point value).Delivers fun v => v.ty = rows.ty := by
  refine .step Eval.exec_get fun m => ?_
  cases m.live with
  | none => exact .pure rfl
  | some w =>
    refine .bind (.ofExcept (w.point_honours point)) fun p _ => .step Eval.exec_path fun here => ?_
    have hgive : ∀ (source : Source) (element : Ty), rows.ty = .iterator element →
        Eval.Delivers (do return Value.iterator (← Eval.allocate source) element) fun v => v.ty = rows.ty :=
      fun source element h => .step (Eval.exec_allocate source) fun _ => .pure h.symm
    split
    next => exact .bind rows.toIterator_delivers fun q hq => hgive _ _ hq
    next =>
      exact .bind .ofEncoding fun filter _ => .step (Eval.exec_send _) fun _ =>
        .bind rows.toIterator_delivers fun q hq => hgive _ _ hq

namespace Builtin

theorem onInts_delivers (b : Builtin) {f : Int64 → Int64 → Except EvalFault Value} {t : Ty}
    (hf : ∀ m n, Honours (fun v => v.ty = t) (f m n)) (args : List Value) :
    (b.onInts f args).Delivers fun v => v.ty = t := by
  unfold onInts
  split
  next x y =>
    exact .bind (.ofExcept x.asInt_honours) fun m _ => .bind (.ofExcept y.asInt_honours) fun n _ =>
      .ofExcept (hf m n)
  next => exact .throw rfl

theorem onBools_delivers (b : Builtin) (f : Bool → Bool → Bool) (args : List Value) :
    (b.onBools f args).Delivers fun v => v.ty = .bool := by
  unfold onBools
  split
  next x y =>
    exact .bind (.ofExcept x.asBool_honours) fun p _ => .bind (.ofExcept y.asBool_honours) fun q _ => .pure rfl
  next => exact .throw rfl

theorem onStrs_delivers (b : Builtin) {f : String → String → Value} {t : Ty} (hf : ∀ x y, (f x y).ty = t)
    (args : List Value) : (b.onStrs f args).Delivers fun v => v.ty = t := by
  unfold onStrs
  split
  next x y =>
    exact .bind (.ofExcept x.asStr_honours) fun p _ => .bind (.ofExcept y.asStr_honours) fun q _ => .pure (hf p q)
  next => exact .throw rfl

/-- Whatever its arguments are, a built-in function does not fault on a contract itself, and a value that it gives is of
the type that theirs determine. -/
theorem apply_delivers (b : Builtin) {args : List Value} (hrows : ∀ i, .index i ∈ args → i.HoldsRows) :
    (b.apply args).Delivers fun v => v.ty = b.givenType (args.map Value.ty) := by
  unfold apply
  cases b with
  | plus | minus | times => exact onInts_delivers _ (t := .int) (fun m n => checkedInt_honours _ _) args
  | intEq | intLt | intGt => exact onInts_delivers _ (t := .bool) (fun m n => by rfl) args
  | boolEq | and | or => exact onBools_delivers _ _ args
  | strEq => exact onStrs_delivers _ (t := .bool) (fun x y => by rfl) args
  | concat => exact onStrs_delivers _ (t := .string) (fun x y => by rfl) args
  | not =>
    dsimp only
    split
    next x => exact .bind (.ofExcept x.asBool_honours) fun p _ => .pure rfl
    next => exact .throw rfl
  | map =>
    dsimp only
    split
    next xs f =>
      refine .bind (.ofExcept f.asFunction_honours) fun f' hf => ?_
      subst hf
      refine .bind xs.toIterator_delivers fun p _ => .step (Eval.exec_allocate _) fun n => .pure ?_
      rw [List.map_cons, List.map_cons, Value.ty, Value.ty, Function.ty_eq]
      rfl
    next => exact .throw rfl
  | filter =>
    dsimp only
    split
    next xs f =>
      refine .bind xs.toIterator_delivers fun p hp => ?_
      refine .bind (.ofExcept f.asFunction_honours) fun f' _ => .step (Eval.exec_allocate _) fun n => .pure ?_
      exact hp.symm
    next => exact .throw rfl
  | scan =>
    dsimp only
    split
    next index =>
      refine .bind (.ofExcept index.asIndex_honours) fun i hi => ?_
      subst hi
      exact .step (Eval.exec_allocate _) fun n => .pure rfl
    next => exact .throw rfl
  | get =>
    dsimp only
    split
    next index key =>
      refine .bind (.ofExcept index.asIndex_honours) fun i hi => ?_
      subst hi
      exact .ofExcept (Index.get_honours (hrows i List.mem_cons_self) key)
    next => exact .throw rfl
  | listen =>
    dsimp only
    split
    next rows point => exact .bind (.ofExcept point.asInt_honours) fun n _ => listenAt_delivers rows n none
    next => exact .throw rfl
  | listenWhere =>
    dsimp only
    split
    next rows point value =>
      exact .bind (.ofExcept point.asInt_honours) fun n _ => listenAt_delivers rows n (some value)
    next => exact .throw rfl

end Builtin

/-! ## Calls -/

namespace Builtin

/-- Arguments that are accepted match the declared parameters; others are refused as mismatches. -/
theorem checkArgs_honours (params : List (String × Ty)) (args : List Value) (bs : Bindings) :
    Honours (fun bs' => Ty.matchParams (params.map Prod.snd) (args.map Value.ty) bs = (true, bs'))
      (checkArgs params args bs) := by
  induction params generalizing args bs with
  | nil => simp only [List.map_nil, checkArgs, Ty.matchParams, Honours]
  | cons param params ih =>
    cases args with
    | nil => simp only [List.map_nil, List.map_cons, checkArgs, Ty.matchParams, Honours]
    | cons v args =>
      simp only [List.map_cons, checkArgs, Ty.matchParams]
      obtain ⟨found, bs'⟩ := param.2.matchFrom v.ty bs
      cases found with
      | true => exact ih args bs'
      | false => rfl

/-- A declared result without a type is a fault of its variable. -/
theorem substitute_result_honours (b : Builtin) (bs : Bindings) :
    Honours (fun _ => True) (b.result.substitute bs) := by
  have hvar : ∀ name, Honours (fun _ => True) ((Ty.var name).substitute bs) := by
    intro name
    rw [Ty.substitute]
    split <;> trivial
  have hiterator : ∀ name, Honours (fun _ => True) ((Ty.iterator (.var name)).substitute bs) := by
    intro name
    have h := hvar name
    rw [Ty.substitute]
    cases hr : (Ty.var name).substitute bs with
    | ok t => trivial
    | error e =>
      rw [hr] at h
      exact h
  cases b with
  | get => exact hvar "R"
  | map => exact hiterator "B"
  | filter => exact hiterator "A"
  | scan | listen | listenWhere => exact hiterator "R"
  | _ => trivial

theorem checkResult_returnContract_iff {b : Builtin} {bs : Bindings} {v : Value} {name : String}
    {declared actual : Ty} :
    b.checkResult bs v = .error (.returnContract name declared actual) ↔
      b.result.substitute bs = .ok declared ∧ declared.matching? v.ty = none ∧ name = b.name ∧ actual = v.ty := by
  have hr := b.substitute_result_honours bs
  unfold checkResult
  cases hsub : b.result.substitute bs with
  | error e =>
    rw [hsub] at hr
    constructor
    · intro h
      cases h
      cases hr
    · rintro ⟨h, -⟩
      cases h
  | ok t =>
    rw [bind_of_ok rfl]
    cases hm : t.matching? v.ty with
    | some bs' =>
      constructor
      · intro h
        cases h
      · rintro ⟨h, hnone, -⟩
        cases h
        rw [hm] at hnone
        cases hnone
    | none =>
      constructor
      · intro h
        cases h
        exact ⟨rfl, hm, rfl, rfl⟩
      · rintro ⟨h, -, rfl, rfl⟩
        cases h
        rfl

/-- `filter` has a value whatever it tests with, as long as there is a sequence to test. -/
theorem exec_filter {xs : Value} {element : Ty} (hxs : xs.ty = .iterator element) (test : Function) (m : Machine) :
    ∃ h m', (Builtin.filter.apply [xs, .function test]).exec m = some (.ok (.iterator h element), m') := by
  cases xs with
  | array elements t =>
    cases hxs
    exact ⟨_, _, rfl⟩
  | iterator h t =>
    cases hxs
    exact ⟨_, _, rfl⟩
  | function f =>
    rw [Value.ty, Function.ty_eq] at hxs
    cases hxs
  | _ => cases hxs

end Builtin

namespace Eval

variable {b : Builtin} {args : List Value}

/-- A call with the declared number of arguments, each of a type that is accepted, is the function's own and then the
check on its result. -/
theorem exec_call_builtin (fuel : Nat) {bs : Bindings} (harity : (Function.builtin b).arity = args.length)
    (hargs : Builtin.checkArgs b.params args [] = .ok bs) (m : Machine) :
    ∃ m₁, (call (fuel + 1) (.builtin b) args).exec m =
      ((b.apply args).exec m₁).bind fun p => next? (fun v => ofExcept (b.checkResult bs v)) (p.1, p.2.pop) := by
  simp only [call, ne_eq, harity, not_true_eq_false, if_false, exec_bind, exec_takeRowPath, exec_ofExcept, hargs,
    exec_inFrame, Option.bind_some, next?_ok, Option.bind_map]
  exact ⟨_, rfl⟩

/-- A call that ends in the fault of the check on results had its arguments accepted and a value that the check
refused. -/
theorem refused_of_returnContract {fuel : Nat} (rows : ∀ i, .index i ∈ args → i.HoldsRows) {m m' : Machine}
    {name : String} {declared actual : Ty}
    (h : (call (fuel + 1) (.builtin b) args).exec m = some (.error (.returnContract name declared actual), m')) :
    ∃ bs v, Function.Takes (.builtin b) (args.map Value.ty) bs ∧ v.ty = b.givenType (args.map Value.ty) ∧
      b.checkResult bs v = .error (.returnContract name declared actual) := by
  by_cases harity : (Function.builtin b).arity = args.length
  · have haccepted := Builtin.checkArgs_honours b.params args []
    cases hargs : Builtin.checkArgs b.params args [] with
    | error e =>
      simp only [call, ne_eq, harity, not_true_eq_false, if_false, exec_bind, exec_takeRowPath, exec_ofExcept, hargs,
        Option.bind_some, next?_ok, next?_error] at h
      rw [hargs] at haccepted
      cases h
      cases haccepted
    | ok bs =>
      rw [hargs] at haccepted
      obtain ⟨m₁, hcall⟩ := exec_call_builtin fuel harity hargs m
      rw [hcall] at h
      obtain ⟨⟨r, m₂⟩, happly, h⟩ := Option.bind_eq_some_iff.mp h
      have hgiven := b.apply_delivers rows m₁ r m₂ happly
      cases r with
      | error e =>
        cases h
        cases hgiven
      | ok v =>
        rw [next?_ok, exec_ofExcept] at h
        refine ⟨bs, v, ⟨?_, haccepted⟩, hgiven, (Prod.mk.inj (Option.some.inj h)).1⟩
        rw [Function.length_paramTypes, List.length_map]
        exact harity
  · rw [call, if_pos harity] at h
    cases h

/-- `filter` on elements of its own type variable and a test that binds the variable is declared to give what the test
takes, and gives the variable. -/
theorem call_captured (fuel : Nat) {xs : Value} {f : Function} {p : Ty} (hxs : xs.ty = .iterator (.var "A"))
    (hf : (Value.function f).ty = .function [p] .bool) (hp : ∀ n, p ≠ .var n) (m : Machine) :
    ∃ m', (call (fuel + 1) (.builtin .filter) [xs, .function f]).exec m =
      some (.error (.returnContract "filter" (.iterator p) (.iterator (.var "A"))), m') := by
  have hmatch : Ty.matchParams (Builtin.filter.params.map Prod.snd) ([xs, .function f].map Value.ty) [] =
      (true, Keyed.insert [] "A" p) := by
    rw [List.map_cons, List.map_cons, List.map_nil, hxs, hf]
    exact Ty.matchParams_filter hp
  obtain ⟨m₁, hcall⟩ := exec_call_builtin fuel rfl (Builtin.checkArgs_eq hmatch) m
  obtain ⟨h, m₂, happly⟩ := Builtin.exec_filter hxs f m₁
  have hrefused : Builtin.filter.checkResult (Keyed.insert [] "A" p) (.iterator h (.var "A")) =
      .error (.returnContract "filter" (.iterator p) (.iterator (.var "A"))) :=
    Builtin.checkResult_returnContract_iff.mpr ⟨rfl, Ty.matching?_iterator_var_of_ne hp, rfl, rfl⟩
  refine ⟨m₂.pop, ?_⟩
  rw [hcall, happly, Option.bind_some, next?_ok, exec_ofExcept, hrefused]

/-- A call breaks its contract in one case only: `filter` is given elements of the type variable that its own
declaration has for them, and a test that binds the variable. -/
theorem call_breaks_iff (fuel : Nat) (sorted : ∀ v ∈ args, v.ty.Sorted)
    (rows : ∀ i, .index i ∈ args → i.HoldsRows) (m : Machine) (name : String) (declared actual : Ty) :
    (∃ m', (call (fuel + 1) (.builtin b) args).exec m = some (.error (.returnContract name declared actual), m')) ↔
      ∃ p, b.Captures (args.map Value.ty) p ∧ name = b.name ∧ declared = .iterator p ∧
        actual = .iterator (.var "A") := by
  have hs : Ty.SortedList (args.map Value.ty) := by
    refine Ty.sortedList_iff.mpr fun t ht => ?_
    obtain ⟨v, hv, rfl⟩ := List.mem_map.mp ht
    exact sorted v hv
  constructor
  · rintro ⟨m', h⟩
    obtain ⟨bs, v, htakes, hgiven, hrefused⟩ := refused_of_returnContract rows h
    obtain ⟨hdeclared, hmatch, rfl, rfl⟩ := Builtin.checkResult_returnContract_iff.mp hrefused
    obtain hsame | ⟨p, hcaptures, rfl⟩ := Builtin.result_given hs htakes hdeclared
    · -- the declared type is that of the value, which matches itself
      have hsorted : declared.Sorted := Ty.sorted_of_substitute b.result declared bs b.sorted_ty.2
        (Ty.sortedBindings_of_matchParams _ _ _ _ hs (by simp [Ty.SortedBindings]) htakes.bindings) hdeclared
      rw [hgiven, ← hsame, Ty.matching?_self hsorted] at hmatch
      cases hmatch
    · refine ⟨p, hcaptures, rfl, rfl, ?_⟩
      rw [hgiven, hcaptures.filter, hcaptures.types]
      rfl
  · rintro ⟨p, ⟨rfl, htypes, hp⟩, rfl, rfl, rfl⟩
    obtain ⟨xs, _, rfl, hxs, htypes⟩ := List.map_eq_cons_iff.mp htypes
    obtain ⟨f, _, rfl, hf, htypes⟩ := List.map_eq_cons_iff.mp htypes
    cases List.map_eq_nil_iff.mp htypes
    obtain ⟨f, rfl, -, -⟩ := Value.function_of_ty hf
    exact call_captured fuel hxs hf hp m

namespace Contracts.Sample

/-- An index of one row, a record of its key. -/
def people : Index where
  table := "people"
  column := "id"
  key := .int
  row := .record [("id", .int)]
  rows := some [([128, 0, 0, 0, 0, 0, 0, 1], [2, 22, 3, 17, 9, 105, 100])]

end Contracts.Sample

open Contracts.Sample in
/-- Looking up the row keeps the contract, on any machine. -/
theorem call_breaks_iff_get : (∀ v ∈ [Value.index people, .int 1], v.ty.Sorted) ∧ people.HoldsRows ∧
    ∀ m name declared actual, ¬∃ m', (call 1 (.builtin .get) [.index people, .int 1]).exec m =
      some (.error (.returnContract name declared actual), m') := by
  have hsorted : ∀ v ∈ [Value.index people, .int 1], v.ty.Sorted := by
    refine List.forall_mem_cons.mpr ⟨⟨trivial, ?_, trivial, trivial⟩, List.forall_mem_cons.mpr ⟨trivial, by simp⟩⟩
    rw [Keyed.Ordered]
    decide
  have hread : ((Value.decode [2, 22, 3, 17, 9, 105, 100]).toOption.all fun v => v.ty = people.row) = true := by
    decide +kernel
  have hrows : people.HoldsRows := by
    rintro bucket ⟨⟩ e he v hv
    obtain rfl := List.mem_singleton.mp he
    rw [hv] at hread
    exact of_decide_eq_true hread
  have hindex : ∀ i, Value.index i ∈ [Value.index people, .int 1] → i.HoldsRows := by
    intro i hi
    rcases List.mem_cons.mp hi with h | h
    · obtain rfl := Value.index.inj h
      exact hrows
    · cases List.mem_singleton.mp h
  refine ⟨hsorted, hrows, fun m name declared actual hbreaks => ?_⟩
  obtain ⟨p, hcaptures, -⟩ := (call_breaks_iff 0 hsorted hindex m name declared actual).mp hbreaks
  cases hcaptures.filter

/-- Filtering an empty array of elements of the type variable by negation breaks the contract. -/
theorem exists_breaking_call : ∃ m', (call 1 (.builtin .filter)
    [.array [] (.var "A"), .function (.builtin .not)]).exec (.start []) =
      some (.error (.returnContract "filter" (.iterator .bool) (.iterator (.var "A"))), m') :=
  call_captured 0 rfl rfl (by simp) _

end Eval

end LiveQuery
