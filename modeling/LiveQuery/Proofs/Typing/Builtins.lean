import LiveQuery.Proofs.Typing.Safety

/-! # Built-in functions keep their declarations

A built-in function that is given sound arguments of matching types is safe and gives a sound value of
its declared result (`Builtin.apply_safe`). None of them calls a function; what `map` and `filter` are
given is checked against the elements now, for the time when the iterator is read.
-/
namespace LiveQuery

/-! ## Bindings -/

namespace Ty

theorem matchParams_cons {p c : Ty} {ps cs : List Ty} {bs bs' : Bindings}
    (h : matchParams (p :: ps) (c :: cs) bs = (true, bs')) :
    ∃ bs₁, p.matchFrom c bs = (true, bs₁) ∧ matchParams ps cs bs₁ = (true, bs') := by
  simp only [matchParams] at h
  split at h
  next bs₁ hp => exact ⟨bs₁, hp, h⟩
  next => cases h

theorem matchParams_nil {bs bs' : Bindings} (h : matchParams [] [] bs = (true, bs')) : bs' = bs := by
  simp only [matchParams, Prod.mk.injEq, true_and] at h
  exact h.symm

/-- A variable that matched a type is bound to it. -/
theorem find?_matchVar {name : String} {c : Ty} {bs bs' : Bindings} (hc : ∀ n, c ≠ .var n)
    (h : matchVar name c bs = (true, bs')) : Keyed.find? bs' name = some c := by
  obtain ⟨hvar, -⟩ | ⟨-, hb, rfl⟩ | ⟨-, -, rfl⟩ := matchVar_cases h
  · exact absurd hvar (hc name)
  · exact hb
  · exact Keyed.find?_insert_self bs name c

/-- Bindings are only added. -/
theorem find?_of_matchVar {name k : String} {c t : Ty} {bs bs' : Bindings}
    (h : matchVar name c bs = (true, bs')) (hk : Keyed.find? bs k = some t) :
    Keyed.find? bs' k = some t := by
  obtain ⟨-, rfl⟩ | ⟨-, -, rfl⟩ | ⟨-, hn, rfl⟩ := matchVar_cases h
  · exact hk
  · exact hk
  · have hne : name ≠ k := by
      rintro rfl
      rw [hn] at hk
      cases hk
    rw [Keyed.find?_insert_of_ne _ _ hne, hk]

theorem iterator_of_matchFrom {name : String} {c : Ty} {bs bs' : Bindings}
    (h : (Ty.iterator (.var name)).matchFrom c bs = (true, bs')) :
    ∃ e, c = .iterator e ∧ matchVar name e bs = (true, bs') := by
  cases c with
  | iterator e => exact ⟨e, rfl, by simpa only [matchFrom] using h⟩
  | _ => simp [matchFrom] at h

theorem index_of_matchFrom {name other : String} {c : Ty} {bs bs' : Bindings}
    (h : (Ty.index (.var name) (.var other)).matchFrom c bs = (true, bs')) :
    ∃ k r bs₁, c = .index k r ∧ matchVar name k bs = (true, bs₁) ∧ matchVar other r bs₁ = (true, bs') := by
  cases c with
  | index k r =>
    simp only [matchFrom] at h
    split at h
    next bs₁ hk => exact ⟨k, r, bs₁, rfl, hk, h⟩
    next => cases h
  | _ => simp [matchFrom] at h

theorem function_of_matchFrom {name : String} {result c : Ty} {bs bs' : Bindings}
    (h : (Ty.function [.var name] result).matchFrom c bs = (true, bs')) :
    ∃ p r bs₁, c = .function [p] r ∧ matchVar name p bs = (true, bs₁) ∧
      result.matchFrom r bs₁ = (true, bs') := by
  cases c with
  | function ps r =>
    simp only [matchFrom] at h
    split at h
    next hlen =>
      obtain ⟨p, rfl⟩ := List.length_eq_one_iff.mp hlen.symm
      split at h
      next bs₁ hps =>
        obtain ⟨bs₂, hp, hnil⟩ := matchParams_cons hps
        cases matchParams_nil hnil
        exact ⟨p, r, bs₁, rfl, by simpa only [matchFrom] using hp, h⟩
      next => cases h
    next => cases h
  | _ => simp [matchFrom] at h

theorem find?_of_substitute {name : String} {t : Ty} {bs : Bindings}
    (h : (Ty.var name).substitute bs = .ok t) : Keyed.find? bs name = some t := by
  simp only [substitute] at h
  split at h
  next u hu => cases h; exact hu
  next => cases h

theorem iterator_of_substitute {name : String} {t : Ty} {bs : Bindings}
    (h : (Ty.iterator (.var name)).substitute bs = .ok t) :
    ∃ u, t = .iterator u ∧ Keyed.find? bs name = some u := by
  rw [substitute] at h
  obtain ⟨u, hu, h⟩ := ok_of_bind h
  cases h
  exact ⟨u, rfl, find?_of_substitute hu⟩

theorem eq_of_matchFrom_int {c : Ty} {bs bs' : Bindings} (h : Ty.int.matchFrom c bs = (true, bs')) :
    bs = bs' := by
  cases c <;> simp [matchFrom] at h
  exact h

theorem eq_of_matchFrom_bool {c : Ty} {bs bs' : Bindings} (h : Ty.bool.matchFrom c bs = (true, bs')) :
    bs = bs' := by
  cases c <;> simp [matchFrom] at h
  exact h

theorem Proper.ne_var {t : Ty} (h : t.Proper) (name : String) : t ≠ .var name := by
  rintro rfl
  cases h.ground

theorem substitute_var {name : String} {t : Ty} {bs : Bindings} (h : Keyed.find? bs name = some t) :
    (Ty.var name).substitute bs = .ok t := by
  simp only [substitute, h]

theorem substitute_iterator {element t : Ty} {bs : Bindings} (h : element.substitute bs = .ok t) :
    (Ty.iterator element).substitute bs = .ok (.iterator t) := by
  simp only [substitute, h]
  rfl

end Ty

/-- A type without variables is accepted where it is declared. -/
theorem Function.accepts_of_proper {f : Function} {a r : Ty} (hp : f.paramTypes = [a]) (ha : a.Sorted)
    (hr : f.result = r) (hg : r.isGround = true) : f.Accepts [a] r := by
  refine ⟨[], ⟨by rw [hp], ?_⟩, ?_⟩
  · rw [hp]
    exact Ty.matchParams_self [a] [] ⟨ha, trivial⟩
  · rw [hr]
    exact Ty.substitute_of_ground r [] hg

/-! ## Canonical forms -/

theorem Value.int_of_ty {v : Value} (h : v.ty = .int) : ∃ n, v = .int n := by
  cases v with
  | int n => exact ⟨n, rfl⟩
  | function f => cases f <;> cases h
  | _ => cases h

theorem Value.bool_of_ty {v : Value} (h : v.ty = .bool) : ∃ b, v = .bool b := by
  cases v with
  | bool b => exact ⟨b, rfl⟩
  | function f => cases f <;> cases h
  | _ => cases h

theorem Value.str_of_ty {v : Value} (h : v.ty = .string) : ∃ s, v = .str s := by
  cases v with
  | str s => exact ⟨s, rfl⟩
  | function f => cases f <;> cases h
  | _ => cases h

theorem Value.record_of_ty {v : Value} {ts : List (String × Ty)} (h : v.ty = .record ts) :
    ∃ fields, v = .record fields ∧ Value.fieldTypes fields = ts := by
  cases v with
  | record fields => exact ⟨fields, rfl, Ty.record.inj h⟩
  | function f => cases f <;> cases h
  | _ => cases h

theorem Value.function_of_ty {v : Value} {ps : List Ty} {r : Ty} (h : v.ty = .function ps r) :
    ∃ f, v = .function f ∧ f.paramTypes = ps ∧ f.result = r := by
  cases v with
  | function f =>
    have hf : f.ty = .function ps r := h
    rw [Function.ty_eq] at hf
    exact ⟨f, rfl, (Ty.function.inj hf).1, (Ty.function.inj hf).2⟩
  | _ => cases h

theorem Value.index_of_ty {v : Value} {k r : Ty} (h : v.ty = .index k r) :
    ∃ i, v = .index i ∧ i.key = k ∧ i.row = r := by
  cases v with
  | index i => exact ⟨i, rfl, (Ty.index.inj h).1, (Ty.index.inj h).2⟩
  | function f => cases f <;> cases h
  | _ => cases h

theorem Sound.element_proper {w : World} {v : Value} {a : Ty} (h : Sound w v)
    (ht : v.ty = .iterator a) : a.Proper := by
  cases h with
  | array proper => cases ht; exact proper
  | iterator proper => cases ht; exact proper
  | builtin | closure => cases ht
  | _ => cases ht

/-! ## Results -/

/-- The value is sound and of type `t`. -/
def Gives (t : Ty) (w : World) (v : Value) : Prop := Sound w v ∧ v.ty = t

namespace Builtin

variable {w : World} {s : Scope}

theorem onInts_safe (b : Builtin) {f : Int64 → Int64 → Except EvalFault Value} {args : List Value}
    {t : Ty} (ha : args.map Value.ty = [.int, .int]) (hf : ∀ m n, Meets (Gives t w) (f m n)) :
    Safe w s (b.onInts f args) (Gives t) := by
  obtain ⟨x, _, rfl, hx, ha⟩ := List.map_eq_cons_iff.mp ha
  obtain ⟨y, _, rfl, hy, ha⟩ := List.map_eq_cons_iff.mp ha
  cases List.map_eq_nil_iff.mp ha
  obtain ⟨m, rfl⟩ := Value.int_of_ty hx
  obtain ⟨n, rfl⟩ := Value.int_of_ty hy
  refine Safe.of_exec (r := f m n) (fun m' => ?_) (hf m n)
  simp [onInts, Value.asInt, Eval.exec_bind]

theorem onBools_safe (b : Builtin) {f : Bool → Bool → Bool} {args : List Value}
    (ha : args.map Value.ty = [.bool, .bool]) : Safe w s (b.onBools f args) (Gives .bool) := by
  obtain ⟨x, _, rfl, hx, ha⟩ := List.map_eq_cons_iff.mp ha
  obtain ⟨y, _, rfl, hy, ha⟩ := List.map_eq_cons_iff.mp ha
  cases List.map_eq_nil_iff.mp ha
  obtain ⟨p, rfl⟩ := Value.bool_of_ty hx
  obtain ⟨q, rfl⟩ := Value.bool_of_ty hy
  exact Safe.of_exec (r := .ok (.bool (f p q))) (fun _ => rfl) ⟨.bool _, rfl⟩

theorem onStrs_safe (b : Builtin) {f : String → String → Value} {args : List Value} {t : Ty}
    (ha : args.map Value.ty = [.string, .string]) (hf : ∀ x y, Gives t w (f x y)) :
    Safe w s (b.onStrs f args) (Gives t) := by
  obtain ⟨x, _, rfl, hx, ha⟩ := List.map_eq_cons_iff.mp ha
  obtain ⟨y, _, rfl, hy, ha⟩ := List.map_eq_cons_iff.mp ha
  cases List.map_eq_nil_iff.mp ha
  obtain ⟨x, rfl⟩ := Value.str_of_ty hx
  obtain ⟨y, rfl⟩ := Value.str_of_ty hy
  exact Safe.of_exec (r := .ok (f x y)) (fun _ => rfl) (hf x y)

theorem checkedInt_meets (operation : String) (n : Int) :
    Meets (Gives .int w) (checkedInt operation n) := by
  unfold checkedInt
  split
  next => exact ⟨.int _, rfl⟩
  next => rfl

theorem toIterator_safe {v : Value} {a : Ty} (hv : Sound w v) (ht : v.ty = .iterator a) :
    Safe w s v.toIterator (fun w' p => w'.elements[p.1]? = some a ∧ p.2 = a) := by
  cases hv with
  | iterator proper known =>
    cases ht
    exact Safe.pure ⟨known, rfl⟩
  | array proper each types =>
    cases ht
    exact (Safe.allocate (.elements each types)).bind fun w' n _ hn => Safe.pure ⟨hn, rfl⟩
  | builtin | closure => cases ht
  | _ => cases ht

/-- A function whose parameter matched the elements takes them, and its result has no variables: no
built-in of one parameter is polymorphic in a way that elements could match. -/
theorem accepts_element {f : Function} {a p : Ty} {name : String} {bs bs' : Bindings}
    (hf : Sound w (.function f)) (ha : a.Proper) (hp : f.paramTypes = [p])
    (hb : Keyed.find? bs name = some a) (hm : Ty.matchVar name p bs = (true, bs')) :
    f.Accepts [a] f.result ∧ f.result.Proper := by
  have hkeep : Keyed.find? bs' name = some a := Ty.find?_of_matchVar hm hb
  cases hf with
  | closure params_proper result_proper _ _ _ =>
    obtain ⟨q, _, rfl, rfl, hq⟩ := List.map_eq_cons_iff.mp hp
    have hq : q.2.Proper := params_proper q List.mem_cons_self
    have hpa : q.2 = a := Option.some.inj ((Ty.find?_matchVar hq.ne_var hm).symm.trans hkeep)
    refine ⟨Function.accepts_of_proper (hp.trans ?_) ha.sorted rfl result_proper.ground, result_proper⟩
    rw [hpa]
  | builtin b =>
    cases b with
    | not =>
      obtain rfl : Ty.bool = p := (List.cons.inj hp).1
      have hpa : Ty.bool = a :=
        Option.some.inj ((Ty.find?_matchVar (by simp) hm).symm.trans hkeep)
      refine ⟨Function.accepts_of_proper (hp.trans ?_) ha.sorted rfl rfl, rfl, trivial⟩
      rw [hpa]
    | scan =>
      obtain rfl : Ty.index (.var "K") (.var "R") = p := (List.cons.inj hp).1
      have hpa : Ty.index (.var "K") (.var "R") = a :=
        Option.some.inj ((Ty.find?_matchVar (by simp) hm).symm.trans hkeep)
      rw [← hpa] at ha
      cases ha.ground
    | _ => cases hp

/-- The type that the first argument of `map`, `filter` or `listen` has. -/
theorem iterator_of_match {name : String} {bs : Bindings} {v : Value} (hv : Sound w v)
    (h : (Ty.iterator (.var name)).matchFrom v.ty [] = (true, bs)) :
    ∃ a, v.ty = .iterator a ∧ a.Proper ∧ Keyed.find? bs name = some a := by
  obtain ⟨a, ht, hA⟩ := Ty.iterator_of_matchFrom h
  have ha := hv.element_proper ht
  exact ⟨a, ht, ha, Ty.find?_matchVar ha.ne_var hA⟩

/-- The function that the second argument of `map` or `filter` is. -/
theorem function_of_match {name : String} {result a : Ty} {bs bs' : Bindings} {v : Value}
    (hv : Sound w v) (ha : a.Proper) (hb : Keyed.find? bs name = some a)
    (h : (Ty.function [.var name] result).matchFrom v.ty bs = (true, bs')) :
    ∃ f bs₁, v = .function f ∧ f.Accepts [a] f.result ∧ f.result.Proper ∧
      Keyed.find? bs₁ name = some a ∧ result.matchFrom f.result bs₁ = (true, bs') := by
  obtain ⟨p, r, bs₁, ht, hm, hr⟩ := Ty.function_of_matchFrom h
  obtain ⟨f, rfl, hps, rfl⟩ := Value.function_of_ty ht
  obtain ⟨hacc, hres⟩ := accepts_element hv ha hps hb hm
  exact ⟨f, bs₁, rfl, hacc, hres, Ty.find?_of_matchVar hm hb, hr⟩

theorem map_safe {args : List Value} {bs : Bindings} (each : ∀ v ∈ args, Sound w v)
    (h : Function.Takes (.builtin .map) (args.map Value.ty) bs) :
    ∃ t, Builtin.map.result.substitute bs = .ok t ∧ Safe w s (Builtin.map.apply args) (Gives t) := by
  obtain ⟨hlen, hm⟩ := h
  obtain ⟨xs, f, rfl⟩ := List.length_eq_two.mp ((List.length_map _).symm.trans hlen.symm)
  obtain ⟨bs₁, hxs, hm⟩ := Ty.matchParams_cons hm
  obtain ⟨bs₂, hf, hm⟩ := Ty.matchParams_cons hm
  cases Ty.matchParams_nil hm
  obtain ⟨a, hty, ha, hb⟩ := iterator_of_match (each xs (by simp)) hxs
  have hs := each f (by simp)
  obtain ⟨f, bs₃, rfl, hacc, hres, hb, hr⟩ := function_of_match hs ha hb hf
  rw [Ty.matchFrom] at hr
  have hbound : Keyed.find? bs "B" = some f.result := Ty.find?_matchVar hres.ne_var hr
  refine ⟨_, Ty.substitute_iterator (Ty.substitute_var hbound), ?_⟩
  refine Safe.bind_ok (b := f) rfl ?_
  refine (toIterator_safe (each xs (by simp)) hty).bind fun w₁ p hw₁ hp => ?_
  refine (Safe.allocate (.mapped hp.1 (hs.mono hw₁) hacc)).bind fun w₂ n _ hn => ?_
  exact Safe.pure ⟨.iterator hres hn, rfl⟩

theorem filter_safe {args : List Value} {bs : Bindings} (each : ∀ v ∈ args, Sound w v)
    (h : Function.Takes (.builtin .filter) (args.map Value.ty) bs) :
    ∃ t, Builtin.filter.result.substitute bs = .ok t ∧ Safe w s (Builtin.filter.apply args) (Gives t) := by
  obtain ⟨hlen, hm⟩ := h
  obtain ⟨xs, f, rfl⟩ := List.length_eq_two.mp ((List.length_map _).symm.trans hlen.symm)
  obtain ⟨bs₁, hxs, hm⟩ := Ty.matchParams_cons hm
  obtain ⟨bs₂, hf, hm⟩ := Ty.matchParams_cons hm
  cases Ty.matchParams_nil hm
  obtain ⟨a, hty, ha, hb⟩ := iterator_of_match (each xs (by simp)) hxs
  have hs := each f (by simp)
  obtain ⟨f, bs₃, rfl, hacc, hres, hb, hr⟩ := function_of_match hs ha hb hf
  obtain ⟨hbool, rfl⟩ := Ty.eq_of_matchFrom .bool _ _ _ rfl trivial hres.sorted hr
  refine ⟨_, Ty.substitute_iterator (Ty.substitute_var hb), ?_⟩
  rw [hbool] at hacc
  refine (toIterator_safe (each xs (by simp)) hty).bind fun w₁ p hw₁ hp => ?_
  refine Safe.bind_ok (b := f) rfl ?_
  refine (Safe.allocate (.filtered hp.1 (hs.mono hw₁) hacc)).bind fun w₂ n _ hn => ?_
  obtain ⟨inner, element⟩ := p
  cases hp.2
  exact Safe.pure ⟨.iterator ha hn, rfl⟩

/-- The index that the first argument of `scan` or `get` is. -/
theorem index_of_match {bs : Bindings} {v : Value} (hv : Sound w v)
    (h : (Ty.index (.var "K") (.var "R")).matchFrom v.ty [] = (true, bs)) :
    ∃ i, v = .index i ∧ i.Sound ∧ Keyed.find? bs "K" = some i.key ∧
      Keyed.find? bs "R" = some i.row := by
  obtain ⟨k, r, bs₁, ht, hk, hr⟩ := Ty.index_of_matchFrom h
  obtain ⟨i, rfl, rfl, rfl⟩ := Value.index_of_ty ht
  have hi : i.Sound := by
    cases hv
    assumption
  exact ⟨i, rfl, hi, Ty.find?_of_matchVar hr (Ty.find?_matchVar hi.key.ne_var hk), Ty.find?_matchVar hi.row.ne_var hr⟩

theorem scan_safe {args : List Value} {bs : Bindings} (each : ∀ v ∈ args, Sound w v)
    (h : Function.Takes (.builtin .scan) (args.map Value.ty) bs) :
    ∃ t, Builtin.scan.result.substitute bs = .ok t ∧ Safe w s (Builtin.scan.apply args) (Gives t) := by
  obtain ⟨hlen, hm⟩ := h
  obtain ⟨x, rfl⟩ := List.length_eq_one_iff.mp ((List.length_map _).symm.trans hlen.symm)
  obtain ⟨bs₁, hx, hm⟩ := Ty.matchParams_cons hm
  cases Ty.matchParams_nil hm
  obtain ⟨i, rfl, hi, -, hr⟩ := index_of_match (each x (by simp)) hx
  refine ⟨_, Ty.substitute_iterator (Ty.substitute_var hr), ?_⟩
  have hrows : Source.HasType w (.rows (i.rows.map Cursor.start)) i.row := by
    cases hb : i.rows with
    | none => exact .noRows
    | some b =>
      refine .rows (fun e he => nomatch he) fun b' hb' e he => ?_
      cases hb'
      exact hi.rows b hb e he
  refine Safe.bind_ok (b := i) rfl ?_
  exact (Safe.allocate hrows).bind fun w₁ n _ hn => Safe.pure ⟨.iterator hi.row hn, rfl⟩

theorem get_meets {i : Index} (hi : i.Sound) (key : Value) : Meets (Gives i.row w) (i.get key) := by
  unfold Index.get
  cases hb : i.rows with
  | none => rfl
  | some b =>
    cases hk : key.toKey with
    | error e => rfl
    | ok k =>
      cases hf : Keyed.find? b k with
      | none => simp only [hf]; rfl
      | some bytes =>
        obtain ⟨v, hv, hty, hd⟩ := hi.rows b hb _ (Keyed.mem_of_find? hf)
        simp only [hf, hv]
        exact ⟨hd.sound w, hty⟩

theorem get_safe {args : List Value} {bs : Bindings} (each : ∀ v ∈ args, Sound w v)
    (h : Function.Takes (.builtin .get) (args.map Value.ty) bs) :
    ∃ t, Builtin.get.result.substitute bs = .ok t ∧ Safe w s (Builtin.get.apply args) (Gives t) := by
  obtain ⟨hlen, hm⟩ := h
  obtain ⟨x, key, rfl⟩ := List.length_eq_two.mp ((List.length_map _).symm.trans hlen.symm)
  obtain ⟨bs₁, hx, hm⟩ := Ty.matchParams_cons hm
  obtain ⟨bs₂, hkey, hm⟩ := Ty.matchParams_cons hm
  cases Ty.matchParams_nil hm
  obtain ⟨i, rfl, hi, -, hr⟩ := index_of_match (each x (by simp)) hx
  rw [Ty.matchFrom] at hkey
  refine ⟨_, Ty.substitute_var (Ty.find?_of_matchVar hkey hr), ?_⟩
  exact Safe.bind_ok (b := i) rfl (Safe.ofExcept (get_meets hi key))

/-- Without a live query the rows are given back as they are. -/
theorem listenAt_safe {rows : Value} {t : Ty} (hr : Gives t w rows) (point : Int64)
    (value : Option Value) : Safe w s (listenAt rows point value) (Gives t) := by
  refine Safe.read Eval.exec_get fun m hm _ => ?_
  rw [hm.quiet]
  exact Safe.pure hr

theorem listen_safe {args : List Value} {bs : Bindings} (each : ∀ v ∈ args, Sound w v)
    (h : Function.Takes (.builtin .listen) (args.map Value.ty) bs) :
    ∃ t, Builtin.listen.result.substitute bs = .ok t ∧ Safe w s (Builtin.listen.apply args) (Gives t) := by
  obtain ⟨hlen, hm⟩ := h
  obtain ⟨rows, point, rfl⟩ := List.length_eq_two.mp ((List.length_map _).symm.trans hlen.symm)
  obtain ⟨bs₁, hrows, hm⟩ := Ty.matchParams_cons hm
  obtain ⟨bs₂, hpoint, hm⟩ := Ty.matchParams_cons hm
  cases Ty.matchParams_nil hm
  have hs := each rows (by simp)
  obtain ⟨a, hty, ha, hb⟩ := iterator_of_match hs hrows
  obtain ⟨hint, rfl⟩ :=
    Ty.eq_of_matchFrom .int _ _ _ rfl trivial (each point (by simp)).ty_sorted hpoint
  obtain ⟨n, rfl⟩ := Value.int_of_ty hint
  refine ⟨_, Ty.substitute_iterator (Ty.substitute_var hb), ?_⟩
  exact Safe.bind_ok (b := n) rfl (listenAt_safe ⟨hs, hty⟩ n none)

theorem listenWhere_safe {args : List Value} {bs : Bindings} (each : ∀ v ∈ args, Sound w v)
    (h : Function.Takes (.builtin .listenWhere) (args.map Value.ty) bs) :
    ∃ t, Builtin.listenWhere.result.substitute bs = .ok t ∧
      Safe w s (Builtin.listenWhere.apply args) (Gives t) := by
  obtain ⟨hlen, hm⟩ := h
  obtain ⟨rows, point, value, rfl⟩ :=
    List.length_eq_three.mp ((List.length_map _).symm.trans hlen.symm)
  obtain ⟨bs₁, hrows, hm⟩ := Ty.matchParams_cons hm
  obtain ⟨bs₂, hpoint, hm⟩ := Ty.matchParams_cons hm
  obtain ⟨bs₃, hvalue, hm⟩ := Ty.matchParams_cons hm
  cases Ty.matchParams_nil hm
  have hs := each rows (by simp)
  obtain ⟨a, hty, ha, hb⟩ := iterator_of_match hs hrows
  obtain ⟨hint, rfl⟩ :=
    Ty.eq_of_matchFrom .int _ _ _ rfl trivial (each point (by simp)).ty_sorted hpoint
  obtain ⟨n, rfl⟩ := Value.int_of_ty hint
  rw [Ty.matchFrom] at hvalue
  refine ⟨_, Ty.substitute_iterator (Ty.substitute_var (Ty.find?_of_matchVar hvalue hb)), ?_⟩
  exact Safe.bind_ok (b := n) rfl (listenAt_safe ⟨hs, hty⟩ n (some value))

/-- What the built-in functions on whole numbers, booleans and texts take and give. -/
theorem types_of_takes {b : Builtin} {ts : List Ty} {bs : Bindings} (hs : Ty.SortedList ts)
    (hp : Ty.groundList (b.params.map Prod.snd) = true) (hr : b.result.isGround = true)
    (h : Function.Takes (.builtin b) ts bs) :
    ts = b.params.map Prod.snd ∧ b.result.substitute bs = .ok b.result := by
  have hsorted : Ty.SortedList (b.params.map Prod.snd) := b.sorted_ty.1
  exact ⟨(Ty.eq_of_matchParams _ _ _ _ hp hsorted hs h.length h.bindings).1,
    Ty.substitute_of_ground _ _ hr⟩

/-- A built-in function on sound arguments that match its parameters has a declared result; it is safe
and gives a value of that type. -/
theorem apply_safe (b : Builtin) {args : List Value} {bs : Bindings} (each : ∀ v ∈ args, Sound w v)
    (h : Function.Takes (.builtin b) (args.map Value.ty) bs) :
    ∃ t, b.result.substitute bs = .ok t ∧ Safe w s (b.apply args) (Gives t) := by
  have hs : Ty.SortedList (args.map Value.ty) := by
    refine Ty.sortedList_iff.mpr fun u hu => ?_
    obtain ⟨v, hv, rfl⟩ := List.mem_map.mp hu
    exact (each v hv).ty_sorted
  cases b with
  | map => exact map_safe each h
  | filter => exact filter_safe each h
  | scan => exact scan_safe each h
  | get => exact get_safe each h
  | listen => exact listen_safe each h
  | listenWhere => exact listenWhere_safe each h
  | plus | minus | times =>
    obtain ⟨ha, hr⟩ := types_of_takes hs rfl rfl h
    exact ⟨_, hr, onInts_safe _ ha fun m n => checkedInt_meets _ _⟩
  | intEq | intLt | intGt =>
    obtain ⟨ha, hr⟩ := types_of_takes hs rfl rfl h
    exact ⟨_, hr, onInts_safe _ ha fun m n => ⟨.bool _, rfl⟩⟩
  | boolEq | and | or =>
    obtain ⟨ha, hr⟩ := types_of_takes hs rfl rfl h
    exact ⟨_, hr, onBools_safe _ ha⟩
  | strEq =>
    obtain ⟨ha, hr⟩ := types_of_takes hs rfl rfl h
    exact ⟨_, hr, onStrs_safe _ ha fun x y => ⟨.bool _, rfl⟩⟩
  | concat =>
    obtain ⟨ha, hr⟩ := types_of_takes hs rfl rfl h
    exact ⟨_, hr, onStrs_safe _ ha fun x y => ⟨.str _, rfl⟩⟩
  | not =>
    obtain ⟨ha, hr⟩ := types_of_takes hs rfl rfl h
    obtain ⟨x, _, rfl, hx, ha⟩ := List.map_eq_cons_iff.mp ha
    cases List.map_eq_nil_iff.mp ha
    obtain ⟨p, rfl⟩ := Value.bool_of_ty hx
    exact ⟨_, hr, Safe.bind_ok (b := p) rfl (Safe.pure ⟨.bool _, rfl⟩)⟩

end Builtin

/-- What a sound function declares of its result is a type, whatever sound arguments match its
parameters. -/
theorem Function.accepts_of_takes {w : World} {f : Function} {args : List Value} {bs : Bindings}
    (hf : Sound w (.function f)) (each : ∀ v ∈ args, Sound w v)
    (h : f.Takes (args.map Value.ty) bs) : ∃ t, f.result.substitute bs = .ok t := by
  cases hf with
  | closure _ result_proper _ _ _ => exact ⟨_, Ty.substitute_of_ground _ _ result_proper.ground⟩
  | builtin b =>
    obtain ⟨t, ht, -⟩ := Builtin.apply_safe (s := []) b each h
    exact ⟨t, ht⟩

end LiveQuery
