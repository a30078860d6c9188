import LiveQuery.Proofs.Typing.Builtins

/-! # Typed expressions are safe

Every expression of a type evaluates safely to a sound value of that type, and so does every call of a
sound function on arguments that it accepts; iterators give elements of their type, whenever they are
read (`soundAt`). The induction is on the fuel, for all parts of the evaluator at once.
-/
namespace LiveQuery

/-! ## Scopes -/

namespace Scope.AllSound

variable {w : World} {s : Scope}

theorem mono {w' : World} (h : s.AllSound w) (hw : w.Le w') : s.AllSound w' :=
  fun link hl e he => (h link hl e he).mono hw

theorem child (h : s.AllSound w) {entries : List (String × Value)}
    (he : ∀ e ∈ entries, Sound w e.2) : Scope.AllSound w (Links.child s entries) := by
  intro link hl e hmem
  rcases List.mem_cons.mp hl with rfl | hl
  · exact he e (Keyed.mem_of_mem_ofList hmem)
  · exact h link hl e hmem

theorem find? (h : s.AllSound w) {name : String} {v : Value} (hv : Links.find? s name = some v) :
    Sound w v := by
  induction s with
  | nil => cases hv
  | cons link s ih =>
    simp only [Links.find?] at hv
    split at hv
    next u hu =>
      cases hv
      exact h link List.mem_cons_self _ (Keyed.mem_of_find? hu)
    next => exact ih (fun l hl => h l (List.mem_cons_of_mem _ hl)) hv

theorem lookup (h : s.AllSound w) {name : String} {v : Value} (hv : Scope.lookup s name = .ok v) :
    Sound w v := by
  unfold Scope.lookup at hv
  split at hv
  next u hu => cases hv; exact h.find? hu
  next =>
    split at hv
    next u hu =>
      cases hv
      unfold rootValue? at hu
      split at hu
      next => cases hu; exact .bool _
      next =>
        split at hu
        next => cases hu; exact .bool _
        next =>
          obtain ⟨b, -, rfl⟩ := Option.map_eq_some_iff.mp hu
          exact .builtin b
    next => cases hv

end Scope.AllSound

theorem Scope.lookup_of_not_binds {s : Scope} {name : String} {v : Value}
    (h : Links.binds s name = false) : Scope.lookup s name = .ok v ↔ rootValue? name = some v := by
  have hn : Links.find? s name = none := by simpa [Links.binds] using h
  simp only [Scope.lookup, hn]
  cases rootValue? name <;> simp

/-- A name whose type is a function type has a function as its value. -/
theorem Expr.function_of_signature {s : Scope} {name : String} {params : List Ty} {result : Ty}
    (h : Expr.signature s.types name = .ok (params, result)) :
    ∃ f, Scope.lookup s name = .ok (.function f) ∧ f.paramTypes = params ∧ f.result = result := by
  obtain ⟨t, ht, h⟩ := ok_of_bind h
  split at h
  next ps r =>
    cases h
    obtain ⟨v, hv, hty⟩ := Scope.lookup_of_types ht
    obtain ⟨f, rfl, hp, hr⟩ := Value.function_of_ty hty
    exact ⟨f, hv, hp, hr⟩
  next => cases h

/-- A member of a sound record. -/
theorem Sound.member {w : World} {v : Value} {ts : List (String × Ty)} {name : String} {t : Ty}
    (h : Sound w v) (hty : v.ty = .record ts) (known : Keyed.find? ts name = some t) :
    ∃ u, v.member name = .ok u ∧ Gives t w u := by
  obtain ⟨fields, rfl, rfl⟩ := Value.record_of_ty hty
  rw [Value.fieldTypes_eq, Keyed.find?_mapValues] at known
  obtain ⟨u, hu, rfl⟩ := Option.map_eq_some_iff.mp known
  refine ⟨u, by simp only [Value.member, hu], ?_, rfl⟩
  cases h with
  | record _ each => exact each _ (Keyed.mem_of_find? hu)

/-! ## Resolving calls -/

namespace Eval

variable {w : World} {s : Scope}

/-- The function that a call names has the parameters and the result of its signature. -/
theorem resolve_safe {name : String} {site : CallSite} {params : List Ty} {result : Ty}
    (hs : s.AllSound w) (hsig : Expr.signature s.types name = .ok (params, result))
    (hsite : site.Agrees w s.types name) :
    Safe w s (resolve name site) (fun w' f =>
      Sound w' (.function f) ∧ f.paramTypes = params ∧ f.result = result) := by
  obtain ⟨f, hf, hparams, hresult⟩ := Expr.function_of_signature hsig
  intro m hm htop r m' hr
  rw [resolve, exec_bind, exec_get, Option.bind_some, next?_ok] at hr
  cases hres : site.resolved? m.calls with
  | some b =>
    rw [hres] at hr
    cases hr
    refine ⟨w, World.Le.refl w, hm, rfl, .builtin b, ?_⟩
    cases site with
    | unlinked => cases hres
    | known b' =>
      cases hres
      have hb := Except.ok.inj (hsig.symm.trans hsite)
      exact ⟨(Prod.mk.inj hb).1.symm, (Prod.mk.inj hb).2.symm⟩
    | cell n =>
      obtain ⟨name', hn, hroot⟩ := hm.calls n b (Option.join_eq_some_iff.mp hres)
      obtain ⟨rfl, hb⟩ := Prod.mk.inj (Option.some.inj (hn.symm.trans hsite))
      rw [Scope.binds_types] at hb
      cases hroot.symm.trans ((Scope.lookup_of_not_binds hb.symm).mp hf)
      exact ⟨hparams, hresult⟩
  | none =>
    rw [hres, htop] at hr
    simp only [hf, exec_bind, exec_ofExcept, Option.bind_some, next?_ok] at hr
    have hq : Meets (fun f => Sound w (.function f) ∧ f.paramTypes = params ∧ f.result = result)
        (.ok f) := ⟨hs.lookup hf, hparams, hresult⟩
    split at hr
    next b n =>
      split at hr
      next =>
        cases hr
        exact ⟨w, World.Le.refl w, hm, rfl, hq⟩
      next hb =>
        cases hr
        -- the name stands for the built-in here, so it does wherever this cell is looked up again
        rw [Bool.not_eq_true] at hb
        refine ⟨w, World.Le.refl w, hm.note ?_ ((Scope.lookup_of_not_binds hb).mp hf), rfl, hq⟩
        rw [← hb, ← Scope.binds_types]
        exact hsite
    next =>
      cases hr
      exact ⟨w, World.Le.refl w, hm, rfl, hq⟩

/-! ## Reading cells -/

/-- The next element of an iterator, if there is one. -/
def GivesElement (t : Ty) (w : World) (o : Option Value) : Prop := ∀ v, o = some v → Gives t w v

/-- The next element of a source and the source after it, if there is one. -/
def GivesStep (t : Ty) (w : World) (o : Option (Value × Source)) : Prop :=
  ∀ v source, o = some (v, source) → Gives t w v ∧ source.HasType w t

/-- A step that puts the end of an iterator on record. -/
theorem finish_safe (h : Nat) (source : Source) :
    Safe w s (readCell.finish h source) (fun w' _ => w' = w) := by
  refine Safe.update (fun m hm => ?_) (fun m => ?_)
  · cases source.inner? with
    | none => exact hm.setCell_done h
    | some inner => exact (Machine.Agrees.closeFrom _ inner hm).setCell_done h
  · cases source.inner? with
    | none => rfl
    | some inner => exact Machine.frames_closeFrom _ inner m

/-- Reading a cell is safe if its source can be advanced safely. -/
theorem readCell_safe {advance : Source → Eval (Option (Value × Source))} {h : Nat} {t : Ty}
    (ht : w.elements[h]? = some t)
    (ha : ∀ source, source.HasType w t → Safe w s (advance source) (GivesStep t)) :
    Safe w s (readCell advance h) (GivesElement t) := by
  refine Safe.read exec_get fun m hm _ => ?_
  have hnone : GivesElement t w none := fun v hv => nomatch hv
  cases hc : m.cell h with
  | done => exact Safe.pure hnone
  | busy => exact Safe.throw rfl
  | ready source =>
    have hcell : m.cells[h]? = some (.ready source) := by
      unfold Machine.cell at hc
      cases hcell : m.cells[h]? with
      | none => rw [hcell] at hc; cases hc
      | some c => rw [hcell] at hc; exact congrArg some hc
    obtain ⟨t', ht', hsource⟩ := hm.sources h source hcell
    cases Option.some.inj (ht.symm.trans ht')
    refine (Safe.update (fun m hm => hm.setCell_busy h) (fun _ => rfl)).bind fun w₁ _ _ hw => ?_
    subst hw
    refine (Safe.outcome (ha source hsource)).bind fun w₁ r hw₁ hr => ?_
    match r with
    | .ok none =>
      exact (finish_safe h source).bind fun _ _ _ _ => Safe.pure fun v hv => nomatch hv
    | .error e => exact (finish_safe h source).bind fun _ _ _ _ => Safe.throw hr
    | .ok (some (v, next)) =>
      have hstep := hr v next rfl
      refine (Safe.update (fun m hm => hm.setCell ?_) (fun _ => rfl)).bind fun w₂ _ _ hw₂ => ?_
      · intro source' hs'
        cases hs'
        exact ⟨t, World.getElem?_of_prefix hw₁.elements ht, hstep.2⟩
      · subst hw₂
        refine Safe.pure fun v' hv' => ?_
        cases hv'
        exact hstep.1

/-! ## Parts of an expression -/

/-- Arguments are evaluated from the left, each in a world that knows those before it. -/
theorem args_safe {ev : Expr → Eval Value}
    (hev : ∀ {w : World} {e : Expr} {t : Ty}, s.AllSound w → HasType w s.types e t →
      Safe w s (ev e) (Gives t)) {args : List Expr} {ts : List Ty} (hs : s.AllSound w)
    (h : ArgsHaveType w s.types args ts) :
    Safe w s (args.mapM ev) (fun w' vs => (∀ v ∈ vs, Sound w' v) ∧ vs.map Value.ty = ts) := by
  induction args generalizing w ts with
  | nil =>
    cases h
    rw [List.mapM_nil]
    exact Safe.pure ⟨by simp, rfl⟩
  | cons e args ih =>
    cases h with
    | cons head tail =>
      rw [List.mapM_cons]
      refine (hev hs head).bind fun w₁ v hw₁ hv => ?_
      refine (ih (hs.mono hw₁) (tail.mono hw₁)).bind fun w₂ vs hw₂ hvs => ?_
      refine Safe.pure ⟨?_, by rw [List.map_cons, hv.2, hvs.2]⟩
      intro u hu
      rcases List.mem_cons.mp hu with rfl | hu
      · exact hv.1.mono hw₂
      · exact hvs.1 u hu

theorem fields_safe {ev : Expr → Eval Value}
    (hev : ∀ {w : World} {e : Expr} {t : Ty}, s.AllSound w → HasType w s.types e t →
      Safe w s (ev e) (Gives t)) {fields : List (String × Expr)} {ts : List (String × Ty)}
    (hs : s.AllSound w) (h : FieldsHaveType w s.types fields ts) :
    Safe w s (fields.mapM fun (name, e) => do return (name, ← ev e)) (fun w' vs =>
      (∀ v ∈ vs, Sound w' v.2) ∧ Value.fieldTypes vs = ts ∧ Keyed.keys vs = Keyed.keys fields) := by
  induction fields generalizing w ts with
  | nil =>
    cases h
    rw [List.mapM_nil]
    exact Safe.pure ⟨by simp, rfl, rfl⟩
  | cons field fields ih =>
    cases h with
    | @cons _ name _ t _ _ head tail =>
      rw [List.mapM_cons]
      refine ((hev hs head).bind (Q := fun w' p => ∃ v, Gives t w' v ∧ p = (name, v))
        fun w₁ v _ hv => Safe.pure ⟨v, hv, rfl⟩).bind fun w₁ p hw₁ hp => ?_
      refine (ih (hs.mono hw₁) (tail.mono hw₁)).bind fun w₂ vs hw₂ hvs => ?_
      obtain ⟨v, ⟨hv, rfl⟩, rfl⟩ := hp
      refine Safe.pure ⟨?_, by rw [Value.fieldTypes, hvs.2.1], congrArg (_ :: ·) hvs.2.2⟩
      intro u hu
      rcases List.mem_cons.mp hu with rfl | hu
      · exact hv.mono hw₂
      · exact hvs.1 u hu

/-- The local bindings of a block, and then its result. -/
theorem block_safe {ev : Expr → Eval Value}
    (hev : ∀ {w : World} {s : Scope} {e : Expr} {t : Ty}, s.AllSound w → HasType w s.types e t →
      Safe w s (ev e) (Gives t)) {bindings : List (String × Expr)} {result : Expr} {t : Ty}
    {inner : Scope} (hs : inner.AllSound w) (h : HasType w inner.types (.block bindings result) t) :
    Safe w s (do
      let inner ← bindings.foldlM
        (fun inner (name, e) => do return Links.child inner [(name, ← within inner (ev e))]) inner
      within inner (ev result)) (Gives t) := by
  induction bindings generalizing w inner with
  | nil =>
    cases h with
    | result typed => exact Safe.within (hev hs typed)
  | cons binding bindings ih =>
    cases h with
    | @binding _ name e _ _ u _ typed rest =>
      rw [List.foldlM_cons, bind_assoc]
      refine ((Safe.within (hev hs typed)).bind (Q := fun w' inner' => ∃ v, Gives u w' v ∧
        inner' = Links.child inner [(name, v)]) fun w₁ v _ hv => Safe.pure ⟨v, hv, rfl⟩).bind
        fun w₁ inner' hw₁ hv => ?_
      obtain ⟨v, hv, rfl⟩ := hv
      refine ih ((hs.mono hw₁).child fun e he => ?_) ?_
      · cases List.mem_singleton.mp he
        exact hv.1
      · rw [Scope.types_child]
        have hrest := rest.mono hw₁
        rw [← hv.2] at hrest
        exact hrest

end Eval

/-! ## Calls -/

/-- The types that a closure's body sees are those of its parameters. -/
theorem Scope.types_call {s : Scope} {params : List (String × Ty)} {args : List Value}
    (h : args.map Value.ty = params.map Prod.snd) :
    Scope.types (Links.child s ((params.map Prod.fst).zip args)) = Links.child s.types params := by
  have hzip : Keyed.mapValues Value.ty ((params.map Prod.fst).zip args) = params := by
    rw [Keyed.mapValues]
    clear s
    induction params generalizing args with
    | nil => rfl
    | cons p params ih =>
      cases args with
      | nil => cases h
      | cons v args =>
        obtain ⟨hv, hargs⟩ := List.cons.inj h
        simp only [List.map_cons, List.zip_cons_cons, ih hargs, hv]
  rw [Scope.types_child, hzip]

theorem Builtin.checkArgs_eq {params : List (String × Ty)} {args : List Value} {bs bs' : Bindings}
    (h : Ty.matchParams (params.map Prod.snd) (args.map Value.ty) bs = (true, bs')) :
    Builtin.checkArgs params args bs = .ok bs' := by
  induction params generalizing args bs with
  | nil =>
    simp only [List.map_nil, Ty.matchParams, Prod.mk.injEq, true_and] at h
    simp only [Builtin.checkArgs, h]
  | cons p params ih =>
    cases args with
    | nil =>
      simp only [List.map_cons, List.map_nil, Ty.matchParams, Prod.mk.injEq, true_and] at h
      simp only [Builtin.checkArgs, h]
    | cons v args =>
      obtain ⟨bs₁, hp, h⟩ := Ty.matchParams_cons h
      simp only [Builtin.checkArgs, hp]
      exact ih h

/-- The declared result is a pattern, which a sound value of that very type matches. -/
theorem Builtin.checkResult_eq {b : Builtin} {bs : Bindings} {t : Ty} {v : Value}
    (hs : b.result.substitute bs = .ok t) (hv : v.ty = t) (hsorted : v.ty.Sorted) :
    b.checkResult bs v = .ok v := by
  have hm : t.matching? v.ty = some [] := by
    rw [hv] at hsorted ⊢
    exact Ty.matching?_self hsorted
  simp only [Builtin.checkResult, hs, bind, Except.bind, hm]
  rfl

end LiveQuery
