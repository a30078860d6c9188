import LiveQuery.Proofs.Termination.Values
import LiveQuery.Proofs.Typing.Builtins

/-! # Built-in functions come to an end

A built-in function ends on any arguments, since none of them calls a function or reads an iterator. If the
arguments have types that match its parameters, its result stands for one of the declared type
(`Builtin.apply_halts`); for `map` and `filter` that means that the functions they are given end on the elements
later on.
-/
namespace LiveQuery

variable {g : Stock} {s : Scope}

/-! ## Matched types -/

/-- A value of a type that a variable matched is one of the type that the variable is bound to. -/
theorem Ty.Holds.of_matchVar {name : String} {c t : Ty} {bs bs' bs'' : Bindings} {v : Value}
    (hm : matchVar name c bs = (true, bs'))
    (hmore : ∀ u, Keyed.find? bs' name = some u → Keyed.find? bs'' name = some u)
    (ht : Keyed.find? bs'' name = some t) (h : c.Holds g v) : t.Holds g v := by
  by_cases hc : ∃ n, c = .var n
  · obtain ⟨n, rfl⟩ := hc
    simp only [Ty.Holds] at h
    exact t.holds_of_isData g h
  · have hfind := hmore c (find?_matchVar (fun n hn => hc ⟨n, hn⟩) hm)
    cases Option.some.inj (ht.symm.trans hfind)
    exact h

/-- An iterator over values of one type is one over another type that they all have. -/
theorem Ty.Holds.iterator_imp {a u : Ty} (himp : ∀ g v, a.Holds g v → u.Holds g v) {v : Value}
    (h : (Ty.iterator a).Holds g v) : (Ty.iterator u).Holds g v := by
  simp only [Ty.Holds] at h ⊢
  rcases h with h | ⟨elements, t, rfl, h⟩ | ⟨n, t, m, rfl, h⟩
  · exact Or.inl h
  · exact Or.inr (Or.inl ⟨elements, t, rfl, fun x hx => himp g x (h x hx)⟩)
  · exact Or.inr (Or.inr ⟨n, t, m, rfl, h.imp himp⟩)

/-! ## Functions on data -/

namespace Builtin

theorem onInts_halts (b : Builtin) {f : Int64 → Int64 → Except EvalFault Value}
    (hf : ∀ m n v, f m n = .ok v → v.IsData) (args : List Value) :
    Halts g s (fun _ => b.onInts f args) fun _ v => v.IsData := by
  unfold onInts
  split
  next x y =>
    refine (Halts.ofExcept (Q := fun _ _ => True) fun _ _ => trivial).bind fun _ m _ _ => ?_
    refine (Halts.ofExcept (Q := fun _ _ => True) fun _ _ => trivial).bind fun _ n _ _ => ?_
    exact Halts.ofExcept (hf m n)
  next => exact Halts.throw _

theorem onBools_halts (b : Builtin) (f : Bool → Bool → Bool) (args : List Value) :
    Halts g s (fun _ => b.onBools f args) fun _ v => v.IsData := by
  unfold onBools
  split
  next x y =>
    refine (Halts.ofExcept (Q := fun _ _ => True) fun _ _ => trivial).bind fun _ m _ _ => ?_
    refine (Halts.ofExcept (Q := fun _ _ => True) fun _ _ => trivial).bind fun _ n _ _ => ?_
    exact Halts.pure trivial
  next => exact Halts.throw _

theorem onStrs_halts (b : Builtin) {f : String → String → Value} (hf : ∀ x y, (f x y).IsData)
    (args : List Value) : Halts g s (fun _ => b.onStrs f args) fun _ v => v.IsData := by
  unfold onStrs
  split
  next x y =>
    refine (Halts.ofExcept (Q := fun _ _ => True) fun _ _ => trivial).bind fun _ m _ _ => ?_
    refine (Halts.ofExcept (Q := fun _ _ => True) fun _ _ => trivial).bind fun _ n _ _ => ?_
    exact Halts.pure (hf m n)
  next => exact Halts.throw _

theorem not_halts (args : List Value) : Halts g s (fun _ => Builtin.not.apply args) fun _ v => v.IsData := by
  match args with
  | [x] =>
    simp only [apply]
    refine (Halts.ofExcept (Q := fun _ _ => True) fun _ _ => trivial).bind fun _ m _ _ => ?_
    exact Halts.pure trivial
  | [] | _ :: _ :: _ => exact Halts.throw _

theorem get_halts (args : List Value) : Halts g s (fun _ => Builtin.get.apply args) fun _ v => v.IsData := by
  match args with
  | [index, key] =>
    simp only [apply]
    refine (Halts.ofExcept (Q := fun _ _ => True) fun _ _ => trivial).bind fun _ i _ _ => ?_
    exact Halts.ofExcept fun v hv => Index.isData_of_get hv
  | [] | [_] | _ :: _ :: _ :: _ => exact Halts.throw _

/-! ## Functions on sequences -/

/-- A handle on the rows of a table gives data, whatever the types of the rows. -/
theorem scan_halts {k r : Ty} {args : List Value} (h : holdsArgs [.index k r] g args) (t : Ty) :
    Halts g s (fun _ => Builtin.scan.apply args) (Ty.iterator t).Holds := by
  simp only [holdsArgs] at h
  obtain ⟨v, rest, rfl, hv, rfl⟩ := h
  simp only [apply]
  refine (Halts.ofExcept (Q := fun g' i => g' = g ∧ v = .index i) fun i hi => ?_).bind fun g₁ i _ hi => ?_
  · unfold Value.asIndex at hi
    split at hi
    next => cases hi; exact ⟨rfl, rfl⟩
    next => cases hi
  obtain ⟨rfl, rfl⟩ := hi
  have hrows : ∀ b, i.rows = some b → Keyed.Ordered b := by
    simp only [Ty.Holds] at hv
    rcases hv with hv | ⟨j, hj, hrows⟩
    · cases hv
    · cases hj
      exact hrows
  rw [Index.scan]
  refine (Halts.allocate _).bind fun g₂ n _ hg => Halts.pure ?_
  obtain ⟨rfl, rfl⟩ := hg
  have hknown := g₁.getElem?_add (.rows (i.rows.map Cursor.start))
  have hdata : ∀ g v, Value.IsData v → Ty.Holds t g v := fun g v hv => t.holds_of_isData g hv
  simp only [Ty.Holds]
  refine Or.inr (Or.inr ?_)
  cases hi : i.rows with
  | none =>
    rw [hi] at hknown
    exact ⟨_, _, 0, rfl, Supplies.noRows hknown⟩
  | some b =>
    rw [hi] at hknown
    exact ⟨_, _, b.length, rfl, Supplies.rows hdata hknown (Cursor.reads_start (hrows b hi))⟩

/-- An iterator over the values of a sequence. -/
theorem toIterator_halts {v : Value} {a : Ty} (h : (Ty.iterator a).Holds g v) :
    Halts g s (fun _ => v.toIterator) fun g' p => ∃ n, Supplies a.Holds n g' p.1 := by
  simp only [Ty.Holds] at h
  unfold Value.toIterator
  rcases h with h | ⟨elements, u, rfl, h⟩ | ⟨n, u, m, rfl, h⟩
  · split
    next => cases h
    next => cases h
    next => exact Halts.throw _
  · refine (Halts.allocate _).bind fun g₁ n hg hn => Halts.pure ?_
    obtain ⟨rfl, rfl⟩ := hn
    exact ⟨_, Supplies.elements a.kept_holds (g.getElem?_add _) fun x hx => Ty.Holds.later a hg (h x hx)⟩
  · exact Halts.pure ⟨m, h⟩

/-- Outside a live query listening leaves the rows as they are. -/
theorem listenAt_halts {rows : Value} {t : Ty} (h : t.Holds g rows) (point : Int64) (value : Option Value) :
    Halts g s (fun _ => listenAt rows point value) t.Holds := by
  refine Halts.read Eval.exec_get fun m hm _ => ?_
  rw [hm.quiet]
  exact Halts.pure h

/-- A call of a built-in function checks its arguments, applies it and checks its result. -/
theorem call_halts {b : Builtin} {args : List Value} {Q : Stock → Value → Prop}
    (h : ∀ s, Halts g s (fun _ => b.apply args) Q) : Halts g s (fun k => Eval.call k (.builtin b) args) Q := by
  by_cases harity : (Function.builtin b).arity = args.length
  · refine Halts.succ (Halts.takeRowPath.bind fun g₁ path _ hg => ?_) fun k => by
      rw [Eval.call, if_neg (not_not_intro harity)]
    subst hg
    refine (Halts.ofExcept (Q := fun g' _ => g' = g₁) fun _ _ => rfl).bind fun g₂ bs _ hg => ?_
    subst hg
    refine (Halts.inFrame (h _)).bind fun g₂ v _ hv => Halts.ofExcept fun v' hv' => ?_
    obtain ⟨declared, -, hv'⟩ := ok_of_bind hv'
    split at hv'
    next => cases hv'; exact hv
    next => cases hv'
  · refine Halts.succ (Halts.throw (.arity b.name (Function.builtin b).arity args.length)) fun k => ?_
    rw [Eval.call, if_pos harity]
    rfl

end Builtin

/-- A function ends on values of its parameter type. -/
theorem Ty.Holds.ends {p r : Ty} {f : Function} (h : (Ty.function [p] r).Holds g (.function f)) :
    f.Ends p.Holds r.Holds g := by
  intro g' s v hg hv
  simp only [Ty.Holds] at h
  rcases h with h | ⟨b, hf, hb⟩ | ⟨-, f', hf, h⟩
  · cases h
  · cases hf
    refine Builtin.call_halts fun s => ?_
    cases b with
    | not =>
      cases hb
      exact (Builtin.not_halts [v]).mono fun g' u _ hu => Ty.holds_of_isData _ g' hu
    | scan =>
      cases hb
      refine Builtin.scan_halts (k := .var "K") (r := .var "R") ?_ _
      simp only [holdsArgs]
      exact ⟨v, [], rfl, hv, rfl⟩
    | _ => simp [Builtin.ty, Builtin.params] at hb
  · cases hf
    refine h g' s [v] hg ?_
    simp only [holdsArgs]
    exact ⟨v, [], rfl, hv, rfl⟩

/-- The parameter of a function of one parameter is not a variable. -/
theorem Ty.Holds.param_ne_var {p r : Ty} {f : Function} (h : (Ty.function [p] r).Holds g (.function f))
    (name : String) : p ≠ .var name := by
  rintro rfl
  simp only [Ty.Holds] at h
  rcases h with h | ⟨b, -, hb⟩ | ⟨hground, -⟩
  · cases h
  · cases b <;> simp [Builtin.ty, Builtin.params] at hb
  · simp [isGround, groundList] at hground

/-- A value of a function type that is a function ends on the values that a variable matched before. -/
theorem Ty.Holds.ends_of_match {name : String} {a p r : Ty} {bs bs' : Bindings} {f : Function}
    (h : (Ty.function [p] r).Holds g (.function f)) (ha : matchVar name a [] = (true, bs))
    (hp : matchVar name p bs = (true, bs')) : f.Ends a.Holds r.Holds g := by
  intro g' s v hg hv
  refine h.ends g' s v hg (hv.of_matchVar ha (fun u hu => find?_of_matchVar hp hu) ?_)
  exact find?_matchVar h.param_ne_var hp

namespace Builtin

theorem map_halts {a p r : Ty} {bs bs' : Bindings} {args : List Value}
    (h : holdsArgs [.iterator a, .function [p] r] g args) (ha : Ty.matchVar "A" a [] = (true, bs))
    (hp : Ty.matchVar "A" p bs = (true, bs')) :
    Halts g s (fun _ => Builtin.map.apply args) (Ty.iterator r).Holds := by
  simp only [holdsArgs] at h
  obtain ⟨xs, _, rfl, hxs, fv, _, rfl, hfv, rfl⟩ := h
  simp only [apply]
  refine (Halts.ofExcept (Q := fun g' f => g' = g ∧ fv = .function f) fun f hf => ?_).bind
    fun g₁ f _ hf => ?_
  · unfold Value.asFunction at hf
    split at hf
    next => cases hf; exact ⟨rfl, rfl⟩
    next => cases hf
  obtain ⟨rfl, rfl⟩ := hf
  refine (toIterator_halts hxs).bind fun g₂ q hg₂ hq => ?_
  obtain ⟨n, hy⟩ := hq
  refine (Halts.allocate _).bind fun g₃ m hg₃ hm => Halts.pure ?_
  obtain ⟨rfl, rfl⟩ := hm
  simp only [Ty.Holds]
  exact Or.inr (Or.inr ⟨_, _, n, rfl, Supplies.mapped r.kept_holds (hy.later hg₃)
    ((hfv.ends_of_match ha hp).later (hg₂.trans hg₃)) (g₂.getElem?_add _)⟩)

theorem filter_halts {a p r : Ty} {bs bs' : Bindings} {args : List Value}
    (h : holdsArgs [.iterator a, .function [p] r] g args) (ha : Ty.matchVar "A" a [] = (true, bs))
    (hp : Ty.matchVar "A" p bs = (true, bs')) :
    Halts g s (fun _ => Builtin.filter.apply args) (Ty.iterator a).Holds := by
  simp only [holdsArgs] at h
  obtain ⟨xs, _, rfl, hxs, fv, _, rfl, hfv, rfl⟩ := h
  simp only [apply]
  refine (toIterator_halts hxs).bind fun g₁ q hg₁ hq => ?_
  obtain ⟨n, hy⟩ := hq
  refine (Halts.ofExcept (Q := fun g' f => g' = g₁ ∧ fv = .function f) fun f hf => ?_).bind
    fun g₂ f _ hf => ?_
  · unfold Value.asFunction at hf
    split at hf
    next => cases hf; exact ⟨rfl, rfl⟩
    next => cases hf
  obtain ⟨rfl, rfl⟩ := hf
  refine (Halts.allocate _).bind fun g₃ m hg₃ hm => Halts.pure ?_
  obtain ⟨rfl, rfl⟩ := hm
  simp only [Ty.Holds]
  exact Or.inr (Or.inr ⟨_, _, n, rfl, Supplies.filtered a.kept_holds (hy.later hg₃)
    ((hfv.ends_of_match ha hp).later (hg₁.trans hg₃)) (g₂.getElem?_add _)⟩)

/-- A built-in function ends on arguments whose types match its parameters, in a value of its result. -/
theorem apply_halts (b : Builtin) {ts : List Ty} {args : List Value} {bs : Bindings} {t : Ty}
    (h : holdsArgs ts g args) (hlen : b.params.length = ts.length)
    (hm : Ty.matchParams (b.params.map Prod.snd) ts [] = (true, bs)) (ht : b.result.substitute bs = .ok t) :
    Halts g s (fun _ => b.apply args) t.Holds := by
  have hdata : ∀ (act : Eval Value), Halts g s (fun _ => act) (fun _ v => v.IsData) →
      Halts g s (fun _ => act) t.Holds := fun act hact => hact.mono fun g' v _ hv => t.holds_of_isData g' hv
  cases b with
  | plus | minus | times => exact hdata _ (onInts_halts _ (fun m n v hv => isData_of_checkedInt hv) args)
  | intEq | intLt | intGt => exact hdata _ (onInts_halts _ (fun m n v hv => by cases hv; trivial) args)
  | boolEq | and | or => exact hdata _ (onBools_halts _ _ args)
  | strEq | concat => exact hdata _ (onStrs_halts _ (fun x y => by trivial) args)
  | not => exact hdata _ (not_halts args)
  | get => exact hdata _ (get_halts args)
  | scan =>
    obtain ⟨c, rfl⟩ := List.length_eq_one_iff.mp hlen.symm
    obtain ⟨bs₁, hc, -⟩ := Ty.matchParams_cons hm
    obtain ⟨u, rfl, -⟩ := Ty.iterator_of_substitute ht
    cases c with
    | index k r => exact scan_halts h u
    | _ => simp [Ty.matchFrom] at hc
  | map =>
    obtain ⟨c, d, rfl⟩ := List.length_eq_two.mp hlen.symm
    obtain ⟨bs₁, hc, hm⟩ := Ty.matchParams_cons hm
    obtain ⟨bs₂, hd, hm⟩ := Ty.matchParams_cons hm
    cases Ty.matchParams_nil hm
    obtain ⟨a, rfl, ha⟩ := Ty.iterator_of_matchFrom hc
    obtain ⟨p, r, bs₃, rfl, hp, hr⟩ := Ty.function_of_matchFrom hd
    obtain ⟨u, rfl, hu⟩ := Ty.iterator_of_substitute ht
    rw [Ty.matchFrom] at hr
    refine (map_halts h ha hp).mono fun g' v _ hv => hv.iterator_imp fun g v hv => ?_
    exact hv.of_matchVar hr (fun _ h => h) hu
  | filter =>
    obtain ⟨c, d, rfl⟩ := List.length_eq_two.mp hlen.symm
    obtain ⟨bs₁, hc, hm⟩ := Ty.matchParams_cons hm
    obtain ⟨bs₂, hd, hm⟩ := Ty.matchParams_cons hm
    cases Ty.matchParams_nil hm
    obtain ⟨a, rfl, ha⟩ := Ty.iterator_of_matchFrom hc
    obtain ⟨p, r, bs₃, rfl, hp, hr⟩ := Ty.function_of_matchFrom hd
    obtain ⟨u, rfl, hu⟩ := Ty.iterator_of_substitute ht
    have hbs := Ty.eq_of_matchFrom_bool hr
    subst hbs
    refine (filter_halts h ha hp).mono fun g' v _ hv => hv.iterator_imp fun g v hv => ?_
    exact hv.of_matchVar ha (fun _ hu => Ty.find?_of_matchVar hp hu) hu
  | listen =>
    obtain ⟨c, d, rfl⟩ := List.length_eq_two.mp hlen.symm
    obtain ⟨bs₁, hc, hm⟩ := Ty.matchParams_cons hm
    obtain ⟨bs₂, hd, hm⟩ := Ty.matchParams_cons hm
    cases Ty.matchParams_nil hm
    obtain ⟨a, rfl, ha⟩ := Ty.iterator_of_matchFrom hc
    obtain ⟨u, rfl, hu⟩ := Ty.iterator_of_substitute ht
    have hbs := Ty.eq_of_matchFrom_int hd
    subst hbs
    simp only [holdsArgs] at h
    obtain ⟨rows, _, rfl, hrows, point, _, rfl, -, rfl⟩ := h
    refine (Halts.ofExcept (Q := fun g' _ => g' = g) fun _ _ => rfl).bind fun g₁ n _ hg => ?_
    subst hg
    exact listenAt_halts (hrows.iterator_imp fun g v hv => hv.of_matchVar ha (fun _ h => h) hu) n none
  | listenWhere =>
    obtain ⟨c, d, e, rfl⟩ := List.length_eq_three.mp hlen.symm
    obtain ⟨bs₁, hc, hm⟩ := Ty.matchParams_cons hm
    obtain ⟨bs₂, hd, hm⟩ := Ty.matchParams_cons hm
    obtain ⟨bs₃, he, hm⟩ := Ty.matchParams_cons hm
    cases Ty.matchParams_nil hm
    obtain ⟨a, rfl, ha⟩ := Ty.iterator_of_matchFrom hc
    obtain ⟨u, rfl, hu⟩ := Ty.iterator_of_substitute ht
    have hbs := Ty.eq_of_matchFrom_int hd
    subst hbs
    rw [Ty.matchFrom] at he
    simp only [holdsArgs] at h
    obtain ⟨rows, _, rfl, hrows, point, _, rfl, -, value, _, rfl, -, rfl⟩ := h
    refine (Halts.ofExcept (Q := fun g' _ => g' = g) fun _ _ => rfl).bind fun g₁ n _ hg => ?_
    subst hg
    refine listenAt_halts (hrows.iterator_imp fun g v hv => ?_) n (some value)
    exact hv.of_matchVar ha (fun _ h => Ty.find?_of_matchVar he h) hu

end Builtin

end LiveQuery
