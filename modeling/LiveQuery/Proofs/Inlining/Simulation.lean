import LiveQuery.Proofs.Inlining.Applying

/-! # The evaluator side by side

Evaluating expressions that belong together, on machines that belong together, ends with values that belong
together, and so does calling functions, reading iterators and turning values into data (`Pairing.simulates`). The
induction is on the fuel of the first side; the second side may need less, where a member was folded, or more, the
other way round, so it is only said to end.
-/
namespace LiveQuery

namespace Pairing

variable {p : Pairing}

/-- What can be read off is the value, and reading it off leaves the machine as it was. -/
theorem Reads.exec_eval {scope : Scope} {place : Place} {e : Expr} {v : Value} (h : Reads scope place e v)
    {m : Machine} (fits : place.Fits scope m.top.scope) :
    ∃ n, ∀ k, n ≤ k → (Eval.eval k e).exec m = some (.ok v, m) := by
  induction h with
  | index place i =>
    refine ⟨1, fun k hk => ?_⟩
    obtain ⟨k, rfl⟩ : ∃ j, k = j + 1 := ⟨k - 1, by omega⟩
    rfl
  | value place v =>
    refine ⟨1, fun k hk => ?_⟩
    obtain ⟨k, rfl⟩ : ∃ j, k = j + 1 := ⟨k - 1, by omega⟩
    rfl
  | var free found =>
    refine ⟨1, fun k hk => ?_⟩
    obtain ⟨k, rfl⟩ : ∃ j, k = j + 1 := ⟨k - 1, by omega⟩
    rw [Eval.eval, Eval.exec_bind, Eval.exec_scope, Option.bind_some, Eval.next?_ok, Eval.exec_ofExcept,
      fits.lookup free, found]
  | member whole found ih =>
    obtain ⟨n, hn⟩ := ih fits
    refine ⟨n + 1, fun k hk => ?_⟩
    obtain ⟨k, rfl⟩ : ∃ j, k = j + 1 := ⟨k - 1, by omega⟩
    rw [Eval.eval, Eval.exec_bind, hn k (by omega), Option.bind_some, Eval.next?_ok, Eval.exec_ofExcept, found]

namespace Follows

variable {α β : Type} {place : Place} {f f' : Frame} {fs fs' : List Frame} {R : α → β → Prop}

theorem within {s s' : Scope} {x : Eval α} {y : Nat → Eval β}
    (h : p.Follows ({ scope := s, path := f.path } :: f :: fs) ({ scope := s', path := f'.path } :: f' :: fs') R x y) :
    p.Follows (f :: fs) (f' :: fs') R (Eval.within s x) fun k => Eval.within s' (y k) := by
  refine read Eval.exec_path Eval.exec_path fun m m' hm => ?_
  rw [hm.top.1, hm.top.2]
  exact inFrame h

theorem reads {e e' : Expr} {u v : Value} (at_ : p.At place f f') (here : Reads p.scope place e u)
    (there : Reads p.scope place e' v) (same : p.Values u v) (fuel : Nat) :
    p.Follows (f :: fs) (f' :: fs') p.Values (Eval.eval fuel e) fun k => Eval.eval k e' := by
  intro m m' hm r n hr
  obtain ⟨k, hk⟩ := here.exec_eval (hm.top.1 ▸ at_.fits)
  obtain ⟨k', hk'⟩ := there.exec_eval (hm.top.2 ▸ at_.fits')
  have hmax := Eval.eval_mono (Nat.le_max_left fuel k) e m _ hr
  rw [hk _ (Nat.le_max_right fuel k)] at hmax
  cases hmax
  exact ⟨.ok v, m', ⟨k', hk'⟩, hm, .ok same⟩

/-- An iterator is read by something that gives elements and sources that belong together. -/
theorem readCell {advance : Source → Eval (Option (Value × Source))}
    {advance' : Nat → Source → Eval (Option (Value × Source))}
    (h : ∀ s t, p.Sources s t → p.Follows fs fs' (Option.Rel fun a b => p.Values a.1 b.1 ∧ p.Sources a.2 b.2)
      (advance s) fun k => advance' k t) (n : Nat) :
    p.Follows fs fs' (Option.Rel p.Values) (Eval.readCell advance n) fun k => Eval.readCell (advance' k) n := by
  refine read (u := id) (v := id) Eval.exec_get Eval.exec_get fun m m' hm => ?_
  dsimp only [id]
  match m.cell n, m'.cell n, hm.cell n with
  | _, _, .done => exact pure .none
  | _, _, .busy => exact throw _
  | _, _, @Cells.ready _ s t hs =>
    have hfinish : p.Follows fs fs' (fun _ _ => True) (Eval.readCell.finish n s) fun _ =>
        Eval.readCell.finish n t := by
      refine update fun m m' hm => ?_
      rw [hs.inner?]
      cases t.inner? with
      | some inner => exact (hm.close inner).setCell n .done
      | none => exact hm.setCell n .done
    refine bind (update fun m m' hm => hm.setCell n .busy) fun _ _ _ => bind (outcome (h s t hs)) ?_
    intro r r' ho
    match r, r', ho with
    | _, _, .error e => exact bind hfinish fun _ _ _ => throw e
    | _, _, .ok .none => exact bind hfinish fun _ _ _ => pure .none
    | _, _, .ok (.some ⟨hv, hs⟩) =>
      exact bind (update fun m m' hm => hm.setCell n (.ready hs)) fun _ _ _ => pure (.some hv)

end Follows

/-! ## The evaluator -/

/-- What the evaluator does with some fuel on the first side, it does on the second. -/
structure Simulates (p : Pairing) (fuel : Nat) : Prop where
  eval {place : Place} {e e' : Expr} {f f' : Frame} (fs fs' : List Frame) (at_ : p.At place f f')
    (h : p.Exprs place e e') :
    p.Follows (f :: fs) (f' :: fs') p.Values (Eval.eval fuel e) fun k => Eval.eval k e'
  call {g g' : Function} {us vs : List Value} {f f' : Frame} (fs fs' : List Frame) (hpath : f.path = f'.path)
    (hg : p.Functions g g') (h : p.Elements us vs) :
    p.Follows (f :: fs) (f' :: fs') p.Values (Eval.call fuel g us) fun k => Eval.call k g' vs
  next {f f' : Frame} (fs fs' : List Frame) (hpath : f.path = f'.path) (n : Nat) :
    p.Follows (f :: fs) (f' :: fs') (Option.Rel p.Values) (Eval.next fuel n) fun k => Eval.next k n
  advance {s t : Source} {f f' : Frame} (fs fs' : List Frame) (hpath : f.path = f'.path) (h : p.Sources s t) :
    p.Follows (f :: fs) (f' :: fs') (Option.Rel fun a b => p.Values a.1 b.1 ∧ p.Sources a.2 b.2)
      (Eval.advance fuel s) fun k => Eval.advance k t
  seek {g g' : Function} {f f' : Frame} (fs fs' : List Frame) (hpath : f.path = f'.path) (n : Nat)
    (hg : p.Functions g g') :
    p.Follows (f :: fs) (f' :: fs') (Option.Rel p.Values) (Eval.seek fuel n g) fun k => Eval.seek k n g'
  toJson {u v : Value} {f f' : Frame} (fs fs' : List Frame) (hpath : f.path = f'.path) (h : p.Values u v) :
    p.Follows (f :: fs) (f' :: fs') Eq (Eval.toJson fuel u) fun k => Eval.toJson k v
  drain {f f' : Frame} (fs fs' : List Frame) (hpath : f.path = f'.path) (n : Nat) :
    p.Follows (f :: fs) (f' :: fs') Eq (Eval.drain fuel n) fun k => Eval.drain k n

namespace Simulates

variable {fuel : Nat} {place : Place} {f f' : Frame} {fs fs' : List Frame}

theorem zero : p.Simulates 0 where
  eval _ _ _ _ := by rw [Eval.eval]; exact .outOfFuel
  call _ _ _ _ _ := by rw [Eval.call]; exact .outOfFuel
  next _ _ _ _ := by rw [Eval.next]; exact .outOfFuel
  advance _ _ _ _ := by rw [Eval.advance]; exact .outOfFuel
  seek _ _ _ _ _ := by rw [Eval.seek]; exact .outOfFuel
  toJson _ _ _ _ := by rw [Eval.toJson]; exact .outOfFuel
  drain _ _ _ _ := by rw [Eval.drain]; exact .outOfFuel

/-! ### Lists of parts -/

theorem args (ih : p.Simulates fuel) (at_ : p.At place f f') : {es es' : List Expr} → p.Args place es es' →
    p.Follows (f :: fs) (f' :: fs') p.Elements (es.mapM (Eval.eval fuel)) fun k => es'.mapM (Eval.eval k)
  | _, _, .nil _ => .pure .nil
  | _, _, .cons head tail => by
    simp only [List.mapM_cons]
    exact .bind (ih.eval fs fs' at_ head) fun _ _ hv => .bind (ih.args at_ tail) fun _ _ hvs => .pure (.cons hv hvs)

theorem fields (ih : p.Simulates fuel) (at_ : p.At place f f') : {es es' : List (String × Expr)} →
    p.ExprFields place es es' →
    p.Follows (f :: fs) (f' :: fs') p.Fields (es.mapM fun (name, e) => do return (name, ← Eval.eval fuel e))
      fun k => es'.mapM fun (name, e) => do return (name, ← Eval.eval k e)
  | _, _, .nil _ => .pure .nil
  | _, _, .cons name head tail => by
    simp only [List.mapM_cons, bind_assoc, pure_bind]
    exact .bind (ih.eval fs fs' at_ head) fun _ _ hv =>
      .bind (ih.fields at_ tail) fun _ _ hvs => .pure (.cons name hv hvs)

theorem jsonFields (ih : p.Simulates fuel) (hpath : f.path = f'.path) {us vs : List (String × Value)}
    (h : p.Fields us vs) :
    p.Follows (f :: fs) (f' :: fs') Eq (us.mapM fun (name, v) => do return (name, ← Eval.toJson fuel v))
      fun k => vs.mapM fun (name, v) => do return (name, ← Eval.toJson k v) := by
  induction us generalizing vs with
  | nil =>
    cases h
    exact .pure rfl
  | cons u us hrest =>
    cases h with
    | cons name head tail =>
      simp only [List.mapM_cons, bind_assoc, pure_bind]
      refine .bind (ih.toJson fs fs' hpath head) ?_
      rintro j _ rfl
      refine .bind (hrest tail) ?_
      rintro js _ rfl
      exact .pure rfl

theorem jsonElements (ih : p.Simulates fuel) (hpath : f.path = f'.path) {us vs : List Value} (h : p.Elements us vs) :
    p.Follows (f :: fs) (f' :: fs') Eq (us.mapM (Eval.toJson fuel)) fun k => vs.mapM (Eval.toJson k) := by
  induction us generalizing vs with
  | nil =>
    cases h
    exact .pure rfl
  | cons u us hrest =>
    cases h with
    | cons head tail =>
      simp only [List.mapM_cons]
      refine .bind (ih.toJson fs fs' hpath head) ?_
      rintro j _ rfl
      refine .bind (hrest tail) ?_
      rintro js _ rfl
      exact .pure rfl

/-! ### One step of fuel -/

theorem block (ih : p.Simulates fuel) (hpath : f.path = f'.path) : (bindings : List (String × Expr)) →
    {bindings' : List (String × Expr)} → {result result' : Expr} → {place : Place} → {s s' : Scope} →
    p.Exprs place (.block bindings result) (.block bindings' result') → p.Scopes s s' →
    place.Fits p.scope s → place.Fits p.scope s' →
    p.Follows (f :: fs) (f' :: fs') p.Values
      (bindings.foldlM (fun s (name, e) => do
        return Links.child s [(name, ← Eval.within s (Eval.eval fuel e))]) s >>= fun inner =>
          Eval.within inner (Eval.eval fuel result))
      fun k => bindings'.foldlM (fun s (name, e) => do
        return Links.child s [(name, ← Eval.within s (Eval.eval k e))]) s' >>= fun inner =>
          Eval.within inner (Eval.eval k result')
  | [], _, _, _, _, _, _, h, hs, hfits, hfits' => by
    cases h with
    | reads here _ _ => cases here
    | result same =>
      simp only [List.foldlM_nil, pure_bind]
      exact .within (ih.eval _ _ ⟨hs, hfits, hfits', hpath⟩ same)
  | (name, e) :: rest, _, _, _, _, _, _, h, hs, hfits, hfits' => by
    cases h with
    | reads here _ _ => cases here
    | binding bound inner =>
      simp only [List.foldlM_cons, bind_assoc, pure_bind]
      refine .bind (.within (ih.eval _ _ ⟨hs, hfits, hfits', hpath⟩ bound)) fun u v huv => ?_
      exact block ih hpath rest inner (hs.child (.cons name huv .nil)) (hfits.child rfl) (hfits'.child rfl)

theorem eval_block (ih : p.Simulates fuel) {bindings bindings' : List (String × Expr)} {result result' : Expr}
    (at_ : p.At place f f') (h : p.Exprs place (.block bindings result) (.block bindings' result')) :
    p.Follows (f :: fs) (f' :: fs') p.Values (Eval.eval (fuel + 1) (.block bindings result)) fun k =>
      Eval.eval k (.block bindings' result') := by
  refine .succ (y := fun k => Eval.scope >>= fun s => bindings'.foldlM (fun s (name, e) => do
    return Links.child s [(name, ← Eval.within s (Eval.eval k e))]) s >>= fun inner =>
      Eval.within inner (Eval.eval k result')) ?_ fun _ => rfl
  refine .read Eval.exec_scope Eval.exec_scope fun m m' hm => ?_
  rw [hm.top.1, hm.top.2]
  exact ih.block at_.path bindings h at_.scopes at_.fits at_.fits'

theorem eval_succ (ih : p.Simulates fuel) {e e' : Expr} (at_ : p.At place f f') (h : p.Exprs place e e') :
    p.Follows (f :: fs) (f' :: fs') p.Values (Eval.eval (fuel + 1) e) fun k => Eval.eval k e' := by
  cases h with
  | reads here there same => exact .reads at_ here there same _
  | int _ n => exact .succ (.pure (.int n)) fun _ => rfl
  | str _ s => exact .succ (.pure (.str s)) fun _ => rfl
  | var _ name =>
    refine .succ (y := fun _ => Eval.scope >>= fun s => Eval.ofExcept (s.lookup name)) ?_ fun _ => rfl
    refine .read Eval.exec_scope Eval.exec_scope fun m m' hm => ?_
    rw [hm.top.1, hm.top.2]
    exact .ofExcept (at_.scopes.lookup name)
  | @record _ es es' each =>
    exact .succ (.bind (ih.fields at_ each) fun _ _ hfs => .pure (.record hfs)) fun _ => rfl
  | @lambda _ params result body body' bodies =>
    refine .succ (y := fun _ => Eval.freshStamp >>= fun stamp => Eval.scope >>= fun s =>
      Pure.pure (.function (.closure stamp params result body' s))) ?_ fun _ => rfl
    refine .bind .freshStamp ?_
    rintro stamp _ rfl
    refine .read Eval.exec_scope Eval.exec_scope fun m m' hm => .pure (.function ?_)
    rw [hm.top.1, hm.top.2]
    exact .closure stamp params result bodies at_.scopes at_.fits at_.fits'
  | call each sites =>
    refine .succ (.bind (.resolve at_ sites) fun g g' hg => .bind (ih.args at_ each) fun us vs hvs =>
      ih.call _ _ at_.path hg hvs) fun _ => rfl
  | member name whole =>
    exact .succ (.bind (ih.eval _ _ at_ whole) fun u v huv => .ofExcept (huv.member name)) fun _ => rfl
  | result same => exact ih.eval_block at_ (.result same)
  | binding bound inner => exact ih.eval_block at_ (.binding bound inner)

theorem call_succ (ih : p.Simulates fuel) {g g' : Function} {us vs : List Value} (hpath : f.path = f'.path)
    (hg : p.Functions g g') (h : p.Elements us vs) :
    p.Follows (f :: fs) (f' :: fs') p.Values (Eval.call (fuel + 1) g us) fun k => Eval.call k g' vs := by
  refine .shift ?_
  simp only [Eval.call]
  rw [hg.arity, hg.name, h.length]
  split
  next => exact .throw _
  next harity =>
    refine .bind (.takeRowPath hpath) ?_
    rintro path _ rfl
    cases hg with
    | builtin b =>
      dsimp only
      rw [h.checkArgs]
      refine .check _ fun bs _ => .bind (.inFrame (.apply b h rfl)) fun u v huv => .ofExcept (huv.checkResult b bs)
    | closure stamp params result bodies scopes fits fits' =>
      have hlength : params.length = vs.length := not_not.mp harity
      have hkeys : ∀ ws : List Value, ws.length = vs.length →
          Keyed.keys ((params.map Prod.fst).zip ws) = params.map Prod.fst := by
        intro ws hws
        exact List.map_fst_zip (Nat.le_of_eq (by rw [List.length_map, hlength, hws]))
      exact .inFrame (ih.eval _ _
        ⟨scopes.child (h.zip _), fits.child (hkeys us h.length), fits'.child (hkeys vs rfl), rfl⟩ bodies)

theorem advance_succ (ih : p.Simulates fuel) {s t : Source} (hpath : f.path = f'.path) (h : p.Sources s t) :
    p.Follows (f :: fs) (f' :: fs') (Option.Rel fun a b => p.Values a.1 b.1 ∧ p.Sources a.2 b.2)
      (Eval.advance (fuel + 1) s) fun k => Eval.advance k t := by
  cases h with
  | elements each =>
    cases each with
    | nil => exact .succ (.pure .none) fun _ => rfl
    | cons head tail => exact .succ (.pure (.some ⟨head, .elements tail⟩)) fun _ => rfl
  | mapped inner hg =>
    refine .succ (.bind (ih.next fs fs' hpath inner) fun o o' ho => ?_) fun _ => rfl
    cases ho with
    | none => exact .pure .none
    | some hv =>
      exact .bind (ih.call fs fs' hpath hg (.cons hv .nil)) fun _ _ hu => .pure (.some ⟨hu, .mapped inner hg⟩)
  | filtered inner hg =>
    refine .succ (.bind (ih.seek fs fs' hpath inner hg) fun o o' ho => ?_) fun _ => rfl
    cases ho with
    | none => exact .pure .none
    | some hv => exact .pure (.some ⟨hv, .filtered inner hg⟩)
  | rows cursor =>
    cases cursor with
    | none => exact .succ (.pure .none) fun _ => rfl
    | some cursor =>
      refine .shift ?_
      simp only [Eval.advance]
      split
      next => exact .encoded _ fun v hv => .pure (.some ⟨.of_isData v (Value.isData_of_decode hv), .rows _⟩)
      next => exact .pure .none
  | watched inner point base subscriber =>
    refine .succ (.bind (ih.next fs fs' hpath inner) fun o o' ho => ?_) fun _ => rfl
    cases ho with
    | none => exact .pure .none
    | some hrow =>
      refine .bind (.ofExcept (hrow.member point.primaryKey)) fun key key' hkey => ?_
      refine .bind (ih.toJson fs fs' hpath hkey) ?_
      rintro j _ rfl
      rw [hkey.toKey]
      refine .encoded _ fun bytes _ => .bind (.send _) fun _ _ _ => ?_
      refine .bind (.update fun m m' hm => { hm with rowPath := rfl }) fun _ _ _ => ?_
      exact .pure (.some ⟨hrow, .watched inner point base subscriber⟩)

theorem seek_succ (ih : p.Simulates fuel) {g g' : Function} (hpath : f.path = f'.path) (n : Nat)
    (hg : p.Functions g g') :
    p.Follows (f :: fs) (f' :: fs') (Option.Rel p.Values) (Eval.seek (fuel + 1) n g) fun k =>
      Eval.seek k n g' := by
  refine .succ (.bind (ih.next fs fs' hpath n) fun o o' ho => ?_) fun _ => rfl
  cases ho with
  | none => exact .pure .none
  | some hv =>
    refine .bind (ih.call fs fs' hpath hg (.cons hv .nil)) fun u v huv => ?_
    have hty := huv.ty
    cases huv with
    | bool b =>
      cases b with
      | true => exact .pure (.some hv)
      | false => exact ih.seek fs fs' hpath n hg
    | int | str | iterator | index => exact .throw _
    | record | array | function =>
      dsimp only
      rw [hty]
      exact .throw _

theorem toJson_succ (ih : p.Simulates fuel) {u v : Value} (hpath : f.path = f'.path) (h : p.Values u v) :
    p.Follows (f :: fs) (f' :: fs') Eq (Eval.toJson (fuel + 1) u) fun k => Eval.toJson k v := by
  have hty := h.ty
  cases h with
  | int | bool | str => exact .succ (.pure rfl) fun _ => rfl
  | record each =>
    refine .succ (.bind (ih.jsonFields hpath each) ?_) fun _ => rfl
    rintro js _ rfl
    exact .pure rfl
  | array each =>
    refine .succ (.bind (ih.jsonElements hpath each) ?_) fun _ => rfl
    rintro js _ rfl
    exact .pure rfl
  | iterator n =>
    refine .succ (.bind (ih.drain fs fs' hpath n) ?_) fun _ => rfl
    rintro js _ rfl
    exact .pure rfl
  | index => exact .succ (.throw _) fun _ => rfl
  | function =>
    refine .shift ?_
    simp only [Eval.toJson, hty]
    exact .throw _

theorem drain_succ (ih : p.Simulates fuel) (hpath : f.path = f'.path) (n : Nat) :
    p.Follows (f :: fs) (f' :: fs') Eq (Eval.drain (fuel + 1) n) fun k => Eval.drain k n := by
  refine .succ (.bind (ih.next fs fs' hpath n) fun o o' ho => ?_) fun _ => rfl
  cases ho with
  | none => exact .pure rfl
  | some hv =>
    refine .bind (ih.toJson fs fs' hpath hv) ?_
    rintro j _ rfl
    refine .bind (ih.drain fs fs' hpath n) ?_
    rintro js _ rfl
    exact .pure rfl

end Simulates

/-- The evaluator on one side is followed by the evaluator on the other. -/
theorem simulates (p : Pairing) (fuel : Nat) : p.Simulates fuel := by
  induction fuel with
  | zero => exact .zero
  | succ fuel ih =>
    exact {
      eval := fun _ _ => ih.eval_succ
      call := fun _ _ => ih.call_succ
      next := fun fs fs' hpath n => .succ (.readCell (fun s t hs => ih.advance fs fs' hpath hs) n) fun _ => rfl
      advance := fun _ _ => ih.advance_succ
      seek := fun _ _ => ih.seek_succ
      toJson := fun _ _ => ih.toJson_succ
      drain := fun _ _ => ih.drain_succ }

end Pairing

end LiveQuery
