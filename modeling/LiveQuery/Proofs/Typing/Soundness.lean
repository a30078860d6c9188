import LiveQuery.Proofs.Typing.Evaluation

/-! # Soundness of typing

The evaluator keeps types, for every amount of fuel (`soundAt`): what `SoundAt` says of one amount is
preserved by one more step of each of its parts.
-/
namespace LiveQuery

open Eval

/-! ## Steps that the world does not notice -/

namespace Safe

variable {w : World} {s : Scope}

theorem takeRowPath : Safe w s Eval.takeRowPath (fun w' _ => w' = w) := by
  intro m hm _ r m' hr
  rw [exec_takeRowPath] at hr
  cases hr
  exact ⟨w, World.Le.refl w, hm.congr rfl rfl rfl, rfl, rfl⟩

theorem freshStamp : Safe w s Eval.freshStamp (fun w' _ => w' = w) := by
  intro m hm _ r m' hr
  rw [exec_freshStamp] at hr
  cases hr
  exact ⟨w, World.Le.refl w, hm.congr rfl rfl rfl, rfl, rfl⟩

theorem scope : Safe w s Eval.scope (fun w' s' => w' = w ∧ s' = s) := by
  intro m hm hs r m' hr
  rw [exec_scope] at hr
  cases hr
  exact ⟨w, World.Le.refl w, hm, rfl, rfl, hs⟩

end Safe

/-! ## Cursors -/

/-- Every entry that a cursor may still give out. -/
def Cursor.All (P : Bytes × Bytes → Prop) (c : Cursor) : Prop :=
  (∀ e ∈ c.batch, P e) ∧ ∀ b, c.source = some b → ∀ e ∈ b, P e

namespace Cursor

variable {P : Bytes × Bytes → Prop} {c : Cursor}

theorem mem_of_mem_above {bound : Option Bytes} {b : Bucket} {e : Bytes × Bytes}
    (h : e ∈ above bound b) : e ∈ b := by
  cases bound with
  | none => exact h
  | some key => exact (List.dropWhile_sublist _).mem h

theorem All.refill (h : c.All P) : c.refill.All P := by
  unfold Cursor.refill
  cases hs : c.source with
  | none => exact h
  | some b =>
    have hb : ∀ e ∈ b, P e := h.2 b hs
    refine ⟨fun e he => hb e (mem_of_mem_above (List.mem_of_mem_take he)), fun b' hb' => ?_⟩
    simp only [] at hb'
    split at hb'
    next => cases hb'
    next => cases hb'; exact hb

theorem All.next (h : c.All P) :
    (∀ e, c.next.1 = some e → P e) ∧ c.next.2.All P := by
  have hc : (if c.batch.isEmpty then c.refill else c).All P := by
    split
    next => exact h.refill
    next => exact h
  unfold Cursor.next
  generalize (if c.batch.isEmpty then c.refill else c) = d at hc
  cases hd : d.batch with
  | nil => simp only [hd]; exact ⟨by simp, hc⟩
  | cons e rest =>
    have hrest : ∀ e' ∈ e :: rest, P e' := hd ▸ hc.1
    simp only [hd]
    refine ⟨fun e' he' => ?_, fun e' he' => hrest e' (List.mem_cons_of_mem _ he'), hc.2⟩
    cases he'
    exact hrest e List.mem_cons_self

end Cursor

/-- A pattern without variables expects itself only. -/
theorem Ty.eq_of_expect {p c : Ty} {bs : Bindings} (hp : p.Proper) (hc : c.Sorted)
    (h : p.expect c = .ok bs) : c = p := by
  unfold Ty.expect Ty.matching? at h
  split at h
  next bs' hm =>
    split at hm
    next heq => exact (eq_of_matchFrom p c [] _ hp.ground hp.sorted hc heq).1
    next => cases hm
  next => cases h

/-! ## The parts of the evaluator -/

/-- With this amount of fuel every part of the evaluator keeps types. -/
structure SoundAt (fuel : Nat) : Prop where
  eval {w : World} {s : Scope} {e : Expr} {t : Ty} (hs : s.AllSound w) (he : HasType w s.types e t) :
    Safe w s (eval fuel e) (Gives t)
  call {w : World} {s : Scope} {f : Function} {args : List Value} {t : Ty}
    (hf : Sound w (.function f)) (ha : ∀ v ∈ args, Sound w v) (h : f.Accepts (args.map Value.ty) t) :
    Safe w s (call fuel f args) (Gives t)
  next {w : World} {s : Scope} {h : Nat} {t : Ty} (ht : w.elements[h]? = some t) :
    Safe w s (next fuel h) (GivesElement t)
  advance {w : World} {s : Scope} {source : Source} {t : Ty} (hsource : source.HasType w t) :
    Safe w s (advance fuel source) (GivesStep t)
  seek {w : World} {s : Scope} {h : Nat} {test : Function} {t : Ty} (ht : w.elements[h]? = some t)
    (hf : Sound w (.function test)) (ha : test.Accepts [t] .bool) :
    Safe w s (seek fuel h test) (GivesElement t)
  toJson {w : World} {s : Scope} {v : Value} (hv : Sound w v) :
    Safe w s (toJson fuel v) (fun _ _ => True)
  drain {w : World} {s : Scope} {h : Nat} {t : Ty} (ht : w.elements[h]? = some t) :
    Safe w s (drain fuel h) (fun _ _ => True)

theorem soundAt_zero : SoundAt 0 where
  eval _ _ := by rw [Eval.eval]; exact Safe.outOfFuel
  call _ _ _ := by rw [Eval.call]; exact Safe.outOfFuel
  next _ := by rw [Eval.next]; exact Safe.outOfFuel
  advance _ := by rw [Eval.advance]; exact Safe.outOfFuel
  seek _ _ _ := by rw [Eval.seek]; exact Safe.outOfFuel
  toJson _ := by rw [Eval.toJson]; exact Safe.outOfFuel
  drain _ := by rw [Eval.drain]; exact Safe.outOfFuel

namespace SoundAt

variable {fuel : Nat} {w : World} {s : Scope}

theorem eval_succ (ih : SoundAt fuel) {e : Expr} {t : Ty} (hs : s.AllSound w)
    (he : HasType w s.types e t) : Safe w s (Eval.eval (fuel + 1) e) (Gives t) := by
  cases he with
  | int n => exact Safe.pure ⟨.int n, rfl⟩
  | str x => exact Safe.pure ⟨.str x, rfl⟩
  | index sound => exact Safe.pure ⟨sound, rfl⟩
  | value sound => exact Safe.pure ⟨sound, rfl⟩
  | var known =>
    obtain ⟨v, hv, rfl⟩ := Scope.lookup_of_types known
    refine Safe.scope.bind fun w₁ s₁ _ h₁ => ?_
    obtain ⟨rfl, rfl⟩ := h₁
    exact Safe.ofExcept (hv ▸ ⟨hs.lookup hv, rfl⟩)
  | record ordered each =>
    refine (fields_safe ih.eval hs each).bind fun w₁ vs _ hvs => Safe.pure ?_
    obtain ⟨hall, rfl, hkeys⟩ := hvs
    refine ⟨.record ?_ hall, rfl⟩
    rw [Keyed.ordered_iff_keys, hkeys, ← Keyed.ordered_iff_keys]
    exact ordered
  | lambda params_proper result_proper body_typed returns =>
    refine Safe.freshStamp.bind fun w₁ n _ h₁ => ?_
    subst h₁
    refine Safe.scope.bind fun w₁ s₁ _ h₁ => ?_
    obtain ⟨rfl, rfl⟩ := h₁
    exact Safe.pure ⟨.closure params_proper result_proper hs body_typed returns, rfl⟩
  | call signature each length inst resolved agrees =>
    refine (resolve_safe hs signature agrees).bind fun w₁ f hw₁ hf => ?_
    refine (args_safe ih.eval (hs.mono hw₁) (each.mono hw₁)).bind fun w₂ vs hw₂ hvs => ?_
    obtain ⟨hf, rfl, rfl⟩ := hf
    refine ih.call (hf.mono hw₂) hvs.1 ?_
    rw [hvs.2]
    exact ⟨_, ⟨length, inst⟩, resolved⟩
  | member whole known =>
    refine (ih.eval hs whole).bind fun w₁ v _ hv => ?_
    obtain ⟨u, hu, hgives⟩ := hv.1.member hv.2 known
    rw [hu]
    exact Safe.ofExcept hgives
  | result typed =>
    refine Safe.scope.bind fun w₁ s₁ _ h₁ => ?_
    obtain ⟨rfl, rfl⟩ := h₁
    exact block_safe ih.eval hs (.result typed)
  | binding typed inner =>
    refine Safe.scope.bind fun w₁ s₁ _ h₁ => ?_
    obtain ⟨rfl, rfl⟩ := h₁
    exact block_safe ih.eval hs (.binding typed inner)

theorem call_succ (ih : SoundAt fuel) {f : Function} {args : List Value} {t : Ty}
    (hf : Sound w (.function f)) (ha : ∀ v ∈ args, Sound w v)
    (h : f.Accepts (args.map Value.ty) t) : Safe w s (Eval.call (fuel + 1) f args) (Gives t) := by
  obtain ⟨bs, htakes, ht⟩ := h
  have harity : f.arity = args.length := by
    rw [← f.length_paramTypes, htakes.length, List.length_map]
  rw [Eval.call, if_neg (not_not_intro harity)]
  refine Safe.takeRowPath.bind fun w₁ path _ h₁ => ?_
  subst h₁
  have hsorted : Ty.SortedList (args.map Value.ty) := by
    refine Ty.sortedList_iff.mpr fun u hu => ?_
    obtain ⟨v, hv, rfl⟩ := List.mem_map.mp hu
    exact (ha v hv).ty_sorted
  cases hf with
  | @closure _ params result actual body scope bs' params_proper result_proper captured body_typed
      returns =>
    have hground : Ty.groundList (params.map Prod.snd) = true := by
      refine Ty.groundList_iff.mpr fun u hu => ?_
      obtain ⟨p, hp, rfl⟩ := List.mem_map.mp hu
      exact (params_proper p hp).ground
    have hparams : Ty.SortedList (params.map Prod.snd) := by
      refine Ty.sortedList_iff.mpr fun u hu => ?_
      obtain ⟨p, hp, rfl⟩ := List.mem_map.mp hu
      exact (params_proper p hp).sorted
    obtain ⟨htys, -⟩ := Ty.eq_of_matchParams _ _ _ _ hground hparams hsorted htakes.length
      htakes.bindings
    cases (Ty.substitute_of_ground result bs result_proper.ground).symm.trans ht
    have hscope : Scope.AllSound w₁ (Links.child scope ((params.map Prod.fst).zip args)) :=
      Scope.AllSound.child captured fun e he => ha e.2 (List.of_mem_zip he).2
    rw [← Scope.types_call htys] at body_typed
    refine Safe.inFrame ((ih.eval hscope body_typed).mono fun w₂ v _ hv => ⟨hv.1, ?_⟩)
    rw [hv.2]
    exact Ty.eq_of_expect result_proper (hv.2 ▸ hv.1.ty_sorted) returns
  | builtin b =>
    obtain ⟨t', ht', hsafe⟩ := b.apply_safe (s := Links.child Scope.root
      ((b.params.map Prod.fst).zip args)) ha htakes
    cases Except.ok.inj (ht.symm.trans ht')
    refine Safe.bind_ok (Builtin.checkArgs_eq htakes.bindings) ?_
    refine (Safe.inFrame hsafe).bind fun w₂ v _ hv => ?_
    rw [Builtin.checkResult_eq ht hv.2 hv.1.ty_sorted]
    exact Safe.ofExcept hv

/-- A function of one argument on an element of the type it accepts. -/
theorem call_element (ih : SoundAt fuel) {f : Function} {v : Value} {a t : Ty}
    (hf : Sound w (.function f)) (hv : Gives a w v) (h : f.Accepts [a] t) :
    Safe w s (Eval.call fuel f [v]) (Gives t) := by
  refine ih.call hf (fun u hu => ?_) ?_
  · cases List.mem_singleton.mp hu
    exact hv.1
  · rw [List.map_singleton, hv.2]
    exact h

theorem advance_succ (ih : SoundAt fuel) {source : Source} {t : Ty} (h : source.HasType w t) :
    Safe w s (Eval.advance (fuel + 1) source) (GivesStep t) := by
  have hnone : ∀ w', GivesStep t w' none := fun w' v source hv => nomatch hv
  cases h with
  | @elements rest _ each types =>
    cases rest with
    | nil => exact Safe.pure (hnone w)
    | cons v rest =>
      refine Safe.pure fun v' source' h => ?_
      cases h
      exact ⟨⟨each v List.mem_cons_self, types v List.mem_cons_self⟩,
        .elements (fun u hu => each u (List.mem_cons_of_mem _ hu))
          (fun u hu => types u (List.mem_cons_of_mem _ hu))⟩
  | @mapped inner f a _ known sound accepts =>
    refine (ih.next known).bind fun w₁ o hw₁ ho => ?_
    cases o with
    | none => exact Safe.pure (hnone w₁)
    | some v =>
      refine (ih.call_element (sound.mono hw₁) (ho v rfl) accepts).bind fun w₂ u hw₂ hu => ?_
      have hle := hw₁.trans hw₂
      refine Safe.pure fun v' source' h => ?_
      cases h
      exact ⟨hu, .mapped (World.getElem?_of_prefix hle.elements known) (sound.mono hle) accepts⟩
  | @filtered inner test _ known sound accepts =>
    refine (ih.seek known sound accepts).bind fun w₁ o hw₁ ho => ?_
    cases o with
    | none => exact Safe.pure (hnone w₁)
    | some v =>
      refine Safe.pure fun v' source' h => ?_
      cases h
      exact ⟨ho v rfl,
        .filtered (World.getElem?_of_prefix hw₁.elements known) (sound.mono hw₁) accepts⟩
  | noRows => exact Safe.pure (hnone w)
  | @rows c _ batch source =>
    obtain ⟨hnext, hrest⟩ := Cursor.All.next (P := HoldsData t) ⟨batch, source⟩
    rw [Eval.advance]
    split
    next key bytes c' heq =>
      rw [heq] at hnext hrest
      obtain ⟨v, hv, hty, hd⟩ := hnext _ rfl
      rw [hv]
      refine Safe.pure fun v' source' h => ?_
      cases h
      exact ⟨⟨hd.sound w, hty⟩, .rows hrest.1 hrest.2⟩
    next => exact Safe.pure (hnone w)

theorem seek_succ (ih : SoundAt fuel) {h : Nat} {test : Function} {t : Ty}
    (ht : w.elements[h]? = some t) (hf : Sound w (.function test)) (ha : test.Accepts [t] .bool) :
    Safe w s (Eval.seek (fuel + 1) h test) (GivesElement t) := by
  rw [Eval.seek]
  refine (ih.next ht).bind fun w₁ o hw₁ ho => ?_
  cases o with
  | none => exact Safe.pure fun v hv => nomatch hv
  | some v =>
    refine (ih.call_element (hf.mono hw₁) (ho v rfl) ha).bind fun w₂ u hw₂ hu => ?_
    have hle := hw₁.trans hw₂
    obtain ⟨b, rfl⟩ := Value.bool_of_ty hu.2
    cases b with
    | true =>
      refine Safe.pure fun v' hv' => ?_
      cases hv'
      exact ⟨(ho v rfl).1.mono hw₂, (ho v rfl).2⟩
    | false => exact ih.seek (World.getElem?_of_prefix hle.elements ht) (hf.mono hle) ha

theorem drain_succ (ih : SoundAt fuel) {h : Nat} {t : Ty} (ht : w.elements[h]? = some t) :
    Safe w s (Eval.drain (fuel + 1) h) (fun _ _ => True) := by
  rw [Eval.drain]
  refine (ih.next ht).bind fun w₁ o hw₁ ho => ?_
  cases o with
  | none => exact Safe.pure trivial
  | some v =>
    refine (ih.toJson (ho v rfl).1).bind fun w₂ j hw₂ _ => ?_
    have hle := hw₁.trans hw₂
    exact (ih.drain (World.getElem?_of_prefix hle.elements ht)).bind fun _ _ _ _ => Safe.pure trivial

/-- Values in a list, each given in a world that knows those before it. -/
theorem mapM_safe {α β : Type} {f : α → Eval β} {P : World → α → Prop}
    (hmono : ∀ {w w' : World} {a : α}, w.Le w' → P w a → P w' a)
    (hf : ∀ {w : World} {a : α}, P w a → Safe w s (f a) (fun _ _ => True)) {as : List α}
    (h : ∀ a ∈ as, P w a) : Safe w s (as.mapM f) (fun _ _ => True) := by
  induction as generalizing w with
  | nil =>
    rw [List.mapM_nil]
    exact Safe.pure trivial
  | cons a as ih =>
    rw [List.mapM_cons]
    refine (hf (h a List.mem_cons_self)).bind fun w₁ b hw₁ _ => ?_
    refine (ih fun a' ha' => hmono hw₁ (h a' (List.mem_cons_of_mem _ ha'))).bind fun _ _ _ _ => ?_
    exact Safe.pure trivial

theorem toJson_succ (ih : SoundAt fuel) {v : Value} (hv : Sound w v) :
    Safe w s (Eval.toJson (fuel + 1) v) (fun _ _ => True) := by
  cases hv with
  | int | bool | str => exact Safe.pure trivial
  | record _ each =>
    refine (mapM_safe (P := fun w (f : String × Value) => Sound w f.2) (fun hw h => h.mono hw) ?_ each).bind
      fun _ _ _ _ => Safe.pure trivial
    exact fun h => (ih.toJson h).bind fun _ _ _ _ => Safe.pure trivial
  | array _ each _ =>
    exact (mapM_safe (P := fun w (v : Value) => Sound w v) (fun hw h => h.mono hw) ih.toJson each).bind
      fun _ _ _ _ => Safe.pure trivial
  | iterator _ known => exact (ih.drain known).bind fun _ _ _ _ => Safe.pure trivial
  | builtin | closure | index => exact Safe.throw rfl

end SoundAt

/-- Every part of the evaluator keeps types. -/
theorem soundAt (fuel : Nat) : SoundAt fuel := by
  induction fuel with
  | zero => exact soundAt_zero
  | succ fuel ih =>
    exact {
      eval := ih.eval_succ
      call := ih.call_succ
      next := fun ht => by
        rw [Eval.next]
        exact readCell_safe ht fun _ hsource => ih.advance hsource
      advance := ih.advance_succ
      seek := ih.seek_succ
      toJson := ih.toJson_succ
      drain := ih.drain_succ }

end LiveQuery
