import LiveQuery.Proofs.Outcome
import LiveQuery.Proofs.Typing.Ground

/-! # Matching is one-sided unification

Matching a pattern against a type without variables decides whether the bindings at hand can be extended so that
the pattern stands for the type (`Ty.matchFrom_exact`). If they can, it adds a binding for each variable of the pattern
that had none and nothing else; whether they can or not, it changes no binding that was there.

`Bindings.Decides` says this of any condition on bindings. Conditions are decided one after the other by passing the
bindings on (`Bindings.Decides.andThen`), as long as no further binding can break a condition that is met; so the proof
for a pattern is put together from those for its parts.
-/
namespace LiveQuery

/-! ## Building from outcomes -/

section Built

variable {ε α β γ : Type} {x : Except ε α} {y : Except ε β} {a : α} {b : β}

/-- What is built from an outcome tells the outcome. -/
theorem built_ok_iff {build : α → γ} (inj : ∀ {a a'}, build a = build a' → a = a') :
    (do let a ← x; return build a) = .ok (build a) ↔ x = .ok a := by
  constructor
  · intro h
    obtain ⟨a', ha, h⟩ := ok_of_bind h
    rw [ha, inj (Except.ok.inj h)]
  · intro h
    rw [bind_of_ok h]
    rfl

/-- What is built from two outcomes tells both. -/
theorem built_ok_iff₂ {build : α → β → γ} (inj : ∀ {a b a' b'}, build a b = build a' b' → a = a' ∧ b = b') :
    (do let a ← x; let b ← y; return build a b) = .ok (build a b) ↔ x = .ok a ∧ y = .ok b := by
  constructor
  · intro h
    obtain ⟨a', ha, h⟩ := ok_of_bind h
    obtain ⟨b', hb, h⟩ := ok_of_bind h
    obtain ⟨rfl, rfl⟩ := inj (Except.ok.inj h)
    exact ⟨ha, hb⟩
  · rintro ⟨ha, hb⟩
    rw [bind_of_ok ha, bind_of_ok hb]
    rfl

end Built

/-! ## Extending bindings -/

namespace Bindings

variable {bs bs' bs'' : Bindings} {xs ys : List String} {m n : Bindings → Prop}

/-- What is bound is bound to the same type in the other bindings. -/
def Within (bs bs' : Bindings) : Prop :=
  ∀ name t, Keyed.find? bs name = some t → Keyed.find? bs' name = some t

theorem Within.refl (bs : Bindings) : bs.Within bs := fun _ _ h => h

theorem Within.trans (h : bs.Within bs') (h' : bs'.Within bs'') : bs.Within bs'' :=
  fun name t ht => h' name t (h name t ht)

theorem within_insert {name : String} (h : Keyed.find? bs name = none) (t : Ty) :
    bs.Within (Keyed.insert bs name t) := by
  intro other u hu
  have hne : name ≠ other := by
    rintro rfl
    rw [h] at hu
    cases hu
  rw [Keyed.find?_insert_of_ne _ _ hne, hu]

/-- The other bindings have, besides these, one for each of the names that had none. -/
structure Grows (bs : Bindings) (names : List String) (bs' : Bindings) : Prop where
  within : bs.Within bs'
  bound : ∀ name, (Keyed.find? bs' name).isSome = true ↔ (Keyed.find? bs name).isSome = true ∨ name ∈ names

theorem Grows.refl (bs : Bindings) : bs.Grows [] bs := ⟨.refl bs, by simp⟩

theorem Grows.trans (h : bs.Grows xs bs') (h' : bs'.Grows ys bs'') : bs.Grows (xs ++ ys) bs'' :=
  ⟨h.within.trans h'.within, fun name => by rw [h'.bound, h.bound, List.mem_append, or_assoc]⟩

/-- The outcome decides whether an extension of the bindings meets a condition, and if one does, it is the least one
that does and binds the names. -/
structure Decides (bs : Bindings) (names : List String) (meets : Bindings → Prop) (r : Bool × Bindings) : Prop where
  within : bs.Within r.2
  ordered : Keyed.Ordered bs → Keyed.Ordered r.2
  grows : r.1 = true → bs.Grows names r.2
  sound : r.1 = true → meets r.2
  complete : ∀ bs', bs.Within bs' → meets bs' → r.1 = true ∧ r.2.Within bs'

/-- Goes on with the bindings of an outcome unless it is a failure. -/
def andThen (r : Bool × Bindings) (next : Bindings → Bool × Bindings) : Bool × Bindings :=
  match r with
  | (true, bs) => next bs
  | (false, bs) => (false, bs)

namespace Decides

/-- A condition that the bindings meet already. -/
theorem met (h : m bs) : bs.Decides [] m (true, bs) :=
  ⟨.refl bs, id, fun _ => .refl bs, fun _ => h, fun _ hin _ => ⟨rfl, hin⟩⟩

/-- A condition that no extension meets. -/
theorem unmet (h : ∀ bs', bs.Within bs' → ¬m bs') : bs.Decides xs m (false, bs) :=
  ⟨.refl bs, id, fun hr => (Bool.false_ne_true hr).elim, fun hr => (Bool.false_ne_true hr).elim,
    fun bs' hin hm => (h bs' hin hm).elim⟩

theorem congr {r : Bool × Bindings} (h : bs.Decides xs m r) (heq : ∀ bs', m bs' ↔ n bs') : bs.Decides xs n r where
  within := h.within
  ordered := h.ordered
  grows := h.grows
  sound hr := (heq _).mp (h.sound hr)
  complete bs' hin hn := h.complete bs' hin ((heq bs').mpr hn)

/-- Two conditions are decided one after the other, if the first one stays met when more is bound. -/
theorem andThen {r : Bool × Bindings} {next : Bindings → Bool × Bindings} (h : bs.Decides xs m r)
    (stays : ∀ {b b' : Bindings}, b.Within b' → m b → m b') (hnext : ∀ b : Bindings, b.Decides ys n (next b)) :
    bs.Decides (xs ++ ys) (fun b => m b ∧ n b) (andThen r next) := by
  obtain ⟨found, b⟩ := r
  cases found with
  | true =>
    have hrest := hnext b
    refine ⟨h.within.trans hrest.within, fun ho => hrest.ordered (h.ordered ho), fun hr => ?_, fun hr => ?_, ?_⟩
    · exact (h.grows rfl).trans (hrest.grows hr)
    · exact ⟨stays hrest.within (h.sound rfl), hrest.sound hr⟩
    · rintro bs' hin ⟨hm, hn⟩
      exact hrest.complete bs' (h.complete bs' hin hm).2 hn
  | false =>
    refine ⟨h.within, h.ordered, fun hr => (Bool.false_ne_true hr).elim, fun hr => (Bool.false_ne_true hr).elim, ?_⟩
    rintro bs' hin ⟨hm, -⟩
    exact (Bool.false_ne_true (h.complete bs' hin hm).1).elim

end Decides

end Bindings

namespace Ty

open Bindings (Within Decides andThen)

variable {bs bs' : Bindings} {p k r c k' r' : Ty} {ps cs : List Ty} {fields fs : List (String × Ty)}

/-! ## The variables of a pattern -/

mutual

/-- The variables in a type, in the order in which matching comes to them. -/
def vars : Ty → List String
  | .int | .bool | .string => []
  | .record fields => fieldVars fields
  | .iterator t => t.vars
  | .function params result => paramVars params ++ result.vars
  | .index key row => key.vars ++ row.vars
  | .var name => [name]

def fieldVars : List (String × Ty) → List String
  | [] => []
  | (_, t) :: rest => t.vars ++ fieldVars rest

def paramVars : List Ty → List String
  | [] => []
  | t :: rest => t.vars ++ paramVars rest

end

/-! ## What a pattern stands for -/

theorem substitute_var_iff {name : String} : (var name).substitute bs = .ok c ↔ Keyed.find? bs name = some c := by
  rw [substitute]
  cases Keyed.find? bs name <;> simp

theorem substitute_record_iff :
    (record fields).substitute bs = .ok (.record fs) ↔ substituteFields bs fields = .ok fs := by
  rw [substitute]
  exact built_ok_iff record.inj

theorem substitute_iterator_iff : (iterator p).substitute bs = .ok (.iterator c) ↔ p.substitute bs = .ok c := by
  rw [substitute]
  exact built_ok_iff iterator.inj

theorem substitute_index_iff : (index k r).substitute bs = .ok (.index k' r') ↔
    k.substitute bs = .ok k' ∧ r.substitute bs = .ok r' := by
  rw [substitute]
  exact built_ok_iff₂ index.inj

theorem substitute_function_iff : (function ps r).substitute bs = .ok (.function cs r') ↔
    substituteParams bs ps = .ok cs ∧ r.substitute bs = .ok r' := by
  rw [substitute]
  exact built_ok_iff₂ function.inj

theorem substituteFields_cons_iff {name : String} :
    substituteFields bs ((name, p) :: fields) = .ok fs ↔
      ∃ t rest, p.substitute bs = .ok t ∧ substituteFields bs fields = .ok rest ∧ fs = (name, t) :: rest := by
  rw [substituteFields]
  constructor
  · intro h
    obtain ⟨t, ht, h⟩ := ok_of_bind h
    obtain ⟨rest, hrest, h⟩ := ok_of_bind h
    cases h
    exact ⟨t, rest, ht, hrest, rfl⟩
  · rintro ⟨t, rest, ht, hrest, rfl⟩
    rw [bind_of_ok ht, bind_of_ok hrest]
    rfl

theorem substituteParams_cons_iff : substituteParams bs (p :: ps) = .ok (c :: cs) ↔
    p.substitute bs = .ok c ∧ substituteParams bs ps = .ok cs := by
  rw [substituteParams]
  exact built_ok_iff₂ List.cons.inj

theorem keys_of_substituteFields (h : substituteFields bs fields = .ok fs) : Keyed.keys fs = Keyed.keys fields := by
  induction fields generalizing fs with
  | nil => cases h; rfl
  | cons f fields ih =>
    obtain ⟨t, rest, -, hrest, rfl⟩ := substituteFields_cons_iff.mp h
    exact congrArg (f.1 :: ·) (ih hrest)

theorem length_of_substituteParams (h : substituteParams bs ps = .ok cs) : cs.length = ps.length := by
  induction ps generalizing cs with
  | nil => cases h; rfl
  | cons p ps ih =>
    obtain ⟨t, -, h⟩ := ok_of_bind h
    obtain ⟨rest, hrest, h⟩ := ok_of_bind h
    cases h
    exact congrArg (· + 1) (ih hrest)

mutual

/-- What a pattern stands for does not change when more is bound. -/
theorem substitute_mono (hin : bs.Within bs') : (p t : Ty) → p.substitute bs = .ok t → p.substitute bs' = .ok t
  | .int, _, h | .bool, _, h | .string, _, h => h
  | .var name, t, h => substitute_var_iff.mpr (hin name t (substitute_var_iff.mp h))
  | .record fields, t, h => by
    obtain ⟨fs, hfs, h⟩ := ok_of_bind h
    cases h
    exact substitute_record_iff.mpr (substituteFields_mono hin fields fs hfs)
  | .iterator p, t, h => by
    obtain ⟨u, hu, h⟩ := ok_of_bind h
    cases h
    exact substitute_iterator_iff.mpr (substitute_mono hin p u hu)
  | .index k r, t, h => by
    obtain ⟨k', hk, h⟩ := ok_of_bind h
    obtain ⟨r', hr, h⟩ := ok_of_bind h
    cases h
    exact substitute_index_iff.mpr ⟨substitute_mono hin k k' hk, substitute_mono hin r r' hr⟩
  | .function ps r, t, h => by
    obtain ⟨cs, hcs, h⟩ := ok_of_bind h
    obtain ⟨r', hr, h⟩ := ok_of_bind h
    cases h
    exact substitute_function_iff.mpr ⟨substituteParams_mono hin ps cs hcs, substitute_mono hin r r' hr⟩

theorem substituteFields_mono (hin : bs.Within bs') : (fields fs : List (String × Ty)) →
    substituteFields bs fields = .ok fs → substituteFields bs' fields = .ok fs
  | [], _, h => h
  | (_, p) :: fields, _, h => by
    obtain ⟨t, rest, ht, hrest, rfl⟩ := substituteFields_cons_iff.mp h
    exact substituteFields_cons_iff.mpr
      ⟨t, rest, substitute_mono hin p t ht, substituteFields_mono hin fields rest hrest, rfl⟩

theorem substituteParams_mono (hin : bs.Within bs') : (ps cs : List Ty) → substituteParams bs ps = .ok cs →
    substituteParams bs' ps = .ok cs
  | [], _, h => h
  | p :: ps, cs, h => by
    obtain ⟨t, ht, h⟩ := ok_of_bind h
    obtain ⟨rest, hrest, h⟩ := ok_of_bind h
    cases h
    exact substituteParams_cons_iff.mpr ⟨substitute_mono hin p t ht, substituteParams_mono hin ps rest hrest⟩

end

mutual

/-- Resolving tells whether what the pattern stands for has no variables. -/
theorem resolve_of_substitute : (p t : Ty) → p.substitute bs = .ok t → p.resolve bs = .ok (t, t.isGround)
  | .int, _, h | .bool, _, h | .string, _, h => by
    cases h
    rfl
  | .var name, t, h => by
    rw [resolve, substitute_var_iff.mp h]
  | .record fields, t, h => by
    obtain ⟨fs, hfs, h⟩ := ok_of_bind h
    cases h
    rw [resolve, bind_of_ok (resolveFields_of_substituteFields fields fs hfs)]
    rfl
  | .iterator p, t, h => by
    obtain ⟨u, hu, h⟩ := ok_of_bind h
    cases h
    rw [resolve, bind_of_ok (resolve_of_substitute p u hu)]
    rfl
  | .index k r, t, h => by
    obtain ⟨k', hk, h⟩ := ok_of_bind h
    obtain ⟨r', hr, h⟩ := ok_of_bind h
    cases h
    rw [resolve, bind_of_ok (resolve_of_substitute k k' hk)]
    dsimp only
    rw [bind_of_ok (resolve_of_substitute r r' hr)]
    rfl
  | .function ps r, t, h => by
    obtain ⟨cs, hcs, h⟩ := ok_of_bind h
    obtain ⟨r', hr, h⟩ := ok_of_bind h
    cases h
    rw [resolve, bind_of_ok (resolveParams_of_substituteParams ps cs hcs)]
    dsimp only
    rw [bind_of_ok (resolve_of_substitute r r' hr)]
    rfl

theorem resolveFields_of_substituteFields : (fields fs : List (String × Ty)) → substituteFields bs fields = .ok fs →
    resolveFields bs fields = .ok (fs, groundFields fs)
  | [], _, h => by
    cases h
    rfl
  | (_, p) :: fields, _, h => by
    obtain ⟨t, rest, ht, hrest, rfl⟩ := substituteFields_cons_iff.mp h
    rw [resolveFields, bind_of_ok (resolve_of_substitute p t ht)]
    dsimp only
    rw [bind_of_ok (resolveFields_of_substituteFields fields rest hrest)]
    rfl

theorem resolveParams_of_substituteParams : (ps cs : List Ty) → substituteParams bs ps = .ok cs →
    resolveParams bs ps = .ok (cs, groundList cs)
  | [], _, h => by
    cases h
    rfl
  | p :: ps, _, h => by
    obtain ⟨t, ht, h⟩ := ok_of_bind h
    obtain ⟨rest, hrest, h⟩ := ok_of_bind h
    cases h
    rw [resolveParams, bind_of_ok (resolve_of_substitute p t ht)]
    dsimp only
    rw [bind_of_ok (resolveParams_of_substituteParams ps rest hrest)]
    rfl

end

/-! ## Matching part by part -/

theorem matchFrom_index : (index k r).matchFrom (.index k' r') bs = andThen (k.matchFrom k' bs) (r.matchFrom r') := by
  rw [matchFrom]
  rfl

theorem matchFrom_function (h : ps.length = cs.length) :
    (function ps r).matchFrom (.function cs r') bs = andThen (matchParams ps cs bs) (r.matchFrom r') := by
  rw [matchFrom, if_pos h]
  rfl

theorem matchParams_step : matchParams (p :: ps) (c :: cs) bs = andThen (p.matchFrom c bs) (matchParams ps cs) := by
  rw [matchParams]
  rfl

theorem matchFields_step {name : String} (h : Keyed.find? fs name = some c) :
    matchFields ((name, p) :: fields) fs bs = andThen (p.matchFrom c bs) (matchFields fields fs) := by
  rw [matchFields, h]
  rfl

/-- A variable can stand for a type if it is bound to that type or to none. -/
theorem matchVar_decides (name : String) (ground : c.isGround = true) (bs : Bindings) :
    bs.Decides [name] (fun b => (var name).substitute b = .ok c) (matchVar name c bs) := by
  have hvar : ∀ other, c ≠ .var other := by
    rintro other rfl
    cases ground
  unfold matchVar
  split
  next other => exact absurd rfl (hvar other)
  next =>
    split
    next t ht =>
      by_cases htc : t = c
      · subst htc
        rw [decide_eq_true rfl]
        refine ⟨.refl bs, id, fun _ => ⟨.refl bs, fun other => ?_⟩, fun _ => substitute_var_iff.mpr ht,
          fun _ hin _ => ⟨rfl, hin⟩⟩
        rw [List.mem_singleton]
        refine ⟨.inl, fun h => h.elim id ?_⟩
        rintro rfl
        rw [ht]
        rfl
      · rw [decide_eq_false htc]
        refine .unmet fun b hin hb => htc ?_
        exact Option.some.inj ((hin name t ht).symm.trans (substitute_var_iff.mp hb))
    next hnone =>
      refine ⟨Bindings.within_insert hnone c, fun ho => Keyed.Ordered.insert ho name c,
        fun _ => ⟨Bindings.within_insert hnone c, fun other => ?_⟩,
        fun _ => substitute_var_iff.mpr (Keyed.find?_insert_self bs name c), fun b hin hb => ⟨rfl, ?_⟩⟩
      · rw [Keyed.find?_insert, List.mem_singleton]
        split
        next heq => exact ⟨fun _ => .inr heq.symm, fun _ => rfl⟩
        next hne => exact ⟨.inl, fun h => h.resolve_right fun heq => hne heq.symm⟩
      · intro other t ht
        rw [Keyed.find?_insert] at ht
        split at ht
        next heq =>
          cases ht
          exact heq ▸ substitute_var_iff.mp hb
        next => exact hin other t ht

mutual

/-- Matching decides whether the pattern can stand for the type. -/
theorem matchFrom_decides : (p c : Ty) → (bs : Bindings) → p.Sorted → c.Sorted → c.isGround = true →
    bs.Decides p.vars (fun b => p.substitute b = .ok c) (p.matchFrom c bs)
  | .var name, c, bs, _, _, hg => by
    rw [matchFrom]
    exact matchVar_decides name hg bs
  | .int, c, bs, _, _, _ => by
    cases c with
    | int =>
      rw [matchFrom]
      exact .met rfl
    | _ =>
      simp only [matchFrom]
      refine .unmet fun b _ h => ?_
      cases h
  | .bool, c, bs, _, _, _ => by
    cases c with
    | bool =>
      rw [matchFrom]
      exact .met rfl
    | _ =>
      simp only [matchFrom]
      refine .unmet fun b _ h => ?_
      cases h
  | .string, c, bs, _, _, _ => by
    cases c with
    | string =>
      rw [matchFrom]
      exact .met rfl
    | _ =>
      simp only [matchFrom]
      refine .unmet fun b _ h => ?_
      cases h
  | .iterator p, c, bs, hp, hc, hg => by
    cases c with
    | iterator c =>
      rw [matchFrom]
      exact (matchFrom_decides p c bs hp hc hg).congr fun _ => substitute_iterator_iff.symm
    | _ =>
      simp only [matchFrom]
      refine .unmet fun b _ h => ?_
      obtain ⟨_, -, h⟩ := ok_of_bind h
      cases h
  | .index k r, c, bs, hp, hc, hg => by
    cases c with
    | index k' r' =>
      rw [isGround, Bool.and_eq_true] at hg
      rw [matchFrom_index]
      have hkey := matchFrom_decides k k' bs hp.1 hc.1 hg.1
      exact (hkey.andThen (fun hin => substitute_mono hin k k')
        fun b => matchFrom_decides r r' b hp.2 hc.2 hg.2).congr fun _ => substitute_index_iff.symm
    | _ =>
      simp only [matchFrom]
      refine .unmet fun b _ h => ?_
      obtain ⟨_, -, h⟩ := ok_of_bind h
      obtain ⟨_, -, h⟩ := ok_of_bind h
      cases h
  | .function ps r, c, bs, hp, hc, hg => by
    cases c with
    | function cs r' =>
      rw [isGround, Bool.and_eq_true] at hg
      by_cases hlen : ps.length = cs.length
      · rw [matchFrom_function hlen]
        have hparams := matchParams_decides ps cs bs hlen hp.1 hc.1 hg.1
        exact (hparams.andThen (fun hin => substituteParams_mono hin ps cs)
          fun b => matchFrom_decides r r' b hp.2 hc.2 hg.2).congr fun _ => substitute_function_iff.symm
      · rw [matchFrom, if_neg hlen]
        refine .unmet fun b _ h => hlen ?_
        exact (length_of_substituteParams (substitute_function_iff.mp h).1).symm
    | _ =>
      simp only [matchFrom]
      refine .unmet fun b _ h => ?_
      obtain ⟨_, -, h⟩ := ok_of_bind h
      obtain ⟨_, -, h⟩ := ok_of_bind h
      cases h
  | .record fields, c, bs, hp, hc, hg => by
    cases c with
    | record fs =>
      rw [matchFrom]
      split
      next hlen =>
        refine (matchFields_decides fields fs bs hp.2 hc.1.nodup hc.2 hg).congr fun b => ?_
        rw [substitute_record_iff]
        refine ⟨?_, fun h => ⟨fs, h, List.Subset.refl fs⟩⟩
        -- among fields in key order, as many as the candidate has are all of them
        rintro ⟨gs, hgs, hsub⟩
        have hkeys := keys_of_substituteFields hgs
        have hordered : Keyed.Ordered gs := by
          rw [Keyed.ordered_iff_keys, hkeys, ← Keyed.ordered_iff_keys]
          exact hp.1
        have hsize : fs.length ≤ gs.length := by
          have := congrArg List.length hkeys
          simp only [Keyed.keys, List.length_map] at this
          omega
        rwa [hordered.eq_of_subset hc.1 hsub hsize] at hgs
      next hlen =>
        refine .unmet fun b _ h => hlen ?_
        have := congrArg List.length (keys_of_substituteFields (substitute_record_iff.mp h))
        simpa only [Keyed.keys, List.length_map] using this.symm
    | _ =>
      simp only [matchFrom]
      refine .unmet fun b _ h => ?_
      obtain ⟨_, -, h⟩ := ok_of_bind h
      cases h

/-- Matching fields decides whether they can stand for some of the candidate's fields. -/
theorem matchFields_decides : (fields fs : List (String × Ty)) → (bs : Bindings) → SortedFields fields →
    (Keyed.keys fs).Nodup → SortedFields fs → groundFields fs = true →
    bs.Decides (fieldVars fields) (fun b => ∃ gs, substituteFields b fields = .ok gs ∧ gs ⊆ fs)
      (matchFields fields fs bs)
  | [], fs, bs, _, _, _, _ => by
    rw [matchFields]
    exact .met ⟨[], rfl, List.nil_subset fs⟩
  | (name, p) :: fields, fs, bs, hp, hn, hc, hg => by
    cases hfind : Keyed.find? fs name with
    | none =>
      rw [matchFields, hfind]
      refine .unmet fun b _ => ?_
      rintro ⟨gs, hgs, hsub⟩
      obtain ⟨t, rest, -, -, rfl⟩ := substituteFields_cons_iff.mp hgs
      have hsome := Keyed.find?_of_mem_of_nodup hn (hsub List.mem_cons_self)
      rw [hfind] at hsome
      cases hsome
    | some c =>
      have hmem := Keyed.mem_of_find? hfind
      have hfirst := matchFrom_decides p c bs hp.1 (sortedFields_iff.mp hc _ hmem) (groundFields_iff.mp hg _ hmem)
      rw [matchFields_step hfind]
      refine (hfirst.andThen (fun hin => substitute_mono hin p c)
        fun b => matchFields_decides fields fs b hp.2 hn hc hg).congr fun b => ⟨?_, ?_⟩
      · rintro ⟨ht, gs, hgs, hsub⟩
        exact ⟨_, substituteFields_cons_iff.mpr ⟨c, gs, ht, hgs, rfl⟩, List.cons_subset.mpr ⟨hmem, hsub⟩⟩
      · rintro ⟨gs, hgs, hsub⟩
        obtain ⟨t, rest, ht, hrest, rfl⟩ := substituteFields_cons_iff.mp hgs
        obtain ⟨hthis, hothers⟩ := List.cons_subset.mp hsub
        have hsome := Keyed.find?_of_mem_of_nodup hn hthis
        rw [hfind] at hsome
        cases hsome
        exact ⟨ht, rest, hrest, hothers⟩

theorem matchParams_decides : (ps cs : List Ty) → (bs : Bindings) → ps.length = cs.length → SortedList ps →
    SortedList cs → groundList cs = true →
    bs.Decides (paramVars ps) (fun b => substituteParams b ps = .ok cs) (matchParams ps cs bs)
  | [], [], bs, _, _, _, _ => by
    rw [matchParams]
    · exact .met rfl
    · simp
  | [], _ :: _, _, hlen, _, _, _ => by cases hlen
  | _ :: _, [], _, hlen, _, _, _ => by cases hlen
  | p :: ps, c :: cs, bs, hlen, hp, hc, hg => by
    rw [groundList, Bool.and_eq_true] at hg
    rw [matchParams_step]
    have hfirst := matchFrom_decides p c bs hp.1 hc.1 hg.1
    exact (hfirst.andThen (fun hin => substitute_mono hin p c)
      fun b => matchParams_decides ps cs b (Nat.succ.inj hlen) hp.2 hc.2 hg.2).congr
        fun _ => substituteParams_cons_iff.symm

end

/-- Matching succeeds exactly if some extension of the bindings makes the pattern the candidate, which has no
variables. Then what was bound and one binding for each further variable of the pattern are left, under which the
pattern resolves to the candidate without variables. No binding that was there is changed, also by a failure. -/
theorem matchFrom_exact {p c : Ty} {bs : Bindings} (hp : p.Sorted) (hc : c.Sorted) (ground : c.isGround = true) :
    ((p.matchFrom c bs).1 = true ↔ ∃ bs' : Bindings, bs.Within bs' ∧ p.substitute bs' = .ok c) ∧
      ((p.matchFrom c bs).1 = true → bs.Grows p.vars (p.matchFrom c bs).2 ∧
        p.resolve (p.matchFrom c bs).2 = .ok (c, true)) ∧
      bs.Within (p.matchFrom c bs).2 ∧ (Keyed.Ordered bs → Keyed.Ordered (p.matchFrom c bs).2) := by
  have h := matchFrom_decides p c bs hp hc ground
  refine ⟨⟨fun hr => ⟨_, h.within, h.sound hr⟩, ?_⟩, fun hr => ⟨h.grows hr, ?_⟩, h.within, h.ordered⟩
  · rintro ⟨bs', hin, hsubst⟩
    exact (h.complete bs' hin hsubst).1
  · rw [resolve_of_substitute p c (h.sound hr), ground]

namespace Unification.Sample

/-- A function of a record; one of its variables is bound beforehand and occurs again next to the other one. -/
def pattern : Ty := .function [.record [("key", .var "A"), ("rows", .iterator (.var "B"))], .var "A"] (.var "B")

/-- What the pattern stands for if its variables are numbers and texts. -/
def candidate : Ty := .function [.record [("key", .int), ("rows", .iterator .string)], .int] .string

end Unification.Sample

open Unification.Sample in
/-- The second variable is bound by the match, and the pattern then stands for the candidate. -/
theorem matchFrom_exact_function : pattern.Sorted ∧ candidate.Sorted ∧ candidate.isGround = true ∧
    pattern.matchFrom candidate [("A", .int)] = (true, [("A", .int), ("B", .string)]) ∧
    pattern.resolve [("A", .int), ("B", .string)] = .ok (candidate, true) := by
  have hp : pattern.Sorted := by
    refine ⟨⟨⟨?_, trivial, trivial, trivial⟩, trivial, trivial⟩, trivial⟩
    rw [Keyed.Ordered]
    decide
  have hc : candidate.Sorted := by
    refine ⟨⟨⟨?_, trivial, trivial, trivial⟩, trivial, trivial⟩, trivial⟩
    rw [Keyed.Ordered]
    decide
  have hmatch : pattern.matchFrom candidate [("A", .int)] = (true, [("A", .int), ("B", .string)]) := by
    decide +kernel
  obtain ⟨-, hfound, -⟩ := @matchFrom_exact pattern candidate [("A", .int)] hp hc rfl
  rw [hmatch] at hfound
  exact ⟨hp, hc, rfl, hmatch, (hfound rfl).2⟩

end Ty

end LiveQuery
