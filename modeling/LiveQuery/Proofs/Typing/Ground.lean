import LiveQuery.Proofs.Keyed
import LiveQuery.Ty.Match

/-! # Matching types without variables

Record types are maps from names, so their fields are held in key order (`Ty.Sorted`). Between such
types:

* a pattern without variables matches nothing but itself (`Ty.eq_of_matchFrom`);
* every type matches itself and binds nothing (`Ty.matchFrom_self`);
* a type without variables stands for itself (`Ty.substitute_of_ground`).

Matching and substituting keep the fields in order (`Ty.sortedBindings_of_matchFrom`, `Ty.sorted_of_substitute`).
-/
namespace LiveQuery.Ty

mutual

/-- The fields of every record type in it are in key order, with one field to a name. -/
def Sorted : Ty → Prop
  | .int | .bool | .string | .var _ => True
  | .record fields => Keyed.Ordered fields ∧ SortedFields fields
  | .iterator t => t.Sorted
  | .function params result => SortedList params ∧ result.Sorted
  | .index key row => key.Sorted ∧ row.Sorted

def SortedFields : List (String × Ty) → Prop
  | [] => True
  | (_, t) :: rest => t.Sorted ∧ SortedFields rest

def SortedList : List Ty → Prop
  | [] => True
  | t :: rest => t.Sorted ∧ SortedList rest

end

theorem sortedFields_iff {fs : List (String × Ty)} : SortedFields fs ↔ ∀ f ∈ fs, f.2.Sorted := by
  induction fs with
  | nil => simp [SortedFields]
  | cons f fs ih => simp [SortedFields, ih]

theorem sortedList_iff {ts : List Ty} : SortedList ts ↔ ∀ t ∈ ts, t.Sorted := by
  induction ts with
  | nil => simp [SortedList]
  | cons t ts ih => simp [SortedList, ih]

theorem groundFields_iff {fs : List (String × Ty)} :
    groundFields fs = true ↔ ∀ f ∈ fs, f.2.isGround = true := by
  induction fs with
  | nil => simp [groundFields]
  | cons f fs ih => simp [groundFields, ih]

theorem groundList_iff {ts : List Ty} : groundList ts = true ↔ ∀ t ∈ ts, t.isGround = true := by
  induction ts with
  | nil => simp [groundList]
  | cons t ts ih => simp [groundList, ih]

theorem sorted_recordOf {fields : List (String × Ty)} (h : ∀ f ∈ fields, f.2.Sorted) :
    (recordOf fields).Sorted :=
  ⟨Keyed.ordered_ofList _, sortedFields_iff.mpr fun f hf => h f (Keyed.mem_of_mem_ofList hf)⟩

theorem isGround_recordOf {fields : List (String × Ty)} (h : ∀ f ∈ fields, f.2.isGround = true) :
    (recordOf fields).isGround = true :=
  groundFields_iff.mpr fun f hf => h f (Keyed.mem_of_mem_ofList hf)

/-! ## Ground patterns -/

mutual

/-- A pattern without variables matches itself only. -/
theorem eq_of_matchFrom : (p c : Ty) → (bs bs' : Bindings) → p.isGround = true → p.Sorted →
    c.Sorted → p.matchFrom c bs = (true, bs') → c = p ∧ bs' = bs
  | .int, c, bs, bs', _, _, _, h => by cases c <;> simp_all [matchFrom]
  | .bool, c, bs, bs', _, _, _, h => by cases c <;> simp_all [matchFrom]
  | .string, c, bs, bs', _, _, _, h => by cases c <;> simp_all [matchFrom]
  | .var _, _, _, _, hg, _, _, _ => by cases hg
  | .record ps, c, bs, bs', hg, hp, hc, h => by
    cases c with
    | record fs =>
      simp only [matchFrom] at h
      split at h
      next hl =>
        obtain ⟨hsub, hbs⟩ := subset_of_matchFields ps fs bs bs' hg hp.2 hc.2 h
        exact ⟨congrArg Ty.record (hp.1.eq_of_subset hc.1 hsub (Nat.le_of_eq hl.symm)).symm, hbs⟩
      next => cases h
    | _ => simp [matchFrom] at h
  | .iterator p, c, bs, bs', hg, hp, hc, h => by
    cases c with
    | iterator c =>
      simp only [matchFrom] at h
      obtain ⟨rfl, hbs⟩ := eq_of_matchFrom p c bs bs' hg hp hc h
      exact ⟨rfl, hbs⟩
    | _ => simp [matchFrom] at h
  | .index k r, c, bs, bs', hg, hp, hc, h => by
    cases c with
    | index k' r' =>
      simp only [isGround, Bool.and_eq_true] at hg
      simp only [matchFrom] at h
      split at h
      next bs₁ hk =>
        obtain ⟨rfl, rfl⟩ := eq_of_matchFrom k k' bs bs₁ hg.1 hp.1 hc.1 hk
        obtain ⟨rfl, hbs⟩ := eq_of_matchFrom r r' _ bs' hg.2 hp.2 hc.2 h
        exact ⟨rfl, hbs⟩
      next => cases h
    | _ => simp [matchFrom] at h
  | .function ps r, c, bs, bs', hg, hp, hc, h => by
    cases c with
    | function cs r' =>
      simp only [isGround, Bool.and_eq_true] at hg
      simp only [matchFrom] at h
      split at h
      next hl =>
        split at h
        next bs₁ hps =>
          obtain ⟨rfl, rfl⟩ := eq_of_matchParams ps cs bs bs₁ hg.1 hp.1 hc.1 hl hps
          obtain ⟨rfl, hbs⟩ := eq_of_matchFrom r r' _ bs' hg.2 hp.2 hc.2 h
          exact ⟨rfl, hbs⟩
        next => cases h
      next => cases h
    | _ => simp [matchFrom] at h

theorem subset_of_matchFields : (ps fs : List (String × Ty)) → (bs bs' : Bindings) →
    groundFields ps = true → SortedFields ps → SortedFields fs →
    matchFields ps fs bs = (true, bs') → ps ⊆ fs ∧ bs' = bs
  | [], fs, bs, bs', _, _, _, h => by
    simp only [matchFields, Prod.mk.injEq, true_and] at h
    exact ⟨List.nil_subset _, h.symm⟩
  | (name, p) :: ps, fs, bs, bs', hg, hp, hc, h => by
    simp only [groundFields, Bool.and_eq_true] at hg
    simp only [matchFields] at h
    split at h
    next => cases h
    next c hf =>
      split at h
      next bs₁ hm =>
        have hmem := Keyed.mem_of_find? hf
        obtain ⟨rfl, rfl⟩ :=
          eq_of_matchFrom p c bs bs₁ hg.1 hp.1 (sortedFields_iff.mp hc _ hmem) hm
        obtain ⟨hsub, hbs⟩ := subset_of_matchFields ps fs _ bs' hg.2 hp.2 hc h
        exact ⟨List.cons_subset.mpr ⟨hmem, hsub⟩, hbs⟩
      next => cases h

theorem eq_of_matchParams : (ps cs : List Ty) → (bs bs' : Bindings) → groundList ps = true →
    SortedList ps → SortedList cs → ps.length = cs.length → matchParams ps cs bs = (true, bs') →
    cs = ps ∧ bs' = bs
  | [], [], bs, bs', _, _, _, _, h => by
    simp only [matchParams, Prod.mk.injEq, true_and] at h
    exact ⟨rfl, h.symm⟩
  | [], _ :: _, _, _, _, _, _, hl, _ => by cases hl
  | _ :: _, [], _, _, _, _, _, hl, _ => by cases hl
  | p :: ps, c :: cs, bs, bs', hg, hp, hc, hl, h => by
    simp only [groundList, Bool.and_eq_true] at hg
    simp only [matchParams] at h
    split at h
    next bs₁ hm =>
      obtain ⟨rfl, rfl⟩ := eq_of_matchFrom p c bs bs₁ hg.1 hp.1 hc.1 hm
      obtain ⟨rfl, hbs⟩ := eq_of_matchParams ps cs _ bs' hg.2 hp.2 hc.2 (Nat.succ.inj hl) h
      exact ⟨rfl, hbs⟩
    next => cases h

end

/-! ## Every type matches itself -/

mutual

theorem matchFrom_self : (t : Ty) → (bs : Bindings) → t.Sorted → t.matchFrom t bs = (true, bs)
  | .int, _, _ | .bool, _, _ | .string, _, _ => by simp only [matchFrom]
  | .var name, bs, _ => by simp [matchFrom, matchVar]
  | .record fs, bs, h => by
    simp only [matchFrom, if_true]
    exact matchFields_self fs fs bs h.1.nodup (List.Subset.refl fs) h.2
  | .iterator t, bs, h => by
    simp only [matchFrom]
    exact matchFrom_self t bs h
  | .index k r, bs, h => by
    simp only [matchFrom, matchFrom_self k bs h.1]
    exact matchFrom_self r bs h.2
  | .function ps r, bs, h => by
    simp only [matchFrom, if_true, matchParams_self ps bs h.1]
    exact matchFrom_self r bs h.2

theorem matchFields_self : (ps fs : List (String × Ty)) → (bs : Bindings) →
    (Keyed.keys fs).Nodup → ps ⊆ fs → SortedFields ps → matchFields ps fs bs = (true, bs)
  | [], _, _, _, _, _ => by simp only [matchFields]
  | (name, p) :: ps, fs, bs, hn, hsub, h => by
    obtain ⟨hmem, hsub⟩ := List.cons_subset.mp hsub
    simp only [matchFields, Keyed.find?_of_mem_of_nodup hn hmem, matchFrom_self p bs h.1]
    exact matchFields_self ps fs bs hn hsub h.2

theorem matchParams_self : (ts : List Ty) → (bs : Bindings) → SortedList ts →
    matchParams ts ts bs = (true, bs)
  | [], _, _ => by simp only [matchParams]
  | t :: ts, bs, h => by
    simp only [matchParams, matchFrom_self t bs h.1]
    exact matchParams_self ts bs h.2

end

theorem matching?_self {t : Ty} (h : t.Sorted) : t.matching? t = some [] := by
  simp only [matching?, matchFrom_self t [] h]

/-! ## Ground types stand for themselves -/

mutual

theorem substitute_of_ground : (t : Ty) → (bs : Bindings) → t.isGround = true →
    t.substitute bs = .ok t
  | .int, _, _ | .bool, _, _ | .string, _, _ => rfl
  | .var _, _, h => by cases h
  | .record fs, bs, h => by
    simp only [substitute, substituteFields_of_ground fs bs h]
    rfl
  | .iterator t, bs, h => by
    simp only [substitute, substitute_of_ground t bs h]
    rfl
  | .index k r, bs, h => by
    simp only [isGround, Bool.and_eq_true] at h
    simp only [substitute, substitute_of_ground k bs h.1, substitute_of_ground r bs h.2]
    rfl
  | .function ps r, bs, h => by
    simp only [isGround, Bool.and_eq_true] at h
    simp only [substitute, substituteParams_of_ground ps bs h.1, substitute_of_ground r bs h.2]
    rfl

theorem substituteFields_of_ground : (fs : List (String × Ty)) → (bs : Bindings) →
    groundFields fs = true → substituteFields bs fs = .ok fs
  | [], _, _ => rfl
  | (name, t) :: fs, bs, h => by
    simp only [groundFields, Bool.and_eq_true] at h
    simp only [substituteFields, substitute_of_ground t bs h.1, substituteFields_of_ground fs bs h.2]
    rfl

theorem substituteParams_of_ground : (ts : List Ty) → (bs : Bindings) → groundList ts = true →
    substituteParams bs ts = .ok ts
  | [], _, _ => rfl
  | t :: ts, bs, h => by
    simp only [groundList, Bool.and_eq_true] at h
    simp only [substituteParams, substitute_of_ground t bs h.1, substituteParams_of_ground ts bs h.2]
    rfl

end

/-! ## Matching a variable -/

/-- The ways in which a variable matches: as the same variable, by what it is bound to, and by being bound. -/
theorem matchVar_cases {name : String} {c : Ty} {bs bs' : Bindings} (h : matchVar name c bs = (true, bs')) :
    (c = .var name ∧ bs' = bs) ∨
      ((∀ n, c ≠ .var n) ∧ Keyed.find? bs name = some c ∧ bs' = bs) ∨
      ((∀ n, c ≠ .var n) ∧ Keyed.find? bs name = none ∧ bs' = Keyed.insert bs name c) := by
  unfold matchVar at h
  split at h
  next other =>
    obtain ⟨heq, hbs⟩ := Prod.mk.inj h
    exact .inl ⟨by rw [eq_of_beq heq], hbs.symm⟩
  next hc =>
    split at h
    next bound hb =>
      obtain ⟨heq, hbs⟩ := Prod.mk.inj h
      exact .inr (.inl ⟨hc, by rw [hb, of_decide_eq_true heq], hbs.symm⟩)
    next hn => exact .inr (.inr ⟨hc, hn, (Prod.mk.inj h).2.symm⟩)

/-! ## Matching and substituting keep record types in key order -/

/-- Every bound type has its records in key order. -/
def SortedBindings (bs : Bindings) : Prop := ∀ e ∈ bs, e.2.Sorted

theorem sortedBindings_of_matchVar {name : String} {c : Ty} {bs bs' : Bindings} (hc : c.Sorted)
    (hbs : SortedBindings bs) (h : matchVar name c bs = (true, bs')) : SortedBindings bs' := by
  obtain ⟨-, rfl⟩ | ⟨-, -, rfl⟩ | ⟨-, -, rfl⟩ := matchVar_cases h
  · exact hbs
  · exact hbs
  · intro e he
    rcases Keyed.mem_of_mem_insert he with rfl | he
    · exact hc
    · exact hbs e he

mutual

theorem sortedBindings_of_matchFrom : (p c : Ty) → (bs bs' : Bindings) → c.Sorted → SortedBindings bs →
    p.matchFrom c bs = (true, bs') → SortedBindings bs'
  | .var name, c, bs, bs', hc, hbs, h => by
    rw [matchFrom] at h
    exact sortedBindings_of_matchVar hc hbs h
  | .int, c, bs, bs', _, hbs, h | .bool, c, bs, bs', _, hbs, h | .string, c, bs, bs', _, hbs, h => by
    cases c <;> simp_all [matchFrom]
  | .record ps, c, bs, bs', hc, hbs, h => by
    cases c with
    | record fs =>
      simp only [matchFrom] at h
      split at h
      next => exact sortedBindings_of_matchFields ps fs bs bs' hc.2 hbs h
      next => cases h
    | _ => simp [matchFrom] at h
  | .iterator p, c, bs, bs', hc, hbs, h => by
    cases c with
    | iterator c =>
      simp only [matchFrom] at h
      exact sortedBindings_of_matchFrom p c bs bs' hc hbs h
    | _ => simp [matchFrom] at h
  | .index k r, c, bs, bs', hc, hbs, h => by
    cases c with
    | index k' r' =>
      simp only [matchFrom] at h
      split at h
      next bs₁ hk =>
        exact sortedBindings_of_matchFrom r r' bs₁ bs' hc.2
          (sortedBindings_of_matchFrom k k' bs bs₁ hc.1 hbs hk) h
      next => cases h
    | _ => simp [matchFrom] at h
  | .function ps r, c, bs, bs', hc, hbs, h => by
    cases c with
    | function cs r' =>
      simp only [matchFrom] at h
      split at h
      next =>
        split at h
        next bs₁ hps =>
          exact sortedBindings_of_matchFrom r r' bs₁ bs' hc.2
            (sortedBindings_of_matchParams ps cs bs bs₁ hc.1 hbs hps) h
        next => cases h
      next => cases h
    | _ => simp [matchFrom] at h

theorem sortedBindings_of_matchFields : (ps fs : List (String × Ty)) → (bs bs' : Bindings) →
    SortedFields fs → SortedBindings bs → matchFields ps fs bs = (true, bs') → SortedBindings bs'
  | [], fs, bs, bs', _, hbs, h => by
    simp only [matchFields, Prod.mk.injEq, true_and] at h
    exact h ▸ hbs
  | (name, p) :: ps, fs, bs, bs', hfs, hbs, h => by
    simp only [matchFields] at h
    split at h
    next => cases h
    next c hc =>
      split at h
      next bs₁ hm =>
        have hsorted : c.Sorted := sortedFields_iff.mp hfs _ (Keyed.mem_of_find? hc)
        exact sortedBindings_of_matchFields ps fs bs₁ bs' hfs
          (sortedBindings_of_matchFrom p c bs bs₁ hsorted hbs hm) h
      next => cases h

theorem sortedBindings_of_matchParams : (ps cs : List Ty) → (bs bs' : Bindings) → SortedList cs →
    SortedBindings bs → matchParams ps cs bs = (true, bs') → SortedBindings bs'
  | [], _, bs, bs', _, hbs, h | _ :: _, [], bs, bs', _, hbs, h => by
    simp only [matchParams, Prod.mk.injEq, true_and] at h
    exact h ▸ hbs
  | p :: ps, c :: cs, bs, bs', hcs, hbs, h => by
    simp only [matchParams] at h
    split at h
    next bs₁ hm =>
      exact sortedBindings_of_matchParams ps cs bs₁ bs' hcs.2
        (sortedBindings_of_matchFrom p c bs bs₁ hcs.1 hbs hm) h
    next => cases h

end

mutual

theorem sorted_of_substitute : (p t : Ty) → (bs : Bindings) → p.Sorted → SortedBindings bs →
    p.substitute bs = .ok t → t.Sorted
  | .int, t, bs, _, _, h | .bool, t, bs, _, _, h | .string, t, bs, _, _, h => by
    cases h
    trivial
  | .var name, t, bs, _, hbs, h => by
    simp only [substitute] at h
    split at h
    next u hu => cases h; exact hbs _ (Keyed.mem_of_find? hu)
    next => cases h
  | .record fs, t, bs, hp, hbs, h => by
    simp only [substitute, bind, Except.bind] at h
    split at h
    next => cases h
    next gs hgs =>
      cases h
      obtain ⟨hkeys, hsorted⟩ := sorted_of_substituteFields fs gs bs hp.2 hbs hgs
      refine ⟨?_, hsorted⟩
      rw [Keyed.ordered_iff_keys, hkeys, ← Keyed.ordered_iff_keys]
      exact hp.1
  | .iterator p, t, bs, hp, hbs, h => by
    simp only [substitute, bind, Except.bind] at h
    split at h
    next => cases h
    next u hu => cases h; exact sorted_of_substitute p u bs hp hbs hu
  | .index k r, t, bs, hp, hbs, h => by
    simp only [substitute, bind, Except.bind] at h
    split at h
    next => cases h
    next k' hk =>
      split at h
      next => cases h
      next r' hr =>
        cases h
        exact ⟨sorted_of_substitute k k' bs hp.1 hbs hk, sorted_of_substitute r r' bs hp.2 hbs hr⟩
  | .function ps r, t, bs, hp, hbs, h => by
    simp only [substitute, bind, Except.bind] at h
    split at h
    next => cases h
    next qs hqs =>
      split at h
      next => cases h
      next r' hr =>
        cases h
        exact ⟨sorted_of_substituteParams ps qs bs hp.1 hbs hqs, sorted_of_substitute r r' bs hp.2 hbs hr⟩

theorem sorted_of_substituteFields : (fs gs : List (String × Ty)) → (bs : Bindings) → SortedFields fs →
    SortedBindings bs → substituteFields bs fs = .ok gs → Keyed.keys gs = Keyed.keys fs ∧ SortedFields gs
  | [], gs, bs, _, _, h => by
    cases h
    exact ⟨rfl, trivial⟩
  | (name, p) :: fs, gs, bs, hfs, hbs, h => by
    simp only [substituteFields, bind, Except.bind] at h
    split at h
    next => cases h
    next t ht =>
      split at h
      next => cases h
      next rest hrest =>
        cases h
        obtain ⟨hkeys, hsorted⟩ := sorted_of_substituteFields fs rest bs hfs.2 hbs hrest
        exact ⟨congrArg (name :: ·) hkeys, sorted_of_substitute p t bs hfs.1 hbs ht, hsorted⟩

theorem sorted_of_substituteParams : (ps qs : List Ty) → (bs : Bindings) → SortedList ps →
    SortedBindings bs → substituteParams bs ps = .ok qs → SortedList qs
  | [], qs, bs, _, _, h => by
    cases h
    trivial
  | p :: ps, qs, bs, hps, hbs, h => by
    simp only [substituteParams, bind, Except.bind] at h
    split at h
    next => cases h
    next t ht =>
      split at h
      next => cases h
      next rest hrest =>
        cases h
        exact ⟨sorted_of_substitute p t bs hps.1 hbs ht, sorted_of_substituteParams ps rest bs hps.2 hbs hrest⟩

end

end LiveQuery.Ty
