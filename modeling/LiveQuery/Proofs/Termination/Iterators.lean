import LiveQuery.Proofs.Cursor
import LiveQuery.Proofs.Termination.Stock
import LiveQuery.Proofs.Encoding.Record

/-! # Iterators that come to an end

`Supplies P n g h` says of the iterator `h` that it gives at most `n` values, now or on later stocks, and that each
of them satisfies `P`. An invariant of reading shows it (`Supplies.of_invariant`), and so each kind of source has
it: elements and rows by what is left of them, the others if what they read from has it and the functions that
they call end.
-/
namespace LiveQuery

open Eval

/-! ## Reading an iterator -/

/-- The cell of an iterator takes the next source. -/
theorem Halts.resume {g : Stock} {s : Scope} {h : Nat} {now source : Source} (hnow : g.sources[h]? = some now)
    (hb : now.Becomes source) :
    Halts g s (fun _ => (modify (·.setCell h (.ready source)) : Eval Unit)) fun g' _ => g' = g.read h source := by
  intro m hm _
  obtain ⟨hlt, -⟩ := List.getElem?_eq_some_iff.mp hnow
  exact ⟨0, .ok (), _, g.read h source, fun _ _ => rfl, Stock.le_read hnow hb, hm.setCell_read hlt, rfl,
    fun _ _ => rfl⟩

/-- The end of an iterator is put on record. -/
theorem Halts.finish {g : Stock} {s : Scope} (h : Nat) (source : Source) :
    Halts g s (fun _ => readCell.finish h source) fun _ _ => True := by
  refine (Halts.update (fun m hm => ?_) (fun m => ?_)).mono fun _ _ _ _ => trivial
  · cases source.inner? with
    | none => exact hm.setCell_done h
    | some inner => exact (Machine.Stocks.closeFrom _ inner hm).setCell_done h
  · cases source.inner? with
    | none => rfl
    | some inner => exact Machine.frames_closeFrom _ inner m

/-- Reading an iterator ends if advancing its source does. -/
theorem Halts.next {g : Stock} {s : Scope} {h : Nat} {source : Source} {Q : Stock → Value → Prop}
    (known : g.sources[h]? = some source)
    (ha : Halts g s (fun k => Eval.advance k source) fun g' o => ∀ v source', o = some (v, source') →
      (∃ now, g'.sources[h]? = some now ∧ now.Becomes source') ∧ Q (g'.read h source') v) :
    Halts g s (fun k => Eval.next k h) fun g' o => ∀ v, o = some v → Q g' v := by
  refine Halts.succ (f := fun k => readCell (Eval.advance k) h) ?_ fun k => rfl
  refine Halts.read exec_get fun m hm _ => ?_
  cases hc : m.cell h with
  | done => exact Halts.pure fun v hv => nomatch hv
  | busy => exact Halts.throw _
  | ready source₁ =>
    have hcell : m.cells[h]? = some (.ready source₁) := by
      unfold Machine.cell at hc
      cases hcell : m.cells[h]? with
      | none => rw [hcell] at hc; cases hc
      | some c => rw [hcell] at hc; exact congrArg some hc
    cases Option.some.inj (known.symm.trans (hm.ready h source₁ hcell))
    refine (Halts.update (fun m hm => hm.setCell_busy h) fun _ => rfl).bind fun g₁ _ _ hg => ?_
    subst hg
    refine (Halts.outcome ha).bind fun g₂ r _ hr => ?_
    match r with
    | .ok none => exact (Halts.finish h source).bind fun _ _ _ _ => Halts.pure fun v hv => nomatch hv
    | .error e => exact (Halts.finish h source).bind fun _ _ _ _ => Halts.throw e
    | .ok (some (v, source')) =>
      obtain ⟨⟨now, hnow, hb⟩, hq⟩ := hr _ rfl v source' rfl
      refine (Halts.resume hnow hb).bind fun g₃ _ _ hg => ?_
      subst hg
      refine Halts.pure fun v' hv' => ?_
      cases hv'
      exact hq

/-- A cursor that is read goes on with what was left. -/
theorem Source.Becomes.rows {b rest : Bucket} {c : Cursor} {source : Source}
    (h : Source.Becomes (.rows (some c)) source) (hc : c.Reads b rest) :
    ∃ c' rest', source = .rows (some c') ∧ c'.Reads b rest' ∧ rest'.length ≤ rest.length := by
  induction h with
  | refl => exact ⟨c, rest, rfl, hc, Nat.le_refl _⟩
  | tail _ h ih =>
    obtain ⟨c', rest', rfl, hc', hle⟩ := ih
    obtain ⟨c'', hnext, hreads⟩ := Cursor.next_of_reads hc'
    cases h with
    | row hrow =>
      obtain ⟨-, rfl⟩ := Prod.mk.inj (hnext.symm.trans hrow)
      exact ⟨c'', rest'.tail, rfl, hreads, by rw [List.length_tail]; omega⟩

/-- What holds of a value still holds on every later stock. -/
def Stock.Kept (P : Stock → Value → Prop) : Prop := ∀ g g' v, g.Le g' → P g v → P g' v

/-- The iterator gives at most `n` values, now or later, and each satisfies `P`. -/
def Supplies (P : Stock → Value → Prop) : Nat → Stock → Nat → Prop
  | 0, g, h => ∀ g' s, g.Le g' → Halts g' s (fun k => Eval.next k h) fun _ o => o = none
  | n + 1, g, h => ∀ g' s, g.Le g' → Halts g' s (fun k => Eval.next k h) fun g'' o =>
      ∀ v, o = some v → P g'' v ∧ Supplies P n g'' h

/-- The function ends on values that satisfy `P`, now or later, in values that satisfy `Q`. -/
def Function.Ends (f : Function) (P Q : Stock → Value → Prop) (g : Stock) : Prop :=
  ∀ g' s v, g.Le g' → P g' v → Halts g' s (fun k => Eval.call k f [v]) Q

theorem Function.Ends.later {f : Function} {P Q : Stock → Value → Prop} {g g' : Stock} (hf : f.Ends P Q g)
    (hg : g.Le g') : f.Ends P Q g' :=
  fun g'' s v hg' => hf g'' s v (hg.trans hg')

namespace Supplies

variable {P Q : Stock → Value → Prop} {g g' : Stock} {s : Scope} {n h inner : Nat}

theorem later (hy : Supplies P n g h) (hg : g.Le g') : Supplies P n g' h := by
  cases n with
  | zero => exact fun g'' s hg' => hy g'' s (hg.trans hg')
  | succ n => exact fun g'' s hg' => hy g'' s (hg.trans hg')

theorem succ (hy : Supplies P n g h) : Supplies P (n + 1) g h := by
  induction n generalizing g with
  | zero =>
    intro g' s hg
    refine (hy g' s hg).mono fun g'' o _ ho v hv => ?_
    rw [ho] at hv
    cases hv
  | succ n ih =>
    intro g' s hg
    refine (hy g' s hg).mono fun g'' o _ ho v hv => ?_
    exact ⟨(ho v hv).1, ih (ho v hv).2⟩

theorem mono {m : Nat} (hy : Supplies P n g h) (hnm : n ≤ m) : Supplies P m g h := by
  induction hnm with
  | refl => exact hy
  | step _ ih => exact ih.succ

theorem imp (hy : Supplies P n g h) (hPQ : ∀ g v, P g v → Q g v) : Supplies Q n g h := by
  induction n generalizing g with
  | zero => exact hy
  | succ n ih =>
    intro g' s hg
    refine (hy g' s hg).mono fun g'' o _ ho v hv => ?_
    exact ⟨hPQ _ _ (ho v hv).1, ih (ho v hv).2⟩

/-- The next value, after which fewer are left. -/
theorem next (hy : Supplies P n g h) : Halts g s (fun k => Eval.next k h) fun g' o =>
    ∀ v, o = some v → P g' v ∧ ∃ m < n, Supplies P m g' h := by
  cases n with
  | zero =>
    refine (hy g s (.refl g)).mono fun g' o _ ho v hv => ?_
    rw [ho] at hv
    cases hv
  | succ n =>
    refine (hy g s (.refl g)).mono fun g' o _ ho v hv => ?_
    exact ⟨(ho v hv).1, n, Nat.lt_succ_self n, (ho v hv).2⟩

/-- What an invariant of reading bounds: `I` is kept, and each value that is given leaves it with less. -/
theorem of_invariant {I : Nat → Stock → Prop} (later : ∀ {n g g'}, g.Le g' → I n g → I n g')
    (step : ∀ {n g} s, I n g → Halts g s (fun k => Eval.next k h) fun g' o =>
      ∀ v, o = some v → P g' v ∧ ∃ m < n, I m g') (hI : I n g) : Supplies P n g h := by
  induction n using Nat.strongRecOn generalizing g with
  | ind n ih =>
    cases n with
    | zero =>
      intro g' s hg
      refine (step s (later hg hI)).mono fun g'' o _ ho => ?_
      cases o with
      | none => rfl
      | some v =>
        obtain ⟨-, m, hm, -⟩ := ho v rfl
        exact absurd hm (Nat.not_lt_zero m)
    | succ n =>
      intro g' s hg
      refine (step s (later hg hI)).mono fun g'' o _ ho v hv => ?_
      obtain ⟨hp, m, hm, hI'⟩ := ho v hv
      exact ⟨hp, (ih m hm hI').mono (Nat.le_of_lt_succ hm)⟩

/-! ## Sources -/

theorem elements (hP : Stock.Kept P) {rest : List Value}
    (known : g.sources[h]? = some (.elements rest)) (each : ∀ v ∈ rest, P g v) :
    Supplies P rest.length g h := by
  refine of_invariant (I := fun n g => ∃ rest, g.sources[h]? = some (.elements rest) ∧ rest.length ≤ n ∧
    ∀ v ∈ rest, P g v) ?_ ?_ ⟨rest, known, Nat.le_refl _, each⟩
  · rintro n g g' hg ⟨rest, known, hn, each⟩
    obtain ⟨source, hs, hb⟩ := hg.sources h _ known
    obtain ⟨rest', rfl, hsuffix⟩ := hb.elements
    exact ⟨rest', hs, Nat.le_trans hsuffix.length_le hn, fun v hv => hP _ _ _ hg (each v (hsuffix.subset hv))⟩
  · rintro n g s ⟨rest, known, hn, each⟩
    refine Halts.next (Q := fun g' v => P g' v ∧ ∃ m < n, _) known ?_
    cases rest with
    | nil => exact Halts.succ (Halts.pure (by simp)) fun k => rfl
    | cons v rest =>
      refine Halts.succ (Halts.pure fun v' source' hv => ?_) fun k => rfl
      cases hv
      have hb : Source.Becomes (.elements (v :: rest)) (.elements rest) := .single (.element v rest)
      have hg := Stock.le_read known hb
      obtain ⟨hlt, -⟩ := List.getElem?_eq_some_iff.mp known
      refine ⟨⟨_, known, hb⟩, hP _ _ _ hg (each v List.mem_cons_self), rest.length, hn, rest,
        List.getElem?_set_self hlt, Nat.le_refl _, fun u hu => hP _ _ _ hg (each u (List.mem_cons_of_mem _ hu))⟩

theorem noRows (known : g.sources[h]? = some (.rows none)) : Supplies P 0 g h := by
  refine of_invariant (I := fun _ g => g.sources[h]? = some (.rows none)) ?_ ?_ known
  · intro n g g' hg known
    obtain ⟨source, hs, hb⟩ := hg.sources h _ known
    rw [hs, hb.noRows]
  · intro n g s known
    refine Halts.next (Q := fun _ _ => _) known ?_
    exact Halts.succ (Halts.pure (by simp)) fun k => rfl

theorem rows (hP : ∀ g v, v.IsData → P g v) {b rest : Bucket} {c : Cursor}
    (known : g.sources[h]? = some (.rows (some c))) (hc : c.Reads b rest) : Supplies P rest.length g h := by
  refine of_invariant (I := fun n g => ∃ c rest, g.sources[h]? = some (.rows (some c)) ∧ c.Reads b rest ∧
    rest.length ≤ n) ?_ ?_ ⟨c, rest, known, hc, Nat.le_refl _⟩
  · rintro n g g' hg ⟨c, rest, known, hc, hn⟩
    obtain ⟨source, hs, hb⟩ := hg.sources h _ known
    obtain ⟨c', rest', rfl, hc', hle⟩ := hb.rows hc
    exact ⟨c', rest', hs, hc', Nat.le_trans hle hn⟩
  · rintro n g s ⟨c, rest, known, hc, hn⟩
    refine Halts.next (Q := fun g' v => P g' v ∧ ∃ m < n, ∃ c rest, g'.sources[h]? = some (.rows (some c)) ∧
      c.Reads b rest ∧ rest.length ≤ m) known ?_
    obtain ⟨c', hnext, hreads⟩ := Cursor.next_of_reads hc
    cases rest with
    | nil =>
      refine Halts.succ (f := fun _ => Pure.pure none) (Halts.pure (by simp)) fun k => ?_
      simp only [Eval.advance, hnext, List.head?_nil]
    | cons e rest =>
      refine Halts.succ (f := fun _ => ofEncoding (Value.decode e.2) >>= fun v =>
        Pure.pure (some (v, .rows (some c')))) ?_ fun k => ?_
      · refine (Halts.ofEncoding (Q := fun g' v => g' = g ∧ v.IsData)
          fun v hv => ⟨rfl, Value.isData_of_decode hv⟩).bind fun g₁ v _ hv => ?_
        obtain ⟨rfl, hdata⟩ := hv
        refine Halts.pure fun v' source' hv' => ?_
        cases hv'
        obtain ⟨hlt, -⟩ := List.getElem?_eq_some_iff.mp known
        exact ⟨⟨_, known, .single (.row hnext)⟩, hP _ v hdata, rest.length, hn, c', rest,
          List.getElem?_set_self hlt, hreads, Nat.le_refl _⟩
      · simp only [Eval.advance, hnext, List.head?_cons]

theorem mapped (hQ : Stock.Kept Q) (hy : Supplies P n g inner) {f : Function} (hf : f.Ends P Q g)
    (known : g.sources[h]? = some (.mapped inner f)) : Supplies Q n g h := by
  refine of_invariant (I := fun n g => g.sources[h]? = some (.mapped inner f) ∧ Supplies P n g inner ∧
    f.Ends P Q g) ?_ ?_ ⟨known, hy, hf⟩
  · rintro n g g' hg ⟨known, hy, hf⟩
    obtain ⟨source, hs, hb⟩ := hg.sources h _ known
    exact ⟨hb.mapped ▸ hs, hy.later hg, hf.later hg⟩
  · rintro n g s ⟨known, hy, hf⟩
    refine Halts.next (Q := fun g' v => Q g' v ∧ ∃ m < n, g'.sources[h]? = some (.mapped inner f) ∧
      Supplies P m g' inner ∧ f.Ends P Q g') known ?_
    refine Halts.succ (hy.next.bind fun g₁ o hg₁ ho => ?_) fun k => by rw [Eval.advance]
    cases o with
    | none => exact Halts.pure (by simp)
    | some v =>
      obtain ⟨hv, m, hm, hy'⟩ := ho v rfl
      refine (hf g₁ s v hg₁ hv).bind fun g₂ u hg₂ hu => Halts.pure fun v' source' hv' => ?_
      cases hv'
      obtain ⟨source, hs, hb⟩ := (hg₁.trans hg₂).sources h _ known
      cases hb.mapped
      have hg₃ := Stock.le_read hs .refl
      obtain ⟨hlt, -⟩ := List.getElem?_eq_some_iff.mp hs
      exact ⟨⟨_, hs, .refl⟩, hQ _ _ _ hg₃ hu, m, hm, List.getElem?_set_self hlt, hy'.later (hg₂.trans hg₃),
        hf.later ((hg₁.trans hg₂).trans hg₃)⟩

/-- Looking for the next value that passes a test. -/
theorem seek (hP : Stock.Kept P) {test : Function} (hy : Supplies P n g inner)
    (hf : test.Ends P Q g) : Halts g s (fun k => Eval.seek k inner test) fun g' o =>
      ∀ v, o = some v → P g' v ∧ ∃ m < n, Supplies P m g' inner := by
  induction n using Nat.strongRecOn generalizing g with
  | ind n ih =>
    refine Halts.succ (hy.next.bind fun g₁ o hg₁ ho => ?_) fun k => by rw [Eval.seek]
    cases o with
    | none => exact Halts.pure (by simp)
    | some v =>
      obtain ⟨hv, m, hm, hy'⟩ := ho v rfl
      refine (hf g₁ s v hg₁ hv).bind fun g₂ u hg₂ _ => ?_
      split
      next =>
        refine Halts.pure fun v' hv' => ?_
        cases hv'
        exact ⟨hP _ _ _ hg₂ hv, m, hm, hy'.later hg₂⟩
      next =>
        refine (ih m hm (hy'.later hg₂) (hf.later (hg₁.trans hg₂))).mono fun g₃ o _ ho v hv => ?_
        obtain ⟨hv, m', hm', hy''⟩ := ho v hv
        exact ⟨hv, m', Nat.lt_trans hm' hm, hy''⟩
      next => exact Halts.throw _

theorem filtered (hP : Stock.Kept P) (hy : Supplies P n g inner) {test : Function}
    (hf : test.Ends P Q g) (known : g.sources[h]? = some (.filtered inner test)) : Supplies P n g h := by
  refine of_invariant (I := fun n g => g.sources[h]? = some (.filtered inner test) ∧ Supplies P n g inner ∧
    test.Ends P Q g) ?_ ?_ ⟨known, hy, hf⟩
  · rintro n g g' hg ⟨known, hy, hf⟩
    obtain ⟨source, hs, hb⟩ := hg.sources h _ known
    exact ⟨hb.filtered ▸ hs, hy.later hg, hf.later hg⟩
  · rintro n g s ⟨known, hy, hf⟩
    refine Halts.next (Q := fun g' v => P g' v ∧ ∃ m < n, g'.sources[h]? = some (.filtered inner test) ∧
      Supplies P m g' inner ∧ test.Ends P Q g') known ?_
    refine Halts.succ ((hy.seek hP hf).bind fun g₁ o hg₁ ho => ?_) fun k => by rw [Eval.advance]
    cases o with
    | none => exact Halts.pure (by simp)
    | some v =>
      obtain ⟨hv, m, hm, hy'⟩ := ho v rfl
      refine Halts.pure fun v' source' hv' => ?_
      cases hv'
      obtain ⟨source, hs, hb⟩ := hg₁.sources h _ known
      cases hb.filtered
      have hg₂ := Stock.le_read hs .refl
      obtain ⟨hlt, -⟩ := List.getElem?_eq_some_iff.mp hs
      exact ⟨⟨_, hs, .refl⟩, hP _ _ _ hg₂ hv, m, hm, List.getElem?_set_self hlt, hy'.later hg₂,
        hf.later (hg₁.trans hg₂)⟩

end Supplies

end LiveQuery
