import LiveQuery.Proofs.Keyed
import LiveQuery.Store

/-! # Reading a bucket from its start to its end

A cursor gives out the entries of an ordered bucket one by one, in order and each once, although it reads
them in batches (`Cursor.next_of_reads`).
-/
namespace LiveQuery

namespace Cursor

/-- The cursor has given out the entries of a prefix of `b`, and `rest` is what is left. -/
structure Reads (b : Bucket) (c : Cursor) (rest : Bucket) : Prop where
  ordered : Keyed.Ordered b
  /-- What was given out, and what follows the batch. -/
  parts : ∃ given more, b = given ++ rest ∧ rest = c.batch ++ more ∧
    (c.source = some b ∨ c.source = none ∧ more = []) ∧ c.last = given.getLast?.map Prod.fst

theorem reads_start {b : Bucket} (h : Keyed.Ordered b) : (start b).Reads b b :=
  ⟨h, [], b, rfl, rfl, Or.inl rfl, rfl⟩

/-- Above the last key of a prefix lies the rest. -/
theorem above_append {given rest : Bucket} (h : Keyed.Ordered (given ++ rest)) :
    above (given.getLast?.map Prod.fst) (given ++ rest) = rest := by
  cases hlast : given.getLast? with
  | none =>
    rw [List.getLast?_eq_none_iff.mp hlast]
    rfl
  | some e =>
    have hmem := List.mem_of_getLast? hlast
    obtain ⟨front, hfront⟩ := List.getLast?_eq_some_iff.mp hlast
    simp only [Option.map_some, above]
    rw [List.dropWhile_append_of_pos]
    · cases rest with
      | nil => rfl
      | cons r rest =>
        rw [List.dropWhile_cons_of_neg]
        have hlt : e.1 < r.1 := (List.pairwise_append.mp h).2.2 e hmem r List.mem_cons_self
        simp [hlt]
    · intro a ha
      rw [hfront, List.append_assoc] at h
      rw [hfront] at ha
      rcases List.mem_append.mp ha with ha | ha
      · have hlt : a.1 < e.1 := (List.pairwise_append.mp h).2.2 a ha e (by simp)
        simpa using List.lt_asymm hlt
      · rw [List.mem_singleton.mp ha]
        simp

/-- After a refill the batch is empty only at the end. -/
theorem reads_refill {b rest : Bucket} {c : Cursor} (h : c.Reads b rest) (hc : c.batch = []) :
    c.refill.Reads b rest ∧ (c.refill.batch = [] → rest = []) := by
  obtain ⟨hordered, given, more, hb, hrest, hsource, hlast⟩ := h
  rw [hc, List.nil_append] at hrest
  subst hrest
  rcases hsource with hsource | ⟨hsource, rfl⟩
  · have habove : above c.last b = rest := by
      rw [hlast, hb]
      exact above_append (hb ▸ hordered)
    simp only [refill, hsource, habove]
    refine ⟨⟨hordered, given, rest.drop batchSize, hb, (List.take_append_drop _ _).symm, ?_, hlast⟩, ?_⟩
    · by_cases hshort : (rest.take batchSize).length < batchSize
      · refine Or.inr ⟨if_pos hshort, List.drop_eq_nil_of_le ?_⟩
        rw [List.length_take] at hshort
        omega
      · exact Or.inl (if_neg hshort)
    · intro hnil
      rcases List.take_eq_nil_iff.mp hnil with h | h
      · cases h
      · exact h
  · have hrefill : c.refill = c := by rw [refill, hsource]
    rw [hrefill]
    exact ⟨⟨hordered, given, [], hb, by rw [hc]; rfl, Or.inr ⟨hsource, rfl⟩, hlast⟩, fun _ => rfl⟩

/-- The next entry is the first one that is left. -/
theorem next_of_reads {b rest : Bucket} {c : Cursor} (h : c.Reads b rest) :
    ∃ c', c.next = (rest.head?, c') ∧ c'.Reads b rest.tail := by
  obtain ⟨d, hd, hreads, hnil⟩ : ∃ d, d = (if c.batch.isEmpty then c.refill else c) ∧ d.Reads b rest ∧
      (d.batch = [] → rest = []) := by
    refine ⟨_, rfl, ?_⟩
    by_cases hc : c.batch = []
    · rw [if_pos (by rw [hc]; rfl)]
      exact reads_refill h hc
    · rw [if_neg (by simpa using hc)]
      exact ⟨h, fun hnil => absurd hnil hc⟩
  rw [next, ← hd]
  obtain ⟨hordered, given, more, hb, hrest, hsource, hlast⟩ := hreads
  cases hbatch : d.batch with
  | nil =>
    have hempty := hnil hbatch
    subst hempty
    exact ⟨d, rfl, hordered, given, more, hb, hrest, hsource, hlast⟩
  | cons e batch =>
    rw [hbatch] at hrest
    subst hrest
    refine ⟨_, rfl, hordered, given ++ [e], more, ?_, rfl, hsource, ?_⟩
    · rw [hb]
      simp
    · simp

end Cursor

end LiveQuery
