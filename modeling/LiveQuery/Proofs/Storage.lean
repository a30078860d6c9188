import LiveQuery.Proofs.Cursor
import LiveQuery.Proofs.Store
import LiveQuery.Storage

/-! # Cursors beside writers

A cursor on a bucket of a snapshot gives the entries that the bucket had when the snapshot was taken, in key order and
each once, and then nothing, whatever else is asked of the storage between two pulls; once it is closed it gives
nothing (`Storage.pulls_entries`). What carries this is that no request but a pull or a close of the cursor itself
touches it (`Storage.cursor_step`), while a pull takes the first entry off what it has left
(`Storage.Left.step`).
-/
namespace LiveQuery

/-! ## What a cursor has left -/

namespace Cursor

variable {c : Cursor} {rest : Bucket}

/-- The entries that the cursor has still to give: the rest of a bucket, or none if it was closed. -/
inductive Leaves : Cursor → Bucket → Prop
  | reads {c : Cursor} {b rest : Bucket} (h : c.Reads b rest) : c.Leaves rest
  | closed {c : Cursor} (source : c.source = none) (batch : c.batch = []) : c.Leaves []

theorem leaves_close (c : Cursor) : c.close.Leaves [] := .closed rfl rfl

theorem Leaves.next (h : c.Leaves rest) : ∃ c', c.next = (rest.head?, c') ∧ c'.Leaves rest.tail := by
  cases h with
  | reads h =>
    obtain ⟨c', hnext, hreads⟩ := next_of_reads h
    exact ⟨c', hnext, .reads hreads⟩
  | closed source batch =>
    refine ⟨c, ?_, .closed source batch⟩
    have hrefill : c.refill = c := by rw [refill, source]
    rw [Cursor.next, batch, List.isEmpty_nil, if_pos rfl, hrefill, batch]
    rfl

end Cursor

/-! ## Order -/

theorem Edit.ordered_apply {s : Store} (h : s.Ordered) (bucket : String) (e : Edit) :
    (e.apply bucket s).2.Ordered := by
  cases e with
  | create | get => exact h.touch bucket
  | put key value => exact h.put bucket key value
  | delete key => exact h.delete bucket key

namespace Storage

/-- The committed store, the writer's and the snapshots are in key order. -/
structure Ordered (s : Storage) : Prop where
  store : s.store.Ordered
  writing : ∀ t ∈ s.writing, t.Ordered
  snapshots : ∀ t ∈ s.snapshots, t.Ordered

theorem ordered_empty : Ordered {} where
  store := Store.ordered_empty
  writing := by simp
  snapshots := by simp

variable {s : Storage}

/-- A writer may begin, or go on, with a store in key order. -/
theorem Ordered.write (h : s.Ordered) {t : Store} (ht : t.Ordered) : Ordered { s with writing := some t } where
  store := h.store
  writing := by
    rintro u ⟨⟩
    exact ht
  snapshots := h.snapshots

theorem Ordered.step (h : s.Ordered) (r : Request) : (s.step r).2.Ordered := by
  cases r with
  | begin =>
    simp only [Storage.step]
    split
    next => exact h
    next => exact h.write h.store
  | edit bucket e =>
    simp only [Storage.step]
    split
    next t hw => exact h.write (e.ordered_apply (h.writing t hw) bucket)
    next => exact h
  | commit =>
    simp only [Storage.step]
    split
    next t hw => exact ⟨h.writing t hw, by simp, h.snapshots⟩
    next => exact h
  | rollback =>
    simp only [Storage.step]
    split
    next => exact ⟨h.store, by simp, h.snapshots⟩
    next => exact h
  | snapshot =>
    refine ⟨h.store, h.writing, fun t ht => ?_⟩
    rcases Array.mem_push.mp ht with ht | rfl
    · exact h.snapshots t ht
    · exact h.store
  | read | cursor | pull | close =>
    simp only [Storage.step]
    split <;> exact ⟨h.store, h.writing, h.snapshots⟩

theorem Ordered.after (h : s.Ordered) (rs : List Request) : (s.after rs).Ordered := by
  induction rs generalizing s with
  | nil => exact h
  | cons r rs ih => exact ih (h.step r)

/-! ## Snapshots and cursors beside other requests -/

theorem snapshot_taken (s : Storage) : ∃ n, (s.step .snapshot).1 = .opened n ∧
    (s.step .snapshot).2.snapshots[n]? = some s.store :=
  ⟨s.snapshots.size, rfl, Array.getElem?_push_size⟩

/-- A snapshot stays as it is. -/
theorem snapshot_step {n : Nat} {t : Store} (h : s.snapshots[n]? = some t) (r : Request) :
    (s.step r).2.snapshots[n]? = some t := by
  cases r with
  | snapshot =>
    obtain ⟨hn, -⟩ := Array.getElem?_eq_some_iff.mp h
    simp only [Storage.step]
    rw [Array.getElem?_push_lt hn, ← Array.getElem?_eq_getElem hn, h]
  | _ =>
    simp only [Storage.step]
    split <;> exact h

theorem snapshot_after {n : Nat} {t : Store} (h : s.snapshots[n]? = some t) (rs : List Request) :
    (s.after rs).snapshots[n]? = some t := by
  induction rs generalizing s with
  | nil => exact h
  | cons r rs ih => exact ih (snapshot_step h r)

/-- A cursor that is neither pulled nor closed stays as it is. -/
theorem cursor_step {c : Nat} {k : Cursor} (h : s.cursors[c]? = some k) {r : Request} (hpull : r ≠ .pull c)
    (hclose : r ≠ .close c) : (s.step r).2.cursors[c]? = some k := by
  cases r with
  | snapshot => exact h
  | cursor n bucket =>
    obtain ⟨hc, -⟩ := Array.getElem?_eq_some_iff.mp h
    simp only [Storage.step]
    split
    next => rw [Array.getElem?_push_lt hc, ← Array.getElem?_eq_getElem hc, h]
    next => exact h
  | pull d =>
    have hne : d ≠ c := fun heq => hpull (congrArg Request.pull heq)
    simp only [Storage.step]
    split
    next => rw [Array.getElem?_setIfInBounds_ne hne, h]
    next => exact h
  | close d =>
    have hne : d ≠ c := fun heq => hclose (congrArg Request.close heq)
    simp only [Storage.step]
    split
    next => rw [Array.getElem?_setIfInBounds_ne hne, h]
    next => exact h
  | _ =>
    simp only [Storage.step]
    split <;> exact h

/-! ## Replies -/

theorem after_cons (r : Request) (rs : List Request) : s.after (r :: rs) = (s.step r).2.after rs := rfl

theorem after_append (rs rs' : List Request) : s.after (rs ++ rs') = (s.after rs).after rs' :=
  List.foldl_append

theorem replies_cons (q r : Request) (rs : List Request) :
    replies q s (r :: rs) = (if r = q then [(s.step r).1] else []) ++ replies q (s.step r).2 rs := by
  show (if r = q then (s.step r).1 :: replies q (s.step r).2 rs else replies q (s.step r).2 rs) = _
  split <;> rfl

theorem replies_append (q : Request) (rs rs' : List Request) :
    replies q s (rs ++ rs') = replies q s rs ++ replies q (s.after rs) rs' := by
  induction rs generalizing s with
  | nil => rfl
  | cons r rs ih =>
    rw [List.cons_append, replies_cons, replies_cons, ih, List.append_assoc]
    rfl

/-! ## What is left to a cursor -/

/-- The cursor with the number has `rest` left. -/
def Left (s : Storage) (c : Nat) (rest : Bucket) : Prop := ∃ k, s.cursors[c]? = some k ∧ k.Leaves rest

/-- What a request leaves to a cursor that had `rest` left. -/
def remaining (c : Nat) (rest : Bucket) (r : Request) : Bucket :=
  if r = .pull c then rest.tail else if r = .close c then [] else rest

variable {c : Nat} {rest : Bucket}

theorem remaining_pull : remaining c rest (.pull c) = rest.tail := if_pos rfl

theorem remaining_close : remaining c rest (.close c) = [] := by
  rw [remaining, if_neg (by simp), if_pos rfl]

theorem remaining_of_ne {r : Request} (hpull : r ≠ .pull c) (hclose : r ≠ .close c) : remaining c rest r = rest := by
  rw [remaining, if_neg hpull, if_neg hclose]

/-- A pull gives the first entry that is left. -/
theorem Left.pull (h : s.Left c rest) : (s.step (.pull c)).1 = .entry rest[0]? := by
  obtain ⟨k, hk, hleaves⟩ := h
  obtain ⟨k', hnext, -⟩ := hleaves.next
  simp only [Storage.step, hk, hnext, List.head?_eq_getElem?]

/-- A pull takes the first entry off, a close leaves none, and nothing else changes what is left. -/
theorem Left.step (h : s.Left c rest) (r : Request) : (s.step r).2.Left c (remaining c rest r) := by
  obtain ⟨k, hk, hleaves⟩ := h
  obtain ⟨hc, -⟩ := Array.getElem?_eq_some_iff.mp hk
  by_cases hpull : r = .pull c
  · subst hpull
    obtain ⟨k', hnext, hleaves'⟩ := hleaves.next
    rw [remaining_pull]
    simp only [Storage.step, hk, hnext]
    exact ⟨k', Array.getElem?_setIfInBounds_self_of_lt hc, hleaves'⟩
  · by_cases hclose : r = .close c
    · subst hclose
      rw [remaining_close]
      simp only [Storage.step, hk]
      exact ⟨k.close, Array.getElem?_setIfInBounds_self_of_lt hc, k.leaves_close⟩
    · rw [remaining_of_ne hpull hclose]
      exact ⟨k, cursor_step hk hpull hclose, hleaves⟩

/-- A cursor that was just opened has all entries left. -/
theorem cursor_opened {n : Nat} {t : Store} {bucket : String} {b : Bucket} (ht : s.snapshots[n]? = some t)
    (hb : t.bucket? bucket = some b) (hordered : Keyed.Ordered b) :
    ∃ c s', s.step (.cursor n bucket) = (.opened c, s') ∧ s'.Left c b := by
  refine ⟨s.cursors.size, { s with cursors := s.cursors.push (.start b) }, ?_, .start b, ?_, ?_⟩
  · simp only [Storage.step, ht, Option.bind_some, hb]
  · exact Array.getElem?_push_size
  · exact .reads (Cursor.reads_start hordered)

theorem Left.after (h : s.Left c rest) (rs : List Request) : (s.after rs).Left c (rs.foldl (remaining c) rest) := by
  induction rs generalizing s rest with
  | nil => exact h
  | cons r rs ih => exact ih (h.step r)

/-- The pulls of a cursor give what it has left, entry by entry, as long as it is not closed before its end. -/
theorem Left.replies_pull (h : s.Left c rest) {rs : List Request} (hclose : .close c ∈ rs → rest = []) :
    replies (.pull c) s rs = (List.range (rs.count (.pull c))).map fun i => .entry rest[i]? := by
  induction rs generalizing s rest with
  | nil => rfl
  | cons r rs ih =>
    have hclose' : .close c ∈ rs → rest = [] := fun hmem => hclose (List.mem_cons_of_mem _ hmem)
    have hstep := h.step r
    rw [replies_cons]
    by_cases hr : r = .pull c
    · subst hr
      have htail : ∀ i, rest.tail[i]? = rest[i + 1]? := fun i => List.getElem?_tail
      rw [remaining_pull] at hstep
      rw [if_pos rfl, List.count_cons_self, List.range_succ_eq_map, List.map_cons, List.map_map, h.pull,
        ih hstep fun hmem => by rw [hclose' hmem, List.tail_nil]]
      simp only [htail]
      rfl
    · have hsame : remaining c rest r = rest := by
        by_cases hc : r = .close c
        · subst hc
          rw [remaining_close, hclose List.mem_cons_self]
        · exact remaining_of_ne hr hc
      rw [hsame] at hstep
      rw [if_neg hr, List.count_cons_of_ne hr, List.nil_append, ih hstep hclose']

/-- A cursor on a bucket of a snapshot gives, pull by pull, the entries that were committed in the bucket when the
snapshot was taken, in key order, and then nothing, whatever is asked before, between and besides; and nothing once
it is closed. -/
theorem pulls_entries (earlier between : List Request) {bucket : String} {b : Bucket}
    (hb : (after {} earlier).store.bucket? bucket = some b) :
    Keyed.Ordered b ∧ ∃ n c s, ((after {} earlier).step .snapshot).1 = .opened n ∧
      (after {} (earlier ++ .snapshot :: between)).step (.cursor n bucket) = (.opened c, s) ∧
      (∀ rs, .close c ∉ rs →
        replies (.pull c) s rs = (List.range (rs.count (.pull c))).map fun i => .entry b[i]?) ∧
      ∀ rs rs', replies (.pull c) s (rs ++ .close c :: rs') =
        replies (.pull c) s rs ++ List.replicate (rs'.count (.pull c)) (.entry none) := by
  have hordered : Keyed.Ordered b := by
    rw [← Store.entries_of_bucket? hb]
    exact (ordered_empty.after earlier).store.entries bucket
  obtain ⟨n, hopened, htaken⟩ := snapshot_taken (after {} earlier)
  have hkept := snapshot_after htaken between
  rw [← after_cons, ← after_append] at hkept
  obtain ⟨c, s, hcursor, hleft⟩ := cursor_opened hkept hb hordered
  refine ⟨hordered, n, c, s, hopened, hcursor, fun rs hrs => hleft.replies_pull fun hmem => absurd hmem hrs, ?_⟩
  intro rs rs'
  have hclosed := (hleft.after rs).step (.close c)
  rw [remaining_close] at hclosed
  rw [replies_append, replies_cons, if_neg (by simp), List.nil_append, hclosed.replies_pull fun _ => rfl]
  simp only [List.getElem?_nil, List.map_const', List.length_range]

namespace Sample

/-- As many entries as a cursor reads at once, put in falling order of their keys. -/
def filling : List Request :=
  .begin :: (List.range Cursor.batchSize).reverse.map (fun i => .edit "t" (.put [UInt8.ofNat i] [])) ++ [.commit]

/-- The entries, in order. -/
def full : Bucket := (List.range Cursor.batchSize).map fun i => ([UInt8.ofNat i], [])

/-- All entries are deleted again. -/
def clearing : List Request :=
  .begin :: (List.range Cursor.batchSize).map (fun i => .edit "t" (.delete [UInt8.ofNat i])) ++ [.commit]

end Sample

open Storage.Sample in
/-- The entries are deleted after the snapshot was taken and put again while they are read; the end is found where a
batch ends, too. -/
theorem pulls_entries_full : (after {} filling).store.bucket? "t" = some full ∧
    (after {} (filling ++ .snapshot :: clearing)).store.bucket? "t" = some [] ∧
    ∃ s, (after {} (filling ++ .snapshot :: clearing)).step (.cursor 0 "t") = (.opened 0, s) ∧
      replies (.pull 0) s (List.replicate 40 (.pull 0) ++ filling ++ List.replicate 26 (.pull 0)) =
        full.map (fun e => .entry (some e)) ++ [.entry none, .entry none] := by
  have hfull : (after {} filling).store.bucket? "t" = some full := by decide +kernel
  obtain ⟨-, n, c, s, hn, hc, hreplies, -⟩ := pulls_entries filling clearing hfull
  have hfirst : ((after {} filling).step .snapshot).1 = .opened 0 := by decide +kernel
  obtain rfl : 0 = n := Reply.opened.inj (hfirst.symm.trans hn)
  have hopened : ((after {} (filling ++ .snapshot :: clearing)).step (.cursor 0 "t")).1 = .opened 0 := by decide +kernel
  obtain rfl : 0 = c := Reply.opened.inj (hopened.symm.trans (congrArg Prod.fst hc))
  refine ⟨hfull, by decide +kernel, s, hc, ?_⟩
  rw [hreplies _ (by decide +kernel)]
  decide +kernel

end Storage

end LiveQuery
