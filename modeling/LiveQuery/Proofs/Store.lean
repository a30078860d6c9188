import LiveQuery.Proofs.Keyed
import LiveQuery.Store

/-! # Reads after writes

What a bucket holds after a write (`Store.entries_put` and its like). Every write leaves the other buckets
alone, and writes keep buckets and their entries in key order (`Store.Ordered`).
-/
namespace LiveQuery

namespace Store

/-- Buckets and their entries are in key order. -/
structure Ordered (s : Store) : Prop where
  buckets : Keyed.Ordered s.buckets
  entries : ∀ name, Keyed.Ordered (s.entries name)

theorem entries_of_bucket? {s : Store} {name : String} {b : Bucket} (h : s.bucket? name = some b) :
    s.entries name = b := by
  rw [entries, h]
  rfl

@[simp] theorem entries_empty (name : String) : entries {} name = [] := rfl

/-- What a bucket holds after one bucket was written. -/
theorem entries_insert (s : Store) (name : String) (b : Bucket) (other : String) :
    entries { s with buckets := Keyed.insert s.buckets name b } other =
      if name = other then b else s.entries other := by
  simp only [entries, bucket?, Keyed.find?_insert]
  split
  next => rfl
  next => rfl

@[simp] theorem entries_touch (s : Store) (name other : String) :
    (s.touch name).entries other = s.entries other := by
  rw [touch, entries_insert]
  split
  next h => rw [h]
  next => rfl

theorem entries_put (s : Store) (name : String) (key value : Bytes) (other : String) :
    (s.put name key value).entries other =
      if name = other then Keyed.insert (s.entries name) key value else s.entries other :=
  entries_insert s name _ other

theorem entries_put_self (s : Store) (name : String) (key value : Bytes) :
    (s.put name key value).entries name = Keyed.insert (s.entries name) key value := by
  rw [entries_put, if_pos rfl]

theorem entries_put_of_ne (s : Store) {name other : String} (key value : Bytes) (h : name ≠ other) :
    (s.put name key value).entries other = s.entries other := by
  rw [entries_put, if_neg h]

theorem entries_delete (s : Store) (name : String) (key : Bytes) (other : String) :
    (s.delete name key).entries other =
      if name = other then Keyed.erase (s.entries name) key else s.entries other :=
  entries_insert s name _ other

theorem get?_put (s : Store) (name : String) (key value : Bytes) (other : String) (k : Bytes) :
    (s.put name key value).get? other k = if name = other ∧ key = k then some value else s.get? other k := by
  unfold get?
  rw [entries_put]
  by_cases hname : name = other
  · subst hname
    rw [if_pos rfl, Keyed.find?_insert]
    simp
  · rw [if_neg hname, if_neg fun h => hname h.1]

theorem get?_delete {s : Store} {name : String} (h : Keyed.Ordered (s.entries name)) (key : Bytes) (other : String)
    (k : Bytes) : (s.delete name key).get? other k = if name = other ∧ key = k then none else s.get? other k := by
  unfold get?
  rw [entries_delete]
  by_cases hname : name = other
  · subst hname
    rw [if_pos rfl, Keyed.find?_erase h.nodup]
    simp
  · rw [if_neg hname, if_neg fun h => hname h.1]

/-! ## Order -/

theorem ordered_empty : Ordered {} := ⟨List.Pairwise.nil, fun _ => List.Pairwise.nil⟩

theorem Ordered.insert {s : Store} (h : s.Ordered) (name : String) {b : Bucket}
    (hb : Keyed.Ordered b) : Ordered { s with buckets := Keyed.insert s.buckets name b } where
  buckets := h.buckets.insert name b
  entries other := by
    rw [entries_insert]
    split
    next => exact hb
    next => exact h.entries other

theorem Ordered.touch {s : Store} (h : s.Ordered) (name : String) : (s.touch name).Ordered :=
  h.insert name (h.entries name)

theorem Ordered.put {s : Store} (h : s.Ordered) (name : String) (key value : Bytes) :
    (s.put name key value).Ordered :=
  h.insert name ((h.entries name).insert key value)

theorem Ordered.delete {s : Store} (h : s.Ordered) (name : String) (key : Bytes) :
    (s.delete name key).Ordered :=
  h.insert name (Keyed.ordered_erase (h.entries name) key)

end Store

end LiveQuery
