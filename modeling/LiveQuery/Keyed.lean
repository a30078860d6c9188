/-!
Keyed lists: finite maps held as lists of pairs in increasing key order. `find?`, `insert`, `erase`
and `ofList` are the operations, `Ordered` says that the keys increase, and the lemmas state that
each operation keeps the order and what it does to `find?`.
-/
namespace LiveQuery

/-- A finite map from keys to values, as the list of its entries. -/
abbrev Keyed (κ : Type) (α : Type) := List (κ × α)

namespace Keyed

variable {κ α β : Type}

/-- The keys increase strictly, so each key has one entry. -/
def Ordered [LT κ] (m : List (κ × α)) : Prop := m.Pairwise (fun a b => a.1 < b.1)

/-- The value stored under `k`. -/
def find? [DecidableEq κ] : List (κ × α) → κ → Option α
  | [], _ => none
  | (k', v) :: rest, k => if k' = k then some v else find? rest k

/-- Whether `k` has an entry. -/
def contains [DecidableEq κ] (m : List (κ × α)) (k : κ) : Bool := (find? m k).isSome

/-- Stores `v` under `k`, in place of what was there. -/
def insert [LT κ] [DecidableLT κ] [DecidableEq κ] : List (κ × α) → κ → α → List (κ × α)
  | [], k, v => [(k, v)]
  | (k', v') :: rest, k, v =>
    if k < k' then (k, v) :: (k', v') :: rest
    else if k = k' then (k, v) :: rest
    else (k', v') :: insert rest k v

/-- Drops the entry of `k`. -/
def erase [DecidableEq κ] : List (κ × α) → κ → List (κ × α)
  | [], _ => []
  | (k', v) :: rest, k => if k' = k then rest else (k', v) :: erase rest k

/-- Stores `f` of what is under `k`, `none` if there is nothing. -/
def alter [LT κ] [DecidableLT κ] [DecidableEq κ] (m : List (κ × α)) (k : κ)
    (f : Option α → α) : List (κ × α) :=
  insert m k (f (find? m k))

/-- The map with the given entries; of two entries with one key the later one counts. -/
def ofList [LT κ] [DecidableLT κ] [DecidableEq κ] (entries : List (κ × α)) : List (κ × α) :=
  entries.foldl (fun m e => insert m e.1 e.2) []

/-- The keys, in order. -/
def keys (m : List (κ × α)) : List κ := m.map Prod.fst

/-- The same keys with each value replaced. -/
def mapValues (f : α → β) (m : List (κ × α)) : List (κ × β) := m.map fun e => (e.1, f e.2)

@[simp] theorem find?_nil [DecidableEq κ] (k : κ) : find? ([] : List (κ × α)) k = none := rfl

theorem find?_cons [DecidableEq κ] (e : κ × α) (m : List (κ × α)) (k : κ) :
    find? (e :: m) k = if e.1 = k then some e.2 else find? m k := rfl

theorem mem_of_find? [DecidableEq κ] {m : List (κ × α)} {k : κ} {v : α}
    (h : find? m k = some v) : (k, v) ∈ m := by
  induction m with
  | nil => cases h
  | cons e m ih =>
    rw [find?_cons] at h
    split at h
    next hk => cases h; rw [← hk]; exact List.mem_cons_self
    next => exact List.mem_cons_of_mem _ (ih h)

end Keyed

end LiveQuery
