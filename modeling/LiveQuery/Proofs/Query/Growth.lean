import LiveQuery.Proofs.Query.Entries

/-! # Results that grow

A new row of a table adds to a result: it becomes a row of each list that is of its table and whose conditions it
meets, in the lists that there were before (`Spot.entries_rows`). The rows that there were stay, and the lists that are
in the new row come with it.

A client that keeps a result adds the rows that it is told of one after the other, in any order
(`Told.entries_addAll`).
-/
namespace LiveQuery

/-- One store has the rows of another one and a new row of one table. -/
structure Store.Gains (store store' : Store) (table : String) (r : Row) : Prop where
  rows : (store'.rows table).Perm (r :: store.rows table)
  others : ∀ name, name ≠ table → store'.rows name = store.rows name

/-! ## Rows by what is selected -/

/-- What is shown of a row of `t` for a selection. -/
def Selection.field (schema : Schema) (store : Store) (t : Table) (r : Row) : Selection → Field
  | .column name => .column (r.get name)
  | .nested _ q => .nested q (q.link schema t r) (q.nodes schema store (q.link schema t r))

/-- Selections by the names that they are shown under. -/
def Selection.named (selections : List Selection) : List (String × Selection) :=
  Keyed.ofList (selections.map fun s => (s.name, s))

/-- A row of `t` as it is shown. -/
def Row.node (schema : Schema) (store : Store) (t : Table) (selections : List Selection) (r : Row) : Node :=
  .mk (r.key t) (Keyed.ofList (selectedFields schema store t r selections))

section Rows

variable {schema : Schema} {store store' : Store} {t : Table} {r : Row}

theorem selectedFields_eq (selections : List Selection) : selectedFields schema store t r selections =
    selections.map fun s => (s.name, s.field schema store t r) := by
  induction selections with
  | nil => rfl
  | cons s rest ih => cases s <;> rw [selectedFields, ih] <;> rfl

theorem Row.node_eq (selections : List Selection) : r.node schema store t selections =
    .mk (r.key t) (Keyed.mapValues (Selection.field schema store t r) (Selection.named selections)) := by
  rw [node, Selection.named, Keyed.mapValues_ofList, selectedFields_eq, Keyed.mapValues, List.map_map]
  rfl

theorem Selection.mem_of_named {selections : List Selection} {name : String} {s : Selection}
    (h : (name, s) ∈ named selections) : s ∈ selections := by
  obtain ⟨s', hs', heq⟩ := List.mem_map.mp (Keyed.mem_of_mem_ofList h)
  cases heq
  exact hs'

theorem Query.nodes_eq {q : Query} (ht : Keyed.find? schema q.table = some t) (link : Option Filter) :
    q.nodes schema store link = ((store.rows t.name).filter fun r => (q.filters ++ link.toList).all r.meets).map
      (Row.node schema store t q.selections) := by
  obtain ⟨c, table, filters, selections⟩ := q
  rw [Query.table_mk] at ht
  rw [Query.nodes, ht]
  rfl

theorem Query.nodes_of_unknown {q : Query} (ht : Keyed.find? schema q.table = none) (link : Option Filter) :
    q.nodes schema store link = [] := by
  obtain ⟨c, table, filters, selections⟩ := q
  rw [Query.table_mk] at ht
  rw [Query.nodes, ht]

end Rows

mutual

/-- What holds of a query if it holds of the queries in it holds of every query. -/
theorem Query.nested_induction {P : Query → Prop}
    (step : ∀ q : Query, (∀ name inner, Selection.nested name inner ∈ q.selections → P inner) → P q) : (q : Query) → P q
  | .mk _ _ _ selections => step _ (selections_induction step selections)

theorem selections_induction {P : Query → Prop}
    (step : ∀ q : Query, (∀ name inner, Selection.nested name inner ∈ q.selections → P inner) → P q) :
    (selections : List Selection) → ∀ name inner, .nested name inner ∈ selections → P inner
  | [], _, _, h => absurd h List.not_mem_nil
  | .column _ :: rest, name, inner, h => by
    rcases List.mem_cons.mp h with heq | h
    · cases heq
    · exact selections_induction step rest name inner h
  | .nested _ q :: rest, name, inner, h => by
    rcases List.mem_cons.mp h with heq | h
    · cases heq
      exact Query.nested_induction step q
    · exact selections_induction step rest name inner h

end

/-! ## A new row -/

namespace Spot

/-- The rows that belong in a list. -/
def rows (schema : Schema) (store : Store) (x : Spot) : List Node := x.query.nodes schema store x.link

/-- Whether a row of `t` belongs in a list. -/
def takes (t : Table) (r : Row) (x : Spot) : Bool :=
  decide (x.query.table = t.name) && (x.query.filters ++ x.link.toList).all r.meets

/-- What a new row of `t` adds to a list. -/
def gain (schema : Schema) (store : Store) (t : Table) (r : Row) (x : Spot) : List Node :=
  if x.takes t r then [r.node schema store t x.query.selections] else []

/-- What a new row of `t` adds to lists, row by row. -/
def gains (schema : Schema) (store : Store) (t : Table) (r : Row) (xs : List Spot) : List Entry :=
  xs.flatMap fun x => x.entries (x.gain schema store t r)

variable {schema : Schema} {store store' : Store} {t : Table} {r : Row}

/-- A new row of `t` adds to what is in a list what it adds to the lists in it. -/
def Grows (schema : Schema) (store store' : Store) (t : Table) (r : Row) (x : Spot) : Prop :=
  (x.entries (x.rows schema store')).Perm
    (x.entries (x.rows schema store) ++ gains schema store' t r (x.below (x.rows schema store)))

theorem gains_append (xs ys : List Spot) :
    gains schema store t r (xs ++ ys) = gains schema store t r xs ++ gains schema store t r ys :=
  List.flatMap_append

/-- The rows of a list after a row was added to a table: those that there were, and what it gains. -/
theorem rows_gain (hs : schema.Valid) (ht : Keyed.find? schema t.name = some t) (h : store.Gains store' t.name r)
    {x : Spot} {t' : Table} (ht' : Keyed.find? schema x.query.table = some t') :
    (x.rows schema store').Perm (x.gain schema store' t r ++
      ((store.rows t'.name).filter fun r => (x.query.filters ++ x.link.toList).all r.meets).map
        (Row.node schema store' t' x.query.selections)) := by
  have hname : t'.name = x.query.table := (hs.find? ht').2
  rw [rows, Query.nodes_eq ht']
  by_cases hsame : x.query.table = t.name
  · obtain rfl : t' = t := Option.some.inj (ht'.symm.trans (hsame ▸ ht))
    refine ((h.rows.filter _).map _).trans ?_
    rw [List.filter_cons, gain, takes, decide_eq_true hsame, Bool.true_and]
    split <;> exact List.Perm.refl _
  · have hnone : x.gain schema store' t r = [] := by
      rw [gain, takes, decide_eq_false hsame, Bool.false_and]
      rfl
    rw [hnone, List.nil_append, h.others t'.name (hname ▸ hsame)]

end Spot

theorem Selection.entries_field {schema : Schema} {store store' : Store} {t : Table} {r : Row} {s : Selection}
    (t' : Table) (r' : Row) (name : String) (p : Path)
    (h : ∀ label q, s = .nested label q → ∀ x : Spot, x.query = q → x.Grows schema store store' t r) :
    ((s.field schema store' t' r').entries p name).Perm ((s.field schema store t' r').entries p name ++
      (Spot.gains schema store' t r ((s.field schema store t' r').shown.spot? p name).toList ++
        Spot.gains schema store' t r (((s.field schema store t' r').entries p name).flatMap Entry.spots))) := by
  cases s with
  | column label => exact List.Perm.refl _
  | nested label q =>
    rw [← Spot.gains_append]
    exact h label q rfl ⟨q, q.link schema t' r', p.selection name⟩ rfl

theorem Selection.shown_field {schema : Schema} {store store' : Store} {t : Table} {r : Row} (s : Selection) :
    (s.field schema store' t r).shown = (s.field schema store t r).shown := by
  cases s <;> rfl

theorem flatMap_perm_of_append {α β : Type} {f f' g : α → List β} {as : List α}
    (h : ∀ a ∈ as, (f' a).Perm (f a ++ g a)) :
    (as.flatMap f').Perm (as.flatMap f ++ as.flatMap g) :=
  (List.Perm.flatMap_left _ h).trans (List.flatMap_append_perm as f g).symm

/-- A row that is there already has more in it. -/
theorem Row.entries_node {schema : Schema} {store store' : Store} {t t' : Table} {r r' : Row}
    {selections : List Selection} {table : String} {p : Path}
    (h : ∀ label q, Selection.nested label q ∈ selections → ∀ x : Spot, x.query = q →
      x.Grows schema store store' t r) :
    ((r'.node schema store' t' selections).entries table p).Perm
      ((r'.node schema store t' selections).entries table p ++
        Spot.gains schema store' t r (((r'.node schema store t' selections).entries table p).flatMap Entry.spots)) := by
  rw [node_eq, node_eq, Node.entries, Node.entries, fieldEntries_eq, fieldEntries_eq]
  simp only [Keyed.mapValues, List.map_map, List.flatMap_map]
  have hshown : (Selection.named selections).map ((fun e => (e.1, Field.shown e.2)) ∘ fun e => (e.1,
      Selection.field schema store' t' r' e.2)) = (Selection.named selections).map ((fun e => (e.1, Field.shown e.2)) ∘
        fun e => (e.1, Selection.field schema store t' r' e.2)) :=
    List.map_congr_left fun e _ => congrArg (Prod.mk e.1) (Selection.shown_field e.2)
  rw [hshown, List.cons_append]
  refine List.Perm.cons _ ?_
  -- the lists under the names of the row, and what is in them
  have hfields := flatMap_perm_of_append fun s (hs : s ∈ Selection.named selections) =>
    Selection.entries_field t' r' s.1 (p.row (r'.key t').json) fun label q heq =>
      h label q (heq ▸ Selection.mem_of_named hs)
  refine hfields.trans (List.Perm.append_left _ ?_)
  refine (List.flatMap_append_perm _ _ _).symm.trans (List.Perm.of_eq ?_)
  rw [List.flatMap_cons, Spot.gains_append, Entry.spots, List.filterMap_map, List.filterMap_eq_flatMap_toList,
    Spot.gains, Spot.gains, List.flatMap_assoc, List.flatMap_assoc, List.flatMap_assoc]
  simp only [Spot.gains, List.flatMap_assoc]
  rfl

namespace Spot

variable {schema : Schema} {store store' : Store} {t : Table} {r : Row}

/-- A new row adds to a result what it adds to each of the lists that are in the result. -/
theorem entries_rows (hs : schema.Valid) (ht : Keyed.find? schema t.name = some t) (h : store.Gains store' t.name r)
    (x : Spot) : x.Grows schema store store' t r := by
  suffices hall : ∀ q : Query, ∀ x : Spot, x.query = q → x.Grows schema store store' t r from hall _ x rfl
  refine Query.nested_induction fun q ih x hx => ?_
  unfold Grows
  cases ht' : Keyed.find? schema x.query.table with
  | none =>
    have hne : x.query.table ≠ t.name := fun heq => by rw [heq, ht] at ht'; cases ht'
    have hgain : x.gain schema store' t r = [] := by
      rw [gain, takes, decide_eq_false hne, Bool.false_and]
      rfl
    rw [rows, rows, Query.nodes_of_unknown ht', Query.nodes_of_unknown ht', below, gains, List.flatMap_cons, hgain]
    exact List.Perm.refl _
  | some t' =>
    rw [← hx] at ih
    have hrows : (x.entries (x.rows schema store')).Perm _ := nodeEntries_perm (rows_gain hs ht h ht')
    rw [nodeEntries_append] at hrows
    have hold : x.rows schema store = ((store.rows t'.name).filter fun r =>
        (x.query.filters ++ x.link.toList).all r.meets).map (Row.node schema store t' x.query.selections) :=
      Query.nodes_eq ht' _
    generalize (store.rows t'.name).filter (fun r => (x.query.filters ++ x.link.toList).all r.meets) = kept
      at hrows hold
    -- each row that was there has more in it
    have hkept : (nodeEntries x.query.table x.path (kept.map (Row.node schema store' t' x.query.selections))).Perm
        (x.entries (x.rows schema store) ++
          gains schema store' t r ((x.entries (x.rows schema store)).flatMap Entry.spots)) := by
      rw [hold, entries, nodeEntries_eq, nodeEntries_eq, List.flatMap_map, List.flatMap_map]
      refine (flatMap_perm_of_append fun r' _ => Row.entries_node ih).trans (List.Perm.of_eq ?_)
      rw [gains, List.flatMap_assoc, List.flatMap_assoc]
      simp only [gains, List.flatMap_assoc]
    rw [below, gains, List.flatMap_cons, ← gains]
    refine (hrows.trans (hkept.append_left _)).trans ?_
    exact List.perm_append_comm_assoc _ _ _

end Spot

/-! ## A result that is kept -/

/-- A row that a client is told of, with the list that it belongs in. -/
structure Told where
  spot : Spot
  row : Node

namespace Told

/-- The row, and the rows in it. -/
def entries (a : Told) : List Entry := a.spot.entries [a.row]

/-- Where in the result the row is. -/
def site (a : Told) : Path := a.spot.path.row a.row.key.json

/-- Adds the row to a result. -/
def add (rows : List Node) (a : Told) : List Node := addAt a.row a.spot.path rows

variable {x : Spot} {rows : List Node} {told : List Told}

/-- The rows that a client adds to a result are those that it was told of, if they belong in lists that were there. -/
theorem entries_addAll (hx : x.path = Path.root) (hd : Entry.Distinct (x.entries rows ++ told.flatMap entries))
    (hbelow : ∀ a ∈ told, a.spot ∈ x.below rows) :
    (x.entries (told.foldl add rows)).Perm (x.entries rows ++ told.flatMap entries) := by
  induction told generalizing rows with
  | nil => exact List.Perm.of_eq (List.append_nil _).symm
  | cons a told ih =>
    obtain ⟨ha, hrest⟩ := List.forall_mem_cons.mp hbelow
    have hadded : (x.entries (add rows a)).Perm (x.entries rows ++ a.entries) :=
      Spot.entries_addAt a.row a.spot.path (hd.of_sublist (List.sublist_append_left _ _)) ha (by rw [hx]; rfl)
    rw [List.flatMap_cons, ← List.append_assoc] at hd ⊢
    rw [List.foldl_cons]
    refine (ih (hd.of_perm (hadded.append_right _)) fun b hb => ?_).trans (hadded.append_right _)
    -- the lists that there were are there still
    rcases List.mem_cons.mp (hrest b hb) with heq | hmem
    · exact heq ▸ List.mem_cons_self
    · obtain ⟨e, he, hspot⟩ := List.mem_flatMap.mp hmem
      exact List.mem_cons_of_mem _ (List.mem_flatMap.mpr ⟨e, hadded.mem_iff.mpr (List.mem_append_left _ he), hspot⟩)

end Told

end LiveQuery
