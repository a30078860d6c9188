import LiveQuery.Proofs.Live.Scattered
import LiveQuery.Proofs.Plan.Planned

/-! # Rows that are visible

Not all rows that are read for a query are shown: of those of a query for one row it is the first one. The rows of a
nested query for one row have the primary key that the row around them refers to, so there is one at most
(`Query.nodes_single`), and in a row that is shown whatever was read for it is visible (`Query.path_visible`). The rows
that are left out are rows of the outermost query.
-/
namespace LiveQuery

mutual

/-- The paths of a row in the list at `p` and of the rows that are shown in it. -/
def Node.visible (p : Path) : Node → List Path
  | .mk key fields => p.row key.json :: fieldsVisible (p.row key.json) fields

/-- The paths of the rows that are shown under a name of the row at `p`. -/
def Field.visible (p : Path) (name : String) : Field → List Path
  | .column _ => []
  | .nested q _ rows => nodesVisible q.cardinality (p.selection name) rows

def fieldsVisible (p : Path) : List (String × Field) → List Path
  | [] => []
  | (name, f) :: rest => f.visible p name ++ fieldsVisible p rest

/-- The paths that are shown of the rows in the list at `p`: of many rows all, of rows for one row the first one. -/
def nodesVisible (c : Cardinality) (p : Path) : List Node → List Path
  | [] => []
  | n :: rest => n.visible p ++ if c = .many then nodesVisible c p rest else []

end

mutual

/-- A nested query for one row has one row at most. -/
def Node.Single : Node → Prop
  | .mk _ fields => fieldsSingle fields

def Field.Single : Field → Prop
  | .column _ => True
  | .nested q _ rows => (q.cardinality = .one → rows.length ≤ 1) ∧ nodesSingle rows

def fieldsSingle : List (String × Field) → Prop
  | [] => True
  | (_, f) :: rest => f.Single ∧ fieldsSingle rest

def nodesSingle : List Node → Prop
  | [] => True
  | n :: rest => n.Single ∧ nodesSingle rest

end

/-! ## What is visible of a tree -/

theorem fieldsSingle_iff {fields : List (String × Field)} : fieldsSingle fields ↔ ∀ f ∈ fields, f.2.Single := by
  induction fields with
  | nil => simp [fieldsSingle]
  | cons f fields ih => rw [fieldsSingle, ih, List.forall_mem_cons]

theorem nodesSingle_iff {rows : List Node} : nodesSingle rows ↔ ∀ n ∈ rows, n.Single := by
  induction rows with
  | nil => simp [nodesSingle]
  | cons n rows ih => rw [nodesSingle, ih, List.forall_mem_cons]

theorem nodesVisible_many (p : Path) (rows : List Node) :
    nodesVisible .many p rows = rows.flatMap (Node.visible p) := by
  induction rows with
  | nil => rfl
  | cons n rows ih => rw [nodesVisible, if_pos rfl, ih, List.flatMap_cons]

mutual

/-- If no nested query for one row has more of them, all that is in a row is visible. -/
theorem node_visible : (n : Node) → (table : String) → (p : Path) → n.Single →
    ∀ e ∈ n.entries table p, e.path ∈ n.visible p
  | .mk key fields, table, p, hn, e, he => by
    rw [Node.visible]
    rcases List.mem_cons.mp he with rfl | he
    · exact List.mem_cons_self
    · exact List.mem_cons_of_mem _ (fields_visible fields _ hn e he)

theorem fields_visible : (fields : List (String × Field)) → (p : Path) → fieldsSingle fields →
    ∀ e ∈ fieldEntries p fields, e.path ∈ fieldsVisible p fields
  | [], _, _, e, he => absurd he List.not_mem_nil
  | (_, .column _) :: rest, p, ⟨_, hrest⟩, e, he => fields_visible rest p hrest e he
  | (name, .nested q link rows) :: rest, p, ⟨⟨hone, hrows⟩, hrest⟩, e, he => by
    rw [fieldsVisible]
    rcases List.mem_append.mp he with he | he
    · exact List.mem_append_left _ (nodes_visible rows q.cardinality q.table (p.selection name) hone hrows e he)
    · exact List.mem_append_right _ (fields_visible rest p hrest e he)

theorem nodes_visible : (rows : List Node) → (c : Cardinality) → (table : String) → (p : Path) →
    (c = .one → rows.length ≤ 1) → nodesSingle rows → ∀ e ∈ nodeEntries table p rows, e.path ∈ nodesVisible c p rows
  | [], _, _, _, _, _, e, he => absurd he List.not_mem_nil
  | n :: rest, c, table, p, hone, ⟨hn, hrest⟩, e, he => by
    rw [nodesVisible]
    rcases List.mem_append.mp he with he | he
    · exact List.mem_append_left _ (node_visible n table p hn e he)
    · refine List.mem_append_right _ ?_
      cases c with
      | many => exact nodes_visible rest .many table p (fun h => by cases h) hrest e he
      | one =>
        have hlength := hone rfl
        rw [List.length_cons] at hlength
        rw [List.length_eq_zero_iff.mp (Nat.le_zero.mp (Nat.le_of_succ_le_succ hlength))] at he
        cases he

end

/-- What is subscribed to for a row alone is at a place in it. -/
theorem entry_of_record {u : Subscriber} {n : Node} {table : String} {p : Path} {x : Subscription}
    (hx : x ∈ n.subscriptions u table p) (hrecord : x.isRecord = true) : ∃ e ∈ n.entries table p, x.path = e.path := by
  obtain ⟨e, he, hx⟩ := List.mem_flatMap.mp ((node_subscriptions_perm n table p).mem_iff.mp hx)
  rcases List.mem_cons.mp hx with rfl | hx
  · exact ⟨e, he, rfl⟩
  · obtain ⟨y, -, rfl⟩ := List.mem_map.mp hx
    cases hrecord

/-! ## What is visible of a result -/

section Queries

variable {schema : Schema} {store : Store}

/-- The row that a row of `t` refers to is the one with that key. -/
theorem length_nodes_of_one (hs : schema.Valid) (hstore : store.Ordered) (hkeys : RowsKeyed schema store) {q : Query}
    (hlevels : q.levels ≤ Plan.maxPoints) (hone : q.cardinality = .one) {t inner : Table}
    (hinner : Keyed.find? schema q.table = some inner) (hrelates : t.Relates inner q.cardinality) (r : Row) :
    (q.nodes schema store (q.link schema t r)).length ≤ 1 := by
  rw [hone] at hrelates
  obtain ⟨c, hc, -⟩ := hrelates
  have hlink : q.link schema t r = some ⟨inner.primaryKey.name, r.get c.name⟩ := by
    simp only [Query.link, hinner, hone, Option.bind_eq_bind, Option.bind_some, hc]
    rfl
  refine length_le_one (nodes_sound hs hstore hkeys q hlevels _).1 (k := r.get c.name) fun n hn => ?_
  refine Query.key_of_mem_nodes hinner ?_ hn
  rw [hlink]
  exact List.mem_append_right _ (List.mem_singleton_self _)

mutual

/-- What is read for a query has one row at most where one is asked for, below the outermost level. -/
theorem Query.nodes_single (hs : schema.Valid) (hstore : store.Ordered) (hkeys : RowsKeyed schema store) : (q : Query) →
    q.levels ≤ Plan.maxPoints → q.Planned schema → (link : Option Filter) → nodesSingle (q.nodes schema store link)
  | .mk c table filters selections, hlevels, ⟨t, ht, _, _, hselections⟩, link => by
    rw [Query.nodes, ht]
    refine nodesSingle_iff.mpr fun n hn => ?_
    obtain ⟨r, -, rfl⟩ := List.mem_map.mp hn
    rw [Query.levels] at hlevels
    exact fieldsSingle_iff.mpr fun f hf =>
      selectedFields_single hs hstore hkeys selections (by omega) t hselections r f (Keyed.mem_of_mem_ofList hf)

theorem selectedFields_single (hs : schema.Valid) (hstore : store.Ordered) (hkeys : RowsKeyed schema store) :
    (selections : List Selection) → selectionLevels selections ≤ Plan.maxPoints → (t : Table) →
    selectionsPlanned schema t selections → (r : Row) → ∀ f ∈ selectedFields schema store t r selections, f.2.Single
  | [], _, _, _, _, f, hf => absurd hf List.not_mem_nil
  | .column name :: rest, hlevels, t, ⟨_, hrest⟩, r, f, hf => by
    rcases List.mem_cons.mp hf with rfl | hf
    · trivial
    · exact selectedFields_single hs hstore hkeys rest hlevels t hrest r f hf
  | .nested name q :: rest, hlevels, t, ⟨⟨inner, hinner, hrelates⟩, hq, hrest⟩, r, f, hf => by
    rw [selectionLevels] at hlevels
    have hlevel : q.levels ≤ Plan.maxPoints := by omega
    rcases List.mem_cons.mp hf with rfl | hf
    · exact ⟨fun hone => length_nodes_of_one hs hstore hkeys hlevel hone hinner hrelates r,
        q.nodes_single hs hstore hkeys hlevel hq _⟩
    · exact selectedFields_single hs hstore hkeys rest (by omega) t hrest r f hf

end

/-- Who listens at a row of a result listens at one that is visible in the row of the outermost query. -/
theorem Query.path_visible (hs : schema.Valid) (hstore : store.Ordered) (hkeys : RowsKeyed schema store) {q : Query}
    (hlevels : q.levels ≤ Plan.maxPoints) (hq : q.Planned schema) {link : Option Filter} {n : Node}
    (hn : n ∈ q.nodes schema store link) {u : Subscriber} {p : Path} {x : Subscription}
    (hx : x ∈ n.subscriptions u q.table p) (hrecord : x.isRecord = true) : x.path ∈ n.visible p := by
  obtain ⟨e, he, hpath⟩ := entry_of_record hx hrecord
  rw [hpath]
  exact node_visible n q.table p (nodesSingle_iff.mp (q.nodes_single hs hstore hkeys hlevels hq link) n hn) e he

end Queries

end LiveQuery
