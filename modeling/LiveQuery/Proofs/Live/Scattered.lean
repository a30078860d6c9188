import LiveQuery.Proofs.Database.RowKeys
import LiveQuery.Proofs.Live.Audience
import LiveQuery.Proofs.Live.Reruns
import LiveQuery.Proofs.Query.Entries

/-! # Where listeners belong

Each subscription of a live query has its site in the result: a row, or the list of rows of a selection. The
subscriptions are `Scattered` if no site has two and each row on the way to a site has a key that is known in its
table. So are those for the rows of a result in which siblings have different keys (`nodes_scattered`), and adding
those for a row under a key that is new keeps them so (`Scattered.append_below`).
-/
namespace LiveQuery

namespace Subscription

/-- Whether the subscription is on a single row. -/
def isRecord : Subscription → Bool
  | .table .. => false
  | .record .. => true

/-- Where in the result the subscription belongs. -/
def path (x : Subscription) : Path := x.listener.path

/-- The list of rows or the row that the subscription is for. -/
def site (x : Subscription) : Bool × Path := (x.isRecord, x.path)

end Subscription

/-- Subscriptions of one live query, each at a site of its own. -/
structure Scattered (known : String → Literal → Prop) (xs : List Subscription) : Prop where
  apart : (xs.map Subscription.site).Nodup
  rows : ∀ x ∈ xs, ∀ y ∈ xs, ∀ j, x.isRecord = false → x.path ++ [.row j] <+: y.path →
    ∃ k : Literal, j = k.json ∧ known x.tableName k
  queries : ∀ x ∈ xs, x.isRecord = false →
    ∃ q, x.listener.query = some q ∧ q.table = x.tableName ∧ q.levels ≤ Plan.maxPoints

namespace Scattered

variable {known known' : String → Literal → Prop} {xs ys : List Subscription}

theorem mono (h : Scattered known xs) (hk : ∀ table k, known table k → known' table k) : Scattered known' xs := by
  refine ⟨h.apart, fun x hx y hy j hrecord hprefix => ?_, h.queries⟩
  obtain ⟨k, hj, hknown⟩ := h.rows x hx y hy j hrecord hprefix
  exact ⟨k, hj, hk _ _ hknown⟩

theorem of_perm (h : Scattered known xs) (hp : ys.Perm xs) : Scattered known ys := by
  refine ⟨(hp.map Subscription.site).nodup_iff.mpr h.apart, fun x hx y hy => ?_, fun x hx => ?_⟩
  · exact h.rows x (hp.mem_iff.mp hx) y (hp.mem_iff.mp hy)
  · exact h.queries x (hp.mem_iff.mp hx)

theorem nil : Scattered known [] := ⟨List.nodup_nil, by simp, by simp⟩

/-- A path is no proper part of itself. -/
theorem not_prefix_self {p : Path} {seg : Segment} : ¬p ++ [seg] <+: p := by
  intro h
  have hlength := h.length_le
  rw [List.length_append, List.length_singleton] at hlength
  omega

theorem singleton {x : Subscription} {q : Query} (hq : x.listener.query = some q) (htable : q.table = x.tableName)
    (hlevels : q.levels ≤ Plan.maxPoints) : Scattered known [x] := by
  refine ⟨List.nodup_singleton _, fun y hy z hz j _ hprefix => ?_, fun y hy _ => ?_⟩
  · rw [List.mem_singleton.mp hy, List.mem_singleton.mp hz] at hprefix
    exact absurd hprefix not_prefix_self
  · rw [List.mem_singleton.mp hy]
    exact ⟨q, hq, htable, hlevels⟩

/-- Subscriptions in two parts of a result that have nothing in common. -/
theorem append_apart (hxs : Scattered known xs) (hys : Scattered known ys)
    (h : ∀ x ∈ xs, ∀ y ∈ ys, ∃ a b, a <+: x.path ∧ b <+: y.path ∧ a.length = b.length ∧ a ≠ b) :
    Scattered known (xs ++ ys) := by
  refine ⟨?_, fun x hx y hy j hrecord hprefix => ?_, fun x hx => ?_⟩
  · rw [List.map_append]
    refine List.nodup_append.mpr ⟨hxs.apart, hys.apart, fun p hp q hq heq => ?_⟩
    obtain ⟨x, hx, rfl⟩ := List.mem_map.mp hp
    obtain ⟨y, hy, rfl⟩ := List.mem_map.mp hq
    obtain ⟨a, b, ha, hb, hlength, hne⟩ := h x hx y hy
    have hpath : x.path = y.path := (Prod.mk.inj heq).2
    exact hne (eq_of_starts (hpath ▸ ha) hb hlength)
  · have hlonger : x.path <+: y.path := (List.prefix_append _ _).trans hprefix
    rcases List.mem_append.mp hx with hx | hx <;> rcases List.mem_append.mp hy with hy | hy
    · exact hxs.rows x hx y hy j hrecord hprefix
    · obtain ⟨a, b, ha, hb, hlength, hne⟩ := h x hx y hy
      exact absurd (eq_of_starts (ha.trans hlonger) hb hlength) hne
    · obtain ⟨a, b, ha, hb, hlength, hne⟩ := h y hy x hx
      exact absurd (eq_of_starts ha (hb.trans hlonger) hlength) hne
    · exact hys.rows x hx y hy j hrecord hprefix
  · rcases List.mem_append.mp hx with hx | hx
    · exact hxs.queries x hx
    · exact hys.queries x hx

/-- Subscriptions for rows whose keys are new in the list of rows that `root` is for. -/
theorem append_below (hxs : Scattered known xs) (hys : Scattered known ys) {root : Subscription} (hroot : root ∈ xs)
    (htable : root.isRecord = false)
    (h : ∀ y ∈ ys, ∃ k : Literal, known root.tableName k ∧ root.path ++ [.row k.json] <+: y.path ∧
      ∀ x ∈ xs, ¬root.path ++ [.row k.json] <+: x.path) : Scattered known (xs ++ ys) := by
  refine ⟨?_, fun x hx y hy j hrecord hprefix => ?_, fun x hx => ?_⟩
  · rw [List.map_append]
    refine List.nodup_append.mpr ⟨hxs.apart, hys.apart, fun p hp q hq heq => ?_⟩
    obtain ⟨x, hx, rfl⟩ := List.mem_map.mp hp
    obtain ⟨y, hy, rfl⟩ := List.mem_map.mp hq
    obtain ⟨k, -, hbelow, hnew⟩ := h y hy
    have hpath : x.path = y.path := (Prod.mk.inj heq).2
    exact hnew x hx (hpath ▸ hbelow)
  · rcases List.mem_append.mp hx with hx | hx <;> rcases List.mem_append.mp hy with hy | hy
    · exact hxs.rows x hx y hy j hrecord hprefix
    · obtain ⟨k, hknown, hbelow, hnew⟩ := h y hy
      rcases List.prefix_or_prefix_of_prefix hprefix hbelow with hle | hle
      · rcases List.prefix_concat_iff.mp hle with heq | hle
        · -- the row is the new one itself
          obtain ⟨hpath, hseg⟩ := List.append_inj' heq rfl
          have hsame : x = root := by
            refine List.inj_on_of_nodup_map hxs.apart hx hroot ?_
            rw [Subscription.site, Subscription.site, hrecord, htable, hpath]
          cases hseg
          exact ⟨k, rfl, hsame ▸ hknown⟩
        · exact hxs.rows x hx root hroot j hrecord hle
      · rcases List.prefix_concat_iff.mp hle with heq | hle
        · obtain ⟨hpath, hseg⟩ := List.append_inj' heq rfl
          have hsame : x = root := by
            refine List.inj_on_of_nodup_map hxs.apart hx hroot ?_
            rw [Subscription.site, Subscription.site, hrecord, htable, hpath]
          cases hseg
          exact ⟨k, rfl, hsame ▸ hknown⟩
        · exact absurd hle (hnew x hx)
    · obtain ⟨k, -, hbelow, hnew⟩ := h x hx
      exact absurd (hbelow.trans ((List.prefix_append _ _).trans hprefix)) (hnew y hy)
    · exact hys.rows x hx y hy j hrecord hprefix
  · rcases List.mem_append.mp hx with hx | hx
    · exact hxs.queries x hx
    · exact hys.queries x hx

/-- The subscription to a row, before those for what is in it. -/
theorem cons_record {x : Subscription} (hxs : Scattered known xs) (hrecord : x.isRecord = true)
    (h : ∀ y ∈ xs, ∃ seg, x.path ++ [seg] <+: y.path) : Scattered known (x :: xs) := by
  have hlonger : ∀ y ∈ xs, x.path.length < y.path.length := by
    intro y hy
    obtain ⟨seg, hseg⟩ := h y hy
    have hlength := hseg.length_le
    rw [List.length_append, List.length_singleton] at hlength
    omega
  refine ⟨List.nodup_cons.mpr ⟨fun hmem => ?_, hxs.apart⟩, fun y hy z hz j hy' hprefix => ?_, fun y hy hy' => ?_⟩
  · obtain ⟨y, hy, heq⟩ := List.mem_map.mp hmem
    have hpath : y.path = x.path := (Prod.mk.inj heq).2
    exact absurd (hlonger y hy) (by rw [hpath]; exact Nat.lt_irrefl _)
  · rcases List.mem_cons.mp hy with rfl | hy
    · rw [hrecord] at hy'
      cases hy'
    · rcases List.mem_cons.mp hz with heq | hz
      · have hlong := hlonger y hy
        have hshort := hprefix.length_le
        rw [heq, List.length_append, List.length_singleton] at hshort
        omega
      · exact hxs.rows y hy z hz j hy' hprefix
  · rcases List.mem_cons.mp hy with rfl | hy
    · rw [hrecord] at hy'
      cases hy'
    · exact hxs.queries y hy hy'

end Scattered

/-! ## The rows of a result -/

mutual

/-- The keys of the rows are known in their tables, siblings have different ones, and no nested query has more
levels than can be numbered. -/
def Node.Sound (known : String → Literal → Prop) (table : String) : Node → Prop
  | .mk key fields => known table key ∧ (fields.map Prod.fst).Nodup ∧ fieldsSound known fields

def Field.Sound (known : String → Literal → Prop) : Field → Prop
  | .column _ => True
  | .nested q _ rows => q.levels ≤ Plan.maxPoints ∧ (rows.map Node.key).Nodup ∧ nodesSound known q.table rows

def fieldsSound (known : String → Literal → Prop) : List (String × Field) → Prop
  | [] => True
  | (_, f) :: rest => f.Sound known ∧ fieldsSound known rest

def nodesSound (known : String → Literal → Prop) (table : String) : List Node → Prop
  | [] => True
  | n :: rest => n.Sound known table ∧ nodesSound known table rest

end

section Trees

variable {known : String → Literal → Prop} {u : Subscriber}

theorem fieldsSound_iff {fields : List (String × Field)} :
    fieldsSound known fields ↔ ∀ f ∈ fields, f.2.Sound known := by
  induction fields with
  | nil => simp [fieldsSound]
  | cons f fields ih => rw [fieldsSound, ih, List.forall_mem_cons]

theorem nodesSound_iff {table : String} {rows : List Node} :
    nodesSound known table rows ↔ ∀ n ∈ rows, n.Sound known table := by
  induction rows with
  | nil => simp [nodesSound]
  | cons n rows ih => rw [nodesSound, ih, List.forall_mem_cons]

mutual

/-- The subscriptions for a row and what is in it. -/
theorem node_scattered : (n : Node) → (table : String) → (p : Path) → n.Sound known table →
    Scattered known (n.subscriptions u table p) ∧
      ∀ y ∈ n.subscriptions u table p, known table n.key ∧ p ++ [.row n.key.json] <+: y.path
  | .mk key fields, table, p, ⟨hknown, hnames, hfields⟩ => by
    obtain ⟨hscattered, hbelow⟩ := fields_scattered fields (p.row key.json) hnames hfields
    rw [Node.subscriptions]
    refine ⟨hscattered.cons_record rfl fun y hy => ?_, fun y hy => ⟨hknown, ?_⟩⟩
    · obtain ⟨f, -, hprefix⟩ := hbelow y hy
      exact ⟨_, hprefix⟩
    · rcases List.mem_cons.mp hy with rfl | hy
      · exact List.prefix_refl _
      · obtain ⟨f, -, hprefix⟩ := hbelow y hy
        exact (List.prefix_append _ _).trans hprefix

/-- The subscriptions for rows with different keys. -/
theorem nodes_scattered : (rows : List Node) → (table : String) → (p : Path) → (rows.map Node.key).Nodup →
    nodesSound known table rows → Scattered known (nodeSubscriptions u table p rows) ∧
      ∀ y ∈ nodeSubscriptions u table p rows, ∃ n ∈ rows, known table n.key ∧ p ++ [.row n.key.json] <+: y.path
  | [], table, p, _, _ => ⟨Scattered.nil, by simp [nodeSubscriptions]⟩
  | n :: rest, table, p, hkeys, ⟨hn, hrest⟩ => by
    obtain ⟨hkey, hkeys⟩ := List.nodup_cons.mp hkeys
    obtain ⟨hfirst, hbelow⟩ := node_scattered n table p hn
    obtain ⟨hothers, hbelow'⟩ := nodes_scattered rest table p hkeys hrest
    rw [nodeSubscriptions]
    refine ⟨hfirst.append_apart hothers fun x hx y hy => ?_, fun y hy => ?_⟩
    · obtain ⟨m, hm, -, hprefix⟩ := hbelow' y hy
      refine ⟨_, _, (hbelow x hx).2, hprefix, by simp, fun heq => ?_⟩
      obtain ⟨-, hseg⟩ := List.append_inj' heq rfl
      have hjson : n.key.json = m.key.json := by simpa using hseg
      exact hkey (Literal.json_injective hjson ▸ List.mem_map_of_mem hm)
    · rcases List.mem_append.mp hy with hy | hy
      · exact ⟨n, List.mem_cons_self, hbelow y hy⟩
      · obtain ⟨m, hm, hprefix⟩ := hbelow' y hy
        exact ⟨m, List.mem_cons_of_mem _ hm, hprefix⟩

/-- The subscriptions for a selection of a row. -/
theorem field_scattered : (f : Field) → (name : String) → (p : Path) → f.Sound known →
    Scattered known (f.opened u p name ++ f.subscriptions u p name) ∧
      ∀ y ∈ f.opened u p name ++ f.subscriptions u p name, p ++ [.selection name] <+: y.path
  | .column _, name, p, _ => ⟨Scattered.nil, by simp [Field.opened, Field.subscriptions]⟩
  | .nested q link rows, name, p, ⟨hlevels, hkeys, hrows⟩ => by
    obtain ⟨hscattered, hbelow⟩ := nodes_scattered rows q.table (p.selection name) hkeys hrows
    rw [Field.opened, Field.subscriptions]
    have hroot : Scattered known [q.subscription u link (p.selection name)] := .singleton rfl rfl hlevels
    refine ⟨hroot.append_below hscattered List.mem_cons_self rfl fun y hy => ?_, fun y hy => ?_⟩
    · obtain ⟨n, -, hknown, hprefix⟩ := hbelow y hy
      refine ⟨n.key, hknown, hprefix, fun x hx => ?_⟩
      rw [List.mem_singleton.mp hx]
      exact Scattered.not_prefix_self
    · rcases List.mem_append.mp hy with hy | hy
      · rw [List.mem_singleton.mp hy]
        exact List.prefix_refl _
      · obtain ⟨n, -, -, hprefix⟩ := hbelow y hy
        exact (List.prefix_append _ _).trans hprefix

/-- The subscriptions for the selections of a row. -/
theorem fields_scattered : (fields : List (String × Field)) → (p : Path) → (fields.map Prod.fst).Nodup →
    fieldsSound known fields →
    Scattered known ((fields.flatMap fun f => f.2.opened u p f.1) ++ fieldSubscriptions u p fields) ∧
      ∀ y ∈ (fields.flatMap fun f => f.2.opened u p f.1) ++ fieldSubscriptions u p fields,
        ∃ f ∈ fields, p ++ [.selection f.1] <+: y.path
  | [], p, _, _ => ⟨Scattered.nil, by simp [fieldSubscriptions]⟩
  | (name, f) :: rest, p, hnames, ⟨hf, hrest⟩ => by
    obtain ⟨hname, hnames⟩ := List.nodup_cons.mp hnames
    obtain ⟨hfirst, hbelow⟩ := field_scattered f name p hf
    obtain ⟨hothers, hbelow'⟩ := fields_scattered rest p hnames hrest
    have hperm : ((((name, f) :: rest).flatMap fun f => f.2.opened u p f.1) ++
        fieldSubscriptions u p ((name, f) :: rest)).Perm ((f.opened u p name ++ f.subscriptions u p name) ++
          ((rest.flatMap fun f => f.2.opened u p f.1) ++ fieldSubscriptions u p rest)) := by
      rw [List.flatMap_cons, fieldSubscriptions, List.append_assoc, List.append_assoc]
      exact (List.perm_append_comm_assoc _ _ _).append_left _
    refine ⟨(hfirst.append_apart hothers fun x hx y hy => ?_).of_perm hperm, fun y hy => ?_⟩
    · obtain ⟨g, hg, hprefix⟩ := hbelow' y hy
      refine ⟨_, _, hbelow x hx, hprefix, by simp, fun heq => ?_⟩
      obtain ⟨-, hseg⟩ := List.append_inj' heq rfl
      have hsame : name = g.1 := by simpa using hseg
      exact hname (List.mem_map.mpr ⟨g, hg, hsame.symm⟩)
    · rcases List.mem_append.mp (hperm.mem_iff.mp hy) with hy | hy
      · exact ⟨(name, f), List.mem_cons_self, hbelow y hy⟩
      · obtain ⟨g, hg, hprefix⟩ := hbelow' y hy
        exact ⟨g, List.mem_cons_of_mem _ hg, hprefix⟩

end

end Trees

/-! ## Queries -/

/-- Whether a row is stored under a key. -/
def Store.Has (store : Store) (table : String) (key : Literal) : Prop :=
  (store.get? table key.keyBytes).isSome = true

section Queries

variable {schema : Schema} {store : Store} {u : Subscriber}

mutual

/-- The rows of a query have different keys, which are stored in their tables. -/
theorem nodes_sound (hs : schema.Valid) (hstore : store.Ordered) (hkeys : RowsKeyed schema store) : (q : Query) →
    q.levels ≤ Plan.maxPoints → (link : Option Filter) → ((q.nodes schema store link).map Node.key).Nodup ∧
      nodesSound store.Has q.table (q.nodes schema store link)
  | .mk c table filters selections, hlevels, link => by
    rw [Query.nodes, Query.table_mk]
    split
    next => exact ⟨List.nodup_nil, trivial⟩
    next t ht =>
      have hname : t.name = table := (hs.find? ht).2
      have hfind : Keyed.find? schema t.name = some t := by rw [hname]; exact ht
      refine ⟨?_, nodesSound_iff.mpr fun n hn => ?_⟩
      · rw [List.map_map]
        exact (List.filter_sublist.map _).nodup (hkeys.nodup_keys hstore hfind)
      · obtain ⟨r, hr, rfl⟩ := List.mem_map.mp hn
        have hmem := List.mem_of_mem_filter hr
        obtain ⟨bytes, hbytes, -⟩ := hkeys.get?_of_mem hstore hfind hmem
        refine ⟨?_, (Keyed.ordered_ofList _).nodup, fieldsSound_iff.mpr fun f hf => ?_⟩
        · rw [Store.Has, ← hname, hbytes]
          rfl
        · rw [Query.levels] at hlevels
          exact selectedFields_sound hs hstore hkeys selections (by omega) t r f (Keyed.mem_of_mem_ofList hf)

theorem selectedFields_sound (hs : schema.Valid) (hstore : store.Ordered) (hkeys : RowsKeyed schema store) :
    (selections : List Selection) → selectionLevels selections ≤ Plan.maxPoints → (t : Table) → (r : Row) →
    ∀ f ∈ selectedFields schema store t r selections, f.2.Sound store.Has
  | [], _, t, r, f, hf => absurd hf List.not_mem_nil
  | .column name :: rest, hlevels, t, r, f, hf => by
    rcases List.mem_cons.mp hf with rfl | hf
    · trivial
    · exact selectedFields_sound hs hstore hkeys rest hlevels t r f hf
  | .nested name q :: rest, hlevels, t, r, f, hf => by
    rw [selectionLevels] at hlevels
    rcases List.mem_cons.mp hf with rfl | hf
    · have hq : q.levels ≤ Plan.maxPoints := by omega
      exact ⟨hq, nodes_sound hs hstore hkeys q hq _⟩
    · exact selectedFields_sound hs hstore hkeys rest (by omega) t r f hf

end

/-- The subscriptions of a live query are scattered. -/
theorem Query.sent_scattered (hs : schema.Valid) (hstore : store.Ordered) (hkeys : RowsKeyed schema store)
    {q : Query} (hlevels : q.levels ≤ Plan.maxPoints) (path : Path) :
    Scattered store.Has (q.sent schema store { subscriber := u, base := path }) := by
  obtain ⟨hnodup, hsound⟩ := nodes_sound hs hstore hkeys q hlevels none
  obtain ⟨hscattered, hbelow⟩ := nodes_scattered (u := u) _ q.table path hnodup hsound
  have hroot : Scattered store.Has [q.subscription u none path] := .singleton rfl rfl hlevels
  rw [Query.sent, ← nodeSubscriptions_eq]
  refine hroot.append_below hscattered List.mem_cons_self rfl fun y hy => ?_
  obtain ⟨n, -, hknown, hprefix⟩ := hbelow y hy
  refine ⟨n.key, hknown, hprefix, fun x hx => ?_⟩
  rw [List.mem_singleton.mp hx]
  exact Scattered.not_prefix_self

/-- Rows with one key and different keys are one at most. -/
theorem length_le_one {rows : List Node} {k : Literal} (hnodup : (rows.map Node.key).Nodup)
    (hkey : ∀ n ∈ rows, n.key = k) : rows.length ≤ 1 := by
  rcases rows with _ | ⟨n, _ | ⟨m, rest⟩⟩
  · exact Nat.zero_le 1
  · exact Nat.le_refl 1
  · have hsame : n.key = m.key := by rw [hkey n (by simp), hkey m (by simp)]
    exact absurd hnodup (by simp [hsame])

/-- The rows of a query that must hold a value as their primary key have that key. -/
theorem Query.key_of_mem_nodes {q : Query} {link : Option Filter} {t : Table} {k : Literal}
    (ht : Keyed.find? schema q.table = some t) (hk : ⟨t.primaryKey.name, k⟩ ∈ q.filters ++ link.toList) {n : Node}
    (hn : n ∈ q.nodes schema store link) : n.key = k := by
  obtain ⟨c, table, filters, selections⟩ := q
  rw [Query.nodes, show Keyed.find? schema table = some t from ht] at hn
  obtain ⟨r, hr, rfl⟩ := List.mem_map.mp hn
  exact of_decide_eq_true (List.all_eq_true.mp (List.mem_filter.mp hr).2 _ hk)

/-- The rows of a query that is run again for a key have that key, so there is one at most. -/
theorem Query.renewed_sound (hs : schema.Valid) (hstore : store.Ordered) (hkeys : RowsKeyed schema store) {q : Query}
    (hlevels : q.levels ≤ Plan.maxPoints) {key : Literal} {rows : List Node}
    (h : q.renewed schema store key = .ok rows) : rows.length ≤ 1 ∧ (∀ n ∈ rows, n.key = key) ∧
      (rows.map Node.key).Nodup ∧ nodesSound store.Has q.table rows := by
  obtain ⟨t, -, ht, -, rfl⟩ := Query.renewed_ok h
  obtain ⟨hnodup, hsound⟩ := nodes_sound hs hstore hkeys (q.restrict t.primaryKey.name key)
    (by rwa [Query.levels_restrict]) none
  have hkey : ∀ n ∈ (q.restrict t.primaryKey.name key).nodes schema store none, n.key = key :=
    fun n hn => Query.key_of_mem_nodes (q := q.restrict t.primaryKey.name key) ht (by simp [Query.restrict]) hn
  exact ⟨length_le_one hnodup hkey, hkey, hnodup, hsound⟩

/-- The subscriptions that a listener sends for a key are scattered, and all of them belong below the row under the
key. -/
theorem Listener.sent_scattered (hs : schema.Valid) (hstore : store.Ordered) (hkeys : RowsKeyed schema store)
    {l : Listener} {q : Query} (hq : l.query = some q) (hlevels : q.levels ≤ Plan.maxPoints) (key : Literal) :
    Scattered store.Has (l.sent schema store key) ∧
      ∀ y ∈ l.sent schema store key, store.Has q.table key ∧ l.path ++ [.row key.json] <+: y.path := by
  simp only [Listener.sent, hq]
  cases hrenewed : q.renewed schema store key with
  | error f => exact ⟨Scattered.nil, by simp⟩
  | ok rows =>
    obtain ⟨-, hkey, hnodup, hsound⟩ := Query.renewed_sound hs hstore hkeys hlevels hrenewed
    obtain ⟨hscattered, hbelow⟩ := nodes_scattered (u := l.subscriber) rows q.table l.path hnodup hsound
    rw [nodeSubscriptions_eq] at hscattered hbelow
    refine ⟨hscattered, fun y hy => ?_⟩
    obtain ⟨n, hn, hknown, hprefix⟩ := hbelow y hy
    rw [hkey n hn] at hknown hprefix
    exact ⟨hknown, hprefix⟩

end Queries

namespace Scattered

variable {known : String → Literal → Prop} {xs zs : List Subscription}
  {sent : Subscription → List Subscription}

theorem apart_of_subperm (h : Scattered known xs) (hzs : zs.Subperm xs) : (zs.map Subscription.site).Nodup := by
  obtain ⟨ys, hperm, hsub⟩ := hzs
  exact (hperm.map Subscription.site).nodup_iff.mp ((hsub.map Subscription.site).nodup h.apart)

/-- Two different lists of rows have no row in common. -/
theorem path_eq_of_row {x z y : Subscription} {j : Json} (hz : z.path ++ [.row j] <+: y.path)
    (hx : x.path ++ [.row j] <+: y.path) (hxz : ¬x.path ++ [.row j] <+: z.path)
    (hzx : ¬z.path ++ [.row j] <+: x.path) : x.path = z.path := by
  rcases List.prefix_or_prefix_of_prefix hx hz with hle | hle
  · rcases List.prefix_concat_iff.mp hle with heq | hle
    · exact (List.append_inj' heq rfl).1
    · exact absurd hle hxz
  · rcases List.prefix_concat_iff.mp hle with heq | hle
    · exact (List.append_inj' heq rfl).1.symm
    · exact absurd hle hzx

/-- Subscriptions for a row that becomes a new row in several lists at once. -/
theorem append_reruns (hxs : Scattered known xs) (key : Literal) (hzs : zs.Subperm xs)
    (htable : ∀ z ∈ zs, z.isRecord = false)
    (hsent : ∀ z ∈ zs, Scattered known (sent z) ∧
      ∀ y ∈ sent z, known z.tableName key ∧ z.path ++ [.row key.json] <+: y.path)
    (hnew : ∀ z ∈ zs, ∀ x ∈ xs, ¬z.path ++ [.row key.json] <+: x.path) :
    Scattered known (xs ++ zs.flatMap sent) := by
  induction zs generalizing xs with
  | nil => rwa [List.flatMap_nil, List.append_nil]
  | cons z zs ih =>
    obtain ⟨hz, hzs'⟩ := List.forall_mem_cons.mp hsent
    have hmem : ∀ z' ∈ z :: zs, z' ∈ xs := fun z' h => hzs.subset h
    have hsites : ((z :: zs).map Subscription.site).Nodup := hxs.apart_of_subperm hzs
    have hfirst : Scattered known (xs ++ sent z) := by
      refine hxs.append_below hz.1 (hmem z List.mem_cons_self) (htable z List.mem_cons_self) fun y hy => ?_
      obtain ⟨hknown, hprefix⟩ := hz.2 y hy
      exact ⟨key, hknown, hprefix, hnew z List.mem_cons_self⟩
    rw [List.flatMap_cons, ← List.append_assoc]
    refine ih hfirst (((List.sublist_cons_self z zs).subperm.trans hzs).trans
      (List.sublist_append_left _ _).subperm) (fun z' h => htable z' (List.mem_cons_of_mem _ h)) hzs' ?_
    intro z' hz' y hy hprefix
    rcases List.mem_append.mp hy with hy | hy
    · exact hnew z' (List.mem_cons_of_mem _ hz') y hy hprefix
    · have hpath := path_eq_of_row (hz.2 y hy).2 hprefix
        (hnew z' (List.mem_cons_of_mem _ hz') z (hmem z List.mem_cons_self))
        (hnew z List.mem_cons_self z' (hmem z' (List.mem_cons_of_mem _ hz')))
      refine (List.nodup_cons.mp hsites).1 (List.mem_map.mpr ⟨z', hz', ?_⟩)
      rw [Subscription.site, Subscription.site, hpath, htable z List.mem_cons_self,
        htable z' (List.mem_cons_of_mem _ hz')]

end Scattered

end LiveQuery
