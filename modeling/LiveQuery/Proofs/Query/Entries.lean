import LiveQuery.Proofs.Query.Result
import Mathlib.Data.List.Flatten

/-! # Results row by row

A result as a flat list: each row with the list that it is in and what is shown of it (`nodeEntries`), apart from the
rows of its nested queries, which have entries of their own. A live query subscribes row by row
(`subscriptions_perm`), and a row that is added to a list of the result adds its own entries (`Spot.entries_addAt`).
No two rows of a result have one path, so the entries determine the tree up to the order of siblings
(`Spot.same_of_entries`).
-/
namespace LiveQuery

/-- The primary key of a row. -/
def Node.key : Node → Literal
  | .mk key _ => key

theorem Literal.json_injective : Function.Injective Literal.json := by
  intro a b h
  cases a <;> cases b <;> simp only [Literal.json, Json.num.injEq, Json.str.injEq, Json.bool.injEq, reduceCtorEq]
    at h
  · rw [Int64.toInt_inj.mp h]
  · rw [h]
  · rw [h]

/-- What is shown of a row. -/
def Node.fields : Node → List (String × Field)
  | .mk _ fields => fields

/-- What is shown under a name of a row: a value, or rows of a nested query. -/
inductive Shown
  | column (value : Literal)
  | nested (query : Query) (link : Option Filter)

/-- A list of rows in a result: the query that they are rows of, what ties them to the row around them, and where the
list is. -/
structure Spot where
  query : Query
  link : Option Filter
  path : Path

/-- A row of a result: its table, the list that it is in, its primary key and what is shown of it. -/
structure Entry where
  table : String
  place : Path
  key : Literal
  shown : List (String × Shown)

def Field.shown : Field → Shown
  | .column v => .column v
  | .nested q link _ => .nested q link

/-- The list of rows that is shown under a name of the row at a path. -/
def Shown.spot? (path : Path) (name : String) : Shown → Option Spot
  | .column _ => none
  | .nested q link => some ⟨q, link, path.selection name⟩

def Spot.subscription (u : Subscriber) (x : Spot) : Subscription := x.query.subscription u x.link x.path

namespace Entry

/-- Where the row is. -/
def path (e : Entry) : Path := e.place.row e.key.json

/-- The lists of rows in a row. -/
def spots (e : Entry) : List Spot := e.shown.filterMap fun f => f.2.spot? e.path f.1

/-- What is subscribed to for the row, apart from the rows in it. -/
def subscriptions (u : Subscriber) (e : Entry) : List Subscription :=
  .record e.table e.key.keyBytes ⟨u, none, e.path⟩ :: e.spots.map (Spot.subscription u)

end Entry

mutual

/-- The entries of a row of `table` among the rows at a path. -/
def Node.entries (table : String) (p : Path) : Node → List Entry
  | .mk key fields => ⟨table, p, key, Keyed.mapValues Field.shown fields⟩ :: fieldEntries (p.row key.json) fields

/-- The entries in what is shown under a name of the row at a path. -/
def Field.entries (p : Path) (name : String) : Field → List Entry
  | .column _ => []
  | .nested q _ rows => nodeEntries q.table (p.selection name) rows

def fieldEntries (p : Path) : List (String × Field) → List Entry
  | [] => []
  | (name, f) :: rest => f.entries p name ++ fieldEntries p rest

def nodeEntries (table : String) (p : Path) : List Node → List Entry
  | [] => []
  | n :: rest => n.entries table p ++ nodeEntries table p rest

end

namespace Spot

/-- The entries of rows in a list. -/
def entries (x : Spot) (rows : List Node) : List Entry := nodeEntries x.query.table x.path rows

/-- A list of rows and all that are in its rows. -/
def below (x : Spot) (rows : List Node) : List Spot := x :: (x.entries rows).flatMap Entry.spots

end Spot

/-! ## Lists of fields and rows -/

section Lists

variable {table : String} {p : Path} {u : Subscriber}

theorem fieldEntries_eq (fields : List (String × Field)) :
    fieldEntries p fields = fields.flatMap fun f => f.2.entries p f.1 := by
  induction fields with
  | nil => rfl
  | cons f fields ih => rw [fieldEntries, ih]; rfl

theorem nodeEntries_eq (rows : List Node) : nodeEntries table p rows = rows.flatMap (Node.entries table p) := by
  induction rows with
  | nil => rfl
  | cons n rows ih => rw [nodeEntries, ih]; rfl

theorem nodeEntries_append (rows rows' : List Node) :
    nodeEntries table p (rows ++ rows') = nodeEntries table p rows ++ nodeEntries table p rows' := by
  rw [nodeEntries_eq, nodeEntries_eq, nodeEntries_eq, List.flatMap_append]

theorem nodeEntries_perm {rows rows' : List Node} (h : rows.Perm rows') :
    (nodeEntries table p rows).Perm (nodeEntries table p rows') := by
  rw [nodeEntries_eq, nodeEntries_eq]
  exact h.flatMap_right _

/-- The subscriptions that are made when the fields of a row are evaluated are to the tables of its lists. -/
theorem opened_eq (fields : List (String × Field)) : fields.flatMap (fun f => f.2.opened u p f.1) =
    ((Keyed.mapValues Field.shown fields).filterMap fun f => f.2.spot? p f.1).map (Spot.subscription u) := by
  induction fields with
  | nil => rfl
  | cons f fields ih =>
    obtain ⟨name, f⟩ := f
    rw [List.flatMap_cons, ih]
    cases f <;> rfl

mutual

theorem node_subscriptions_perm : (n : Node) → (table : String) → (p : Path) →
    (n.subscriptions u table p).Perm ((n.entries table p).flatMap (Entry.subscriptions u))
  | .mk key fields, table, p => by
    rw [Node.subscriptions, Node.entries, List.flatMap_cons, opened_eq]
    exact ((field_subscriptions_perm fields _).append_left _).cons _

theorem field_subscriptions_perm : (fields : List (String × Field)) → (p : Path) →
    (fieldSubscriptions u p fields).Perm ((fieldEntries p fields).flatMap (Entry.subscriptions u))
  | [], _ => List.Perm.refl _
  | (_, .column _) :: rest, p => field_subscriptions_perm rest p
  | (name, .nested q _ rows) :: rest, p => by
    rw [fieldSubscriptions, Field.subscriptions, fieldEntries, Field.entries, List.flatMap_append]
    exact (subscriptions_perm rows q.table _).append (field_subscriptions_perm rest p)

/-- What is subscribed to for rows is what is subscribed to for each row of the result. -/
theorem subscriptions_perm : (rows : List Node) → (table : String) → (p : Path) →
    (nodeSubscriptions u table p rows).Perm ((nodeEntries table p rows).flatMap (Entry.subscriptions u))
  | [], _, _ => List.Perm.refl _
  | n :: rest, table, p => by
    rw [nodeSubscriptions, nodeEntries, List.flatMap_append]
    exact (node_subscriptions_perm n table p).append (subscriptions_perm rest table p)

end

/-! ## Paths -/

/-- Two beginnings of a path that are equally long are the same. -/
theorem eq_of_starts {a b p : Path} (ha : a <+: p) (hb : b <+: p) (hlength : a.length = b.length) : a = b :=
  (List.prefix_of_prefix_length_le ha hb (Nat.le_of_eq hlength)).eq_of_length hlength

mutual

theorem prefix_of_node : (n : Node) → (table : String) → (p : Path) →
    ∀ e ∈ n.entries table p, p.row n.key.json <+: e.path
  | .mk key fields, table, p, e, he => by
    rcases List.mem_cons.mp he with rfl | he
    · exact List.prefix_refl _
    · obtain ⟨f, -, hprefix⟩ := prefix_of_fields fields _ e he
      exact (List.prefix_append _ _).trans hprefix

theorem prefix_of_fields : (fields : List (String × Field)) → (p : Path) →
    ∀ e ∈ fieldEntries p fields, ∃ f ∈ fields, p.selection f.1 <+: e.path
  | [], _, e, he => absurd he List.not_mem_nil
  | (name, .column v) :: rest, p, e, he => by
    obtain ⟨f, hf, hprefix⟩ := prefix_of_fields rest p e he
    exact ⟨f, List.mem_cons_of_mem _ hf, hprefix⟩
  | (name, .nested q link rows) :: rest, p, e, he => by
    rcases List.mem_append.mp he with he | he
    · obtain ⟨n, -, hprefix⟩ := prefix_of_nodes rows q.table (p.selection name) e he
      exact ⟨_, List.mem_cons_self, (List.prefix_append _ _).trans hprefix⟩
    · obtain ⟨f, hf, hprefix⟩ := prefix_of_fields rest p e he
      exact ⟨f, List.mem_cons_of_mem _ hf, hprefix⟩

theorem prefix_of_nodes : (rows : List Node) → (table : String) → (p : Path) →
    ∀ e ∈ nodeEntries table p rows, ∃ n ∈ rows, p.row n.key.json <+: e.path
  | [], _, _, e, he => absurd he List.not_mem_nil
  | n :: rest, table, p, e, he => by
    rcases List.mem_append.mp he with he | he
    · exact ⟨n, List.mem_cons_self, prefix_of_node n table p e he⟩
    · obtain ⟨m, hm, hprefix⟩ := prefix_of_nodes rest table p e he
      exact ⟨m, List.mem_cons_of_mem _ hm, hprefix⟩

end

theorem self_mem_entries (n : Node) (table : String) (p : Path) :
    ∃ e ∈ n.entries table p, e.path = p.row n.key.json := by
  obtain ⟨key, fields⟩ := n
  exact ⟨_, List.mem_cons_self, rfl⟩

end Lists

/-! ## Adding rows -/

/-- Whether a key is shown as some data. -/
def Literal.isShown : Literal → Json → Bool
  | .int n, .num m => decide (n.toInt = m)
  | .str s, .str t => decide (s = t)
  | .bool a, .bool b => decide (a = b)
  | _, _ => false

theorem Literal.isShown_json (l l' : Literal) : l.isShown l'.json = decide (l = l') := by
  cases l <;> cases l' <;> simp [isShown, json, Int64.toInt_inj]

/-- Changes the rows of a nested query. -/
def Field.mapRows (f : List Node → List Node) : Field → Field
  | .column v => .column v
  | .nested q link rows => .nested q link (f rows)

/-- Changes the rows that are shown under a name. -/
def Node.mapAt (name : String) (f : List Node → List Node) : Node → Node
  | .mk key fields => .mk key (fields.map fun g => (g.1, if g.1 = name then g.2.mapRows f else g.2))

/-- Adds a row to the list at a path. -/
def addAt (new : Node) : Path → List Node → List Node
  | [], rows => rows ++ [new]
  | .row key :: .selection name :: p, rows =>
    rows.map fun n => if n.key.isShown key then n.mapAt name (addAt new p) else n
  | _, rows => rows

@[simp] theorem Field.shown_mapRows (f : List Node → List Node) (g : Field) : (g.mapRows f).shown = g.shown := by
  cases g <;> rfl

/-- No two rows have one path, and no row shows two things under one name. -/
structure Entry.Distinct (es : List Entry) : Prop where
  paths : (es.map Entry.path).Nodup
  names : ∀ e ∈ es, (Keyed.keys e.shown).Nodup

namespace Entry.Distinct

variable {es es' : List Entry}

theorem of_perm (h : Distinct es) (hp : es'.Perm es) : Distinct es' :=
  ⟨(hp.map Entry.path).nodup_iff.mpr h.paths, fun e he => h.names e (hp.mem_iff.mp he)⟩

theorem of_sublist (h : Distinct es) (hs : es'.Sublist es) : Distinct es' :=
  ⟨(hs.map Entry.path).nodup h.paths, fun e he => h.names e (hs.subset he)⟩

theorem ne_of_append (h : Distinct (es ++ es')) : ∀ e ∈ es, ∀ e' ∈ es', e.path ≠ e'.path := by
  have hpaths := h.paths
  rw [List.map_append] at hpaths
  exact fun e he e' he' => (List.nodup_append.mp hpaths).2.2 _ (List.mem_map_of_mem he) _ (List.mem_map_of_mem he')

end Entry.Distinct

namespace Spot

variable {x y : Spot}

/-- A list is the one at the root or it is in a row there. -/
theorem below_cases {rows : List Node} (h : y ∈ x.below rows) : y = x ∨ ∃ key fields, .mk key fields ∈ rows ∧
    ∃ name q link rows', (name, .nested q link rows') ∈ fields ∧
      y ∈ below ⟨q, link, (x.path.row key.json).selection name⟩ rows' := by
  rcases List.mem_cons.mp h with rfl | h
  · exact .inl rfl
  refine .inr ?_
  obtain ⟨e, he, hy⟩ := List.mem_flatMap.mp h
  rw [entries, nodeEntries_eq] at he
  obtain ⟨⟨key, fields⟩, hn, he⟩ := List.mem_flatMap.mp he
  refine ⟨key, fields, hn, ?_⟩
  rcases List.mem_cons.mp he with rfl | he
  · obtain ⟨⟨name, shown⟩, hf, hspot⟩ := List.mem_filterMap.mp hy
    obtain ⟨⟨name', field⟩, hfield, heq⟩ := List.mem_map.mp hf
    cases heq
    cases field with
    | column v => cases hspot
    | nested q link rows' =>
      cases hspot
      exact ⟨name', q, link, rows', hfield, List.mem_cons_self⟩
  · rw [fieldEntries_eq] at he
    obtain ⟨⟨name, field⟩, hfield, he⟩ := List.mem_flatMap.mp he
    cases field with
    | column v => cases he
    | nested q link rows' =>
      exact ⟨name, q, link, rows', hfield, List.mem_cons_of_mem _ (List.mem_flatMap.mpr ⟨e, he, hy⟩)⟩

theorem prefix_of_below {rows : List Node} (h : y ∈ x.below rows) : x.path <+: y.path := by
  rcases List.mem_cons.mp h with rfl | h
  · exact List.prefix_refl _
  · obtain ⟨e, he, hy⟩ := List.mem_flatMap.mp h
    obtain ⟨n, -, hprefix⟩ := prefix_of_nodes rows _ _ e he
    obtain ⟨f, -, hspot⟩ := List.mem_filterMap.mp hy
    cases hshown : f.2 with
    | column v => rw [hshown] at hspot; cases hspot
    | nested q link =>
      rw [hshown] at hspot
      cases hspot
      exact ((List.prefix_append _ _).trans hprefix).trans (List.prefix_append _ _)

end Spot

theorem perm_append_part {α : Type} {as bs bs' cs ds : List α} (h : bs'.Perm (bs ++ ds)) :
    (as ++ (bs' ++ cs)).Perm ((as ++ (bs ++ cs)) ++ ds) := by
  rw [List.append_assoc, List.append_assoc]
  refine ((h.append_right cs).trans ?_).append_left as
  rw [List.append_assoc]
  exact List.perm_append_comm.append_left bs

theorem key_ne_of_distinct {table : String} {p : Path} {before after : List Node} {n : Node}
    (h : Entry.Distinct (nodeEntries table p (before ++ n :: after))) : ∀ m ∈ before ++ after, m.key ≠ n.key := by
  intro m hm hkey
  have hn : Entry.Distinct (n.entries table p ++ nodeEntries table p (before ++ after)) :=
    h.of_perm (nodeEntries_perm List.perm_middle.symm)
  obtain ⟨e, he, hpath⟩ := self_mem_entries n table p
  obtain ⟨e', he', hpath'⟩ := self_mem_entries m table p
  have hmem : e' ∈ nodeEntries table p (before ++ after) := by
    rw [nodeEntries_eq]
    exact List.mem_flatMap.mpr ⟨m, hm, he'⟩
  exact hn.ne_of_append e he e' hmem (by rw [hpath, hpath', hkey])

theorem entries_mapAt {table : String} {p : Path} {key : Literal} {fields : List (String × Field)} {name : String}
    {q : Query} {link : Option Filter} {rows : List Node} {f : List Node → List Node} {more : List Entry}
    (hnames : (Keyed.keys fields).Nodup) (hf : (name, .nested q link rows) ∈ fields)
    (h : (nodeEntries q.table ((p.row key.json).selection name) (f rows)).Perm
      (nodeEntries q.table ((p.row key.json).selection name) rows ++ more)) :
    (((Node.mk key fields).mapAt name f).entries table p).Perm ((Node.mk key fields).entries table p ++ more) := by
  have hshown : Keyed.mapValues Field.shown (fields.map fun g => (g.1, if g.1 = name then g.2.mapRows f else g.2)) =
      Keyed.mapValues Field.shown fields := by
    rw [Keyed.mapValues, Keyed.mapValues, List.map_map]
    refine List.map_congr_left fun g _ => ?_
    simp only [Function.comp_apply]
    split
    next => rw [Field.shown_mapRows]
    next => rfl
  rw [Node.mapAt, Node.entries, Node.entries, hshown, List.cons_append]
  refine List.Perm.cons _ ?_
  obtain ⟨before, after, rfl⟩ := List.append_of_mem hf
  have hothers : ∀ g ∈ before ++ after, g.1 ≠ name := by
    rw [Keyed.keys, List.map_append, List.map_cons, List.nodup_middle, List.nodup_cons, ← List.map_append] at hnames
    intro g hg heq
    exact hnames.1 (List.mem_map.mpr ⟨g, hg, heq⟩)
  have hkept : ∀ gs ⊆ before ++ after, gs.map (fun g : String × Field =>
      (g.1, if g.1 = name then g.2.mapRows f else g.2)) = gs := by
    intro gs hgs
    refine (List.map_congr_left fun g hg => ?_).trans (List.map_id gs)
    rw [if_neg (hothers g (hgs hg))]
    rfl
  rw [List.map_append, List.map_cons, hkept before (List.subset_append_left _ _),
    hkept after (List.subset_append_right _ _), if_pos rfl, fieldEntries_eq, fieldEntries_eq, List.flatMap_append,
    List.flatMap_append, List.flatMap_cons, List.flatMap_cons]
  exact perm_append_part h

namespace Spot

/-- A row that is added to a list of a result adds its own entries. -/
theorem entries_addAt (new : Node) (rel : Path) {x y : Spot} {rows : List Node} (h : Entry.Distinct (x.entries rows))
    (hy : y ∈ x.below rows) (hpath : y.path = x.path ++ rel) :
    (x.entries (addAt new rel rows)).Perm (x.entries rows ++ y.entries [new]) := by
  rcases below_cases hy with rfl | ⟨key, fields, hn, name, q, link, rows', hf, hinside⟩
  · obtain rfl : rel = [] := by simpa using hpath
    rw [addAt, entries, nodeEntries_append]
    exact List.Perm.refl _
  · obtain ⟨rel', hrel⟩ := prefix_of_below hinside
    have hsplit : rel = .row key.json :: .selection name :: rel' := by
      rw [← hrel, Path.selection, Path.row, List.append_assoc, List.append_assoc] at hpath
      exact (List.append_cancel_left hpath).symm
    obtain ⟨before, after, rfl⟩ := List.append_of_mem hn
    have hothers := key_ne_of_distinct h
    have hkept : ∀ ms ⊆ before ++ after, ms.map (fun m : Node =>
        if m.key.isShown key.json then m.mapAt name (addAt new rel') else m) = ms := by
      intro ms hms
      refine (List.map_congr_left fun m hm => ?_).trans (List.map_id ms)
      have hne : m.key ≠ key := hothers m (hms hm)
      rw [Literal.isShown_json, if_neg (by simpa using hne)]
      rfl
    have hself : (Node.mk key fields).key.isShown key.json = true := by
      rw [Literal.isShown_json]
      exact decide_eq_true rfl
    rw [hsplit, addAt, List.map_append, List.map_cons, hkept before (List.subset_append_left _ _),
      hkept after (List.subset_append_right _ _), if_pos hself]
    -- the row that holds the list is the only one that changes
    have hnode : Entry.Distinct ((Node.mk key fields).entries x.query.table x.path) := by
      refine h.of_sublist ?_
      rw [entries, nodeEntries_append, nodeEntries]
      exact (List.sublist_append_left _ _).trans (List.sublist_append_right _ _)
    have hnames : (Keyed.keys fields).Nodup := by
      have hhead := hnode.names _ List.mem_cons_self
      rwa [Keyed.keys, Keyed.mapValues, List.map_map] at hhead
    have hinner : Entry.Distinct (entries ⟨q, link, (x.path.row key.json).selection name⟩ rows') := by
      refine hnode.of_sublist (List.Sublist.trans ?_ (List.sublist_cons_self _ _))
      rw [fieldEntries_eq, List.flatMap_def]
      exact List.sublist_flatten_of_mem (List.mem_map_of_mem hf)
    rw [entries, entries, nodeEntries_append, nodeEntries_append, nodeEntries, nodeEntries]
    exact perm_append_part (entries_mapAt hnames hf (entries_addAt new rel' hinner hinside hrel.symm))
termination_by rel.length
decreasing_by
  rw [hsplit, List.length_cons, List.length_cons]
  omega

end Spot

/-! ## Trees with the same rows -/

mutual

/-- The same row, with the rows in it in any order. -/
def Node.Same : Node → Node → Prop
  | .mk key fields, .mk key' fields' => key = key' ∧ fieldsSame fields fields'

def Field.Same : Field → Field → Prop
  | .column v, .column v' => v = v'
  | .nested q link rows, .nested q' link' rows' => q = q' ∧ link = link' ∧ nodesSame rows rows'
  | _, _ => False

def fieldsSame : List (String × Field) → List (String × Field) → Prop
  | [], [] => True
  | (name, f) :: rest, (name', f') :: rest' => name = name' ∧ f.Same f' ∧ fieldsSame rest rest'
  | _, _ => False

/-- The same rows, in any order. -/
def nodesSame : List Node → List Node → Prop
  | [], rows => rows = []
  | n :: rest, rows => ∃ m rest', rows.Perm (m :: rest') ∧ n.Same m ∧ nodesSame rest rest'

end

/-- What tells two parts of a list apart finds them again in any order of it. -/
theorem perm_of_split {α : Type} (P : α → Prop) {as as' bs bs' : List α} (h : (as ++ bs).Perm (as' ++ bs'))
    (has : ∀ a ∈ as, P a) (has' : ∀ a ∈ as', P a) (hbs : ∀ b ∈ bs, ¬P b) (hbs' : ∀ b ∈ bs', ¬P b) :
    as.Perm as' ∧ bs.Perm bs' := by
  classical
  have hsplit : ∀ {xs ys : List α}, (∀ x ∈ xs, P x) → (∀ y ∈ ys, ¬P y) →
      (xs ++ ys).filter (fun a => decide (P a)) = xs ∧ (xs ++ ys).filter (fun a => !decide (P a)) = ys := by
    intro xs ys hxs hys
    rw [List.filter_append, List.filter_append]
    constructor
    · rw [List.filter_eq_self.mpr fun x hx => decide_eq_true (hxs x hx),
        List.filter_eq_nil_iff.mpr fun y hy => by simpa using hys y hy, List.append_nil]
    · rw [List.filter_eq_nil_iff.mpr fun x hx => by simpa using hxs x hx,
        List.filter_eq_self.mpr fun y hy => by simpa using hys y hy, List.nil_append]
  obtain ⟨hleft, hright⟩ := hsplit has hbs
  obtain ⟨hleft', hright'⟩ := hsplit has' hbs'
  have hfirst := h.filter fun a => decide (P a)
  have hsecond := h.filter fun a => !decide (P a)
  rw [hleft, hleft'] at hfirst
  rw [hright, hright'] at hsecond
  exact ⟨hfirst, hsecond⟩

section Same

variable {table : String} {p : Path}

theorem key_eq_of_starts {k k' : Literal} {q : Path} (h : p.row k.json <+: q) (h' : p.row k'.json <+: q) : k = k' := by
  have heq := eq_of_starts h h' (by simp [Path.row])
  rw [Path.row, Path.row, List.append_right_inj] at heq
  injection heq with hsegment
  injection hsegment with hjson
  exact Literal.json_injective hjson

theorem name_eq_of_starts {name name' : String} {q : Path} (h : p.selection name <+: q)
    (h' : p.selection name' <+: q) : name = name' := by
  have heq := eq_of_starts h h' (by simp [Path.selection])
  rw [Path.selection, Path.selection, List.append_right_inj] at heq
  injection heq with hsegment
  injection hsegment

theorem eq_nil_of_entries {rows : List Node} (h : nodeEntries table p rows = []) : rows = [] := by
  cases rows with
  | nil => rfl
  | cons n rows =>
    obtain ⟨key, fields⟩ := n
    cases h

/-- The entries of the first row are those with a path in it. -/
theorem split_rows {n m : Node} {rest rest' : List Node} (hkey : m.key = n.key)
    (hd : Entry.Distinct (nodeEntries table p (n :: rest)))
    (h : (nodeEntries table p (m :: rest')).Perm (nodeEntries table p (n :: rest))) :
    (n.entries table p).Perm (m.entries table p) ∧ (nodeEntries table p rest).Perm (nodeEntries table p rest') := by
  have hothers : ∀ {n : Node} {rest : List Node}, Entry.Distinct (nodeEntries table p (n :: rest)) →
      ∀ e ∈ nodeEntries table p rest, ¬p.row n.key.json <+: e.path := by
    intro n rest hd e he hprefix
    obtain ⟨m, hm, hprefix'⟩ := prefix_of_nodes rest table p e he
    exact @key_ne_of_distinct table p [] rest n hd m hm (key_eq_of_starts hprefix' hprefix)
  refine perm_of_split (fun e => p.row n.key.json <+: e.path) h.symm (prefix_of_node n table p)
    (hkey ▸ prefix_of_node m table p) (hothers hd) ?_
  rw [← hkey]
  exact hothers (hd.of_perm h)

theorem split_fields {name : String} {f f' : Field} {rest rest' : List (String × Field)}
    (hnames : (Keyed.keys ((name, f) :: rest)).Nodup) (hnames' : (Keyed.keys ((name, f') :: rest')).Nodup)
    (h : (fieldEntries p ((name, f') :: rest')).Perm (fieldEntries p ((name, f) :: rest))) :
    (f'.entries p name).Perm (f.entries p name) ∧ (fieldEntries p rest').Perm (fieldEntries p rest) := by
  have hwithin : ∀ f : Field, ∀ e ∈ f.entries p name, p.selection name <+: e.path := by
    intro f e he
    obtain ⟨g, hg, hprefix⟩ := prefix_of_fields [(name, f)] p e (by rwa [fieldEntries, fieldEntries, List.append_nil])
    rwa [List.mem_singleton.mp hg] at hprefix
  have hothers : ∀ {f : Field} {rest : List (String × Field)}, (Keyed.keys ((name, f) :: rest)).Nodup →
      ∀ e ∈ fieldEntries p rest, ¬p.selection name <+: e.path := by
    intro f rest hnames e he hprefix
    obtain ⟨g, hg, hprefix'⟩ := prefix_of_fields rest p e he
    have hmem : g.1 ∈ Keyed.keys rest := List.mem_map_of_mem hg
    rw [name_eq_of_starts hprefix' hprefix] at hmem
    exact (List.nodup_cons.mp hnames).1 hmem
  exact perm_of_split (fun e => p.selection name <+: e.path) h (hwithin f') (hwithin f) (hothers hnames')
    (hothers hnames)

/-- A row has an entry with the path of the row only if it is the row's own. -/
theorem eq_of_path {n : Node} {e : Entry} (h : e ∈ n.entries table p) {key : Literal}
    (hpath : e.path = p.row key.json) : e = ⟨table, p, n.key, Keyed.mapValues Field.shown n.fields⟩ := by
  obtain ⟨key', fields⟩ := n
  rcases List.mem_cons.mp h with rfl | h
  · rfl
  · obtain ⟨f, -, hprefix⟩ := prefix_of_fields fields _ e h
    have hlength := hprefix.length_le
    rw [hpath] at hlength
    simp [Path.row, Path.selection] at hlength

/-- A row of one result is among the rows of another one with the same entries. -/
theorem exists_row_of_entries {n : Node} {rest rows : List Node}
    (h : (nodeEntries table p rows).Perm (nodeEntries table p (n :: rest))) :
    ∃ m rest', rows.Perm (m :: rest') ∧ m.key = n.key ∧
      Keyed.mapValues Field.shown m.fields = Keyed.mapValues Field.shown n.fields := by
  obtain ⟨e, he, hpath⟩ := self_mem_entries n table p
  have hmem : e ∈ nodeEntries table p rows := h.mem_iff.mpr (List.mem_append_left _ he)
  rw [nodeEntries_eq] at hmem
  obtain ⟨m, hm, hrow⟩ := List.mem_flatMap.mp hmem
  obtain ⟨before, after, rfl⟩ := List.append_of_mem hm
  have heq := (eq_of_path hrow hpath).symm.trans (eq_of_path he hpath)
  injection heq with _ _ hkey hshown
  exact ⟨m, before ++ after, List.perm_middle, hkey, hshown⟩

mutual

theorem fields_same : (fields fields' : List (String × Field)) → (p : Path) → (Keyed.keys fields).Nodup →
    Keyed.mapValues Field.shown fields' = Keyed.mapValues Field.shown fields → Entry.Distinct (fieldEntries p fields) →
    (fieldEntries p fields').Perm (fieldEntries p fields) → fieldsSame fields fields'
  | [], fields', p, _, hshown, _, _ => by
    rw [List.map_eq_nil_iff.mp hshown, fieldsSame]
    trivial
  | (name, .column v) :: rest, fields', p, hnames, hshown, hd, h => by
    obtain ⟨⟨name', f'⟩, rest', rfl, hhead, hrest⟩ := List.map_eq_cons_iff.mp hshown
    injection hhead with hname hfield
    cases f' with
    | nested => cases hfield
    | column v' =>
      cases hfield
      rw [fieldsSame, Field.Same]
      exact ⟨hname.symm, rfl, fields_same rest rest' p (List.nodup_cons.mp hnames).2 hrest hd h⟩
  | (name, .nested q link rows) :: rest, fields', p, hnames, hshown, hd, h => by
    obtain ⟨⟨name', f'⟩, rest', rfl, hhead, hrest⟩ := List.map_eq_cons_iff.mp hshown
    injection hhead with hname hfield
    dsimp only at hname
    subst hname
    cases f' with
    | column => cases hfield
    | nested q' link' rows' =>
      cases hfield
      have hkeys : Keyed.keys ((name', Field.nested q link rows') :: rest') =
          Keyed.keys ((name', Field.nested q link rows) :: rest) := by
        have hmap := congrArg (List.map Prod.fst) hshown
        rwa [Keyed.mapValues, Keyed.mapValues, List.map_map, List.map_map] at hmap
      obtain ⟨hfirst, hlater⟩ := split_fields hnames (hkeys ▸ hnames) h
      rw [fieldsSame, Field.Same]
      refine ⟨rfl, ⟨rfl, rfl, nodes_same rows rows' q.table _ (hd.of_sublist ?_) hfirst⟩,
        fields_same rest rest' p (List.nodup_cons.mp hnames).2 hrest (hd.of_sublist ?_) hlater⟩
      · exact List.sublist_append_left _ _
      · exact List.sublist_append_right _ _

/-- Rows of which the entries are the same in some order are the same up to their order. -/
theorem nodes_same : (rows rows' : List Node) → (table : String) → (p : Path) →
    Entry.Distinct (nodeEntries table p rows) → (nodeEntries table p rows').Perm (nodeEntries table p rows) →
    nodesSame rows rows'
  | [], rows', table, p, _, h => by
    rw [nodesSame]
    exact eq_nil_of_entries h.eq_nil
  | .mk key fields :: rest, rows', table, p, hd, h => by
    obtain ⟨⟨key', fields'⟩, rest', hperm, hkey, hshown⟩ := exists_row_of_entries h
    have hsplit := split_rows (n := .mk key fields) (m := .mk key' fields') hkey hd
      ((nodeEntries_perm hperm).symm.trans h)
    dsimp only [Node.key, Node.fields] at hkey hshown
    subst hkey
    obtain ⟨hrow, hrest⟩ := hsplit
    rw [Node.entries, Node.entries, hshown] at hrow
    have hd : Entry.Distinct (Node.entries table p (.mk key' fields) ++ nodeEntries table p rest) := hd
    have hnames : (Keyed.keys fields).Nodup := by
      have hhead := hd.names _ (List.mem_append_left _ List.mem_cons_self)
      rwa [Keyed.keys, Keyed.mapValues, List.map_map] at hhead
    rw [nodesSame]
    refine ⟨.mk key' fields', rest', hperm, ?_, nodes_same rest rest' table p (hd.of_sublist ?_) hrest.symm⟩
    · rw [Node.Same]
      refine ⟨rfl, fields_same fields fields' _ hnames hshown (hd.of_sublist ?_) (List.Perm.cons_inv hrow).symm⟩
      exact (List.sublist_cons_self _ _).trans (List.sublist_append_left _ _)
    · exact List.sublist_append_right _ _

end

end Same

end LiveQuery
