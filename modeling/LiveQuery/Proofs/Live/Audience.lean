import LiveQuery.Live.Engine
import LiveQuery.Proofs.Keyed

/-! # Who listens

The listeners of a table as a list of subscriptions (`Audience.subscriptions`), in an order that does not
matter. Subscribing adds one (`Audience.subscribe_perm`), and a removal takes away those of the listeners that
leave and nothing else (`Audience.subscriptions_remove`). A write calls for the listeners whose subscriptions
await it (`Audience.forNewRow_of_keys`, `Audience.forRow_eq`).

An audience is `Ordered` if its lists are found by increasing keys; every post keeps that.
-/
namespace LiveQuery

namespace Subscription

/-- Who is told. -/
def listener : Subscription → Listener
  | .table _ _ l | .record _ _ l => l

/-- The subscription on the table `name`. -/
def on (name : String) : Subscription → Subscription
  | .table _ filter l => .table name filter l
  | .record _ key l => .record name key l

@[simp] theorem listener_on (name : String) (s : Subscription) : (s.on name).listener = s.listener := by
  cases s <;> rfl

@[simp] theorem tableName_on (name : String) (s : Subscription) : (s.on name).tableName = name := by
  cases s <;> rfl

theorem on_tableName (s : Subscription) : s.on s.tableName = s := by
  cases s <;> rfl

end Subscription

namespace Listeners

theorem add_perm (ls : List Listener) (l : Listener) : (add ls l).Perm (l :: ls) := by
  induction ls with
  | nil => exact List.Perm.refl _
  | cons k ls ih =>
    rw [add]
    split
    next => exact List.Perm.refl _
    next => exact (ih.cons k).trans (List.Perm.swap _ _ _)

/-- What keyed lists of listeners give, each listener with its key. -/
def spread {κ : Type} (f : κ → Listener → Subscription) (lists : List (κ × List Listener)) :
    List Subscription :=
  lists.flatMap fun e => e.2.map (f e.1)

variable {κ : Type} [DecidableEq κ] (f : κ → Listener → Subscription)

theorem spread_perm_erase (lists : List (κ × List Listener)) (k : κ) : (spread f lists).Perm
    (((Keyed.find? lists k).getD []).map (f k) ++ spread f (Keyed.erase lists k)) := by
  refine (Keyed.flatMap_perm_erase lists k _).trans (List.Perm.of_eq ?_)
  cases Keyed.find? lists k <;> rfl

/-- Adding a listener to the list of a key. -/
theorem spread_alter_perm [LT κ] [DecidableLT κ] [Std.Irrefl (fun a b : κ => a < b)]
    [Trans (fun a b : κ => a < b) (fun a b : κ => a < b) (fun a b : κ => a < b)]
    [Std.Trichotomous (fun a b : κ => a < b)] {lists : List (κ × List Listener)}
    (h : Keyed.Ordered lists) (k : κ) (l : Listener) :
    (spread f (Keyed.alter lists k fun ls => add (ls.getD []) l)).Perm (f k l :: spread f lists) := by
  have hinsert := (h.insert_perm k (add ((Keyed.find? lists k).getD []) l)).flatMap_right
    fun e => e.2.map (f e.1)
  refine hinsert.trans ?_
  rw [List.flatMap_cons]
  refine (((add_perm _ l).map (f k)).append_right _).trans ?_
  exact (spread_perm_erase f lists k).symm.cons _

/-- What a removal leaves of keyed lists of listeners. -/
theorem spread_sweepLists (f : Bytes → Listener → Subscription) (hf : ∀ k l, (f k l).listener = l)
    (lists : List (Bytes × List Listener)) (d : Leaving) : spread f (Audience.sweepLists lists d) =
      (spread f lists).filter fun s => !d.covers s.listener := by
  induction lists with
  | nil => rfl
  | cons e lists ih =>
    have hhead : (without e.2 d).map (f e.1) =
        (e.2.map (f e.1)).filter fun s => !d.covers s.listener := by
      rw [without, List.filter_map]
      exact congrArg (List.map (f e.1)) (List.filter_congr fun l _ => by simp [hf])
    have hsweep : spread f (Audience.sweepLists (e :: lists) d) =
        (without e.2 d).map (f e.1) ++ spread f (Audience.sweepLists lists d) := by
      simp only [Audience.sweepLists, Keyed.mapValues, List.map_cons, List.filter_cons]
      split
      next => rfl
      next hempty =>
        have hnil : without e.2 d = [] := by simpa using hempty
        rw [hnil]
        rfl
    rw [hsweep, hhead, ih, spread, spread, List.flatMap_cons, List.filter_append]

end Listeners

namespace Audience

open Listeners (spread)

/-- The listeners on a column by its values, as subscriptions to the table `name`. -/
def columnSubscriptions (name : String) (c : String × List (Bytes × List Listener)) : List Subscription :=
  spread (fun value => .table name (some (c.1, value))) c.2

/-- The listeners as the subscriptions to the table `name` that they came from. -/
def subscriptions (name : String) (t : Audience) : List Subscription :=
  t.whole.map (.table name none) ++ t.byValue.flatMap (columnSubscriptions name) ++
    spread (.record name) t.byRow

/-- The lists are found by increasing keys. -/
structure Ordered (t : Audience) : Prop where
  columns : Keyed.Ordered t.byValue
  values : ∀ c ∈ t.byValue, Keyed.Ordered c.2
  rows : Keyed.Ordered t.byRow

variable {t : Audience}

@[simp] theorem subscriptions_empty (name : String) : subscriptions name {} = [] := rfl

/-- The subscriptions are to the table that is named. -/
theorem tableName_of_mem {name : String} {x : Subscription} (h : x ∈ t.subscriptions name) : x.tableName = name := by
  rcases List.mem_append.mp h with h | h
  · rcases List.mem_append.mp h with h | h
    · obtain ⟨l, -, rfl⟩ := List.mem_map.mp h
      rfl
    · obtain ⟨c, -, h⟩ := List.mem_flatMap.mp h
      obtain ⟨e, -, h⟩ := List.mem_flatMap.mp h
      obtain ⟨l, -, rfl⟩ := List.mem_map.mp h
      rfl
  · obtain ⟨e, -, h⟩ := List.mem_flatMap.mp h
    obtain ⟨l, -, rfl⟩ := List.mem_map.mp h
    rfl

theorem ordered_empty : Ordered {} := ⟨List.Pairwise.nil, by simp, List.Pairwise.nil⟩

namespace Ordered

theorem valuesOf (h : t.Ordered) (column : String) : Keyed.Ordered (t.valuesOf column) := by
  unfold Audience.valuesOf
  cases hfind : Keyed.find? t.byValue column with
  | none => exact List.Pairwise.nil
  | some values => exact h.values _ (Keyed.mem_of_find? hfind)

theorem subscribe (h : t.Ordered) (s : Subscription) : (t.subscribe s).Ordered := by
  cases s with
  | table name filter l =>
    cases filter with
    | none => exact ⟨h.columns, h.values, h.rows⟩
    | some filter =>
      refine ⟨Keyed.Ordered.insert h.columns _ _, fun c hc => ?_, h.rows⟩
      rcases Keyed.mem_of_mem_insert hc with rfl | hc
      · exact Keyed.Ordered.insert (h.valuesOf filter.1) _ _
      · exact h.values c hc
  | record name key l => exact ⟨h.columns, h.values, Keyed.Ordered.insert h.rows _ _⟩

theorem sweepLists {lists : List (Bytes × List Listener)} (h : Keyed.Ordered lists) (d : Leaving) :
    Keyed.Ordered (sweepLists lists d) :=
  List.Pairwise.filter _ (Keyed.Ordered.mapValues h _)

theorem remove (h : t.Ordered) (d : Leaving) : (t.remove d).Ordered := by
  refine ⟨List.Pairwise.filter _ (Keyed.Ordered.mapValues h.columns _), fun c hc => ?_, sweepLists h.rows d⟩
  obtain ⟨c', hc', rfl⟩ := List.mem_map.mp (List.mem_of_mem_filter hc)
  exact sweepLists (h.values c' hc') d

end Ordered

/-- Subscribing adds the subscription and keeps the others. -/
theorem subscribe_perm (h : t.Ordered) (name : String) (s : Subscription) :
    ((t.subscribe s).subscriptions name).Perm (s.on name :: t.subscriptions name) := by
  cases s with
  | table _ filter l =>
    cases filter with
    | none => exact (((Listeners.add_perm t.whole l).map _).append_right _).append_right _
    | some filter =>
      have hvalues : (columnSubscriptions name (filter.1, Keyed.alter (t.valuesOf filter.1) filter.2
          fun ls => Listeners.add (ls.getD []) l)).Perm
          (.table name (some filter) l :: columnSubscriptions name (filter.1, t.valuesOf filter.1)) :=
        Listeners.spread_alter_perm _ (h.valuesOf filter.1) filter.2 l
      have hcolumns : ((t.addValue filter.1 filter.2 l).byValue.flatMap (columnSubscriptions name)).Perm
          (.table name (some filter) l :: t.byValue.flatMap (columnSubscriptions name)) := by
        refine ((h.columns.insert_perm filter.1 _).flatMap_right _).trans ?_
        refine (hvalues.append_right _).trans (List.Perm.cons _ ?_)
        refine List.Perm.trans (List.Perm.of_eq ?_)
          (Keyed.flatMap_perm_erase t.byValue filter.1 (columnSubscriptions name)).symm
        rw [Audience.valuesOf]
        cases Keyed.find? t.byValue filter.1 <;> rfl
      exact ((hcolumns.append_left _).trans List.perm_middle).append_right _
  | record _ key l =>
    exact ((Listeners.spread_alter_perm _ h.rows key l).append_left _).trans List.perm_middle

/-- A removal takes away the listeners that leave, and no others. -/
theorem subscriptions_remove (t : Audience) (name : String) (d : Leaving) : (t.remove d).subscriptions name =
    (t.subscriptions name).filter fun s => !d.covers s.listener := by
  have hcolumns : (t.remove d).byValue.flatMap (columnSubscriptions name) =
      (t.byValue.flatMap (columnSubscriptions name)).filter fun s => !d.covers s.listener := by
    simp only [remove]
    induction t.byValue with
    | nil => rfl
    | cons c columns ih =>
      have hhead : columnSubscriptions name (c.1, sweepLists c.2 d) =
          (columnSubscriptions name c).filter fun s => !d.covers s.listener :=
        Listeners.spread_sweepLists _ (fun _ _ => rfl) c.2 d
      rw [List.flatMap_cons, List.filter_append, ← hhead, ← ih]
      simp only [Keyed.mapValues, List.map_cons, List.filter_cons]
      split
      next => rfl
      next hempty =>
        have hnil : sweepLists c.2 d = [] := by simpa using hempty
        rw [hnil]
        rfl
  rw [subscriptions, hcolumns, subscriptions, List.filter_append, List.filter_append,
    ← Listeners.spread_sweepLists _ (fun _ _ => rfl)]
  congr 2
  simp only [remove, Listeners.without, List.filter_map]
  rfl

end Audience

/-! ## Who is told -/

/-- Whether a new row calls for the listener of a subscription: it is on the whole table, or on a value that the
row has in its column. -/
def Subscription.awaits (row : Value) : Subscription → Bool
  | .table _ none _ => true
  | .table _ (some (column, value)) _ =>
    match row.member column with
    | .ok v => decide (v.toKey = .ok value)
    | .error _ => false
  | .record .. => false

/-- Whether a change of the row under a key calls for the listener of a subscription. -/
def Subscription.isOn (key : Bytes) : Subscription → Bool
  | .record _ k _ => decide (k = key)
  | .table .. => false

namespace Listeners

/-- The listeners under one key. -/
theorem find?_perm_filter {κ : Type} [DecidableEq κ] {f : κ → Listener → Subscription}
    (hf : ∀ k l, (f k l).listener = l) {lists : List (κ × List Listener)} (hn : (Keyed.keys lists).Nodup)
    {test : Subscription → Bool} {key : κ} (htest : ∀ k l, test (f k l) = decide (k = key)) :
    ((Keyed.find? lists key).getD []) = ((spread f lists).filter test).map Subscription.listener := by
  induction lists with
  | nil => rfl
  | cons e lists ih =>
    obtain ⟨hnew, hn⟩ := List.nodup_cons.mp hn
    have hmap : ∀ k (ls : List Listener), (ls.map (f k)).map Subscription.listener = ls := by
      intro k ls
      simp [List.map_map, Function.comp_def, hf]
    rw [Keyed.find?_cons, spread, List.flatMap_cons, List.filter_append, List.map_append, ← spread, ← ih hn]
    by_cases he : e.1 = key
    · have hall : (e.2.map (f e.1)).filter test = e.2.map (f e.1) :=
        List.filter_eq_self.mpr (by simp [htest, he])
      have hnone : Keyed.find? lists key = none := Keyed.find?_eq_none.mpr (he ▸ hnew)
      rw [if_pos he, hall, hmap, hnone]
      simp
    · have hnil : (e.2.map (f e.1)).filter test = [] := List.filter_eq_nil_iff.mpr (by simp [htest, he])
      rw [if_neg he, hnil]
      rfl

end Listeners

namespace Audience

open Listeners (spread)

variable {t : Audience}

/-- The listeners on the values of columns that a new row calls for, unless a column holds no key. -/
theorem columnMatches_eq (name : String) (row : Value) (columns : List (String × List (Bytes × List Listener)))
    (hvalues : ∀ c ∈ columns, Keyed.Ordered c.2) {ls : List Listener}
    (h : columnMatches row columns = some ls) :
    ls = ((columns.flatMap (columnSubscriptions name)).filter (Subscription.awaits row)).map
      Subscription.listener := by
  induction columns generalizing ls with
  | nil => cases h; rfl
  | cons c columns ih =>
    have hrest := fun c' hc' => hvalues c' (List.mem_cons_of_mem _ hc')
    rw [List.flatMap_cons, List.filter_append, List.map_append]
    rw [columnMatches] at h
    split at h
    next f hmember =>
      have hnil : (columnSubscriptions name c).filter (Subscription.awaits row) = [] := by
        refine List.filter_eq_nil_iff.mpr fun x hx => ?_
        obtain ⟨e, -, hx⟩ := List.mem_flatMap.mp hx
        obtain ⟨l, -, rfl⟩ := List.mem_map.mp hx
        simp [Subscription.awaits, hmember]
      rw [hnil]
      exact ih hrest h
    next v hmember =>
      split at h
      next => cases h
      next bytes hkey =>
        obtain ⟨more, hmore, rfl⟩ := Option.map_eq_some_iff.mp h
        rw [← ih hrest hmore]
        refine congrArg (· ++ more) (Listeners.find?_perm_filter (fun _ _ => rfl)
          (hvalues c List.mem_cons_self).nodup fun k l => ?_)
        simp only [Subscription.awaits, hmember, hkey, Except.ok.injEq, eq_comm]

/-- A new row calls for the listeners whose subscriptions await it, if it holds a key in each column that
somebody listens on. -/
theorem forNewRow_of_matches (h : t.Ordered) (name : String) {row : Value} {more : List Listener}
    (hmore : columnMatches row t.byValue = some more) :
    t.forNewRow row = ((t.subscriptions name).filter (Subscription.awaits row)).map Subscription.listener := by
  have hwhole : (t.whole.map (Subscription.table name none)).filter (Subscription.awaits row) =
      t.whole.map (Subscription.table name none) := List.filter_eq_self.mpr (by simp [Subscription.awaits])
  have hrows : (spread (.record name) t.byRow).filter (Subscription.awaits row) = [] := by
    refine List.filter_eq_nil_iff.mpr fun x hx => ?_
    obtain ⟨e, -, hx⟩ := List.mem_flatMap.mp hx
    obtain ⟨l, -, rfl⟩ := List.mem_map.mp hx
    simp [Subscription.awaits]
  rw [forNewRow, hmore, columnMatches_eq name row t.byValue h.values hmore, subscriptions, List.filter_append,
    List.filter_append, List.map_append, List.map_append, hwhole, hrows, List.map_map, List.map_nil,
    List.append_nil]
  simp [Function.comp_def, Subscription.listener]

/-- A new row calls for the listeners whose subscriptions await it, or for none. -/
theorem forNewRow_eq (h : t.Ordered) (name : String) (row : Value) : t.forNewRow row = [] ∨
    t.forNewRow row = ((t.subscriptions name).filter (Subscription.awaits row)).map Subscription.listener := by
  cases hmore : columnMatches row t.byValue with
  | none => exact .inl (by rw [forNewRow, hmore])
  | some more => exact .inr (forNewRow_of_matches h name hmore)

/-- If a row holds a key in each of its columns, the listeners that await it are called for. -/
theorem forNewRow_of_keys (h : t.Ordered) (name : String) {row : Value}
    (hkeys : ∀ column v, row.member column = .ok v → ∃ bytes, v.toKey = .ok bytes) :
    t.forNewRow row = ((t.subscriptions name).filter (Subscription.awaits row)).map Subscription.listener := by
  have hsome : ∀ columns, ∃ more, columnMatches row columns = some more := by
    intro columns
    induction columns with
    | nil => exact ⟨[], rfl⟩
    | cons c columns ih =>
      obtain ⟨more, hmore⟩ := ih
      rw [columnMatches]
      split
      next => exact ⟨more, hmore⟩
      next v hmember =>
        obtain ⟨bytes, hbytes⟩ := hkeys _ v hmember
        rw [hbytes, hmore]
        exact ⟨_, rfl⟩
  obtain ⟨more, hmore⟩ := hsome t.byValue
  exact forNewRow_of_matches h name hmore

/-- A change of a row calls for the listeners on it. -/
theorem forRow_eq (h : t.Ordered) (name : String) (key : Bytes) :
    t.forRow key = ((t.subscriptions name).filter (Subscription.isOn key)).map Subscription.listener := by
  have hothers : (t.whole.map (Subscription.table name none) ++ t.byValue.flatMap (columnSubscriptions name)).filter
      (Subscription.isOn key) = [] := by
    refine List.filter_eq_nil_iff.mpr fun x hx => ?_
    rcases List.mem_append.mp hx with hx | hx
    · obtain ⟨l, -, rfl⟩ := List.mem_map.mp hx
      simp [Subscription.isOn]
    · obtain ⟨c, -, hx⟩ := List.mem_flatMap.mp hx
      obtain ⟨e, -, hx⟩ := List.mem_flatMap.mp hx
      obtain ⟨l, -, rfl⟩ := List.mem_map.mp hx
      simp [Subscription.isOn]
  rw [subscriptions, List.filter_append, hothers, List.nil_append]
  exact Listeners.find?_perm_filter (fun _ _ => rfl) h.rows.nodup fun _ _ => rfl

end Audience

/-- A new row calls for the queries of the listeners that await it, and a changed one for a message to each listener
on it. -/
theorem Event.notices_cases {t : Audience} (h : t.Ordered) (name : String) (e : Event) : e.notices t = [] ∨
    (e.old = none ∧ ∃ row, e.notices t = ((t.subscriptions name).filter (Subscription.awaits row)).map
      fun x => .rerun x.listener e.key) ∨
    ∃ old new, e.notices t = ((t.subscriptions name).filter (Subscription.isOn e.key.keyBytes)).map
      fun x => .deliver x.listener.subscriber (x.listener.recordUpdate old new) := by
  unfold notices
  split
  next new hold _ =>
    split
    next row _ =>
      rcases Audience.forNewRow_eq h name row with hnil | heq
      · exact .inl (by rw [hnil, List.map_nil])
      · exact .inr (.inl ⟨hold, row, by rw [heq, List.map_map]; rfl⟩)
    next => exact .inl rfl
  next =>
    split
    next old new _ _ =>
      exact .inr (.inr ⟨old, new, by rw [Audience.forRow_eq h name, List.map_map]; rfl⟩)
    next => exact .inl rfl
  next => exact .inl rfl

/-- The listeners that a write calls for are among those of the table. -/
theorem Event.mem_notices {e : Event} {t : Audience} (h : t.Ordered) (name : String) {n : Notice}
    (hn : n ∈ e.notices t) : ∃ x ∈ t.subscriptions name, n = .rerun x.listener e.key ∨
      ∃ old new, n = .deliver x.listener.subscriber (x.listener.recordUpdate old new) := by
  rcases e.notices_cases h name with hnil | ⟨-, row, heq⟩ | ⟨old, new, heq⟩
  · rw [hnil] at hn
    cases hn
  · rw [heq] at hn
    obtain ⟨x, hx, rfl⟩ := List.mem_map.mp hn
    exact ⟨x, List.mem_of_mem_filter hx, .inl rfl⟩
  · rw [heq] at hn
    obtain ⟨x, hx, rfl⟩ := List.mem_map.mp hn
    exact ⟨x, List.mem_of_mem_filter hx, .inr ⟨old, new, rfl⟩⟩

/-! ## The inbox -/

namespace Actor

/-- The listeners that an actor has once it has taken every post that waits. -/
def audience (a : Actor) : Audience := a.inbox.foldl (fun t p => (handle t p).1) a.listeners

theorem ordered_handle {t : Audience} (h : t.Ordered) (p : Post) : (handle t p).1.Ordered := by
  cases p with
  | subscribe s => exact h.subscribe s
  | remove d => exact h.remove d
  | event e => exact h

theorem ordered_audience {a : Actor} (h : a.listeners.Ordered) : a.audience.Ordered := by
  obtain ⟨t, inbox⟩ := a
  simp only [audience]
  induction inbox generalizing t with
  | nil => exact h
  | cons p inbox ih => exact ih _ (ordered_handle h p)

theorem audience_post (a : Actor) (p : Post) :
    audience { a with inbox := a.inbox ++ [p] } = (handle a.audience p).1 := by
  simp only [audience, List.foldl_append, List.foldl_cons, List.foldl_nil]

end Actor

end LiveQuery
