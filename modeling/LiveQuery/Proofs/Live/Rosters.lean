import LiveQuery.Proofs.Live.Standing

/-! # Rosters and the lists that they hold

A `Registry` does what an `Audience` does (`Registry.audience_after`), although it never compares listeners and sees
whether a roster is empty from its connections only. Both rest on an invariant of rosters (`Roster.Sound`): connections
and channels go by increasing numbers, none of them is empty, and listeners are kept where they belong.

The main result, `Registry.after_standing`, says what posts leave: each list is the sorted log of the subscriptions that
stand on its target, they are counted right, and a removal leaves nothing empty.
-/
namespace LiveQuery

/-- What the entries give if only the one of a single key gives anything. -/
theorem Keyed.flatMap_eq_find? {κ α β : Type} [DecidableEq κ] {m : List (κ × α)} (hn : (keys m).Nodup)
    {f : κ × α → List β} {k : κ} (h : ∀ e ∈ m, e.1 ≠ k → f e = []) :
    m.flatMap f = (find? m k).elim [] fun v => f (k, v) := by
  induction m with
  | nil => rfl
  | cons e m ih =>
    obtain ⟨hnew, hn⟩ := List.nodup_cons.mp hn
    rw [List.flatMap_cons, ih hn fun d hd => h d (List.mem_cons_of_mem _ hd), find?_cons]
    split
    next heq =>
      subst heq
      rw [find?_eq_none.mpr hnew]
      exact List.append_nil _
    next hne => rw [h e List.mem_cons_self hne, List.nil_append]

/-- Values that stand for others are changed, and dropped if they become empty, as the others are. -/
theorem Keyed.mapValues_sweep {κ α β : Type} {m : List (κ × α)} {f : α → α} {f' : β → β} {g : α → β} {p : α → Bool}
    {q : β → Bool} (hf : ∀ e ∈ m, g (f e.2) = f' (g e.2)) (hp : ∀ e ∈ m, q (g (f e.2)) = p (f e.2)) :
    mapValues g ((mapValues f m).filter fun e => !p e.2) = (mapValues f' (mapValues g m)).filter fun e => !q e.2 := by
  induction m with
  | nil => rfl
  | cons e m ih =>
    obtain ⟨hfe, hfm⟩ := List.forall_mem_cons.mp hf
    obtain ⟨hpe, hpm⟩ := List.forall_mem_cons.mp hp
    have ih := ih hfm hpm
    simp only [mapValues, List.map_cons, List.filter_cons] at ih ⊢
    rw [← hfe, hpe]
    split
    next => rw [List.map_cons, ih]
    next => exact ih

namespace Roster

/-! ## Rosters -/

variable {r : Roster} {id : Nat} {channels : List (Nat × List Listener)} {s : Subscriber}

/-- The channels of a connection, which has none if it has no entry. -/
def channelsOf (r : Roster) (connection : Nat) : List (Nat × List Listener) :=
  (Keyed.find? r.byConnection connection).getD []

/-- The listeners of a channel. -/
def ofChannel (r : Roster) (s : Subscriber) : List Listener :=
  (Keyed.find? (r.channelsOf s.connection) s.channel).getD []

/-- The channels that a connection may have: they go by increasing numbers, and each has listeners of its own only. -/
structure Keeps (id : Nat) (channels : List (Nat × List Listener)) : Prop where
  ordered : Keyed.Ordered channels
  full : ∀ e ∈ channels, e.2 ≠ []
  own : ∀ e ∈ channels, ∀ l ∈ e.2, l.subscriber = ⟨id, e.1⟩

/-- The connections go by increasing numbers, and each has channels. -/
structure Sound (r : Roster) : Prop where
  ordered : Keyed.Ordered r.byConnection
  full : ∀ c ∈ r.byConnection, c.2 ≠ []
  keeps : ∀ c ∈ r.byConnection, Keeps c.1 c.2

/-- No connection is without channels and no channel without listeners. -/
structure Full (r : Roster) : Prop where
  connections : ∀ c ∈ r.byConnection, c.2 ≠ []
  channels : ∀ c ∈ r.byConnection, ∀ e ∈ c.2, e.2 ≠ []

theorem Sound.isFull (h : r.Sound) : r.Full := ⟨h.full, fun c hc => (h.keeps c hc).full⟩

theorem keeps_nil : Keeps id [] := ⟨List.Pairwise.nil, by simp, by simp⟩

theorem sound_empty : Sound {} := ⟨List.Pairwise.nil, by simp, by simp⟩

theorem Keeps.add (h : Keeps id channels) {l : Listener} (hl : l.subscriber.connection = id) :
    Keeps id (Keyed.alter channels l.subscriber.channel fun ls => ls.getD [] ++ [l]) := by
  refine ⟨Keyed.Ordered.insert h.ordered _ _, fun e he => ?_, fun e he k hk => ?_⟩
  · rcases Keyed.mem_of_mem_insert he with rfl | he
    · exact List.append_ne_nil_of_right_ne_nil _ (List.cons_ne_nil _ _)
    · exact h.full e he
  · rcases Keyed.mem_of_mem_insert he with rfl | he
    · rcases List.mem_append.mp hk with hk | hk
      · cases hfind : Keyed.find? channels l.subscriber.channel with
        | none => rw [hfind] at hk; cases hk
        | some ls => rw [hfind] at hk; exact h.own _ (Keyed.mem_of_find? hfind) k hk
      · rw [List.mem_singleton.mp hk, ← hl]
    · exact h.own e he k hk

theorem Keeps.erase (h : Keeps id channels) (channel : Nat) : Keeps id (Keyed.erase channels channel) :=
  ⟨Keyed.ordered_erase h.ordered channel, fun e he => h.full e (Keyed.mem_of_mem_erase he),
    fun e he => h.own e (Keyed.mem_of_mem_erase he)⟩

namespace Sound

theorem channelsOf (h : r.Sound) (connection : Nat) : Keeps connection (r.channelsOf connection) := by
  unfold Roster.channelsOf
  cases hfind : Keyed.find? r.byConnection connection with
  | none => exact keeps_nil
  | some channels => exact h.keeps _ (Keyed.mem_of_find? hfind)

/-- Giving a connection channels that it may have. -/
theorem insert (h : r.Sound) (hkeeps : Keeps id channels) (hne : channels ≠ []) :
    Sound ⟨Keyed.insert r.byConnection id channels⟩ := by
  refine ⟨h.ordered.insert id channels, fun c hc => ?_, fun c hc => ?_⟩
  · rcases Keyed.mem_of_mem_insert hc with rfl | hc
    · exact hne
    · exact h.full c hc
  · rcases Keyed.mem_of_mem_insert hc with rfl | hc
    · exact hkeeps
    · exact h.keeps c hc

theorem erase (h : r.Sound) (id : Nat) : Sound ⟨Keyed.erase r.byConnection id⟩ :=
  ⟨Keyed.ordered_erase h.ordered id, fun c hc => h.full c (Keyed.mem_of_mem_erase hc),
    fun c hc => h.keeps c (Keyed.mem_of_mem_erase hc)⟩

theorem add (h : r.Sound) (l : Listener) : (r.add l).Sound :=
  h.insert ((h.channelsOf _).add rfl) (List.ne_nil_of_mem (Keyed.mem_insert_self _ _ _))

theorem leave (h : r.Sound) (d : Leaving) : (r.leave d).Sound := by
  cases d with
  | connection id => exact h.erase id
  | channel s =>
    rw [Roster.leave]
    split
    next => exact h
    next channels hfind =>
      dsimp only
      split
      next => exact h.erase s.connection
      next hne =>
        exact h.insert ((h.keeps _ (Keyed.mem_of_find? hfind)).erase s.channel) fun hnil => hne (by rw [hnil]; rfl)

end Sound

/-! ## What a channel has -/

/-- A listener goes to the end of its channel. -/
theorem ofChannel_add (r : Roster) (l : Listener) (s : Subscriber) :
    (r.add l).ofChannel s = r.ofChannel s ++ Listeners.ofChannel s [l] := by
  obtain ⟨connection, channel⟩ := s
  have hchannels : (r.add l).channelsOf connection = if l.subscriber.connection = connection then
      Keyed.alter (r.channelsOf connection) l.subscriber.channel (fun ls => ls.getD [] ++ [l])
        else r.channelsOf connection := by
    rw [channelsOf, add, Keyed.alter, Keyed.find?_insert]
    split
    next heq => rw [← heq]; rfl
    next => rfl
  rw [ofChannel, hchannels, ofChannel, Listeners.ofChannel, List.filter_singleton]
  obtain ⟨⟨connection', channel'⟩, query, path⟩ := l
  simp only [Subscriber.mk.injEq]
  by_cases hc : connection' = connection
  · rw [if_pos hc, Keyed.alter, Keyed.find?_insert]
    by_cases he : channel' = channel
    · simp [hc, he]
    · simp [he]
  · simp [hc]

theorem channelsOf_leave_connection (h : r.Sound) (id connection : Nat) :
    (r.leave (.connection id)).channelsOf connection = if id = connection then [] else r.channelsOf connection := by
  rw [channelsOf, leave, Keyed.find?_erase h.ordered.nodup]
  split <;> rfl

/-- Whether or not the connection goes with its last channel, only that channel is lost. -/
theorem channelsOf_leave_channel (h : r.Sound) (u : Subscriber) (connection : Nat) :
    (r.leave (.channel u)).channelsOf connection = if u.connection = connection then
      Keyed.erase (r.channelsOf connection) u.channel else r.channelsOf connection := by
  rw [leave]
  cases hfind : Keyed.find? r.byConnection u.connection with
  | none =>
    dsimp only
    split
    next heq =>
      have hnone : r.channelsOf connection = [] := by rw [channelsOf, ← heq, hfind, Option.getD_none]
      rw [hnone]
      rfl
    next => rfl
  | some channels =>
    have hchannels : r.channelsOf u.connection = channels := by rw [channelsOf, hfind, Option.getD_some]
    dsimp only
    split
    next hempty =>
      rw [channelsOf, Keyed.find?_erase h.ordered.nodup]
      split
      next heq => rw [← heq, hchannels]; exact (List.isEmpty_iff.mp hempty).symm
      next => rfl
    next =>
      rw [channelsOf, Keyed.find?_insert]
      split
      next heq => rw [← heq, hchannels]; rfl
      next => rfl

theorem subscriber_of_mem (h : r.Sound) {l : Listener} (hl : l ∈ r.ofChannel s) : l.subscriber = s := by
  rw [ofChannel] at hl
  cases hfind : Keyed.find? (r.channelsOf s.connection) s.channel with
  | none => rw [hfind] at hl; cases hl
  | some ls => rw [hfind] at hl; exact (h.channelsOf s.connection).own _ (Keyed.mem_of_find? hfind) l hl

/-- A channel keeps its listeners unless it leaves. -/
theorem ofChannel_leave (h : r.Sound) (d : Leaving) (s : Subscriber) :
    (r.leave d).ofChannel s = Listeners.without (r.ofChannel s) d := by
  have hgone : (∀ l : Listener, l.subscriber = s → d.covers l = true) → Listeners.without (r.ofChannel s) d = [] :=
    fun hcovers => List.filter_eq_nil_iff.mpr fun l hl => by rw [hcovers l (subscriber_of_mem h hl)]; decide
  have hstays : (∀ l : Listener, l.subscriber = s → d.covers l = false) →
      Listeners.without (r.ofChannel s) d = r.ofChannel s :=
    fun hfree => Listeners.without_of_free fun l hl => hfree l (subscriber_of_mem h hl)
  cases d with
  | connection id =>
    rw [ofChannel, channelsOf_leave_connection h]
    split
    next heq =>
      rw [hgone fun l hl => by rw [Leaving.covers, hl, heq, beq_self_eq_true]]
      rfl
    next hne =>
      rw [hstays fun l hl => by rw [Leaving.covers, hl, beq_eq_false_iff_ne]; exact Ne.symm hne]
      rfl
  | channel u =>
    rw [ofChannel, channelsOf_leave_channel h]
    by_cases hsame : s = u
    · subst hsame
      rw [if_pos rfl, Keyed.find?_erase (h.channelsOf s.connection).ordered.nodup, if_pos rfl,
        hgone fun l hl => by rw [Leaving.covers, decide_eq_true_eq]; exact hl]
      rfl
    · rw [hstays fun l hl => by rw [Leaving.covers, decide_eq_false_iff_not, hl]; exact hsame, ofChannel]
      split
      next hc =>
        have hchannel : u.channel ≠ s.channel := fun he => hsame (by cases s; cases u; cases hc; cases he; rfl)
        rw [Keyed.find?_erase_of_ne _ hchannel]
      next => rfl

/-! ## The list of a roster -/

/-- The listeners of a connection go by channel, and each channel has its own. -/
theorem Keeps.arranged (h : Keeps id channels) : Listeners.Arranged (channels.flatMap fun e => e.2) := by
  refine List.pairwise_flatMap.mpr ⟨fun e he => ?_, h.ordered.imp_of_mem fun {a b} ha hb hlt k hk l hl => ?_⟩
  · exact List.pairwise_of_forall_mem_list fun a ha b hb =>
      Listener.notAfter_of_eq ((h.own e he a ha).trans (h.own e he b hb).symm)
  · rw [Listener.notAfter_iff, h.own a ha k hk, h.own b hb l hl]
    exact .inr ⟨rfl, Nat.le_of_lt hlt⟩

theorem Keeps.ofChannel (h : Keeps id channels) (s : Subscriber) :
    Listeners.ofChannel s (channels.flatMap fun e => e.2) =
      if id = s.connection then (Keyed.find? channels s.channel).getD [] else [] := by
  rw [Listeners.ofChannel, List.filter_flatMap]
  split
  next hid =>
    rw [Keyed.flatMap_eq_find? h.ordered.nodup (k := s.channel)]
    · cases hfind : Keyed.find? channels s.channel with
      | none => rfl
      | some ls =>
        refine List.filter_eq_self.mpr fun l hl => ?_
        rw [h.own _ (Keyed.mem_of_find? hfind) l hl, hid, decide_eq_true_eq]
    · intro e he hne
      refine List.filter_eq_nil_iff.mpr fun l hl => ?_
      rw [h.own e he l hl, decide_eq_true_eq]
      exact fun heq => hne (congrArg Subscriber.channel heq)
  next hid =>
    refine List.flatMap_eq_nil_iff.mpr fun e he => List.filter_eq_nil_iff.mpr fun l hl => ?_
    rw [h.own e he l hl, decide_eq_true_eq]
    exact fun heq => hid (congrArg Subscriber.connection heq)

namespace Sound

theorem arranged (h : r.Sound) : Listeners.Arranged r.toList := by
  refine List.pairwise_flatMap.mpr ⟨fun c hc => (h.keeps c hc).arranged, ?_⟩
  refine h.ordered.imp_of_mem fun {a b} ha hb hlt k hk l hl => ?_
  obtain ⟨d, hd, hk⟩ := List.mem_flatMap.mp hk
  obtain ⟨e, he, hl⟩ := List.mem_flatMap.mp hl
  rw [Listener.notAfter_iff, (h.keeps a ha).own d hd k hk, (h.keeps b hb).own e he l hl]
  exact .inl hlt

theorem ofChannel_toList (h : r.Sound) (s : Subscriber) : Listeners.ofChannel s r.toList = r.ofChannel s := by
  have hchannels : r.toList.filter (fun l => decide (l.subscriber = s)) = r.byConnection.flatMap fun c =>
      Listeners.ofChannel s (c.2.flatMap fun e => e.2) := List.filter_flatMap
  rw [Listeners.ofChannel, hchannels, Keyed.flatMap_eq_find? h.ordered.nodup (k := s.connection),
    Roster.ofChannel, Roster.channelsOf]
  · cases hfind : Keyed.find? r.byConnection s.connection with
    | none => rfl
    | some channels => exact ((h.keeps _ (Keyed.mem_of_find? hfind)).ofChannel s).trans (if_pos rfl)
  · intro c hc hne
    rw [(h.keeps c hc).ofChannel s, if_neg hne]

/-- Adding to a roster adds to its list. -/
theorem toList_add (h : r.Sound) (l : Listener) : (r.add l).toList = Listeners.add r.toList l := by
  refine (h.add l).arranged.ext (h.arranged.add l) fun s => ?_
  rw [(h.add l).ofChannel_toList, Roster.ofChannel_add, h.arranged.ofChannel_add, h.ofChannel_toList]

/-- Those who leave a roster leave its list. -/
theorem toList_leave (h : r.Sound) (d : Leaving) : (r.leave d).toList = Listeners.without r.toList d := by
  refine (h.leave d).arranged.ext (h.arranged.without d) fun s => ?_
  rw [(h.leave d).ofChannel_toList, Roster.ofChannel_leave h, Listeners.ofChannel_without, h.ofChannel_toList]

/-- A roster has entries if and only if it has listeners. -/
theorem isEmpty_toList (h : r.Sound) : r.toList.isEmpty = r.isEmpty := by
  cases hr : r.byConnection with
  | nil => rw [toList, isEmpty, hr]; rfl
  | cons c rest =>
    have hc : c ∈ r.byConnection := hr ▸ List.mem_cons_self
    obtain ⟨e, he⟩ := List.exists_mem_of_ne_nil _ (h.full c hc)
    obtain ⟨l, hl⟩ := List.exists_mem_of_ne_nil _ ((h.keeps c hc).full e he)
    have hmem : l ∈ r.toList := List.mem_flatMap.mpr ⟨c, hc, List.mem_flatMap.mpr ⟨e, he, hl⟩⟩
    rw [List.isEmpty_eq_false_iff.mpr (List.ne_nil_of_mem hmem), isEmpty, hr]
    rfl

end Sound

end Roster

/-! ## Registries -/

namespace Registry

variable {t : Registry} {rosters : List (Bytes × Roster)}

/-- All rosters are sound. -/
structure Sound (t : Registry) : Prop where
  whole : t.whole.Sound
  values : ∀ c ∈ t.byValue, ∀ e ∈ c.2, e.2.Sound
  rows : ∀ e ∈ t.byRow, e.2.Sound

/-- Nothing is empty: every column has rosters, every roster listeners, and so has whatever is in a roster. -/
structure Full (t : Registry) : Prop where
  whole : t.whole.Full
  columns : ∀ c ∈ t.byValue, c.2 ≠ []
  values : ∀ c ∈ t.byValue, ∀ e ∈ c.2, e.2.toList ≠ [] ∧ e.2.Full
  rows : ∀ e ∈ t.byRow, e.2.toList ≠ [] ∧ e.2.Full

/-- What a table has after posts, in their order, if it had no listeners before them. -/
def after (posts : List Post) : Registry := posts.foldl handle {}

/-! ### Rosters under keys -/

theorem sound_getD (h : ∀ e ∈ rosters, e.2.Sound) (k : Bytes) : ((Keyed.find? rosters k).getD {}).Sound := by
  cases hfind : Keyed.find? rosters k with
  | none => exact Roster.sound_empty
  | some r => exact h _ (Keyed.mem_of_find? hfind)

theorem sound_add (h : ∀ e ∈ rosters, e.2.Sound) (k : Bytes) (l : Listener) :
    ∀ e ∈ Keyed.alter rosters k (fun r => (r.getD {}).add l), e.2.Sound := by
  intro e he
  rcases Keyed.mem_of_mem_insert he with rfl | he
  · exact (sound_getD h k).add l
  · exact h e he

theorem sound_sweepRosters (h : ∀ e ∈ rosters, e.2.Sound) (d : Leaving) : ∀ e ∈ sweepRosters rosters d, e.2.Sound := by
  intro e he
  obtain ⟨e', he', rfl⟩ := List.mem_map.mp (List.mem_of_mem_filter he)
  exact (h e' he').leave d

theorem find?_lists (rosters : List (Bytes × Roster)) (k : Bytes) :
    (Keyed.find? (lists rosters) k).getD [] = ((Keyed.find? rosters k).getD {}).toList := by
  rw [lists, Keyed.find?_mapValues]
  cases Keyed.find? rosters k <;> rfl

theorem lists_add (h : ∀ e ∈ rosters, e.2.Sound) (k : Bytes) (l : Listener) :
    lists (Keyed.alter rosters k fun r => (r.getD {}).add l) =
      Keyed.alter (lists rosters) k fun ls => Listeners.add (ls.getD []) l := by
  rw [lists, Keyed.alter, Keyed.mapValues_insert, (sound_getD h k).toList_add, ← find?_lists]
  rfl

theorem lists_sweepRosters (h : ∀ e ∈ rosters, e.2.Sound) (d : Leaving) :
    lists (sweepRosters rosters d) = Audience.sweepLists (lists rosters) d :=
  Keyed.mapValues_sweep (fun e he => (h e he).toList_leave d) fun e he => ((h e he).leave d).isEmpty_toList

/-! ### What posts do -/

theorem valuesOf_audience (t : Registry) (column : String) :
    t.audience.valuesOf column = lists (t.valuesOf column) := by
  rw [Audience.valuesOf, audience, Keyed.find?_mapValues, valuesOf]
  cases Keyed.find? t.byValue column <;> rfl

theorem sound_empty : Sound {} := ⟨Roster.sound_empty, by simp, by simp⟩

namespace Sound

theorem valuesOf (h : t.Sound) (column : String) : ∀ e ∈ t.valuesOf column, e.2.Sound := by
  rw [Registry.valuesOf]
  cases hfind : Keyed.find? t.byValue column with
  | none => simp
  | some values => exact h.values _ (Keyed.mem_of_find? hfind)

theorem subscribe (h : t.Sound) (s : Subscription) : (t.subscribe s).Sound := by
  rcases s with ⟨_, _ | ⟨column, value⟩, l⟩ | ⟨_, key, l⟩
  · exact ⟨h.whole.add l, h.values, h.rows⟩
  · refine ⟨h.whole, fun c hc => ?_, h.rows⟩
    rcases Keyed.mem_of_mem_insert hc with rfl | hc
    · exact sound_add (h.valuesOf column) value l
    · exact h.values c hc
  · exact ⟨h.whole, h.values, sound_add h.rows key l⟩

theorem remove (h : t.Sound) (d : Leaving) : (t.remove d).Sound := by
  refine ⟨h.whole.leave d, fun c hc => ?_, sound_sweepRosters h.rows d⟩
  obtain ⟨c', hc', rfl⟩ := List.mem_map.mp (List.mem_of_mem_filter hc)
  exact sound_sweepRosters (h.values c' hc') d

theorem handle (h : t.Sound) (p : Post) : (t.handle p).Sound := by
  cases p with
  | subscribe s => exact h.subscribe s
  | remove d => exact h.remove d
  | event e => exact h

/-- Subscribing to a registry is subscribing to its lists. -/
theorem audience_subscribe (h : t.Sound) (s : Subscription) : (t.subscribe s).audience = t.audience.subscribe s := by
  rcases s with ⟨_, _ | ⟨column, value⟩, l⟩ | ⟨_, key, l⟩
  · exact congrArg (Audience.mk · _ _) (h.whole.toList_add l)
  · refine congrArg (Audience.mk _ · _) ?_
    rw [valuesOf_audience, ← lists_add (h.valuesOf column)]
    exact Keyed.mapValues_insert ..
  · exact congrArg (Audience.mk _ _) (lists_add h.rows key l)

/-- A removal from a registry is one from its lists. -/
theorem audience_remove (h : t.Sound) (d : Leaving) : (t.remove d).audience = t.audience.remove d := by
  have hcolumns : (t.remove d).audience.byValue = (t.audience.remove d).byValue :=
    Keyed.mapValues_sweep (fun c hc => lists_sweepRosters (h.values c hc) d) fun c _ => List.isEmpty_map
  exact congr (congr (congrArg Audience.mk (h.whole.toList_leave d)) hcolumns) (lists_sweepRosters h.rows d)

/-- A registry handles posts as its lists do. -/
theorem audience_handle (h : t.Sound) (p : Post) : (t.handle p).audience = (Actor.handle t.audience p).1 := by
  cases p with
  | subscribe s => exact h.audience_subscribe s
  | remove d => exact h.audience_remove d
  | event e => rfl

end Sound

/-! ### Counting -/

theorem listOn_audience (t : Registry) (x : Target) : t.audience.listOn x = t.listOn x := by
  cases x with
  | table => rfl
  | value column value =>
    rw [Audience.listOn, valuesOf_audience, find?_lists]
    rfl
  | row key => exact find?_lists t.byRow key

theorem countLists_lists (rosters : List (Bytes × Roster)) :
    Audience.countLists (lists rosters) = countRosters rosters :=
  List.foldr_map ..

theorem size_audience (t : Registry) : t.audience.size = t.size := by
  have hcolumns : (Keyed.mapValues lists t.byValue).foldr (fun c n => Audience.countLists c.2 + n) 0 =
      t.byValue.foldr (fun c n => countRosters c.2 + n) 0 := by
    rw [Keyed.mapValues, List.foldr_map]
    simp only [countLists_lists]
  rw [Audience.size, size, audience, hcolumns, countLists_lists]
  rfl

/-- Nothing is counted if and only if no part counts anything. -/
theorem foldr_count_eq_zero {α : Type} (count : α → Nat) (parts : List α) :
    parts.foldr (fun a n => count a + n) 0 = 0 ↔ ∀ a ∈ parts, count a = 0 := by
  induction parts with
  | nil => simp
  | cons a parts ih => rw [List.foldr_cons, Nat.add_eq_zero_iff, ih, List.forall_mem_cons]

/-- A registry has entries in its rosters if and only if it has listeners. -/
theorem Sound.isEmpty_iff (h : t.Sound) : t.isEmpty = true ↔ t.size = 0 := by
  have hroster : ∀ r : Roster, r.Sound → (r.isEmpty = true ↔ r.size = 0) := fun r hr => by
    rw [← hr.isEmpty_toList, List.isEmpty_iff, Roster.size, List.length_eq_zero_iff]
  have hrosters : ∀ rosters : List (Bytes × Roster), (∀ e ∈ rosters, e.2.Sound) →
      ((rosters.all fun e => e.2.isEmpty) = true ↔ countRosters rosters = 0) := fun rosters hsound => by
    rw [List.all_eq_true, countRosters, foldr_count_eq_zero fun e : Bytes × Roster => e.2.size]
    exact forall₂_congr fun e he => hroster e.2 (hsound e he)
  have hcolumns : (t.byValue.all fun c => c.2.all fun e => e.2.isEmpty) = true ↔
      t.byValue.foldr (fun c n => countRosters c.2 + n) 0 = 0 := by
    rw [List.all_eq_true, foldr_count_eq_zero fun c : String × List (Bytes × Roster) => countRosters c.2]
    exact forall₂_congr fun c hc => hrosters c.2 (h.values c hc)
  rw [isEmpty, Bool.and_eq_true, Bool.and_eq_true, size, Nat.add_eq_zero_iff, Nat.add_eq_zero_iff, hroster _ h.whole,
    hcolumns, hrosters _ h.rows]

/-- A roster that was made without listeners does not count. -/
example : (alter {} id (.row [])).isEmpty = true ∧ (alter {} id (.row [])).byRow.length = 1 := ⟨rfl, rfl⟩

theorem full_sweepRosters (h : ∀ e ∈ rosters, e.2.Sound) (d : Leaving) :
    ∀ e ∈ sweepRosters rosters d, e.2.toList ≠ [] ∧ e.2.Full := by
  intro e he
  have hsound := sound_sweepRosters h d e he
  refine ⟨fun hnil => ?_, hsound.isFull⟩
  have hempty : e.2.isEmpty = true := by rw [← hsound.isEmpty_toList, hnil]; rfl
  have hkept := (List.mem_filter.mp he).2
  rw [hempty] at hkept
  cases hkept

/-- A removal leaves nothing empty, whatever was empty before it. -/
theorem Sound.full_remove (h : t.Sound) (d : Leaving) : (t.remove d).Full := by
  refine ⟨(h.whole.leave d).isFull, fun c hc => ?_, fun c hc => ?_, full_sweepRosters h.rows d⟩
  · simpa using (List.mem_filter.mp hc).2
  · obtain ⟨c', hc', rfl⟩ := List.mem_map.mp (List.mem_of_mem_filter hc)
    exact full_sweepRosters (h.values c' hc') d

/-! ## After posts -/

theorem after_append (posts : List Post) (p : Post) : after (posts ++ [p]) = (after posts).handle p :=
  List.foldl_concat ..

theorem sound_after (posts : List Post) : (after posts).Sound := by
  induction posts using List.reverseRecOn with
  | nil => exact sound_empty
  | append_singleton posts p ih => rw [after_append]; exact ih.handle p

/-- The lists of the rosters are those that the actor of the table keeps. -/
theorem audience_after (posts : List Post) : (after posts).audience = Audience.after {} posts := by
  induction posts using List.reverseRecOn with
  | nil => rfl
  | append_singleton posts p ih =>
    rw [after_append, (sound_after posts).audience_handle, ih, Audience.after_append]
    rfl

/-- Whatever a table is told, each of its lists holds the listeners of the subscriptions on its target that no later
removal covers, by connection, then by channel, then in the order in which they were subscribed. They are counted right,
nobody listens if and only if they count zero, and a removal leaves no list, column or row empty. These lists are the
ones that the actor of the table works with. -/
theorem after_standing (posts : List Post) :
    (∀ x, (after posts).listOn x = Listeners.arranged (Post.standingOn x posts)) ∧
      (after posts).size = (Post.standing posts).length ∧ ((after posts).isEmpty = true ↔ (after posts).size = 0) ∧
      (∀ d, ((after posts).remove d).Full) ∧ (after posts).audience = Audience.after {} posts := by
  have hsound := sound_after posts
  have hlists := audience_after posts
  refine ⟨fun x => ?_, ?_, hsound.isEmpty_iff, hsound.full_remove, hlists⟩
  · rw [← listOn_audience, hlists, Audience.listOn_after]
  · rw [← size_audience, hlists, Audience.size_after]

end Registry

end LiveQuery
