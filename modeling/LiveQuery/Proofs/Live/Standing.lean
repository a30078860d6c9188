import LiveQuery.Live.Rosters
import LiveQuery.Proofs.Live.Clearing
import LiveQuery.Proofs.Live.Dispatch

/-! # The lists of a table

What each list of listeners holds, in its order. A list in which the listeners go by connection, then by channel
(`Listeners.Arranged`) is known by what each channel has in it (`Listeners.Arranged.ext`): adding a listener puts it
behind the others of its channel (`Listeners.arranged_append`) and those who leave leave the others as they are
(`Listeners.arranged_without`), as if the log of all that was added were sorted anew each time, without changing the
order in which a channel has added its own.

So after any posts the list of a target is the sorted log of the subscriptions that stand on it
(`Audience.listOn_after`).
-/
namespace LiveQuery

/-- What is found if values are changed and those that become empty dropped. -/
theorem Keyed.getD_find?_sweep {κ α : Type} [DecidableEq κ] {f : List α → List α} (hf : f [] = [])
    {m : List (κ × List α)} (hn : (keys m).Nodup) (k : κ) :
    (find? ((mapValues f m).filter fun e => !e.2.isEmpty) k).getD [] = f ((find? m k).getD []) := by
  induction m with
  | nil => exact hf.symm
  | cons e m ih =>
    obtain ⟨hnew, hn⟩ := List.nodup_cons.mp hn
    have hrest := ih hn
    simp only [mapValues, List.map_cons, List.filter_cons] at hrest ⊢
    by_cases hk : e.1 = k
    · subst hk
      have hnone : find? m e.1 = none := find?_eq_none.mpr hnew
      rw [hnone, Option.getD_none, hf] at hrest
      rw [find?_cons, if_pos rfl]
      split
      next => rw [find?_cons, if_pos rfl]; rfl
      next hempty => exact hrest.trans (by simpa using hempty : f e.2 = []).symm
    · rw [find?_cons, if_neg hk, ← hrest]
      split
      next => rw [find?_cons, if_neg hk]
      next => rfl

/-! ## Listeners in order -/

/-- Whether the channel of a listener comes no later than that of another one. -/
def Listener.notAfter (a b : Listener) : Bool := !a.subscriber.after b.subscriber

theorem Subscriber.after_iff {a b : Subscriber} : a.after b = true ↔
    b.connection < a.connection ∨ a.connection = b.connection ∧ b.channel < a.channel := by
  simp [after]

namespace Listener

variable {a b : Listener}

theorem notAfter_iff : a.notAfter b = true ↔ a.subscriber.connection < b.subscriber.connection ∨
    a.subscriber.connection = b.subscriber.connection ∧ a.subscriber.channel ≤ b.subscriber.channel := by
  rw [notAfter, Bool.not_eq_true', Bool.eq_false_iff, Ne, Subscriber.after_iff]
  omega

theorem notAfter_trans (a b c : Listener) (hab : a.notAfter b = true) (hbc : b.notAfter c = true) :
    a.notAfter c = true := by
  rw [notAfter_iff] at *
  omega

theorem notAfter_total (a b : Listener) : (a.notAfter b || b.notAfter a) = true := by
  rw [Bool.or_eq_true, notAfter_iff, notAfter_iff]
  omega

theorem subscriber_eq_of_notAfter (hab : a.notAfter b = true) (hba : b.notAfter a = true) :
    a.subscriber = b.subscriber := by
  rw [notAfter_iff] at hab hba
  have hparts : a.subscriber.connection = b.subscriber.connection ∧ a.subscriber.channel = b.subscriber.channel := by
    omega
  obtain ⟨⟨_, _⟩, _, _⟩ := a
  obtain ⟨⟨_, _⟩, _, _⟩ := b
  obtain ⟨rfl, rfl⟩ := hparts
  rfl

theorem notAfter_of_eq (h : a.subscriber = b.subscriber) : a.notAfter b = true := by
  rw [notAfter_iff, h]
  omega

end Listener

namespace Listeners

/-- The listeners go by connection, then by channel. -/
def Arranged (ls : List Listener) : Prop := ls.Pairwise fun a b => a.notAfter b = true

/-- A log of listeners by connection, then by channel, then by their order in the log. -/
def arranged (log : List Listener) : List Listener := log.mergeSort Listener.notAfter

/-- The listeners of a channel. -/
def ofChannel (s : Subscriber) (ls : List Listener) : List Listener := ls.filter fun l => decide (l.subscriber = s)

variable {ls ks log : List Listener} {l k : Listener} {s : Subscriber}

theorem mem_ofChannel : l ∈ ofChannel s ls ↔ l ∈ ls ∧ l.subscriber = s := by
  rw [ofChannel, List.mem_filter, decide_eq_true_eq]

theorem ofChannel_append (s : Subscriber) (ls ks : List Listener) :
    ofChannel s (ls ++ ks) = ofChannel s ls ++ ofChannel s ks :=
  List.filter_append ..

theorem ofChannel_cons (s : Subscriber) (l : Listener) (ls : List Listener) :
    ofChannel s (l :: ls) = ofChannel s [l] ++ ofChannel s ls :=
  ofChannel_append s [l] ls

theorem ofChannel_self (l : Listener) : ofChannel l.subscriber [l] = [l] :=
  List.filter_cons_of_pos (decide_eq_true rfl)

theorem ofChannel_of_ne (h : l.subscriber ≠ s) : ofChannel s [l] = [] :=
  List.filter_cons_of_neg (by rwa [decide_eq_true_eq])

theorem mem_iff_of_ofChannel (h : ∀ s, ofChannel s ls = ofChannel s ks) (l : Listener) : l ∈ ls ↔ l ∈ ks := by
  have hl : l ∈ ofChannel l.subscriber ls ↔ l ∈ ofChannel l.subscriber ks := by rw [h]
  rw [mem_ofChannel, mem_ofChannel] at hl
  simpa using hl

/-- Nobody's channel comes before that of the first listener. -/
theorem Arranged.notAfter (h : Arranged (l :: ls)) (hk : k ∈ l :: ls) : l.notAfter k = true := by
  rcases List.mem_cons.mp hk with rfl | hk
  · exact Listener.notAfter_of_eq rfl
  · exact List.rel_of_pairwise_cons h hk

/-- Two lists that go by channel are equal if every channel has the same in both. -/
theorem Arranged.ext (hls : Arranged ls) (hks : Arranged ks) (h : ∀ s, ofChannel s ls = ofChannel s ks) : ls = ks := by
  induction ls generalizing ks with
  | nil =>
    exact (List.eq_nil_iff_forall_not_mem.mpr fun k hk => List.not_mem_nil ((mem_iff_of_ofChannel h k).mpr hk)).symm
  | cons l ls ih =>
    have hmem := mem_iff_of_ofChannel h
    cases ks with
    | nil => exact absurd ((hmem l).mp List.mem_cons_self) List.not_mem_nil
    | cons k ks =>
      -- each of the two first listeners occurs in the other list, so neither channel comes after the other
      have hsame : l.subscriber = k.subscriber := Listener.subscriber_eq_of_notAfter
        (hls.notAfter ((hmem k).mpr List.mem_cons_self)) (hks.notAfter ((hmem l).mp List.mem_cons_self))
      have hfirst : l = k := by
        have hchannel := h l.subscriber
        rw [ofChannel_cons, ofChannel_self, hsame, ofChannel_cons, ofChannel_self] at hchannel
        exact (List.cons.inj hchannel).1
      subst hfirst
      have hrest : ∀ s, ofChannel s ls = ofChannel s ks := fun s => by
        have hs := h s
        rw [ofChannel_cons, ofChannel_cons s l ks] at hs
        exact List.append_cancel_left hs
      rw [ih hls.of_cons hks.of_cons hrest]

theorem arranged_arranged (log : List Listener) : Arranged (arranged log) :=
  List.pairwise_mergeSort Listener.notAfter_trans Listener.notAfter_total log

/-- Sorting does not change the order within a channel. -/
theorem ofChannel_arranged (s : Subscriber) (log : List Listener) :
    ofChannel s (arranged log) = ofChannel s log := by
  have hperm : (ofChannel s (arranged log)).Perm (ofChannel s log) := (List.mergeSort_perm log _).filter _
  have hsame : (ofChannel s log).Pairwise fun a b => a.notAfter b = true :=
    List.pairwise_of_forall_mem_list fun a ha b hb =>
      Listener.notAfter_of_eq ((mem_ofChannel.mp ha).2.trans (mem_ofChannel.mp hb).2.symm)
  have hsub : (ofChannel s log).Sublist (arranged log) :=
    List.sublist_mergeSort Listener.notAfter_trans Listener.notAfter_total hsame List.filter_sublist
  have hchannel : (ofChannel s log).Sublist (ofChannel s (arranged log)) := by
    have hfilter := hsub.filter fun l => decide (l.subscriber = s)
    rwa [show (ofChannel s log).filter (fun l => decide (l.subscriber = s)) = ofChannel s log from
      List.filter_eq_self.mpr fun l hl => decide_eq_true (mem_ofChannel.mp hl).2] at hfilter
  exact (hchannel.eq_of_length hperm.length_eq.symm).symm

/-- A list that goes by channel is the sorted log if each channel has what it has in the log. -/
theorem Arranged.eq_arranged (hls : Arranged ls) (h : ∀ s, ofChannel s ls = ofChannel s log) : ls = arranged log :=
  hls.ext (arranged_arranged log) fun s => (h s).trans (ofChannel_arranged s log).symm

theorem Arranged.add (hls : Arranged ls) (l : Listener) : Arranged (add ls l) := by
  induction ls with
  | nil => exact List.pairwise_singleton _ _
  | cons k ls ih =>
    rw [Listeners.add]
    split
    next hafter =>
      have hlk : l.notAfter k = true := by
        rw [Subscriber.after_iff] at hafter
        rw [Listener.notAfter_iff]
        omega
      exact List.pairwise_cons.mpr ⟨fun a ha => Listener.notAfter_trans l k a hlk (hls.notAfter ha), hls⟩
    next hafter =>
      have hkl : k.notAfter l = true := by rw [Listener.notAfter, Bool.not_eq_true', Bool.eq_false_iff]; exact hafter
      refine List.pairwise_cons.mpr ⟨fun a ha => ?_, ih hls.of_cons⟩
      rcases List.mem_cons.mp ((add_perm ls l).mem_iff.mp ha) with rfl | ha
      · exact hkl
      · exact hls.notAfter (List.mem_cons_of_mem _ ha)

/-- A listener is added as the last one of its channel. -/
theorem Arranged.ofChannel_add (hls : Arranged ls) (l : Listener) (s : Subscriber) :
    ofChannel s (Listeners.add ls l) = ofChannel s ls ++ ofChannel s [l] := by
  induction ls with
  | nil => rfl
  | cons k ls ih =>
    rw [Listeners.add]
    split
    next hafter =>
      rw [ofChannel_cons]
      by_cases hs : l.subscriber = s
      · -- nobody of the channel is left behind the new one
        have hnone : ofChannel s (k :: ls) = [] := by
          refine List.filter_eq_nil_iff.mpr fun a ha => ?_
          have hka := hls.notAfter ha
          rw [Subscriber.after_iff] at hafter
          rw [Listener.notAfter_iff] at hka
          rw [decide_eq_true_eq, ← hs]
          intro heq
          rw [heq] at hka
          omega
        rw [hnone, List.append_nil, List.nil_append]
      · rw [ofChannel_of_ne hs, List.nil_append, List.append_nil]
    next => rw [ofChannel_cons, ih hls.of_cons, ofChannel_cons s k ls, List.append_assoc]

/-- One more listener in the log is one that is added to the list. -/
theorem arranged_append (log : List Listener) (l : Listener) : arranged (log ++ [l]) = add (arranged log) l := by
  refine (((arranged_arranged log).add l).eq_arranged fun s => ?_).symm
  rw [(arranged_arranged log).ofChannel_add, ofChannel_arranged, ofChannel_append]

theorem ofChannel_without (s : Subscriber) (ls : List Listener) (d : Leaving) :
    ofChannel s (without ls d) = without (ofChannel s ls) d := by
  rw [ofChannel, without, ofChannel, without, List.filter_filter, List.filter_filter]
  exact List.filter_congr fun l _ => Bool.and_comm _ _

theorem Arranged.without (hls : Arranged ls) (d : Leaving) : Arranged (without ls d) :=
  List.Pairwise.filter _ hls

/-- Those who leave the log leave the list. -/
theorem arranged_without (log : List Listener) (d : Leaving) :
    arranged (without log d) = without (arranged log) d := by
  refine (((arranged_arranged log).without d).eq_arranged fun s => ?_).symm
  rw [ofChannel_without, ofChannel_without, ofChannel_arranged]

end Listeners

/-! ## The log of a target -/

/-- What a subscription is on. -/
def Subscription.target : Subscription → Target
  | .table _ none _ => .table
  | .table _ (some (column, value)) _ => .value column value
  | .record _ key _ => .row key

namespace Post

/-- The listeners of the subscriptions on a target that stand after posts, as they were subscribed. -/
def standingOn (x : Target) (posts : List Post) : List Listener :=
  ((standing posts).filter fun s => decide (s.target = x)).map Subscription.listener

theorem standingOn_subscribe (x : Target) (posts : List Post) (s : Subscription) :
    standingOn x (posts ++ [.subscribe s]) = standingOn x posts ++ if s.target = x then [s.listener] else [] := by
  have hkept : (standing posts).filter (fun s' => !(subscribe s).removes s'.listener) = standing posts :=
    List.filter_eq_self.mpr fun _ _ => rfl
  rw [standingOn, standing_append, hkept, List.filter_append, List.map_append, standingOn, subscribed, List.filter_cons]
  by_cases hx : s.target = x <;> simp [hx]

theorem standingOn_remove (x : Target) (posts : List Post) (d : Leaving) :
    standingOn x (posts ++ [.remove d]) = Listeners.without (standingOn x posts) d := by
  rw [standingOn, standing_append, subscribed, List.append_nil, standingOn, Listeners.without, List.filter_map,
    List.filter_filter, List.filter_filter]
  exact congrArg (List.map _) (List.filter_congr fun s _ => Bool.and_comm _ _)

theorem standingOn_event (x : Target) (posts : List Post) (e : Event) :
    standingOn x (posts ++ [.event e]) = standingOn x posts := by
  have hkept : (standing posts).filter (fun s' => !(event e).removes s'.listener) = standing posts :=
    List.filter_eq_self.mpr fun _ _ => rfl
  rw [standingOn, standing_append, hkept, subscribed, List.append_nil, standingOn]

end Post

/-! ## The lists of an audience -/

namespace Audience

variable {t : Audience}

/-- The listeners on a target, in their order. -/
def listOn (t : Audience) : Target → List Listener
  | .table => t.whole
  | .value column value => (Keyed.find? (t.valuesOf column) value).getD []
  | .row key => (Keyed.find? t.byRow key).getD []

theorem getD_find?_alter (lists : List (Bytes × List Listener)) (k k' : Bytes) (l : Listener) :
    (Keyed.find? (Keyed.alter lists k fun ls => Listeners.add (ls.getD []) l) k').getD [] =
      if k = k' then Listeners.add ((Keyed.find? lists k').getD []) l else (Keyed.find? lists k').getD [] := by
  rw [Keyed.alter, Keyed.find?_insert]
  split
  next heq => rw [heq]; rfl
  next => rfl

/-- A subscription adds its listener to the list of its target. -/
theorem listOn_subscribe (t : Audience) (s : Subscription) (x : Target) : (t.subscribe s).listOn x =
    if s.target = x then Listeners.add (t.listOn x) s.listener else t.listOn x := by
  rcases s with ⟨_, _ | ⟨column, value⟩, l⟩ | ⟨_, key, l⟩
  · cases x <;> rfl
  · cases x with
    | table | row => rfl
    | value column' value' =>
      have hvalues : (t.addValue column value l).valuesOf column' = if column = column' then
          Keyed.alter (t.valuesOf column) value (fun ls => Listeners.add (ls.getD []) l) else t.valuesOf column' := by
        rw [valuesOf, addValue, Keyed.find?_insert]
        split <;> rfl
      simp only [subscribe, listOn, hvalues, Subscription.target, Target.value.injEq, Subscription.listener]
      by_cases hc : column = column'
      · subst hc
        rw [if_pos rfl, getD_find?_alter]
        simp
      · rw [if_neg hc, if_neg fun h => hc h.1]
  · cases x with
    | table | value => rfl
    | row key' =>
      simp only [subscribe, addRow, listOn, getD_find?_alter, Subscription.target, Target.row.injEq,
        Subscription.listener]

/-- A removal takes the listeners that leave from each list. -/
theorem Ordered.listOn_remove (h : t.Ordered) (d : Leaving) (x : Target) :
    (t.remove d).listOn x = Listeners.without (t.listOn x) d := by
  cases x with
  | table => rfl
  | value column value =>
    have hvalues : (t.remove d).valuesOf column = Audience.sweepLists (t.valuesOf column) d :=
      Keyed.getD_find?_sweep (f := (Audience.sweepLists · d)) rfl h.columns.nodup column
    rw [listOn, hvalues]
    exact Keyed.getD_find?_sweep (f := (Listeners.without · d)) rfl (h.valuesOf column).nodup value
  | row key => exact Keyed.getD_find?_sweep (f := (Listeners.without · d)) rfl h.rows.nodup key

/-- The listeners of a table are as many as its subscriptions. -/
theorem size_eq (t : Audience) (name : String) : t.size = (t.subscriptions name).length := by
  have hlists : ∀ (f : Bytes → Listener → Subscription) (lists : List (Bytes × List Listener)),
      countLists lists = (Listeners.spread f lists).length := by
    intro f lists
    induction lists with
    | nil => rfl
    | cons e lists ih =>
      rw [Listeners.spread, List.flatMap_cons, List.length_append, List.length_map, ← Listeners.spread, ← ih]
      rfl
  have hcolumns : ∀ columns : List (String × List (Bytes × List Listener)),
      columns.foldr (fun e n => countLists e.2 + n) 0 = (columns.flatMap (columnSubscriptions name)).length := by
    intro columns
    induction columns with
    | nil => rfl
    | cons c columns ih =>
      rw [List.foldr_cons, ih, List.flatMap_cons, List.length_append, columnSubscriptions, ← hlists]
  rw [size, subscriptions, List.length_append, List.length_append, List.length_map, hcolumns, hlists]

/-- The listeners after posts are found by increasing keys. -/
theorem ordered_after (posts : List Post) : (Audience.after {} posts).Ordered :=
  ((Actor.Took.all posts).listeners "").1

/-- After any posts there are as many listeners as subscriptions stand. -/
theorem size_after (posts : List Post) : (Audience.after {} posts).size = (Post.standing posts).length := by
  have hperm := ((Actor.Took.all posts).listeners "").2.length_eq
  rw [List.length_map] at hperm
  rw [size_eq _ ""]
  exact hperm

/-- After any posts the list of a target is the sorted log of the subscriptions that stand on it. -/
theorem listOn_after (posts : List Post) (x : Target) :
    (Audience.after {} posts).listOn x = Listeners.arranged (Post.standingOn x posts) := by
  induction posts using List.reverseRecOn with
  | nil =>
    have hlog : Listeners.arranged (Post.standingOn x []) = [] := List.mergeSort_nil
    rw [hlog]
    cases x <;> rfl
  | append_singleton posts p ih =>
    have hlast : Audience.after {} (posts ++ [p]) = (Actor.handle (Audience.after {} posts) p).1 := by
      rw [after_append]
      rfl
    rw [hlast]
    cases p with
    | subscribe s =>
      refine (listOn_subscribe _ s x).trans ?_
      rw [Post.standingOn_subscribe, ih]
      split
      next => exact (Listeners.arranged_append _ _).symm
      next => rw [List.append_nil]
    | remove d =>
      refine ((ordered_after posts).listOn_remove d x).trans ?_
      rw [Post.standingOn_remove, ih, Listeners.arranged_without]
    | event e =>
      rw [Post.standingOn_event]
      exact ih

end Audience

end LiveQuery
