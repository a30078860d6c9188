import LiveQuery.Proofs.Database.Reachable
import LiveQuery.Proofs.Live.Following

/-! # Convergence

A client that takes the result of a live query and adds each row that it is told of at the path of the message has, when
rows were inserted and all is quiet again, the result that the query has then, up to the order of the rows within each
list (`Database.live_converges`). Each round tells the rows that are new, so no row is missing and none is told twice.
-/
namespace LiveQuery

/-- The rows that a channel is told of in rounds of insertions, in the order of the messages. -/
inductive Tells (texts : String → Prop) (q : Query) (u : Subscriber) (s : Database) : List Told → Database → Prop
  | rest : Tells texts q u s [] s
  | round {told more : List Told} {t v : Database} (before : Tells texts q u s told t) (inserts : Inserts texts t v)
      (received : v.received u = t.received u ++ more.map (Told.message u)) (new : ∀ a ∈ more, a.IsNew q t v) :
      Tells texts q u s (told ++ more) v

section Rounds

variable {texts : String → Prop} {q : Query} {u : Subscriber} {s t : Database}

/-- Along rounds of insertions a client keeps the rows of the result. -/
theorem Database.Follows.rounds (hrun : Run texts Database.WellTyped s) (hquiet : s.isQuiet = true)
    (hlevels : q.levels ≤ Plan.maxPoints) (h : s.Follows q u) (hrounds : Relation.ReflTransGen (Inserts texts) s t) :
    Run texts Database.WellTyped t ∧ t.isQuiet = true ∧ t.Follows q u ∧ ∃ told, Tells texts q u s told t ∧
      t.received u = s.received u ++ told.map (Told.message u) ∧
        (q.spot.entries (q.spot.rows t.schema t.store)).Perm
          (q.spot.entries (q.spot.rows s.schema s.store) ++ told.flatMap Told.entries) ∧
            (q.spot.entries (told.foldl Told.add (q.spot.rows s.schema s.store))).Perm
              (q.spot.entries (q.spot.rows t.schema t.store)) := by
  induction hrounds with
  | refl => exact ⟨hrun, hquiet, h, [], .rest, by simp, by simp, List.Perm.refl _⟩
  | @tail t v _ hround ih =>
    obtain ⟨hrun, hquiet, h, told, htells, hreceived, hgained, hkept⟩ := ih
    obtain ⟨hrun', hquiet', h', more, hmore, hnew, hknown, hentries⟩ := hround.told hrun hquiet hlevels h
    refine ⟨hrun', hquiet', h', told ++ more, .round htells hround hmore hnew, ?_, ?_, ?_⟩
    · rw [hmore, hreceived, List.map_append, List.append_assoc]
    · rw [List.flatMap_append, ← List.append_assoc]
      exact hentries.trans (hgained.append_right _)
    · -- the rows that the client has are those of the result, so the lists that grow are there
      have hordered := (Reachable.of_run hrun').inOrder
      have hdistinct := Spot.distinct_rows hordered.schema hordered.store hrun'.fitting.rowsKeyed q.spot hlevels
      have hall :
          (q.spot.entries (told.foldl Told.add (q.spot.rows s.schema s.store)) ++ more.flatMap Told.entries).Perm
            (q.spot.entries (q.spot.rows v.schema v.store)) := (hkept.append_right _).trans hentries.symm
      rw [List.foldl_append]
      refine (Told.entries_addAll rfl (hdistinct.of_perm hall) fun a ha => ?_).trans hall
      exact Spot.mem_below_of_perm (hkept.trans (List.Perm.of_eq (List.append_nil _).symm)) (hknown a ha)

/-- The rows that a client is told of are different from each other and from those that it has. -/
theorem Told.sites_nodup {x : Spot} {rows rows' : List Node} {told : List Told} (hd : Entry.Distinct (x.entries rows'))
    (h : (x.entries rows').Perm (x.entries rows ++ told.flatMap Told.entries)) :
    ((x.entries rows).map Entry.path ++ told.map Told.site).Nodup := by
  have hpaths := (hd.of_perm h.symm).paths
  rw [List.map_append] at hpaths
  have hsites : (told.map Told.site).Sublist ((told.flatMap Told.entries).map Entry.path) := by
    rw [List.map_eq_flatMap, List.map_flatMap]
    refine List.Sublist.flatMap_right _ fun a _ => List.singleton_sublist.mpr ?_
    obtain ⟨e, he, hpath⟩ := self_mem_entries a.row a.spot.query.table a.spot.path
    refine List.mem_map.mpr ⟨e, ?_, hpath⟩
    rw [Told.entries, Spot.entries, nodeEntries_eq, List.flatMap_singleton]
    exact he
  exact (hsites.append_left _).nodup hpaths

end Rounds

/-- A client that adds each row that it is told of to the result of a live query has, after any insertions, the rows
that the query has then, up to their order, and nothing was told twice. -/
theorem Database.live_converges {texts : String → Prop} {q : Query} {u : Subscriber} {s t v w : Database}
    {text : String} {data : Json} (run : Run texts Database.WellTyped s) (quiet : s.isQuiet = true)
    (asked : Asked texts s (.channel u) text t) (read : Statement.read text = .ok (.select true q))
    (many : q.cardinality = .many) (levels : q.levels ≤ Plan.maxPoints) (test : t.WellTyped)
    (runs : Relation.ReflTransGen (StepIn Database.WellTyped) t v) (quiet' : v.isQuiet = true)
    (answered : .result u.channel data ∈ v.received u) (inserts : Relation.ReflTransGen (Inserts texts) v w) :
    data = .arr ((q.nodes v.schema v.store none).map Node.json) ∧
    ∃ told, Tells texts q u v told w ∧ w.received u = .result u.channel data :: told.map (Told.message u) ∧
      ((q.spot.entries (q.nodes v.schema v.store none)).map Entry.path ++ told.map Told.site).Nodup ∧
      ∃ rows, nodesSame (told.foldl Told.add (q.nodes v.schema v.store none)) rows ∧
        ∃ n, ∀ fuel, n ≤ fuel → ∀ o, w.begin fuel o (.select false q) =
          some (w, .actions (o.finish (.ok (.arr (rows.map Node.json))))) := by
  obtain ⟨hrun, hfollows, hreceived, hdata⟩ :=
    Database.Follows.of_live run quiet levels asked read many test runs quiet' answered
  obtain ⟨hrun', -, hfollows', told, htells, htold, hgained, hkept⟩ := hfollows.rounds hrun quiet' levels inserts
  have hreachable := Reachable.of_run hrun'
  have hordered := hreachable.inOrder
  have hdistinct := Spot.distinct_rows hordered.schema hordered.store hrun'.fitting.rowsKeyed q.spot levels
  refine ⟨hdata, told, htells, by rw [htold, hreceived]; rfl, Told.sites_nodup hdistinct hgained,
    q.nodes w.schema w.store none, ?_, ?_⟩
  · exact nodes_same _ _ q.table Path.root (hdistinct.of_perm hkept) hkept.symm
  · obtain ⟨plan, hplan⟩ := Plan.select_of_planned hordered.schema hfollows'.planned
    have hresult : q.result w.schema w.store = .ok (.arr ((q.nodes w.schema w.store none).map Node.json)) := by
      rw [Query.result, many]
    rw [← hresult]
    exact hordered.answers hrun'.wellTyped.rows hplan

open Apart.Sample (admits wellTyped_of_run)

namespace Convergence.Sample

/-- People with their bosses, who are people, and one who is his own boss. -/
def staffed : List Cue :=
  [.call "CREATE TABLE people (id int PRIMARY KEY, boss int REFERENCES people)",
    .call "INSERT INTO people \x7bid: 1, boss: 1\x7d", .connect]

/-- People with those who report to them and with their bosses. -/
def people : String := "LIVE MANY people \x7bid, reports: MANY people \x7bid\x7d, boss: ONE people \x7bid\x7d\x7d"

/-- Somebody whose boss comes later, the boss, and one who is there already. -/
def hired : List String :=
  ["INSERT INTO people \x7bid: 3, boss: 2\x7d", "INSERT INTO people \x7bid: 2, boss: 1\x7d",
    "INSERT INTO people \x7bid: 3, boss: 1\x7d"]

/-- The query of a text that asks for many rows live. -/
def liveMany? (text : String) : Option Query :=
  match Statement.read text with
  | .ok (.select true q) => if q.cardinality = .many ∧ q.levels ≤ Plan.maxPoints then some q else none
  | _ => none

theorem of_liveMany? {text : String} {q : Query} (h : liveMany? text = some q) :
    Statement.read text = .ok (.select true q) ∧ q.cardinality = .many ∧ q.levels ≤ Plan.maxPoints := by
  unfold liveMany? at h
  split at h
  next q' hread =>
    split at h
    next hq =>
      cases h
      exact ⟨hread, hq⟩
    next => cases h
  next => cases h

/-- Whether a text inserts a row by an expression without type variables. -/
def insertsRow (text : String) : Bool :=
  admits text && match Statement.read text with
    | .ok (.insert ..) => true
    | _ => false

/-- Has rows inserted, one in each round. -/
def insertAll : List String → Database → Option Database
  | [], s => some s
  | text :: rest, s =>
    if insertsRow text && (s.call 0 text).store.fits then
      ((s.call 0 text).settleIn (·.store.fits) 60 60).bind (insertAll rest)
    else none

theorem of_insertAll {texts : List String} {s t : Database} (hs : Run (admits · = true) (·.store.fits = true) s)
    (h : insertAll texts s = some t) : Relation.ReflTransGen (Inserts (admits · = true)) s t := by
  induction texts generalizing s with
  | nil => cases h; exact .refl
  | cons text texts ih =>
    rw [insertAll] at h
    split at h
    next hok =>
      obtain ⟨v, hv, h⟩ := Option.bind_eq_some_iff.mp h
      obtain ⟨hinserts, hfits⟩ := Bool.and_eq_true_iff.mp hok
      obtain ⟨hadmits, hread⟩ := Bool.and_eq_true_iff.mp hinserts
      have hasked : Asked (admits · = true) s (.caller 0) text (s.call 0 text) := .call hadmits 0
      have hcalled := hs.move hasked.move hfits
      obtain ⟨hsteps, hquiet⟩ := Database.steps_of_settleIn hv
      split at hread
      next table row hinsert =>
        refine .head ?_ (ih (hcalled.steps hsteps) h)
        exact .round hasked hinsert (wellTyped_of_run hcalled)
          (StepIn.strengthen (fun _ => wellTyped_of_run) hcalled hsteps) hquiet
      next => cases hread
    next => cases h

/-- The result that a channel got, and nothing else. -/
def answer? (channel : Nat) : List Message → Option Json
  | [.result c data] => if c = channel then some data else none
  | _ => none

theorem mem_of_answer? {channel : Nat} {ms : List Message} {data : Json} (h : answer? channel ms = some data) :
    .result channel data ∈ ms := by
  unfold answer? at h
  split at h
  next c data' =>
    split at h
    next hc => cases h; rw [hc]; exact List.mem_singleton_self _
    next => cases h
  next => cases h

/-- The query is run live, and then the people are hired. -/
def hire : Option ((Database × Nat × Database) × Database × Database) :=
  (Database.playRounds admits (·.store.fits) 60 staffed ([], {})).bind fun (_, s) => (s.run 1 people).bind fun (c, t) =>
    if admits people && t.store.fits then
      (t.settleIn (·.store.fits) 60 60).bind fun v => (insertAll hired v).map fun w => ((s, c, t), v, w)
    else none

end Convergence.Sample

open Convergence.Sample in
/-- Somebody is told of as a person, and later as the boss of one person and among the reports of another one. -/
theorem Database.live_converges_people : ∃ q u s t v w data, Run (Apart.Sample.admits · = true) Database.WellTyped s ∧
    s.isQuiet = true ∧ Asked (Apart.Sample.admits · = true) s (.channel u) people t ∧
    Statement.read people = .ok (.select true q) ∧ q.cardinality = .many ∧ q.levels ≤ Plan.maxPoints ∧ t.WellTyped ∧
    Relation.ReflTransGen (StepIn Database.WellTyped) t v ∧ v.isQuiet = true ∧ .result u.channel data ∈ v.received u ∧
    Relation.ReflTransGen (Inserts (Apart.Sample.admits · = true)) v w ∧
    ∃ told, Tells (Apart.Sample.admits · = true) q u v told w ∧ told.length = 4 ∧
      ∃ rows, nodesSame (told.foldl Told.add (q.nodes v.schema v.store none)) rows := by
  have hplay : hire.any (fun ((_, c, _), v, w) => (answer? c (v.received ⟨1, c⟩)).isSome &&
      decide ((w.received ⟨1, c⟩).length = 5)) = true := by
    decide +kernel
  have hquery : (liveMany? people).isSome = true := by decide +kernel
  obtain ⟨q, hq⟩ := Option.isSome_iff_exists.mp hquery
  obtain ⟨hread, hmany, hlevels⟩ := of_liveMany? hq
  obtain ⟨⟨⟨s, c, t⟩, v, w⟩, hst, htest⟩ := (Option.any_eq_true _ _).mp hplay
  obtain ⟨hanswer, hlength⟩ := Bool.and_eq_true_iff.mp htest
  obtain ⟨data, hdata⟩ := Option.isSome_iff_exists.mp hanswer
  have hanswered := mem_of_answer? hdata
  obtain ⟨⟨past, s'⟩, hplayed, hst⟩ := Option.bind_eq_some_iff.mp hst
  obtain ⟨⟨c', t'⟩, hrun, hst⟩ := Option.bind_eq_some_iff.mp hst
  dsimp only at hst
  split at hst
  next hok =>
    obtain ⟨hadmits, hfits⟩ := Bool.and_eq_true_iff.mp hok
    obtain ⟨v', hv, hst⟩ := Option.bind_eq_some_iff.mp hst
    obtain ⟨w', hw, heq⟩ := Option.map_eq_some_iff.mp hst
    cases heq
    have hrounds : Rounds (Apart.Sample.admits · = true) (·.store.fits = true) past s := Rounds.start.play hplayed
    have hasked : Asked (Apart.Sample.admits · = true) s (.channel ⟨1, c⟩) people t := .run hadmits hrun
    have hcalled := hrounds.run.move hasked.move hfits
    obtain ⟨hsteps, hquiet⟩ := Database.steps_of_settleIn hv
    have hbefore : Run (Apart.Sample.admits · = true) Database.WellTyped s :=
      (hrounds.strengthen fun _ => wellTyped_of_run).run
    have hruns := StepIn.strengthen (fun _ => wellTyped_of_run) hcalled hsteps
    have hinserts := of_insertAll (hcalled.steps hsteps) hw
    obtain ⟨-, told, htells, hreceived, -, rows, hsame, -⟩ := Database.live_converges hbefore hrounds.quiet hasked hread
      hmany hlevels (wellTyped_of_run hcalled) hruns hquiet hanswered hinserts
    refine ⟨q, ⟨1, c⟩, s, t, v, w, data, hbefore, hrounds.quiet, hasked, hread, hmany, hlevels,
      wellTyped_of_run hcalled, hruns, hquiet, hanswered, hinserts, told, htells, ?_, rows, hsame⟩
    have hcount := of_decide_eq_true hlength
    rw [hreceived, List.length_cons, List.length_map] at hcount
    omega
  next => cases hst

end LiveQuery
