import LiveQuery.Proofs.Database.StoredRows
import LiveQuery.Proofs.Query.Arrange

/-! # Queries on reachable databases

A database is `Reachable` if it was opened on a store and has moved since, in any way. Its tables are valid
and its entries are in key order, so a query that has a plan gives its result (`Reachable.begin_select`).
-/
namespace LiveQuery

/-- A database that was opened on a store whose keys are in order, after any moves. -/
inductive Reachable : Database → Prop
  | opened {store : Store} {s : Database} (ordered : store.Ordered) (h : Database.ofStore store = .ok s) :
      Reachable s
  | move {s t : Database} (before : Reachable s) (h : Move (fun _ => True) s t) : Reachable t

/-- What every reachable database keeps. -/
structure Database.InOrder (s : Database) : Prop where
  schema : s.schema.Valid
  store : s.store.Ordered

namespace Database.InOrder

variable {s t : Database}

theorem of_persist {store : Store} (h : store.Ordered) (t : Table) : (Catalog.persist store t).Ordered :=
  ((h.touch _).put _ _ _).touch _

theorem of_commit {store : Store} {w : Write} {c : Committed} (h : store.Ordered) (hc : w.commit store =
    .ok c) :
    c.store.Ordered := by
  cases w with
  | insert table key row =>
    simp only [Write.commit] at hc
    split at hc
    next => cases hc
    next => cases hc; exact h.put _ _ _
  | update table key assignments =>
    simp only [Write.commit] at hc
    split at hc
    next => cases hc; exact h
    next =>
      obtain ⟨new, -, hc⟩ := ok_of_bind hc
      cases hc
      exact h.put _ _ _
  | delete table key =>
    simp only [Write.commit] at hc
    split at hc <;> cases hc <;> exact h.delete _ _

theorem changes {task : Task} (hs : s.InOrder) (h : Changes s task t) : t.InOrder := by
  cases h with
  | none store schema => exact ⟨schema ▸ hs.schema, store ▸ hs.store⟩
  | create read admitted store schema =>
    exact ⟨schema ▸ hs.schema.add (Catalog.admitted_spec admitted).1, store ▸ of_persist hs.store _⟩
  | commit made store schema => exact ⟨schema ▸ hs.schema, store ▸ of_commit hs.store made⟩

theorem step (hs : s.InOrder) (h : Step s t) : t.InOrder := by
  rcases h.spec with ⟨task, -, hchanges, -⟩ | ⟨hstore, hschema, -⟩
  · exact hs.changes hchanges
  · exact ⟨hschema ▸ hs.schema, hstore ▸ hs.store⟩

theorem move {texts : String → Prop} (hs : s.InOrder) (h : Move texts s t) : t.InOrder := by
  rcases h.spec with h | ⟨hstore, hschema, -⟩
  · exact hs.step h
  · exact ⟨hschema ▸ hs.schema, hstore ▸ hs.store⟩

theorem opened {store : Store} (ordered : store.Ordered) (h : Database.ofStore store = .ok s) : s.InOrder := by
  obtain ⟨schema, hload, rfl⟩ := eq_of_ofStore h
  exact ⟨Catalog.valid_of_load hload, ordered⟩

/-- A query that is not live and has a plan is answered by its result. -/
theorem answers (hs : s.InOrder) (hrows : RowsTyped s.schema s.store) {q : Query} {plan : Expr}
    (hplan : Plan.select s.schema (Catalog.types s.schema) q = .ok plan) :
    ∃ n, ∀ fuel, n ≤ fuel → ∀ o, s.begin fuel o (.select false q) =
      some (s, .actions (o.finish (q.result s.schema s.store))) := by
  obtain ⟨n, hselect⟩ := select_eq hs.schema hs.store hrows hplan
  have hdistinct : q.Distinct := by
    obtain ⟨⟨e, points⟩, hlevel, -⟩ := ok_of_bind hplan
    exact Plan.distinct_of_level q hlevel
  refine ⟨n, fun fuel hfuel o => ?_⟩
  simp only [Database.begin, anchorFor, hselect fuel hfuel, Option.map_some, Query.arrange_rawRows hdistinct,
    Except.bind, Query.answer_rows]
  rfl

end Database.InOrder

namespace Reachable

variable {s : Database}

theorem inOrder (h : Reachable s) : s.InOrder := by
  induction h with
  | opened ordered h => exact Database.InOrder.opened ordered h
  | move _ h ih => exact ih.move h

theorem of_run {texts : String → Prop} {P : Database → Prop} (h : Run texts P s) : Reachable s := by
  induction h with
  | start => exact .opened Store.ordered_empty rfl
  | move _ h _ ih => exact ih.move (h.mono fun _ _ => trivial)

/-- A query that is not live succeeds if it has a plan, and its answer is its result: the rows of its tables,
in key order, that meet its filters and belong to the rows around them. -/
theorem begin_select (h : Reachable s) (hrows : RowsTyped s.schema s.store) {q : Query} {plan : Expr}
    (hplan : Plan.select s.schema (Catalog.types s.schema) q = .ok plan) :
    (∀ table, Keyed.Ordered (s.store.entries table)) ∧
    ∃ n, ∀ fuel, n ≤ fuel → ∀ o, s.begin fuel o (.select false q) =
      some (s, .actions (o.finish (q.result s.schema s.store))) :=
  ⟨h.inOrder.store.entries, h.inOrder.answers hrows hplan⟩

namespace Sample

/-- Users with their posts of one title, and with each post its author. -/
def userPosts : Query :=
  .mk .many "users" [] [.column "name", .nested "posts" (.mk .many "posts" [⟨"title", .str "x"⟩]
    [.column "id", .nested "by" (.mk .one "users" [] [.column "name"])])]

/-- Two users, of whom the second one, who was stored first, has such a post. -/
def script : List (String ⊕ Nat) :=
  [.inl "CREATE TABLE users (id int PRIMARY KEY, name string)", .inr 0,
    .inl "CREATE TABLE posts (id int PRIMARY KEY, title string, author int REFERENCES users)", .inr 1,
    .inl "INSERT INTO users \x7bid: 2, name: \"b\"\x7d", .inr 2, .inr 2,
    .inl "INSERT INTO users \x7bid: 1, name: \"a\"\x7d", .inr 3, .inr 3,
    .inl "INSERT INTO posts \x7bid: 7, title: \"x\", author: 2\x7d", .inr 4, .inr 4]

/-- What is shown of them. -/
def shown : String :=
  "[\x7b\"name\":\"a\",\"posts\":[]\x7d," ++
    "\x7b\"name\":\"b\",\"posts\":[\x7b\"by\":\x7b\"name\":\"b\"\x7d,\"id\":7\x7d]\x7d]"

end Sample

open Reachable.Sample in
theorem begin_select_userPosts : ∃ s, Reachable s ∧ RowsTyped s.schema s.store ∧
    (∃ plan, Plan.select s.schema (Catalog.types s.schema) userPosts = .ok plan) ∧
    (∃ n, ∀ fuel, n ≤ fuel → ∀ o, s.begin fuel o (.select false userPosts) =
      some (s, .actions (o.finish (userPosts.result s.schema s.store)))) ∧
    (userPosts.result s.schema s.store).toOption.map Json.compact = some shown := by
  have hplay : (Database.play groundInsert (·.store.fits) 30 script {}).any (fun s =>
      (Plan.select s.schema (Catalog.types s.schema) userPosts).toOption.isSome &&
        decide ((userPosts.result s.schema s.store).toOption.map Json.compact = some shown)) = true := by
    decide +kernel
  obtain ⟨s, hrun, htest⟩ := Run.exists_of_play hplay
  rw [Bool.and_eq_true, decide_eq_true_iff] at htest
  obtain ⟨hplan, hresult⟩ := htest
  have hrows : RowsTyped s.schema s.store := (Database.Typed.of_run hrun).rows
  cases hselect : Plan.select s.schema (Catalog.types s.schema) userPosts with
  | error f =>
    rw [hselect] at hplan
    cases hplan
  | ok plan => exact ⟨s, of_run hrun, hrows, ⟨plan, hselect⟩, (begin_select (of_run hrun) hrows hselect).2,
      hresult⟩

end Reachable

end LiveQuery
