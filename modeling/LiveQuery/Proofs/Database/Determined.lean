import LiveQuery.Proofs.Database.Served

/-! # What a statement comes to is determined

The tables and rows decide what a statement comes to, whatever the fuel of its steps (`Serves.unique`). Who sent it
decides no more than where it subscribes and whether a live query fails (`Serves.same_changes`).
-/
namespace LiveQuery

section Evaluations

variable {fuel fuel' : Nat} {schema : Schema} {store : Store}

theorem evaluate_mono (h : fuel ≤ fuel') {e : Expr} {r : Evaluation Json}
    (hr : evaluate fuel schema store e = some r) : evaluate fuel' schema store e = some r := by
  unfold evaluate at hr ⊢
  split at hr
  next => exact hr
  next => exact Evaluation.run_mono h hr

theorem prepareInsert_mono (h : fuel ≤ fuel') {table : String} {row : Expr} {r : Except Fault Write}
    (hr : prepareInsert fuel schema store table row = some r) :
    prepareInsert fuel' schema store table row = some r := by
  unfold prepareInsert at hr ⊢
  split at hr
  next => exact hr
  next =>
    split at hr
    next => exact hr
    next =>
      split at hr
      next => exact hr
      next =>
        dsimp only at hr ⊢
        split at hr
        next => cases hr
        next f m hrun =>
          have hmore := Eval.Below.after (Eval.load row) (Eval.eval_mono h) _ _ hrun
          rw [Eval.exec] at hmore
          rw [hmore]
          exact hr
        next v m hrun =>
          have hmore := Eval.Below.after (Eval.load row) (Eval.eval_mono h) _ _ hrun
          rw [Eval.exec] at hmore
          rw [hmore]
          exact hr

theorem evaluate_unique {e : Expr} {r r' : Evaluation Json} (hr : evaluate fuel schema store e = some r)
    (hr' : evaluate fuel' schema store e = some r') : r = r' := by
  rcases Nat.le_total fuel fuel' with h | h
  · exact Option.some.inj ((evaluate_mono h hr).symm.trans hr')
  · exact Option.some.inj (hr.symm.trans (evaluate_mono h hr'))

theorem prepareInsert_unique {table : String} {row : Expr} {r r' : Except Fault Write}
    (hr : prepareInsert fuel schema store table row = some r)
    (hr' : prepareInsert fuel' schema store table row = some r') : r = r' := by
  rcases Nat.le_total fuel fuel' with h | h
  · exact Option.some.inj ((prepareInsert_mono h hr).symm.trans hr')
  · exact Option.some.inj (hr.symm.trans (prepareInsert_mono h hr'))

end Evaluations

namespace Database

variable {s : Database} {o o' : Origin} {text : String} {x x' : Service}

theorem Prepares.unique {st : Statement} {r r' : Except Fault Write} (h : s.Prepares st r) (h' : s.Prepares st r') :
    r = r' := by
  cases h with
  | insert fuel h =>
    cases h' with
    | insert fuel' h' => exact prepareInsert_unique h h'
  | update => cases h'; rfl
  | delete => cases h'; rfl

/-- What a statement comes to that makes a table. -/
def creates (s : Database) (d : TableDef) : Service :=
  match Catalog.admitted s.schema d with
  | .error f => s.replies (.error (.schema f))
  | .ok table =>
    { store := Catalog.persist s.store table
      schema := Catalog.add s.schema table
      reply := .ok (Write.answerOf "created" (.str table.name)) }

/-- What a statement comes to that writes, once it is checked. -/
def writes (s : Database) : Except Fault Write → Service
  | .error f => s.replies (.error f)
  | .ok w =>
    match w.commit s.store with
    | .error f => s.replies (.error f)
    | .ok c => { store := c.store, schema := s.schema, event := c.event, reply := .ok c.answer }

theorem Serves.of_create {d : TableDef} (read : Statement.read text = .ok (.create d)) (h : s.Serves o text x) :
    x = s.creates d := by
  unfold creates
  cases h with
  | created read' admitted =>
    cases read.symm.trans read'
    rw [admitted]
  | unmade read' failed =>
    cases read.symm.trans read'
    rw [failed]
  | unprepared read' prepares | refused read' prepares | committed read' prepares =>
    cases read.symm.trans read'
    cases prepares
  | unread read' | evaluated read' | unanchored read' | selected read' => cases read.symm.trans read'

theorem Serves.of_prepares {st : Statement} {r : Except Fault Write} (read : Statement.read text = .ok st)
    (prepares : s.Prepares st r) (h : s.Serves o text x) : x = s.writes r := by
  cases h with
  | unprepared read' prepares' =>
    cases read.symm.trans read'
    cases prepares.unique prepares'
    rfl
  | refused read' prepares' failed =>
    cases read.symm.trans read'
    cases prepares.unique prepares'
    rw [writes, failed]
  | committed read' prepares' made =>
    cases read.symm.trans read'
    cases prepares.unique prepares'
    rw [writes, made]
  | created read' | unmade read' | evaluated read' | unanchored read' | selected read' =>
    cases read.symm.trans read'
    cases prepares
  | unread read' => cases read.symm.trans read'

theorem Serves.of_unread {f : ReadFault} (read : Statement.read text = .error f) (h : s.Serves o text x) :
    x = s.replies (.error (.read f)) := by
  cases h with
  | unread read' => cases read.symm.trans read'; rfl
  | created read' | unmade read' | unprepared read' | refused read' | committed read' | evaluated read'
  | unanchored read' | selected read' => cases read.symm.trans read'

theorem Serves.of_eval {e : Expr} (read : Statement.read text = .ok (.eval e)) (h : s.Serves o text x) :
    ∃ fuel r, evaluate fuel s.schema s.store e = some r ∧ x = s.replies r.outcome := by
  cases h with
  | evaluated read' fuel run => cases read.symm.trans read'; exact ⟨fuel, _, run, rfl⟩
  | unprepared read' prepares | refused read' prepares | committed read' prepares =>
    cases read.symm.trans read'
    cases prepares
  | unread read' | created read' | unmade read' | unanchored read' | selected read' => cases read.symm.trans read'

theorem Serves.of_select {live : Bool} {q : Query} (read : Statement.read text = .ok (.select live q))
    (h : s.Serves o text x) : (∃ f, anchorFor live o = .error f ∧ x = s.replies (.error f)) ∨
      ∃ anchor fuel r, anchorFor live o = .ok anchor ∧ select fuel s.schema s.store q anchor = some r ∧
        x = { s.replies (r.outcome.bind q.answer) with sent := r.sent } := by
  cases h with
  | unanchored read' failed => cases read.symm.trans read'; exact .inl ⟨_, failed, rfl⟩
  | selected read' anchored fuel run => cases read.symm.trans read'; exact .inr ⟨_, fuel, _, anchored, run, rfl⟩
  | unprepared read' prepares | refused read' prepares | committed read' prepares =>
    cases read.symm.trans read'
    cases prepares
  | unread read' | created read' | unmade read' | evaluated read' => cases read.symm.trans read'

/-- What a statement comes to is the same whoever sends it, or it changes nothing. -/
theorem Serves.same_or_silent (h : s.Serves o text x) : (∀ {o' x'}, s.Serves o' text x' → x' = x) ∨
    (x.store = s.store ∧ x.schema = s.schema ∧ x.event = none) := by
  have hcreate : ∀ {d}, Statement.read text = .ok (.create d) → ∀ {o' x'}, s.Serves o' text x' → x' = x :=
    fun read _ _ h' => (h'.of_create read).trans (h.of_create read).symm
  have hwrite : ∀ {st r}, Statement.read text = .ok st → s.Prepares st r → ∀ {o' x'}, s.Serves o' text x' → x' = x :=
    fun read prepares _ _ h' => (h'.of_prepares read prepares).trans (h.of_prepares read prepares).symm
  cases h with
  | created read | unmade read => exact .inl (hcreate read)
  | unprepared read prepares | refused read prepares | committed read prepares => exact .inl (hwrite read prepares)
  | unread | evaluated | unanchored | selected => exact .inr ⟨rfl, rfl, rfl⟩

/-- What a statement does to tables and rows, and the write that it publishes, are the same whoever sends it. -/
theorem Serves.same_changes (h : s.Serves o text x) (h' : s.Serves o' text x') :
    x'.store = x.store ∧ x'.schema = x.schema ∧ x'.event = x.event := by
  rcases h.same_or_silent with hsame | ⟨hstore, hschema, hevent⟩
  · rw [hsame h']
    exact ⟨rfl, rfl, rfl⟩
  · rcases h'.same_or_silent with hsame | ⟨hstore', hschema', hevent'⟩
    · rw [hsame h]
      exact ⟨rfl, rfl, rfl⟩
    · rw [hstore, hstore', hschema, hschema', hevent, hevent']
      exact ⟨rfl, rfl, rfl⟩

/-- A statement comes to one thing, whatever the fuel of its steps. -/
theorem Serves.unique (h : s.Serves o text x) (h' : s.Serves o text x') : x' = x := by
  have hself := h
  cases h with
  | created read | unmade read => exact (h'.of_create read).trans (hself.of_create read).symm
  | unprepared read prepares | refused read prepares | committed read prepares =>
    exact (h'.of_prepares read prepares).trans (hself.of_prepares read prepares).symm
  | unread read => exact h'.of_unread read
  | evaluated read fuel run =>
    obtain ⟨fuel', r', run', rfl⟩ := h'.of_eval read
    rw [evaluate_unique run run']
  | unanchored read failed =>
    rcases h'.of_select read with ⟨f, failed', rfl⟩ | ⟨anchor, fuel, r, anchored, -⟩
    · cases failed.symm.trans failed'
      rfl
    · cases failed.symm.trans anchored
  | selected read anchored fuel run =>
    rcases h'.of_select read with ⟨f, failed, -⟩ | ⟨anchor, fuel', r', anchored', run', rfl⟩
    · cases anchored.symm.trans failed
    · cases anchored.symm.trans anchored'
      rw [select_unique run run']

end Database

end LiveQuery
