import LiveQuery.Proofs.Machine.Renders
import LiveQuery.Proofs.Typing.Accepted

/-! # Calls that make iterators

What the calls in a plan evaluate to: `scan` an iterator over the rows of a bucket, `filter` one over those
that pass a test, `listen` and `listenWhere` one that watches them (`OpensRows`), and `map` one that turns
into the list of what the rows are shown as (`Opens.map`).
-/
namespace LiveQuery

/-- In the scope `s`, at the path `here`, the expression has as its value an iterator over rows of type `row`
that gives `items`, and evaluating it sends `opened`. -/
def OpensRows (live : Option Watch) (s : Scope) (here : Path) (e : Expr) (row : Ty) (items : List Item)
    (opened : List Subscription) : Prop :=
  ∀ m : Machine, m.top.scope = s → m.top.path = here → m.live = live → m.rowPath = none →
    Ends (fun k => Eval.eval k e) m fun v m' => ∃ cells,
      v = .iterator (m.cells.toList.length + cells.length - 1) row ∧
      m.Becomes m' (m.cells.toList ++ cells) opened none ∧ Feeds m.cells.toList.length items cells

variable {live : Option Watch} {s : Scope} {here : Path} {α : Type} {as : List α} {value : α → Value}

/-- Adding a cell for an iterator under the frame of a built-in function. -/
theorem Machine.Becomes.allocate (m : Machine) (frame : Frame) (source : Source) :
    m.Becomes ((({ m with rowPath := none } : Machine).push frame).allocate source).2.pop
      (m.cells.toList ++ [.ready source]) [] none :=
  Machine.Becomes.pop ⟨rfl, rfl, Machine.cells_allocate _ _, (List.append_nil _).symm, rfl⟩

/-- Adding a cell above those that an argument of the function has made. -/
theorem Machine.Becomes.stage {m m₁ : Machine} {cells : List Cell} {opened : List Subscription}
    (h : m.Becomes m₁ (m.cells.toList ++ cells) opened none) (frame : Frame) (source : Source) :
    m.Becomes ((({ m₁ with rowPath := none } : Machine).push frame).allocate source).2.pop
      (m.cells.toList ++ (cells ++ [.ready source])) opened none := by
  have hm := h.trans (Machine.Becomes.allocate m₁ frame source)
  rw [h.cells, List.append_nil, List.append_assoc] at hm
  exact hm

theorem Machine.Becomes.stamped {m m₁ : Machine} {cells : List Cell} {opened : List Subscription}
    {path : Option Path} (h : m.Becomes m₁ cells opened path) (n : Nat) :
    m.Becomes { m₁ with stamps := n } cells opened path :=
  ⟨h.frames, h.live, h.cells, h.sent, h.rowPath⟩

/-- The number of the cell that is added above others. -/
theorem Machine.Becomes.handle {m m₁ : Machine} {cells : List Cell} {opened : List Subscription}
    (h : m.Becomes m₁ (m.cells.toList ++ cells) opened none) (source : Source) :
    m₁.cells.size = m.cells.toList.length + (cells ++ [Cell.ready source]).length - 1 := by
  rw [← Array.length_toList, h.cells]
  simp only [List.length_append, List.length_singleton]
  omega

/-- All rows of a bucket. -/
theorem OpensRows.scan {i : Index} (hkey : i.key.Proper) (hrow : i.row.Proper)
    (hordered : ∀ b, i.rows = some b → Keyed.Ordered b)
    (hvalues : List.Forall₂ (fun e a => Value.decode e.2 = .ok (value a)) (i.rows.getD []) as) :
    OpensRows live s here (.call "scan" [.index i] (.known .scan)) i.row (Feeds.plain value as) [] := by
  intro m hs hhere hlive hpath
  refine Ends.eval_call (Ends.mapM_cons (Ends.eval_index (Ends.mapM_nil ?_)))
  refine Ends.call_builtin (Builtin.accepts_scan hkey hrow) hrow.sorted fun frame _ => ?_
  refine Ends.of_exec (fun _ => rfl) ⟨rfl, [.ready (.rows (i.rows.map Cursor.start))], ?_, ?_, ?_⟩
  · simp [Machine.push]
  · exact Machine.Becomes.allocate m _ _
  · cases hb : i.rows with
    | none =>
      rw [hb] at hvalues
      cases hvalues
      exact Feeds.noRows
    | some b =>
      rw [hb] at hvalues
      exact Feeds.rows (Cursor.reads_start (hordered b hb)) hvalues

/-- The test of a closure is decided by the value of its body. -/
theorem Feeds.decides_closure {stamp : Nat} {name : String} {t result : Ty} {body : Expr} {scope : Scope}
    {v : Value} {b : Bool} (h : Evals (Links.child scope [(name, v)]) body (.bool b)) :
    Feeds.Decides (.closure stamp [(name, t)] result body scope) v b := by
  intro m hpath
  refine Ends.call_closure rfl fun frame hscope _ => (h _ hscope rfl).mono fun u m' hu => ?_
  obtain ⟨rfl, rfl⟩ := hu
  refine ⟨rfl, ?_⟩
  obtain ⟨top, callers, cells, calls, stamps, rowPath, live, sent⟩ := m
  cases hpath
  rfl

/-- The rows that pass a test. -/
theorem OpensRows.filter {e test : Expr} {name : String} {row : Ty} {opened : List Subscription}
    {p : α → Bool} (hrow : row.Proper)
    (htest : ∀ a ∈ as, Evals (Links.child s [(name, value a)]) test (.bool (p a)))
    (h : OpensRows live s here e row (Feeds.plain value as) opened) :
    OpensRows live s here (.call "filter" [e, .lambda [(name, row)] .bool test] (.known .filter)) row
      (Feeds.plain value (as.filter p)) opened := by
  intro m hs hhere hlive hpath
  refine Ends.eval_call (Ends.mapM_cons ((h m hs hhere hlive hpath).mono fun v m₁ hv => ?_))
  obtain ⟨cells, rfl, hm₁, hfeeds⟩ := hv
  refine Ends.mapM_cons (Ends.eval_lambda (Ends.mapM_nil ?_))
  have hscope : m₁.top.scope = s := by rw [Machine.top_eq_of_frames hm₁.frames, hs]
  refine Ends.call_builtin (Builtin.accepts_filter hrow) hrow.iterator.sorted fun frame _ => ?_
  refine Ends.of_exec (fun _ => rfl) ⟨rfl, _, ?_, (hm₁.stamped _).stage frame _, ?_⟩
  · exact congrArg (Value.iterator · row) (hm₁.handle _)
  · rw [hscope]
    exact Feeds.filtered (fun a ha => Feeds.decides_closure (htest a ha)) hfeeds

/-! ## Watched rows -/

/-- The subscription to the table of a point, if the watch does not resume at its root. -/
def Watch.tableSubscriptions (w : Watch) (p : Point) (filter : Option (String × Bytes)) (here : Path) :
    List Subscription :=
  if p.isRoot && w.resumed then []
  else [.table p.table filter ⟨w.subscriber, some p.query, w.pathOf p here⟩]

theorem exec_listenAt {w : Watch} {p : Point} {n : Int64} {value : Option Value}
    {filter : Option (String × Bytes)} {m : Machine} (h : Nat) (row : Ty) (hlive : m.live = some w)
    (hp : w.point n = .ok p) (hfilter : p.filter value = .ok filter) :
    ∃ m', (listenAt (.iterator h row) n value).exec m = some (.ok (.iterator m.cells.size row), m') ∧
      m.Becomes m' (m.cells.toList ++ [.ready (.watched h p (w.pathOf p m.top.path) w.subscriber)])
        (w.tableSubscriptions p filter m.top.path) m.rowPath := by
  simp only [listenAt, Eval.exec_bind, Eval.exec_get, Option.bind_some, Eval.next?_ok, hlive,
    Eval.exec_ofExcept, hp, Eval.exec_path]
  cases hc : p.isRoot && w.resumed with
  | true =>
    refine ⟨_, rfl, rfl, rfl, Array.toList_push, ?_, rfl⟩
    rw [Watch.tableSubscriptions, hc]
    exact (List.append_nil _).symm
  | false =>
    simp only [Bool.false_eq_true, if_false, Eval.exec_bind, Eval.exec_ofEncoding, hfilter, Option.bind_some]
    refine ⟨_, rfl, rfl, rfl, Array.toList_push, ?_, rfl⟩
    rw [Watch.tableSubscriptions, hc]
    exact Array.toList_push

section Listening

variable {w : Watch} {p : Point} {n : Int64} {e : Expr} {row : Ty} {key : α → Literal}

/-- The rows of a point as they are watched, at the path `here`. -/
def Watch.watched (w : Watch) (p : Point) (here : Path) (value : α → Value) (key : α → Literal)
    (as : List α) : List Item :=
  as.map fun a => Feeds.watchedItem p (w.pathOf p here) w.subscriber (value a) (key a)

theorem OpensRows.watch {narrowed : Option Value} {filter : Option (String × Bytes)} {cells : List Cell}
    {m m₁ : Machine} {frame : Frame} (hp : w.point n = .ok p) (hfilter : p.filter narrowed = .ok filter)
    (hkey : ∀ a ∈ as, (value a).member p.primaryKey = .ok (key a).value)
    (hfeeds : Feeds m.cells.toList.length (Feeds.plain value as) cells)
    (hm₁ : m.Becomes m₁ (m.cells.toList ++ cells) [] none) (hhere : m.top.path = here)
    (hlive : m.live = some w) (hframe : frame.path = m₁.rowPath.getD m₁.top.path) :
    Ends (fun _ => listenAt (.iterator (m.cells.toList.length + cells.length - 1) row) n narrowed)
      (({ m₁ with rowPath := none } : Machine).push frame) fun v m' => v.ty = .iterator row ∧ ∃ cells',
        v = .iterator (m.cells.toList.length + cells'.length - 1) row ∧
        m.Becomes m'.pop (m.cells.toList ++ cells') (w.tableSubscriptions p filter here) none ∧
        Feeds m.cells.toList.length (w.watched p here value key as) cells' := by
  have hpath : frame.path = here := by
    rw [hframe, hm₁.rowPath, Machine.top_eq_of_frames hm₁.frames, ← hhere]
    rfl
  obtain ⟨m', hexec, hm'⟩ := exec_listenAt (m := ({ m₁ with rowPath := none } : Machine).push frame)
    (m.cells.toList.length + cells.length - 1) row (hm₁.live.trans hlive) hp hfilter
  rw [Machine.push_top, hpath] at hm'
  have hpop := hm₁.trans (Machine.Becomes.pop hm')
  refine Ends.of_exec (fun _ => hexec) ⟨rfl, _, congrArg (Value.iterator · row) (hm₁.handle _), ?_,
    Feeds.watched hkey hfeeds⟩
  have hcells : m₁.cells.toList = m.cells.toList ++ cells := hm₁.cells
  simpa [Machine.push, hcells] using hpop

/-- Rows that are watched. -/
theorem OpensRows.listen (hrow : row.Proper) (hp : w.point n = .ok p) (hcolumn : p.filterColumn = none)
    (hkey : ∀ a ∈ as, (value a).member p.primaryKey = .ok (key a).value)
    (h : OpensRows (some w) s here e row (Feeds.plain value as) []) :
    OpensRows (some w) s here (.call "listen" [e, .int n] (.known .listen)) row
    (w.watched p here value key as)
      (w.tableSubscriptions p none here) := by
  intro m hs hhere hlive hpath
  refine Ends.eval_call (Ends.mapM_cons ((h m hs hhere hlive hpath).mono fun v m₁ hv => ?_))
  obtain ⟨cells, rfl, hm₁, hfeeds⟩ := hv
  refine Ends.mapM_cons (Ends.eval_int (Ends.mapM_nil ?_))
  refine Ends.call_builtin (Builtin.accepts_listen hrow) hrow.iterator.sorted fun frame hframe => ?_
  have hfilter : p.filter none = .ok none := by
    simp only [Point.filter, hcolumn]
    rfl
  exact OpensRows.watch hp hfilter hkey hfeeds hm₁ hhere hlive hframe

/-- Rows that are watched, for those with a value in a column. -/
theorem OpensRows.listenWhere {column : String} {x : Expr} {l : Literal} (hrow : row.Proper)
    (hp : w.point n = .ok p) (hcolumn : p.filterColumn = some column)
    (hkey : ∀ a ∈ as, (value a).member p.primaryKey = .ok (key a).value) (hx : Evals s x l.value)
    (h : OpensRows (some w) s here e row (Feeds.plain value as) []) :
    OpensRows (some w) s here (.call "listenWhere" [e, .int n, x] (.known .listenWhere)) row
      (w.watched p here value key as) (w.tableSubscriptions p (some (column, l.keyBytes)) here) := by
  intro m hs hhere hlive hpath
  refine Ends.eval_call (Ends.mapM_cons ((h m hs hhere hlive hpath).mono fun v m₁ hv => ?_))
  obtain ⟨cells, rfl, hm₁, hfeeds⟩ := hv
  have hscope : m₁.top.scope = s := by rw [Machine.top_eq_of_frames hm₁.frames, hs]
  refine Ends.mapM_cons (Ends.eval_int (Ends.mapM_cons ((hx m₁ hscope hm₁.rowPath).mono fun u m₂ hu =>
    Ends.mapM_nil ?_)))
  obtain ⟨rfl, rfl⟩ := hu
  have hl : l.value.ty.Proper := by cases l <;> exact ⟨rfl, trivial⟩
  refine Ends.call_builtin (Builtin.accepts_listenWhere hrow hl) hrow.iterator.sorted fun frame hframe => ?_
  have hfilter : p.filter (some l.value) = .ok (some (column, l.keyBytes)) := by
    simp only [Point.filter, hcolumn, Literal.toKey_value]
    rfl
  exact OpensRows.watch hp hfilter hkey hfeeds hm₁ hhere hlive hframe

end Listening

/-! ## Mapped rows -/

/-- A closure yields what its body is shown as, at the path of the row it is called for. -/
theorem Yields.closure {stamp : Nat} {name : String} {t result : Ty} {body : Expr} {scope : Scope} {i : Item}
    {o : Output} (h : ∀ here, (∀ p, i.rowPath = some p → here = p) →
      Opens live (Links.child scope [(name, i.value)]) here body o) :
    Yields live (.closure stamp [(name, t)] result body scope) i o := by
  intro m hlive hpath
  refine Ends.call_closure rfl fun frame hscope hframe => ?_
  have hopens := h frame.path (fun p hp => by rw [hframe, hpath, hp]; rfl)
  refine (hopens (({ m with rowPath := none } : Machine).push frame) hscope rfl hlive rfl).mono
    fun v m' hv => ?_
  obtain ⟨cells, hm', hrenders⟩ := hv
  exact ⟨cells, hm'.pop, hrenders⟩

/-- Rows that are mapped to what they are shown as. -/
theorem Opens.map {e body : Expr} {name : String} {row result : Ty} {items : List Item}
    {outputs : List Output} {opened : List Subscription} (hrow : row.Proper) (hresult : result.Proper)
    (hrows : OpensRows live s here e row items opened)
    (hbody : List.Forall₂ (fun i o => ∀ here, (∀ p, i.rowPath = some p → here = p) →
      Opens live (Links.child s [(name, i.value)]) here body o) items outputs) :
    Opens live s here (.call "map" [e, .lambda [(name, row)] result body] (.known .map)) {
      json := .arr (outputs.map Output.json)
      opened
      read := (List.zipWith Item.allSent items outputs).flatten } := by
  intro m hs hhere hlive hpath
  refine Ends.eval_call (Ends.mapM_cons ((hrows m hs hhere hlive hpath).mono fun v m₁ hv => ?_))
  obtain ⟨cells, rfl, hm₁, hfeeds⟩ := hv
  have hscope : m₁.top.scope = s := by rw [Machine.top_eq_of_frames hm₁.frames, hs]
  refine Ends.mapM_cons (Ends.eval_lambda (Ends.mapM_nil ?_))
  refine Ends.call_builtin (Builtin.accepts_map hrow hresult) hresult.iterator.sorted fun frame _ => ?_
  refine Ends.of_exec (fun _ => rfl) ⟨rfl, _, (hm₁.stamped _).stage frame _, ?_⟩
  have hsize : m₁.cells.size = m.cells.toList.length + cells.length := by
    rw [← Array.length_toList, hm₁.cells, List.length_append]
  show Renders live (.iterator m₁.cells.size result) _ _ _ _
  rw [hsize, hscope]
  exact Renders.mapped (hbody.imp fun i o h => Yields.closure h) hfeeds result

end LiveQuery
