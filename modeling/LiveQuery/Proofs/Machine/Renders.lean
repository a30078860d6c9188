import LiveQuery.Proofs.Machine.Feeds

/-! # Values that turn into known data

`Renders` says which data a value turns into, and which subscriptions are sent meanwhile; the iterators in it
may have been made long before. `Opens` says of an expression that it has such a value, and `Output` is what
is shown of it. A record is shown as the object of its fields (`Opens.record`), and an iterator that maps a
function over known elements turns into the list of what the results are shown as (`Renders.mapped`).
-/
namespace LiveQuery

/-- In a machine with the watch `live`, the value turns into the data `json`, sending `sent`. Its iterators
lie in the cells `cells`, which start at number `start`. -/
def Renders (live : Option Watch) (v : Value) (start : Nat) (cells : List Cell) (json : Json)
    (sent : List Subscription) : Prop :=
  ∀ m pre post, pre.length = start → m.cells.toList = pre ++ cells ++ post → m.live = live →
    m.rowPath = none → Ends (fun k => Eval.toJson k v) m fun j m' => j = json ∧
      ∃ cells' more, m.Becomes m' (pre ++ cells' ++ post ++ more) sent none ∧ cells'.length = cells.length

/-- What an expression is shown as: the data that its value turns into, and the subscriptions sent when it is
evaluated and when the value is turned into data. -/
structure Output where
  json : Json
  opened : List Subscription := []
  read : List Subscription := []

/-- In the scope `s`, at the path `here`, the expression is shown as `o`. -/
def Opens (live : Option Watch) (s : Scope) (here : Path) (e : Expr) (o : Output) : Prop :=
  ∀ m : Machine, m.top.scope = s → m.top.path = here → m.live = live → m.rowPath = none →
    Ends (fun k => Eval.eval k e) m fun v m' => ∃ cells,
      m.Becomes m' (m.cells.toList ++ cells) o.opened none ∧
      Renders live v m.cells.toList.length cells o.json o.read

variable {live : Option Watch} {s : Scope} {here : Path}

theorem Renders.literal (l : Literal) (start : Nat) : Renders live l.value start [] l.json [] := by
  intro m pre post _ hcells _ hpath
  refine (Feeds.toJson_literal l).mono fun j m' hj => ⟨hj.1, [], [], ?_, rfl⟩
  obtain ⟨-, rfl⟩ := hj
  rw [List.append_nil, ← hcells, ← hpath]
  exact Machine.Becomes.refl m'

theorem Opens.literal {e : Expr} {l : Literal} (h : Evals s e l.value) :
    Opens live s here e { json := l.json } := by
  intro m hs _ _ hpath
  refine (h m hs hpath).mono fun v m' hv => ?_
  obtain ⟨rfl, rfl⟩ := hv
  refine ⟨[], ?_, Renders.literal l _⟩
  rw [List.append_nil, ← hpath]
  exact Machine.Becomes.refl m'

/-! ## Records -/

/-- The fields of a record, turned into data one after another. -/
def RendersFields (live : Option Watch) (fields : List (String × Value)) (start : Nat) (cells : List Cell)
    (outputs : List (String × Output)) : Prop :=
  ∀ m pre post, pre.length = start → m.cells.toList = pre ++ cells ++ post → m.live = live →
    m.rowPath = none →
    Ends (fun k => fields.mapM fun f => do return (f.1, ← Eval.toJson k f.2)) m fun js m' =>
      js = Keyed.mapValues Output.json outputs ∧ ∃ cells' more,
        m.Becomes m' (pre ++ cells' ++ post ++ more) (outputs.flatMap (·.2.read)) none ∧
        cells'.length = cells.length

theorem RendersFields.nil (start : Nat) : RendersFields live [] start [] [] := by
  intro m pre post _ hcells _ hpath
  refine Ends.mapM_nil ⟨rfl, [], [], ?_, rfl⟩
  rw [List.append_nil, ← hcells, ← hpath]
  exact Machine.Becomes.refl m

theorem RendersFields.cons {name : String} {v : Value} {o : Output} {fields : List (String × Value)}
    {start : Nat} {cells rest : List Cell} {outputs : List (String × Output)}
    (h : Renders live v start cells o.json o.read)
    (hrest : RendersFields live fields (start + cells.length) rest outputs) :
    RendersFields live ((name, v) :: fields) start (cells ++ rest) ((name, o) :: outputs) := by
  intro m pre post hpre hcells hlive hpath
  refine Ends.mapM_cons (Ends.bind ((h m pre (rest ++ post) hpre (by simpa using hcells) hlive hpath).mono
    fun j m₁ hj => Ends.pure ?_))
  obtain ⟨rfl, cells₁, more₁, hm₁, hlength₁⟩ := hj
  have hat : (pre ++ cells₁).length = start + cells.length := by
    rw [List.length_append, hpre, hlength₁]
  refine (hrest m₁ (pre ++ cells₁) (post ++ more₁) hat (by rw [hm₁.cells]; simp) (hm₁.live.trans hlive)
    hm₁.rowPath).mono fun js m₂ hjs => ?_
  obtain ⟨rfl, cells₂, more₂, hm₂, hlength₂⟩ := hjs
  refine ⟨rfl, cells₁ ++ cells₂, more₁ ++ more₂, ?_, by simp [hlength₁, hlength₂]⟩
  have hm := hm₁.trans hm₂
  simpa using hm

theorem RendersFields.record {fields : List (String × Value)} {start : Nat} {cells : List Cell}
    {outputs : List (String × Output)} (h : RendersFields live fields start cells outputs) :
    Renders live (.record fields) start cells (.obj (Keyed.mapValues Output.json outputs))
      (outputs.flatMap (·.2.read)) := by
  intro m pre post hpre hcells hlive hpath
  refine Ends.succ (Ends.bind ((h m pre post hpre hcells hlive hpath).mono fun js m' hjs =>
    Ends.pure ?_)) fun k => rfl
  obtain ⟨rfl, hm'⟩ := hjs
  exact ⟨rfl, hm'⟩

theorem Opens.fields {fields : List (String × Expr)} {outputs : List (String × Output)}
    (h : List.Forall₂ (fun f o => f.1 = o.1 ∧ Opens live s here f.2 o.2) fields outputs) {m : Machine}
    (hs : m.top.scope = s) (hhere : m.top.path = here) (hlive : m.live = live) (hpath : m.rowPath = none) :
    Ends (fun k => fields.mapM fun f => do return (f.1, ← Eval.eval k f.2)) m fun fs m' =>
      ∃ cells, m.Becomes m' (m.cells.toList ++ cells) (outputs.flatMap (·.2.opened)) none ∧
        RendersFields live fs m.cells.toList.length cells outputs := by
  induction h generalizing m with
  | nil =>
    refine Ends.mapM_nil ⟨[], ?_, RendersFields.nil _⟩
    rw [List.append_nil, ← hpath]
    exact Machine.Becomes.refl m
  | @cons f o fields outputs hf _ ih =>
    obtain ⟨name, e⟩ := f
    obtain ⟨_, o⟩ := o
    obtain ⟨rfl, hopens⟩ := hf
    refine Ends.mapM_cons (Ends.bind ((hopens m hs hhere hlive hpath).mono fun v m₁ hv => Ends.pure ?_))
    obtain ⟨cells₁, hm₁, hrenders⟩ := hv
    have htop : m₁.top = m.top := Machine.top_eq_of_frames hm₁.frames
    refine (ih (by rw [htop, hs]) (by rw [htop, hhere]) (hm₁.live.trans hlive) hm₁.rowPath).mono
      fun fs m₂ hfs => ?_
    obtain ⟨cells₂, hm₂, hrest⟩ := hfs
    have hm := hm₁.trans hm₂
    rw [hm₁.cells] at hm hrest
    rw [List.length_append] at hrest
    exact ⟨cells₁ ++ cells₂, by simpa using hm, RendersFields.cons hrenders hrest⟩

/-- A record is shown as the object of what its fields are shown as. -/
theorem Opens.record {fields : List (String × Expr)} {outputs : List (String × Output)}
    (h : List.Forall₂ (fun f o => f.1 = o.1 ∧ Opens live s here f.2 o.2) fields outputs) :
    Opens live s here (.record fields) {
      json := .obj (Keyed.mapValues Output.json outputs)
      opened := outputs.flatMap (·.2.opened)
      read := outputs.flatMap (·.2.read) } := by
  intro m hs hhere hlive hpath
  refine Ends.eval_record ((Opens.fields h hs hhere hlive hpath).mono fun fs m' hfs => ?_)
  obtain ⟨cells, hm', hrenders⟩ := hfs
  exact ⟨cells, hm', hrenders.record⟩

/-! ## Mapped iterators -/

/-- The function gives a value for the item that is shown as `o`. -/
def Yields (live : Option Watch) (f : Function) (i : Item) (o : Output) : Prop :=
  ∀ m : Machine, m.live = live → m.rowPath = i.rowPath → Ends (fun k => Eval.call k f [i.value]) m fun v m' =>
    ∃ cells, m.Becomes m' (m.cells.toList ++ cells) o.opened none ∧
      Renders live v m.cells.toList.length cells o.json o.read

/-- What is sent for an item from when it is given out until its value is data. -/
def Item.allSent (i : Item) (o : Output) : List Subscription := i.sent ++ o.opened ++ o.read

variable {start : Nat} {cells : List Cell} {f : Function} {items : List Item} {outputs : List Output}

theorem drain_mapped (hyields : List.Forall₂ (Yields live f) items outputs) (h : Feeds start items cells)
    {m : Machine} {pre post : List Cell} (hpre : pre.length = start)
    (hcells : m.cells.toList =
      pre ++ (cells ++ [.ready (.mapped (start + cells.length - 1) f)]) ++ post)
    (hlive : m.live = live) (hpath : m.rowPath = none) :
    Ends (fun k => Eval.drain k (start + cells.length)) m fun js m' => js = outputs.map Output.json ∧
      ∃ cells' more, m.Becomes m' (pre ++ cells' ++ post ++ more)
        (List.zipWith Item.allSent items outputs).flatten none ∧ cells'.length = cells.length + 1 := by
  induction hyields generalizing cells m post with
  | nil =>
    have hbusy := Feeds.cells_setCell_above hpre hcells .busy
    refine Ends.succ (Ends.bind (Feeds.next_above hpre hcells rfl rfl ?_)) fun k => rfl
    refine Ends.succ (Ends.bind ((h _ pre _ hpre hbusy hpath).mono fun v m₁ hv => ?_)) fun k => rfl
    obtain ⟨rfl, below, hm₁, hlength⟩ := hv
    refine Ends.pure (Or.inl ⟨rfl, below, hm₁, hlength, fun m₂ hm₂ => Ends.pure ?_⟩)
    refine ⟨rfl, below ++ [.done] ++ [.done], [], ?_, by simp [← hlength]⟩
    rw [List.append_nil]
    exact hm₂
  | @cons i o items outputs hi _ ih =>
    have hbusy := Feeds.cells_setCell_above hpre hcells .busy
    refine Ends.succ (Ends.bind (Feeds.next_above hpre hcells rfl rfl ?_)) fun k => rfl
    refine Ends.succ (Ends.bind ((h _ pre _ hpre hbusy hpath).mono fun v m₁ hv => ?_)) fun k => rfl
    obtain ⟨rfl, cells₁, hm₁, hlength₁, hrest⟩ := hv
    refine Ends.bind ((hi m₁ (hm₁.live.trans hlive) hm₁.rowPath).mono fun v m₂ hv => ?_)
    obtain ⟨cells₂, hm₂, hrenders⟩ := hv
    refine Ends.pure (Or.inr ⟨v, cells₁, cells₂, i.sent ++ o.opened, none, rfl, ?_, hlength₁,
      fun m₃ hm₃ => ?_⟩)
    · have hm := hm₁.trans hm₂
      rw [hm₁.cells] at hm
      simpa using hm
    · -- the value of this element is data before the next one is read
      have hat : (pre ++ (cells₁ ++ [Cell.ready (.mapped (start + cells.length - 1) f)]) ++ post).length =
          m₁.cells.toList.length := by
        rw [hm₁.cells]
        simp
      refine Ends.bind ((hrenders m₃ _ [] hat (by rw [hm₃.cells]; simp) (hm₃.live.trans hlive)
        hm₃.rowPath).mono fun j m₄ hj => ?_)
      obtain ⟨rfl, cells₄, more₄, hm₄, -⟩ := hj
      have hcells₄ : m₄.cells.toList = pre ++ (cells₁ ++ [.ready (.mapped (start + cells₁.length - 1) f)]) ++
          (post ++ cells₄ ++ more₄) := by
        rw [hm₄.cells, hlength₁]
        simp
      have hmore := ih hrest hcells₄ (hm₄.live.trans (hm₃.live.trans hlive)) hm₄.rowPath
      rw [hlength₁] at hmore
      refine Ends.bind (hmore.mono fun js m₅ hjs => Ends.pure ?_)
      obtain ⟨rfl, cells₅, more₅, hm₅, hlength₅⟩ := hjs
      refine ⟨rfl, cells₅, cells₄ ++ more₄ ++ more₅, ?_, hlength₅⟩
      have hm := (hm₃.trans hm₄).trans hm₅
      simpa [Item.allSent] using hm

/-- An iterator that maps a function renders as the list of what its results are shown as. -/
theorem Renders.mapped (hyields : List.Forall₂ (Yields live f) items outputs) (h : Feeds start items cells)
    (t : Ty) :
    Renders live (.iterator (start + cells.length) t) start
      (cells ++ [.ready (.mapped (start + cells.length - 1) f)]) (.arr (outputs.map Output.json))
      (List.zipWith Item.allSent items outputs).flatten := by
  intro m pre post hpre hcells hlive hpath
  refine Ends.succ (Ends.bind ((drain_mapped hyields h hpre hcells hlive hpath).mono fun js m' hjs =>
    Ends.pure ?_)) fun k => rfl
  obtain ⟨rfl, cells', more, hm', hlength⟩ := hjs
  exact ⟨rfl, cells', more, hm', by simp [hlength]⟩

end LiveQuery
