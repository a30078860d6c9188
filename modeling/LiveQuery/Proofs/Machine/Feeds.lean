import LiveQuery.Proofs.Cursor
import LiveQuery.Proofs.Machine.Calls
import LiveQuery.Value.Data

/-! # Iterators that give known elements

What will be read from an iterator is known when its cells are: the iterator over a bucket gives the decoded
rows in order (`Feeds.rows`), a filter those that pass (`Feeds.filtered`), a watched iterator the same rows,
sending a subscription with each (`Feeds.watched`). The cells may lie anywhere among others, which are left
alone.
-/
namespace LiveQuery

/-- An element to come: its value, the subscriptions that are sent when it is given out, and the path that
the next call takes then. -/
structure Item where
  value : Value
  sent : List Subscription := []
  rowPath : Option Path := none

/-- The iterator in the last of the cells `cells`, which start at number `start`, gives `items`. -/
def Feeds (start : Nat) : List Item → List Cell → Prop
  | [], cells => ∀ m pre post, pre.length = start → m.cells.toList = pre ++ cells ++ post →
    m.rowPath = none → Ends (fun k => Eval.next k (start + cells.length - 1)) m fun v m' =>
      v = none ∧ ∃ below, m.Becomes m' (pre ++ (below ++ [.done]) ++ post) [] none ∧
        below.length + 1 = cells.length
  | i :: items, cells => ∀ m pre post, pre.length = start → m.cells.toList = pre ++ cells ++ post →
    m.rowPath = none → Ends (fun k => Eval.next k (start + cells.length - 1)) m fun v m' =>
      v = some i.value ∧ ∃ cells', m.Becomes m' (pre ++ cells' ++ post) i.sent i.rowPath ∧
        cells'.length = cells.length ∧ Feeds start items cells'

namespace Feeds

variable {start : Nat}

/-- Before it is read a cell is marked busy, and afterwards it is set. -/
theorem becomes_reset {m : Machine} {pre post : List Cell} {c : Cell}
    (h : m.cells.toList = pre ++ c :: post) (c' : Cell) :
    m.Becomes ((m.setCell pre.length .busy).setCell pre.length c') (pre ++ c' :: post) [] m.rowPath :=
  ⟨rfl, rfl, Machine.cells_setCell (Machine.cells_setCell h _) _, (List.append_nil _).symm, rfl⟩

/-- Elements that are given out without any effect. -/
def plain {α : Type} (value : α → Value) (as : List α) : List Item := as.map fun a => { value := value a }

/-- The rows of a bucket, in order. -/
theorem rows {α : Type} {b rest : Bucket} {c : Cursor} {as : List α} {value : α → Value}
    (hc : c.Reads b rest) (hvalues : List.Forall₂ (fun e a => Value.decode e.2 = .ok (value a)) rest as) :
    Feeds start (plain value as) [.ready (.rows (some c))] := by
  induction hvalues generalizing c with
  | nil =>
    intro m pre post hpre hcells hpath
    obtain ⟨c', hnext, hreads⟩ := Cursor.next_of_reads hc
    subst hpre
    rw [List.append_assoc] at hcells
    refine Ends.next hcells ?_
    refine Ends.succ (f := fun _ => pure none) (Ends.pure ⟨by rintro _ ⟨⟩, rfl, [], ?_, rfl⟩) fun k => ?_
    · rw [List.append_assoc, ← hpath]
      exact becomes_reset hcells .done
    · simp only [Eval.advance, hnext, List.head?_nil]
  | @cons e a rest as hv _ ih =>
    intro m pre post hpre hcells hpath
    obtain ⟨c', hnext, hreads⟩ := Cursor.next_of_reads hc
    subst hpre
    rw [List.append_assoc] at hcells
    refine Ends.next hcells ?_
    refine Ends.succ (f := fun _ => Eval.ofEncoding (Value.decode e.2) >>= fun v =>
      pure (some (v, .rows (some c')))) (Ends.bind (Ends.ofEncoding hv (Ends.pure ?_))) fun k => ?_
    · refine ⟨rfl, [.ready (.rows (some c'))], ?_, rfl, ih hreads⟩
      rw [List.append_assoc]
      exact hpath ▸ becomes_reset hcells _
    · simp only [Eval.advance, hnext, List.head?_cons]

/-- An iterator over a table without a bucket. -/
theorem noRows : Feeds start [] [.ready (.rows none)] := by
  intro m pre post hpre hcells hpath
  subst hpre
  rw [List.append_assoc] at hcells
  refine Ends.next hcells ?_
  refine Ends.succ (f := fun _ => pure none) (Ends.pure ⟨by rintro _ ⟨⟩, rfl, [], ?_, rfl⟩) fun k => rfl
  rw [List.append_assoc, ← hpath]
  exact becomes_reset hcells .done

theorem cells_setCell_above {m : Machine} {pre cells post : List Cell} {c : Cell} (hpre : pre.length = start)
    (h : m.cells.toList = pre ++ (cells ++ [c]) ++ post) (c' : Cell) :
    (m.setCell (start + cells.length) c').cells.toList = pre ++ cells ++ c' :: post := by
  have hsplit : m.cells.toList = (pre ++ cells) ++ c :: post := by
    rw [h]
    simp
  have hat : start + cells.length = (pre ++ cells).length := by
    rw [List.length_append, hpre]
  rw [hat]
  exact Machine.cells_setCell hsplit c'

/-- Reading an iterator that reads from the one in the cell below it, which ends or gives a value. -/
theorem next_above {m : Machine} {pre cells post : List Cell} {source : Source}
    {Q : Option Value → Machine → Prop} (hpre : pre.length = start)
    (hcells : m.cells.toList = pre ++ (cells ++ [.ready source]) ++ post)
    (hinner : source.inner? = some (start + cells.length - 1)) {handle : Nat}
    (hhandle : handle = start + cells.length)
    (h : Ends (fun k => Eval.advance k source) (m.setCell (start + cells.length) .busy) fun r m' =>
      (r = none ∧ ∃ below, (m.setCell (start + cells.length) .busy).Becomes m'
          (pre ++ (below ++ [.done]) ++ .busy :: post) [] none ∧ below.length + 1 = cells.length ∧
        ∀ m'', m.Becomes m'' (pre ++ (below ++ [.done] ++ [.done]) ++ post) [] none → Q none m'') ∨
      ∃ v cells' more sent path, r = some (v, source) ∧
        (m.setCell (start + cells.length) .busy).Becomes m' (pre ++ cells' ++ .busy :: post ++ more) sent
          path ∧
        cells'.length = cells.length ∧
        ∀ m'', m.Becomes m'' (pre ++ (cells' ++ [.ready source]) ++ post ++ more) sent path →
        Q (some v) m'') :
    Ends (fun k => Eval.next k handle) m Q := by
  have hbusy : start + cells.length = (pre ++ cells).length := by
    rw [List.length_append, hpre]
  have hsplit : m.cells.toList = (pre ++ cells) ++ .ready source :: post := by
    rw [hcells]
    simp
  rw [hhandle, hbusy]
  refine Ends.next hsplit ?_
  rw [← hbusy]
  refine h.mono fun r m' hr => ?_
  rcases hr with ⟨rfl, below, hm', hlength, hq⟩ | ⟨v, cells', more, sent, path, rfl, hm', hlength, hq⟩
  · have hlist : m'.cells.toList = (pre ++ below) ++ .done :: .busy :: post := by
      rw [hm'.cells]
      simp
    have hlist' : m'.cells.toList = (pre ++ (below ++ [.done])) ++ .busy :: post := hm'.cells
    have hat : start + cells.length = (pre ++ (below ++ [Cell.done])).length := by
      simp only [List.length_append, List.length_singleton]
      omega
    refine ⟨fun inner hi => ?_, hq _ ⟨hm'.frames, hm'.live, ?_, hm'.sent, hm'.rowPath⟩⟩
    · rw [hinner] at hi
      cases hi
      have hdone : start + cells.length - 1 = (pre ++ below).length := by
        simp only [List.length_append]
        omega
      rw [hdone]
      exact Machine.cell_of_cells hlist
    · rw [hat, Machine.cells_setCell hlist']
      simp
  · have hlist : m'.cells.toList = (pre ++ cells') ++ .busy :: (post ++ more) := by
      rw [hm'.cells]
      simp
    have hat : start + cells.length = (pre ++ cells').length := by
      simp only [List.length_append]
      omega
    refine hq _ ⟨hm'.frames, hm'.live, ?_, hm'.sent, hm'.rowPath⟩
    rw [hat, Machine.cells_setCell hlist]
    simp

/-! ## Filters -/

/-- The function is a test that has the outcome `b` on the value `v`. -/
def Decides (test : Function) (v : Value) (b : Bool) : Prop :=
  ∀ m : Machine, m.rowPath = none → Ends (fun k => Eval.call k test [v]) m fun u m' => u = .bool b ∧ m' = m

variable {α : Type} {as : List α} {value : α → Value} {cells : List Cell}

section Filter

variable {test : Function} {p : α → Bool}

/-- Reading on to the first element that passes. -/
theorem seek (hdecides : ∀ a ∈ as, Decides test (value a) (p a)) (h : Feeds start (plain value as) cells)
    {m : Machine} {pre post : List Cell} (hpre : pre.length = start)
    (hcells : m.cells.toList = pre ++ cells ++ post) (hpath : m.rowPath = none) :
    Ends (fun k => Eval.seek k (start + cells.length - 1) test) m fun v m' =>
      (as.filter p = [] ∧ v = none ∧ ∃ below, m.Becomes m' (pre ++ (below ++ [.done]) ++ post) [] none ∧
        below.length + 1 = cells.length) ∨
      ∃ a as' cells', as.filter p = a :: as'.filter p ∧ v = some (value a) ∧ as' ⊆ as ∧
        m.Becomes m' (pre ++ cells' ++ post) [] none ∧ cells'.length = cells.length ∧
        Feeds start (plain value as') cells' := by
  induction as generalizing cells m with
  | nil =>
    refine Ends.succ (Ends.bind ((h m pre post hpre hcells hpath).mono fun v m' hv => ?_)) fun k => rfl
    obtain ⟨rfl, hm'⟩ := hv
    exact Ends.pure (Or.inl ⟨rfl, rfl, hm'⟩)
  | cons a as ih =>
    refine Ends.succ (Ends.bind ((h m pre post hpre hcells hpath).mono fun v m' hv => ?_)) fun k => rfl
    obtain ⟨rfl, cells', hm', hlength, hrest⟩ := hv
    refine Ends.bind ((hdecides a List.mem_cons_self m' hm'.rowPath).mono fun u m'' hu => ?_)
    obtain ⟨rfl, rfl⟩ := hu
    cases hp : p a with
    | true =>
      refine Ends.pure (Or.inr ⟨a, as, cells', ?_, rfl, List.subset_cons_self _ _, hm', hlength, hrest⟩)
      rw [List.filter_cons, hp, if_pos rfl]
    | false =>
      have hmore := ih (fun b hb => hdecides b (List.mem_cons_of_mem _ hb)) hrest hm'.cells hm'.rowPath
      rw [hlength] at hmore
      have hfilter : (a :: as).filter p = as.filter p := by
        rw [List.filter_cons, hp]
        rfl
      rw [hfilter]
      refine hmore.mono fun v m₃ hv => ?_
      rcases hv with ⟨hnil, rfl, below, hm₃, hbelow⟩ | ⟨b, as', cells₃, hb, rfl, hsub, hm₃, hcells₃, hfeeds⟩
      · exact Or.inl ⟨hnil, rfl, below, hm'.trans hm₃, hbelow⟩
      · exact Or.inr ⟨b, as', cells₃, hb, rfl, fun x hx => List.mem_cons_of_mem _ (hsub hx),
          hm'.trans hm₃, hcells₃, hfeeds⟩

/-- The elements that pass a test. -/
theorem filtered (hdecides : ∀ a ∈ as, Decides test (value a) (p a)) (h :
    Feeds start (plain value as) cells) :
    Feeds start (plain value (as.filter p)) (cells ++ [.ready (.filtered
    (start + cells.length - 1) test)]) := by
  generalize hpassing : as.filter p = passing
  induction passing generalizing as cells with
  | nil =>
    intro m pre post hpre hcells hpath
    refine next_above hpre hcells rfl (by simp) ?_
    have hbusy := cells_setCell_above hpre hcells .busy
    refine Ends.succ (Ends.bind ((seek hdecides h hpre hbusy hpath).mono fun v m' hv => ?_)) fun k => rfl
    rcases hv with ⟨-, rfl, below, hm', hlength⟩ | ⟨b, as', cells', hb, -⟩
    · refine Ends.pure (Or.inl ⟨rfl, below, hm', hlength, fun m'' hm'' => ?_⟩)
      exact ⟨rfl, below ++ [.done], hm'', by simp [← hlength]⟩
    · rw [hpassing] at hb
      cases hb
  | cons a passing ih =>
    intro m pre post hpre hcells hpath
    refine next_above hpre hcells rfl (by simp) ?_
    have hbusy := cells_setCell_above hpre hcells .busy
    refine Ends.succ (Ends.bind ((seek hdecides h hpre hbusy hpath).mono fun v m' hv => ?_)) fun k => rfl
    rcases hv with ⟨hnil, -⟩ | ⟨b, as', cells', hb, rfl, hsub, hm', hlength, hfeeds⟩
    · rw [hpassing] at hnil
      cases hnil
    · rw [hpassing] at hb
      obtain ⟨rfl, hrest⟩ := List.cons.inj hb
      refine Ends.pure (Or.inr ⟨_, cells', [], [], none, rfl, ?_, hlength, fun m'' hm'' => ?_⟩)
      · rw [List.append_nil]
        exact hm'
      · rw [List.append_nil] at hm''
        refine ⟨rfl, _, hm'', by simp [hlength], ?_⟩
        have hmore := ih (fun c hc => hdecides c (hsub hc)) hfeeds hrest.symm
        rw [hlength] at hmore
        exact hmore

end Filter

/-! ## Watched rows -/

/-- A row as it is given out at a point whose rows belong at `base`. -/
def watchedItem (point : Point) (base : Path) (subscriber : Subscriber) (row : Value) (key : Literal) :
    Item where
  value := row
  sent := [.record point.table key.keyBytes ⟨subscriber, none, base.row key.json⟩]
  rowPath := some (base.row key.json)

theorem toJson_literal (l : Literal) {m : Machine} :
    Ends (fun k => Eval.toJson k l.value) m fun j m' => j = l.json ∧ m' = m := by
  cases l <;> exact Ends.succ (Ends.pure ⟨rfl, rfl⟩) fun _ => rfl

/-- Rows that are watched as they are given out. -/
theorem watched {point : Point} {base : Path} {subscriber : Subscriber} {key : α → Literal}
    (hkey : ∀ a ∈ as, (value a).member point.primaryKey = .ok (key a).value)
    (h : Feeds start (plain value as) cells) :
    Feeds start (as.map fun a => watchedItem point base subscriber (value a) (key a))
      (cells ++ [.ready (.watched (start + cells.length - 1) point base subscriber)]) := by
  induction as generalizing cells with
  | nil =>
    intro m pre post hpre hcells hpath
    refine next_above hpre hcells rfl (by simp) ?_
    have hbusy := cells_setCell_above hpre hcells .busy
    refine Ends.succ (Ends.bind ((h _ pre _ hpre hbusy hpath).mono fun v m' hv => ?_)) fun k => rfl
    obtain ⟨rfl, below, hm', hlength⟩ := hv
    refine Ends.pure (Or.inl ⟨rfl, below, hm', hlength, fun m'' hm'' => ?_⟩)
    exact ⟨rfl, below ++ [.done], hm'', by simp [← hlength]⟩
  | cons a as ih =>
    intro m pre post hpre hcells hpath
    refine next_above hpre hcells rfl (by simp) ?_
    have hbusy := cells_setCell_above hpre hcells .busy
    refine Ends.succ (Ends.bind ((h _ pre _ hpre hbusy hpath).mono fun v m' hv => ?_)) fun k => rfl
    obtain ⟨rfl, cells', hm', hlength, hrest⟩ := hv
    refine Ends.bind (Ends.ofExcept (hkey a List.mem_cons_self) (Ends.bind ((toJson_literal _).mono
      fun j m₁ hj => ?_)))
    obtain ⟨rfl, rfl⟩ := hj
    refine Ends.bind (Ends.ofEncoding (key a).toKey_value ?_)
    refine Ends.step (Eval.exec_send _ _) (Ends.step (Eval.exec_modify _ _) (Ends.pure (Or.inr ?_)))
    refine ⟨_, cells', [], (watchedItem point base subscriber (value a) (key a)).sent,
      (watchedItem point base subscriber (value a) (key a)).rowPath, rfl, ?_, hlength, fun m'' hm'' => ?_⟩
    · rw [List.append_nil]
      refine ⟨hm'.frames, hm'.live, hm'.cells, ?_, rfl⟩
      have hsent := hm'.sent
      rw [List.append_nil] at hsent
      exact (Array.toList_push).trans (by rw [hsent]; rfl)
    · rw [List.append_nil] at hm''
      refine ⟨rfl, _, hm'', by simp [hlength], ?_⟩
      have hmore := ih (fun b hb => hkey b (List.mem_cons_of_mem _ hb)) hrest
      rw [hlength] at hmore
      exact hmore

end Feeds

end LiveQuery
