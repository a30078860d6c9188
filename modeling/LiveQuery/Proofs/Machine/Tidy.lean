import LiveQuery.Database.Select
import LiveQuery.Proofs.Encoding.Record
import LiveQuery.Proofs.Machine.Keeps
import LiveQuery.Proofs.Typing.Inference

/-! # Records in key order

Every record that an evaluation makes has its fields in key order, whether the expression is typed or not
(`Eval.tidy_eval`): records are written in that order, linking keeps it, and what is read from the store is data.
So the value of an expression that can be encoded is data (`Value.Tidy.isData_of_encode`).
-/
namespace LiveQuery

mutual

/-- The records of an expression are written in key order, and no value stands in it. -/
def Expr.Tidy : Expr → Prop
  | .int _ | .str _ | .var _ => True
  | .record fields => Keyed.Ordered fields ∧ FieldsTidy fields
  | .lambda _ _ body => body.Tidy
  | .call _ args _ => ArgsTidy args
  | .member e _ => e.Tidy
  | .block bindings result => FieldsTidy bindings ∧ result.Tidy
  | .index _ | .value _ => False

def FieldsTidy : List (String × Expr) → Prop
  | [] => True
  | (_, e) :: rest => e.Tidy ∧ FieldsTidy rest

def ArgsTidy : List Expr → Prop
  | [] => True
  | e :: rest => e.Tidy ∧ ArgsTidy rest

end

/-- The records in a value have their fields in key order, also those that a function has captured or makes. -/
inductive Value.Tidy : Value → Prop
  | int (n : Int64) : Tidy (.int n)
  | bool (b : Bool) : Tidy (.bool b)
  | str (s : String) : Tidy (.str s)
  | record {fields : List (String × Value)} (ordered : Keyed.Ordered fields) (each : ∀ f ∈ fields, Tidy f.2) :
      Tidy (.record fields)
  | array {elements : List Value} {t : Ty} (each : ∀ v ∈ elements, Tidy v) : Tidy (.array elements t)
  | iterator (h : Nat) (t : Ty) : Tidy (.iterator h t)
  | builtin (b : Builtin) : Tidy (.function (.builtin b))
  | closure {stamp : Nat} {params : List (String × Ty)} {result : Ty} {body : Expr} {scope : Scope}
      (body_tidy : body.Tidy) (captured : ∀ link ∈ scope, ∀ e ∈ link, Tidy e.2) :
      Tidy (.function (.closure stamp params result body scope))
  | index (i : Index) : Tidy (.index i)

theorem fieldsTidy_iff {fields : List (String × Expr)} : FieldsTidy fields ↔ ∀ f ∈ fields, f.2.Tidy := by
  induction fields with
  | nil => simp [FieldsTidy]
  | cons f fields ih => rw [FieldsTidy, ih, List.forall_mem_cons]

theorem argsTidy_iff {args : List Expr} : ArgsTidy args ↔ ∀ e ∈ args, e.Tidy := by
  induction args with
  | nil => simp [ArgsTidy]
  | cons e args ih => rw [ArgsTidy, ih, List.forall_mem_cons]

/-! ## Expressions -/

mutual

theorem Expr.tidy_of_wellFormed : (e : Expr) → e.WellFormed → e.Tidy
  | .int _, _ | .str _, _ | .var _, _ => trivial
  | .record fields, ⟨hordered, hfields⟩ => ⟨hordered, fieldsTidy_of_wellFormed fields hfields⟩
  | .lambda _ _ body, ⟨_, _, hbody⟩ => tidy_of_wellFormed body hbody
  | .call _ args _, ⟨hargs, _⟩ => argsTidy_of_wellFormed args hargs
  | .member e _, he => tidy_of_wellFormed e he
  | .block bindings result, ⟨hbindings, hresult⟩ =>
    ⟨fieldsTidy_of_wellFormed bindings hbindings, tidy_of_wellFormed result hresult⟩

theorem Expr.fieldsTidy_of_wellFormed : (fields : List (String × Expr)) → FieldsWellFormed fields →
    FieldsTidy fields
  | [], _ => trivial
  | (_, e) :: rest, ⟨he, hrest⟩ => ⟨tidy_of_wellFormed e he, fieldsTidy_of_wellFormed rest hrest⟩

theorem Expr.argsTidy_of_wellFormed : (args : List Expr) → ArgsWellFormed args → ArgsTidy args
  | [], _ => trivial
  | e :: rest, ⟨he, hrest⟩ => ⟨tidy_of_wellFormed e he, argsTidy_of_wellFormed rest hrest⟩

end

mutual

/-- Linking leaves the records as they are. -/
theorem Expr.tidy_link : (e : Expr) → (n : Nat) → e.Tidy → (e.link n).1.Tidy
  | .int _, _, _ | .str _, _, _ | .var _, _, _ => trivial
  | .record fields, n, ⟨hordered, hfields⟩ => by
    refine ⟨?_, fieldsTidy_link fields n hfields⟩
    rw [Keyed.ordered_iff_keys, Expr.keys_linkFields, ← Keyed.ordered_iff_keys]
    exact hordered
  | .lambda _ _ body, n, hbody => tidy_link body n hbody
  | .call name args site, n, hargs => by
    have hlinked := argsTidy_link args n hargs
    cases site <;> exact hlinked
  | .member e _, n, he => tidy_link e n he
  | .block bindings result, n, ⟨hbindings, hresult⟩ =>
    ⟨fieldsTidy_link bindings n hbindings, tidy_link result _ hresult⟩

theorem Expr.fieldsTidy_link : (fields : List (String × Expr)) → (n : Nat) → FieldsTidy fields →
    FieldsTidy (linkFields n fields).1
  | [], _, _ => trivial
  | (_, e) :: rest, n, ⟨he, hrest⟩ => ⟨tidy_link e n he, fieldsTidy_link rest _ hrest⟩

theorem Expr.argsTidy_link : (args : List Expr) → (n : Nat) → ArgsTidy args → ArgsTidy (linkArgs n args).1
  | [], _, _ => trivial
  | e :: rest, n, ⟨he, hrest⟩ => ⟨tidy_link e n he, argsTidy_link rest _ hrest⟩

end

/-! ## Values -/

/-- Every value in the scope is tidy. -/
def Scope.Tidy (s : Scope) : Prop := ∀ link ∈ s, ∀ e ∈ link, Value.Tidy e.2

namespace Scope.Tidy

variable {s : Scope}

theorem child (h : s.Tidy) {entries : List (String × Value)} (he : ∀ e ∈ entries, e.2.Tidy) :
    Scope.Tidy (Links.child s entries) := by
  intro link hlink e hmem
  rcases List.mem_cons.mp hlink with rfl | hlink
  · exact he e (Keyed.mem_of_mem_ofList hmem)
  · exact h link hlink e hmem

theorem find? (h : s.Tidy) {name : String} {v : Value} (hv : Links.find? s name = some v) : v.Tidy := by
  induction s with
  | nil => cases hv
  | cons link s ih =>
    rw [Links.find?] at hv
    split at hv
    next w hw =>
      cases hv
      exact h link List.mem_cons_self _ (Keyed.mem_of_find? hw)
    next => exact ih (fun l hl => h l (List.mem_cons_of_mem _ hl)) hv

theorem lookup (h : s.Tidy) {name : String} {v : Value} (hv : s.lookup name = .ok v) : v.Tidy := by
  unfold Scope.lookup at hv
  split at hv
  next w hw => cases hv; exact h.find? hw
  next =>
    split at hv
    next w hw =>
      cases hv
      unfold rootValue? at hw
      split at hw
      next => cases hw; exact .bool _
      next =>
        split at hw
        next => cases hw; exact .bool _
        next =>
          obtain ⟨b, -, rfl⟩ := Option.map_eq_some_iff.mp hw
          exact .builtin b
    next => cases hv

end Scope.Tidy

namespace Value

mutual

theorem tidy_of_isData : (v : Value) → v.IsData → v.Tidy
  | .int n, _ => .int n
  | .bool b, _ => .bool b
  | .str s, _ => .str s
  | .record fields, ⟨hordered, hfields⟩ => .record hordered (tidy_of_fieldsAreData fields hfields)

theorem tidy_of_fieldsAreData : (fields : List (String × Value)) → FieldsAreData fields →
    ∀ f ∈ fields, f.2.Tidy
  | [], _ => by simp
  | (_, v) :: rest, ⟨hv, hrest⟩ =>
    List.forall_mem_cons.mpr ⟨tidy_of_isData v hv, tidy_of_fieldsAreData rest hrest⟩

end

theorem Tidy.member {v m : Value} {name : String} (h : v.Tidy) (hm : v.member name = .ok m) : m.Tidy := by
  cases h with
  | record ordered each =>
    rw [Value.member] at hm
    split at hm
    next w hw => cases hm; exact each _ (Keyed.mem_of_find? hw)
    next => cases hm
  | int | bool | str | array | iterator | builtin | closure | index => cases hm

mutual

theorem isData_of_entry : (v : Value) → v.Tidy → (e : Record.Entry) → Record.entry v = .ok e → v.IsData
  | .int _, _, _, _ | .bool _, _, _, _ | .str _, _, _, _ => trivial
  | .record fields, .record ordered each, e, h => by
    obtain ⟨es, hes, -⟩ := ok_of_bind h
    exact ⟨ordered, fieldsAreData_of_entries fields each es hes⟩
  | .array .., _, _, h | .iterator .., _, _, h | .function _, _, _, h | .index _, _, _, h => by cases h

theorem fieldsAreData_of_entries : (fields : List (String × Value)) → (∀ f ∈ fields, f.2.Tidy) →
    (es : List Record.Entry) → Record.fieldEntries fields = .ok es → FieldsAreData fields
  | [], _, _, _ => trivial
  | (_, v) :: rest, hfields, es, h => by
    obtain ⟨e, he, h⟩ := ok_of_bind h
    obtain ⟨more, hmore, -⟩ := ok_of_bind h
    obtain ⟨hv, hrest⟩ := List.forall_mem_cons.mp hfields
    exact ⟨isData_of_entry v hv e he, fieldsAreData_of_entries rest hrest more hmore⟩

end

/-- A tidy value that can be encoded is data. -/
theorem Tidy.isData_of_encode {v : Value} {b : Bytes} (h : v.Tidy) (he : v.encode = .ok b) : v.IsData := by
  obtain ⟨e, hentry, -⟩ := ok_of_bind he
  exact isData_of_entry v h e hentry

end Value

/-! ## Machines -/

/-- What a source gives out is tidy. -/
def Source.Tidy : Source → Prop
  | .elements rest => ∀ v ∈ rest, v.Tidy
  | .mapped _ f | .filtered _ f => (Value.function f).Tidy
  | .rows _ | .watched .. => True

/-- The scopes and the iterators of a machine are tidy. -/
structure Machine.Tidy (m : Machine) : Prop where
  scopes : ∀ f ∈ m.frames, f.scope.Tidy
  cells : ∀ (h : Nat) (source : Source), m.cells[h]? = some (.ready source) → source.Tidy

namespace Machine.Tidy

variable {m : Machine}

theorem push (h : m.Tidy) {f : Frame} (hf : f.scope.Tidy) : (m.push f).Tidy :=
  ⟨List.forall_mem_cons.mpr ⟨hf, h.scopes⟩, h.cells⟩

theorem pop (h : m.Tidy) : m.pop.Tidy := by
  obtain ⟨top, callers, cells, calls, stamps, rowPath, live, sent⟩ := m
  cases callers with
  | nil => exact h
  | cons f rest => exact ⟨(List.forall_mem_cons.mp h.scopes).2, h.cells⟩

theorem setCell (h : m.Tidy) (n : Nat) {c : Cell} (hc : ∀ source, c = .ready source → source.Tidy) :
    (m.setCell n c).Tidy := by
  refine ⟨h.scopes, fun k source hk => ?_⟩
  simp only [Machine.setCell, Array.getElem?_setIfInBounds] at hk
  split at hk
  next heq =>
    split at hk
    next => exact hc source (Option.some.inj hk)
    next => cases hk
  next => exact h.cells k source hk

theorem closeFrom (h : m.Tidy) (fuel n : Nat) : (Machine.closeFrom fuel n m).Tidy := by
  induction fuel generalizing n m with
  | zero => exact h
  | succ fuel ih =>
    have hdone : (m.setCell n .done).Tidy := h.setCell n (by simp)
    simp only [Machine.closeFrom]
    split
    next source _ =>
      split
      next inner _ => exact ih hdone inner
      next => exact hdone
    next => exact h

theorem cell (h : m.Tidy) {n : Nat} {source : Source} (hc : m.cell n = .ready source) : source.Tidy := by
  unfold Machine.cell at hc
  cases hn : m.cells[n]? with
  | none => rw [hn] at hc; cases hc
  | some c =>
    rw [hn] at hc
    exact h.cells n source (hc ▸ hn)

theorem allocate (h : m.Tidy) {source : Source} (hs : source.Tidy) : (m.allocate source).2.Tidy := by
  refine ⟨h.scopes, fun k source' hk => ?_⟩
  simp only [Machine.allocate, Array.getElem?_push] at hk
  split at hk
  next => cases hk; exact hs
  next => exact h.cells k source' hk

theorem top (h : m.Tidy) : m.top.scope.Tidy := h.scopes _ List.mem_cons_self

end Machine.Tidy

namespace Eval

variable {α β : Type}

/-- The evaluation keeps a machine tidy, and its value satisfies `Q`. -/
abbrev KeepsTidy (act : Eval α) (Q : α → Prop) : Prop := Keeps Machine.Tidy act Q

namespace KeepsTidy

variable {act : Eval α} {Q : α → Prop}

theorem takeRowPath : KeepsTidy Eval.takeRowPath fun _ => True :=
  Keeps.change exec_takeRowPath fun _ hm => ⟨hm.scopes, hm.cells⟩

theorem freshStamp : KeepsTidy Eval.freshStamp fun _ => True :=
  Keeps.change exec_freshStamp fun _ hm => ⟨hm.scopes, hm.cells⟩

theorem send (s : Subscription) : KeepsTidy (Eval.send s) fun _ => True :=
  Keeps.change (exec_send s) fun _ hm => ⟨hm.scopes, hm.cells⟩

theorem allocate {source : Source} (h : source.Tidy) : KeepsTidy (Eval.allocate source) fun _ => True :=
  Keeps.change (exec_allocate source) fun _ hm => hm.allocate h

theorem scope : KeepsTidy Eval.scope Scope.Tidy := by
  intro m r m' hm hr
  rw [exec_scope] at hr
  cases hr
  exact ⟨hm, by rintro s ⟨⟩; exact hm.top⟩

theorem inFrame {f : Frame} (h : KeepsTidy act Q) (hf : f.scope.Tidy) : KeepsTidy (Eval.inFrame f act) Q :=
  Keeps.inFrame h (fun _ hm => hm.push hf) fun _ hm => hm.pop

theorem within {s : Scope} (h : KeepsTidy act Q) (hs : s.Tidy) : KeepsTidy (Eval.within s act) Q :=
  Keeps.read exec_path fun _ _ => inFrame h hs

/-- An evaluation of an expression that was loaded. -/
theorem load {e : Expr} (he : e.Tidy) : KeepsTidy (Eval.load e) Expr.Tidy := by
  intro m r m' hm hr
  rw [exec_load] at hr
  cases hr
  refine ⟨⟨hm.scopes, hm.cells⟩, ?_⟩
  rintro e' ⟨⟩
  exact Expr.tidy_link e _ he

/-! ## Built-in functions -/

theorem toIterator {v : Value} (hv : v.Tidy) : KeepsTidy v.toIterator fun _ => True := by
  cases hv with
  | @array elements element each =>
    have hsource : (Source.elements elements).Tidy := each
    exact (allocate hsource).andThen fun _ => Keeps.pure trivial
  | iterator h element => exact Keeps.pure trivial
  | int | bool | str | record | builtin | closure | index => exact Keeps.throw _

theorem listenAt {rows : Value} (hrows : rows.Tidy) (point : Int64) (value : Option Value) :
    KeepsTidy (LiveQuery.listenAt rows point value) Value.Tidy := by
  refine Keeps.read (g := id) exec_get fun m hm => ?_
  cases hlive : (id m).live with
  | none => exact Keeps.pure hrows
  | some w =>
    refine (Keeps.ofExcept fun _ _ => trivial).andThen fun p => Keeps.read exec_path fun _ _ => ?_
    have hiterator : ∀ path, KeepsTidy (do
        let inner ← rows.toIterator
        return Value.iterator (← Eval.allocate (.watched inner.1 p path w.subscriber)) inner.2)
        Value.Tidy := fun path => (toIterator hrows).andThen fun inner => by
      have hsource : (Source.watched inner.1 p path w.subscriber).Tidy := trivial
      exact (allocate hsource).andThen fun _ => Keeps.pure (.iterator _ _)
    dsimp only
    split
    next => exact hiterator _
    next =>
      exact (Keeps.ofEncoding fun _ _ => trivial).andThen fun filter => (send _).andThen fun _ => hiterator _

theorem any (r : Except EvalFault α) : KeepsTidy (Eval.ofExcept r) fun _ => True :=
  Keeps.ofExcept fun _ _ => trivial

theorem asFunction {v : Value} (hv : v.Tidy) :
    KeepsTidy (Eval.ofExcept v.asFunction) fun g => (Value.function g).Tidy := by
  refine Keeps.ofExcept fun g hg => ?_
  cases v <;> cases hg
  exact hv

theorem onInts (b : Builtin) {f : Int64 → Int64 → Except EvalFault Value} (args : List Value)
    (hf : ∀ m n v, f m n = .ok v → v.IsData) : KeepsTidy (b.onInts f args) Value.Tidy := by
  unfold Builtin.onInts
  split
  next =>
    exact (any _).andThen fun _ => (any _).andThen fun _ =>
      Keeps.ofExcept fun v hv => Value.tidy_of_isData v (hf _ _ v hv)
  next => exact Keeps.throw _

theorem onBools (b : Builtin) (f : Bool → Bool → Bool) (args : List Value) :
    KeepsTidy (b.onBools f args) Value.Tidy := by
  unfold Builtin.onBools
  split
  next => exact (any _).andThen fun _ => (any _).andThen fun _ => Keeps.pure (.bool _)
  next => exact Keeps.throw _

theorem onStrs (b : Builtin) {f : String → String → Value} (args : List Value) (hf : ∀ x y, (f x y).Tidy) :
    KeepsTidy (b.onStrs f args) Value.Tidy := by
  unfold Builtin.onStrs
  split
  next => exact (any _).andThen fun _ => (any _).andThen fun _ => Keeps.pure (hf _ _)
  next => exact Keeps.throw _

/-- A built-in function makes no record itself; one that reads a row gives data. -/
theorem apply (b : Builtin) {args : List Value} (hargs : ∀ v ∈ args, v.Tidy) :
    KeepsTidy (b.apply args) Value.Tidy := by
  unfold Builtin.apply
  cases b with
  | plus | minus | times => exact onInts _ args fun _ _ _ => Builtin.isData_of_checkedInt
  | intEq | intLt | intGt => exact onInts _ args (by rintro m n v ⟨⟩; trivial)
  | strEq => exact onStrs _ args fun _ _ => .bool _
  | concat => exact onStrs _ args fun _ _ => .str _
  | boolEq | and | or => exact onBools _ _ args
  | not =>
    dsimp only
    split
    next => exact (any _).andThen fun _ => Keeps.pure (.bool _)
    next => exact Keeps.throw _
  | map =>
    dsimp only
    split
    next xs f =>
      obtain ⟨hxs, hf⟩ : xs.Tidy ∧ f.Tidy := by simpa using hargs
      refine (asFunction hf).bind fun g hg => (toIterator hxs).andThen fun inner => ?_
      have hsource : (Source.mapped inner.1 g).Tidy := hg
      exact (allocate hsource).andThen fun _ => Keeps.pure (.iterator _ _)
    next => exact Keeps.throw _
  | filter =>
    dsimp only
    split
    next xs f =>
      obtain ⟨hxs, hf⟩ : xs.Tidy ∧ f.Tidy := by simpa using hargs
      refine (toIterator hxs).andThen fun inner => (asFunction hf).bind fun g hg => ?_
      have hsource : (Source.filtered inner.1 g).Tidy := hg
      exact (allocate hsource).andThen fun _ => Keeps.pure (.iterator _ _)
    next => exact Keeps.throw _
  | scan =>
    dsimp only
    split
    next =>
      refine (any _).andThen fun i => ?_
      have hsource : (Source.rows (i.rows.map Cursor.start)).Tidy := trivial
      exact (allocate hsource).andThen fun _ => Keeps.pure (.iterator _ _)
    next => exact Keeps.throw _
  | get =>
    dsimp only
    split
    next =>
      exact (any _).andThen fun i => Keeps.ofExcept fun v hv => Value.tidy_of_isData v (Index.isData_of_get hv)
    next => exact Keeps.throw _
  | listen =>
    dsimp only
    split
    next rows point => exact (any _).andThen fun _ => listenAt (hargs rows (by simp)) _ _
    next => exact Keeps.throw _
  | listenWhere =>
    dsimp only
    split
    next rows point value => exact (any _).andThen fun _ => listenAt (hargs rows (by simp)) _ _
    next => exact Keeps.throw _

/-! ## The evaluator -/

theorem resolve (name : String) (site : CallSite) :
    KeepsTidy (Eval.resolve name site) fun f => (Value.function f).Tidy := by
  refine Keeps.read (g := id) exec_get fun m hm => ?_
  dsimp only [id]
  split
  next b _ => exact Keeps.pure (.builtin b)
  next =>
    refine Keeps.bind (Q := Value.Tidy) (Keeps.ofExcept fun v hv => hm.top.lookup hv) fun v hv => ?_
    split
    next f =>
      have hnoted : ∀ calls, KeepsTidy (set { m with calls := calls } : Eval Unit) fun _ => True := by
        rintro calls m₁ r m' - ⟨⟩
        exact ⟨⟨hm.scopes, hm.cells⟩, fun _ _ => trivial⟩
      split
      next =>
        split
        next => exact Keeps.pure hv
        next => exact (hnoted _).andThen fun _ => Keeps.pure hv
      next => exact Keeps.pure hv
    next => exact Keeps.throw _

theorem readCell {advance : Source → Eval (Option (Value × Source))}
    (h : ∀ source, source.Tidy → KeepsTidy (advance source) fun o => ∀ p ∈ o, p.1.Tidy ∧ p.2.Tidy) (n : Nat) :
    KeepsTidy (Eval.readCell advance n) fun o => ∀ v ∈ o, v.Tidy := by
  refine Keeps.read (g := id) exec_get fun m hm => ?_
  dsimp only [id]
  split
  next => exact Keeps.pure (by simp)
  next => exact Keeps.throw _
  next source hcell =>
    refine (Keeps.update fun m hm => hm.setCell n (by simp)).andThen fun _ =>
      (Keeps.outcome (h source (hm.cell hcell))).bind fun r hr => ?_
    have hfinish : KeepsTidy (Eval.readCell.finish n source) fun _ => True := by
      refine Keeps.update fun m hm => ?_
      split
      next => exact (hm.closeFrom _ _).setCell n (by simp)
      next => exact hm.setCell n (by simp)
    cases r with
    | ok o =>
      cases o with
      | some p =>
        obtain ⟨hv, hsource⟩ := hr _ rfl p rfl
        refine (Keeps.update fun m hm => hm.setCell n ?_).andThen fun _ => Keeps.pure ?_
        · rintro v ⟨⟩
          exact hv
        · rintro source ⟨⟩
          exact hsource
      | none => exact hfinish.andThen fun _ => Keeps.pure (by simp)
    | error e => exact hfinish.andThen fun _ => Keeps.throw e

end KeepsTidy

/-- What the evaluator does with some fuel keeps machines tidy. -/
structure AllTidy (fuel : Nat) : Prop where
  eval {e : Expr} (he : e.Tidy) : KeepsTidy (eval fuel e) Value.Tidy
  call {f : Function} {args : List Value} (hf : (Value.function f).Tidy) (hargs : ∀ v ∈ args, v.Tidy) :
    KeepsTidy (call fuel f args) Value.Tidy
  next (h : Nat) : KeepsTidy (next fuel h) fun o => ∀ v ∈ o, v.Tidy
  advance (source : Source) (h : source.Tidy) :
    KeepsTidy (advance fuel source) fun o => ∀ p ∈ o, p.1.Tidy ∧ p.2.Tidy
  seek (h : Nat) {test : Function} (htest : (Value.function test).Tidy) :
    KeepsTidy (seek fuel h test) fun o => ∀ v ∈ o, v.Tidy
  toJson (v : Value) : KeepsTidy (toJson fuel v) fun _ => True
  drain (h : Nat) : KeepsTidy (drain fuel h) fun _ => True

namespace AllTidy

variable {fuel : Nat}

theorem zero : AllTidy 0 where
  eval _ := by rw [Eval.eval]; exact .outOfFuel
  call _ _ := by rw [Eval.call]; exact .outOfFuel
  next _ := by rw [Eval.next]; exact .outOfFuel
  advance _ _ := by rw [Eval.advance]; exact .outOfFuel
  seek _ _ _ := by rw [Eval.seek]; exact .outOfFuel
  toJson _ := by rw [Eval.toJson]; exact .outOfFuel
  drain _ := by rw [Eval.drain]; exact .outOfFuel

theorem record_of_forall₂ {fields : List (String × Expr)} {values : List (String × Value)}
    (hordered : Keyed.Ordered fields) (h : List.Forall₂ (fun f g => g.1 = f.1 ∧ g.2.Tidy) fields values) :
    (Value.record values).Tidy := by
  obtain ⟨hkeys, hvalues⟩ : Keyed.keys values = Keyed.keys fields ∧ ∀ g ∈ values, g.2.Tidy := by
    clear hordered
    induction h with
    | nil => exact ⟨rfl, by simp⟩
    | cons hfirst _ ih => exact ⟨List.cons_eq_cons.mpr ⟨hfirst.1, ih.1⟩, List.forall_mem_cons.mpr ⟨hfirst.2, ih.2⟩⟩
  refine .record ?_ hvalues
  rw [Keyed.ordered_iff_keys, hkeys, ← Keyed.ordered_iff_keys]
  exact hordered

theorem eval_succ (ih : AllTidy fuel) {e : Expr} (he : e.Tidy) :
    KeepsTidy (Eval.eval (fuel + 1) e) Value.Tidy := by
  cases e with
  | int n => exact .pure (.int n)
  | str s => exact .pure (.str s)
  | index | value => exact he.elim
  | var name => exact KeepsTidy.scope.bind fun s hs => .ofExcept fun v hv => hs.lookup hv
  | lambda params result body =>
    exact KeepsTidy.freshStamp.andThen fun _ => KeepsTidy.scope.bind fun s hs => .pure (.closure he hs)
  | record fields =>
    obtain ⟨hordered, hfields⟩ := he
    refine .bind (.mapM (S := fun f g => g.1 = f.1 ∧ g.2.Tidy) fun f hf => ?_) fun values hvalues =>
      .pure (record_of_forall₂ hordered hvalues)
    exact (ih.eval (fieldsTidy_iff.mp hfields f hf)).bind fun v hv => .pure ⟨rfl, hv⟩
  | call name args site =>
    refine (KeepsTidy.resolve name site).bind fun f hf =>
      .bind (.mapM_all fun e he' => ih.eval (argsTidy_iff.mp he e he')) fun vs hvs => ih.call hf hvs
  | member e name => exact (ih.eval (e := e) he).bind fun v hv => .ofExcept fun m hm => hv.member hm
  | block bindings result =>
    obtain ⟨hbindings, hresult⟩ := he
    refine KeepsTidy.scope.bind fun s hs => .bind (.foldlM (R := Scope.Tidy) (fun s hs b hb => ?_) hs)
      fun inner hinner => KeepsTidy.within (ih.eval hresult) hinner
    refine (KeepsTidy.within (ih.eval (fieldsTidy_iff.mp hbindings b hb)) hs).bind fun v hv =>
      .pure (hs.child fun e he => ?_)
    rw [List.mem_singleton.mp he]
    exact hv

theorem call_succ (ih : AllTidy fuel) {f : Function} {args : List Value} (hf : (Value.function f).Tidy)
    (hargs : ∀ v ∈ args, v.Tidy) : KeepsTidy (Eval.call (fuel + 1) f args) Value.Tidy := by
  have hzip : ∀ names : List String, ∀ e ∈ names.zip args, e.2.Tidy := fun names e he =>
    hargs e.2 (List.of_mem_zip he).2
  rw [Eval.call]
  by_cases harity : f.arity ≠ args.length
  · rw [if_pos harity]
    exact .throw _
  · rw [if_neg harity]
    refine KeepsTidy.takeRowPath.andThen fun path => ?_
    cases hf with
    | @closure stamp params result body scope body_tidy captured =>
      have hscope : Scope.Tidy (Links.child scope ((params.map Prod.fst).zip args)) :=
        Scope.Tidy.child captured (hzip _)
      exact KeepsTidy.inFrame (ih.eval body_tidy) hscope
    | builtin b =>
      have hroot : Scope.root.Tidy := fun link hlink => absurd hlink List.not_mem_nil
      have hscope : Scope.Tidy (Links.child Scope.root ((b.params.map Prod.fst).zip args)) := hroot.child (hzip _)
      refine (Keeps.ofExcept fun _ _ => trivial).andThen fun bs =>
        (KeepsTidy.inFrame (KeepsTidy.apply b hargs) hscope).bind fun v hv => .ofExcept fun v' hv' => ?_
      obtain ⟨declared, -, hv'⟩ := ok_of_bind hv'
      split at hv'
      next => cases hv'; exact hv
      next => cases hv'

theorem advance_succ (ih : AllTidy fuel) (source : Source) (h : source.Tidy) :
    KeepsTidy (Eval.advance (fuel + 1) source) fun o => ∀ p ∈ o, p.1.Tidy ∧ p.2.Tidy := by
  cases source with
  | elements rest =>
    cases rest with
    | nil => exact .pure (by simp)
    | cons v rest =>
      obtain ⟨hv, hrest⟩ := List.forall_mem_cons.mp h
      exact .pure (by rintro p ⟨⟩; exact ⟨hv, hrest⟩)
  | rows cursor =>
    cases cursor with
    | none => exact .pure (by simp)
    | some cursor =>
      simp only [Eval.advance]
      split
      next =>
        refine .bind (Q := Value.Tidy) (.ofEncoding fun v hv => ?_) fun v hv =>
          .pure (by rintro p ⟨⟩; exact ⟨hv, trivial⟩)
        exact Value.tidy_of_isData v (Value.isData_of_decode hv)
      next => exact .pure (by simp)
  | mapped inner f =>
    refine (ih.next inner).bind fun o ho => ?_
    cases o with
    | none => exact .pure (by simp)
    | some v =>
      have hargs : ∀ a ∈ [v], a.Tidy := by simpa using ho
      refine (ih.call h hargs).bind fun w hw => .pure ?_
      rintro p ⟨⟩
      exact ⟨hw, h⟩
  | filtered inner test =>
    refine (ih.seek inner h).bind fun o ho => ?_
    cases o with
    | none => exact .pure (by simp)
    | some v => exact .pure (by rintro p ⟨⟩; exact ⟨ho v rfl, h⟩)
  | watched inner point base subscriber =>
    refine (ih.next inner).bind fun o ho => ?_
    cases o with
    | none => exact .pure (by simp)
    | some row =>
      refine (Keeps.ofExcept fun _ _ => trivial).andThen fun key => (ih.toJson key).andThen fun j =>
        (Keeps.ofEncoding fun _ _ => trivial).andThen fun bytes => (KeepsTidy.send _).andThen fun _ =>
          (Keeps.update fun m hm => ?_).andThen fun _ => .pure (by rintro p ⟨⟩; exact ⟨ho row rfl, h⟩)
      exact ⟨hm.scopes, hm.cells⟩

theorem seek_succ (ih : AllTidy fuel) (h : Nat) {test : Function} (htest : (Value.function test).Tidy) :
    KeepsTidy (Eval.seek (fuel + 1) h test) fun o => ∀ v ∈ o, v.Tidy := by
  rw [Eval.seek]
  refine (ih.next h).bind fun o ho => ?_
  cases o with
  | none => exact .pure (by simp)
  | some v =>
    have hargs : ∀ a ∈ [v], a.Tidy := by simpa using ho
    refine (ih.call htest hargs).bind fun answer _ => ?_
    split
    next => exact .pure ho
    next => exact ih.seek h htest
    next => exact .throw _

theorem toJson_succ (ih : AllTidy fuel) (v : Value) : KeepsTidy (Eval.toJson (fuel + 1) v) fun _ => True := by
  cases v with
  | int | bool | str => exact .pure trivial
  | function | index => exact .throw _
  | record fields =>
    exact .bind (.mapM_all (R := fun _ => True) fun f _ => (ih.toJson f.2).andThen fun _ => .pure trivial)
      fun _ _ => .pure trivial
  | array elements t =>
    exact .bind (.mapM_all fun v _ => ih.toJson v) fun _ _ => .pure trivial
  | iterator h t => exact (ih.drain h).andThen fun _ => .pure trivial

theorem drain_succ (ih : AllTidy fuel) (h : Nat) : KeepsTidy (Eval.drain (fuel + 1) h) fun _ => True := by
  rw [Eval.drain]
  refine (ih.next h).bind fun o _ => ?_
  cases o with
  | none => exact .pure trivial
  | some v => exact (ih.toJson v).andThen fun _ => (ih.drain h).andThen fun _ => .pure trivial

end AllTidy

theorem allTidy (fuel : Nat) : AllTidy fuel := by
  induction fuel with
  | zero => exact .zero
  | succ fuel ih =>
    exact {
      eval := ih.eval_succ
      call := ih.call_succ
      next := fun h => by
        rw [Eval.next]
        exact KeepsTidy.readCell ih.advance h
      advance := ih.advance_succ
      seek := fun h => ih.seek_succ h
      toJson := ih.toJson_succ
      drain := ih.drain_succ }

/-- The value of a well-formed expression is tidy, in the scope of any catalog. -/
theorem tidy_eval {fuel : Nat} {schema : Schema} {store : Store} {e : Expr} (he : e.WellFormed) {v : Value}
    {m : Machine} (h : (do Eval.eval fuel (← Eval.load e) : Eval Value).exec
      (Machine.start (Catalog.scope schema store)) = some (.ok v, m)) : v.Tidy := by
  have hhandles : (handles schema store).Tidy := by
    refine .record (Keyed.ordered_ofList _) fun f hf => ?_
    obtain ⟨t, -, rfl⟩ := List.mem_map.mp (Keyed.mem_of_mem_ofList hf)
    refine .record (List.pairwise_singleton _ _) fun g hg => ?_
    cases List.mem_singleton.mp hg
    exact .index _
  have hscope : (Catalog.scope schema store).Tidy := by
    refine Scope.Tidy.child (fun link hlink => absurd hlink List.not_mem_nil) fun e he => ?_
    cases List.mem_singleton.mp he
    exact hhandles
  have hstart : (Machine.start (Catalog.scope schema store)).Tidy := by
    refine ⟨fun f hf => ?_, by simp [Machine.start]⟩
    cases List.mem_singleton.mp hf
    exact hscope
  have hact : KeepsTidy (do Eval.eval fuel (← Eval.load e)) Value.Tidy :=
    (KeepsTidy.load (Expr.tidy_of_wellFormed e he)).bind fun e' he' => (allTidy fuel).eval he'
  exact (hact _ _ _ hstart h).2 v rfl

end Eval

end LiveQuery
