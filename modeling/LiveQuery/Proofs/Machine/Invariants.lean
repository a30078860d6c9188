import LiveQuery.Proofs.Live.Audience
import LiveQuery.Proofs.Machine.Keeps

/-! # Invariants of evaluations

An evaluation is made of few steps: a frame is put on or taken off, an iterator is added, read or closed, a
subscription is sent, and what is noted beside that changes. An invariant that stands each of these steps
(`Machine.Invariant`) is kept by every expression, call, reading and rendering, with a value and with a fault
(`Machine.Invariant.all`). That holds of every expression and every store, whether it is typed or not.

The invariant is told the frames that the machine should have, so that it may speak of them, and it vouches for the
subscribers that iterators and the watch subscribe for.
-/
namespace LiveQuery

open Eval (Keeps)

/-- The subscribers that a source subscribes for. -/
def Source.SendsFor (P : Subscriber → Prop) : Source → Prop
  | .watched _ _ _ u => P u
  | .elements _ | .mapped .. | .filtered .. | .rows _ => True

/-- What the steps of evaluations keep of a machine with the given frames, when those who are subscribed for are in
`P`. -/
structure Machine.Invariant (P : Subscriber → Prop) (I : List Frame → Machine → Prop) : Prop where
  push {fs : List Frame} {m : Machine} (f : Frame) (h : I fs m) : I (f :: fs) (m.push f)
  pop {f g : Frame} {fs : List Frame} {m : Machine} (h : I (g :: f :: fs) m) : I (f :: fs) m.pop
  allocate {fs : List Frame} {m : Machine} {source : Source} (h : I fs m) (hs : source.SendsFor P) :
    I fs (m.allocate source).2
  setCell {fs : List Frame} {m : Machine} {n : Nat} {c : Cell} (h : I fs m)
    (hc : ∀ source, c = .ready source → source.SendsFor P) : I fs (m.setCell n c)
  send {fs : List Frame} {m : Machine} {s : Subscription} (h : I fs m) (hs : P s.listener.subscriber) :
    I fs { m with sent := m.sent.push s }
  note {fs : List Frame} {m : Machine} (calls : CallTable) (stamps : Nat) (rowPath : Option Path) (h : I fs m) :
    I fs { m with calls, stamps, rowPath }
  cell {fs : List Frame} {m : Machine} {n : Nat} {source : Source} (h : I fs m) (hc : m.cell n = .ready source) :
    source.SendsFor P
  live {fs : List Frame} {m : Machine} {w : Watch} (h : I fs m) (hw : m.live = some w) : P w.subscriber

namespace Machine.Invariant

variable {P : Subscriber → Prop} {I : List Frame → Machine → Prop} {f : Frame} {fs : List Frame}

theorem closeFrom (hI : Invariant P I) (fuel n : Nat) {m : Machine} (h : I fs m) : I fs (m.closeFrom fuel n) := by
  induction fuel generalizing n m with
  | zero => exact h
  | succ fuel ih =>
    have hdone : I fs (m.setCell n .done) := hI.setCell h (by simp)
    simp only [Machine.closeFrom]
    split
    next source _ =>
      split
      next inner _ => exact ih inner hdone
      next => exact hdone
    next => exact h

/-! ## The steps -/

section Steps

variable {α β : Type} {act : Eval α} {Q : α → Prop}

theorem ofExcept {J : Machine → Prop} (r : Except EvalFault α) : Keeps J (Eval.ofExcept r) fun _ => True :=
  Keeps.ofExcept fun _ _ => trivial

theorem ofEncoding {J : Machine → Prop} (r : Except EncodingFault α) : Keeps J (Eval.ofEncoding r) fun _ => True :=
  Keeps.ofEncoding fun _ _ => trivial

theorem mapM {J : Machine → Prop} {act : α → Eval β} (h : ∀ a, Keeps J (act a) fun _ => True) (as : List α) :
    Keeps J (as.mapM act) fun _ => True :=
  Keeps.mono (Keeps.mapM fun a _ => h a) fun _ _ => trivial

theorem foldlM {J : Machine → Prop} {act : β → α → Eval β} (h : ∀ b a, Keeps J (act b a) fun _ => True)
    (as : List α) (b : β) : Keeps J (as.foldlM act b) fun _ => True :=
  Keeps.foldlM (fun b _ a _ => h b a) trivial

theorem takeRowPath (hI : Invariant P I) : Keeps (I fs) Eval.takeRowPath fun _ => True :=
  Keeps.change Eval.exec_takeRowPath fun m hm => hI.note m.calls m.stamps none hm

theorem freshStamp (hI : Invariant P I) : Keeps (I fs) Eval.freshStamp fun _ => True :=
  Keeps.change Eval.exec_freshStamp fun m hm => hI.note m.calls (m.stamps + 1) m.rowPath hm

theorem load (hI : Invariant P I) (e : Expr) : Keeps (I fs) (Eval.load e) fun _ => True :=
  Keeps.change (Eval.exec_load e) fun m hm => hI.note _ m.stamps m.rowPath hm

theorem add (hI : Invariant P I) {source : Source} (h : source.SendsFor P) :
    Keeps (I fs) (Eval.allocate source) fun _ => True :=
  Keeps.change (Eval.exec_allocate source) fun _ hm => hI.allocate hm h

theorem subscribe (hI : Invariant P I) {s : Subscription} (h : P s.listener.subscriber) :
    Keeps (I fs) (Eval.send s) fun _ => True :=
  Keeps.update fun _ hm => hI.send hm h

theorem inFrame (hI : Invariant P I) {g : Frame} (h : Keeps (I (g :: f :: fs)) act Q) :
    Keeps (I (f :: fs)) (Eval.inFrame g act) Q :=
  Keeps.inFrame h (fun _ hm => hI.push g hm) fun _ hm => hI.pop hm

theorem within (hI : Invariant P I) (s : Scope) (h : ∀ g, Keeps (I (g :: f :: fs)) act Q) :
    Keeps (I (f :: fs)) (Eval.within s act) Q :=
  Keeps.read Eval.exec_path fun _ _ => hI.inFrame (h _)

end Steps

/-! ## Built-in functions -/

theorem toIterator (hI : Invariant P I) (v : Value) : Keeps (I fs) v.toIterator fun _ => True := by
  cases v with
  | array elements element =>
    have hsource : (Source.elements elements).SendsFor P := trivial
    exact (hI.add hsource).andThen fun _ => .pure trivial
  | iterator h element => exact .pure trivial
  | int | bool | str | record | function | index => exact .throw _

theorem listenAt (hI : Invariant P I) (rows : Value) (point : Int64) (value : Option Value) :
    Keeps (I fs) (LiveQuery.listenAt rows point value) fun _ => True := by
  refine Keeps.read (g := id) Eval.exec_get fun m hm => ?_
  cases hlive : (id m).live with
  | none => exact .pure trivial
  | some w =>
    have hw : P w.subscriber := hI.live hm hlive
    refine (ofExcept _).andThen fun p => Keeps.read Eval.exec_path fun _ _ => ?_
    have hrows : ∀ path, Keeps (I fs) (do
        let inner ← rows.toIterator
        return Value.iterator (← Eval.allocate (.watched inner.1 p path w.subscriber)) inner.2)
        fun _ => True := fun path => (hI.toIterator rows).andThen fun inner => by
      have hsource : (Source.watched inner.1 p path w.subscriber).SendsFor P := hw
      exact (hI.add hsource).andThen fun _ => .pure trivial
    dsimp only
    split
    next => exact hrows _
    next =>
      refine (ofEncoding _).andThen fun filter => Keeps.andThen ?_ fun _ => hrows _
      exact hI.subscribe (s := .table p.table filter ⟨w.subscriber, some p.query, _⟩) hw

theorem apply (hI : Invariant P I) (b : Builtin) (args : List Value) : Keeps (I fs) (b.apply args) fun _ => True := by
  have honInts : ∀ f, Keeps (I fs) (b.onInts f args) fun _ => True := by
    intro f
    unfold Builtin.onInts
    split
    next => exact (ofExcept _).andThen fun _ => (ofExcept _).andThen fun _ => ofExcept _
    next => exact .throw _
  have honBools : ∀ f, Keeps (I fs) (b.onBools f args) fun _ => True := by
    intro f
    unfold Builtin.onBools
    split
    next => exact (ofExcept _).andThen fun _ => (ofExcept _).andThen fun _ => .pure trivial
    next => exact .throw _
  have honStrs : ∀ f, Keeps (I fs) (b.onStrs f args) fun _ => True := by
    intro f
    unfold Builtin.onStrs
    split
    next => exact (ofExcept _).andThen fun _ => (ofExcept _).andThen fun _ => .pure trivial
    next => exact .throw _
  unfold Builtin.apply
  cases b with
  | plus | minus | times | intEq | intLt | intGt => exact honInts _
  | strEq | concat => exact honStrs _
  | boolEq | and | or => exact honBools _
  | not =>
    dsimp only
    split
    next => exact (ofExcept _).andThen fun _ => .pure trivial
    next => exact .throw _
  | map =>
    dsimp only
    split
    next =>
      refine (ofExcept _).andThen fun f => (hI.toIterator _).andThen fun inner => ?_
      have hsource : (Source.mapped inner.1 f).SendsFor P := trivial
      exact (hI.add hsource).andThen fun _ => .pure trivial
    next => exact .throw _
  | filter =>
    dsimp only
    split
    next =>
      refine (hI.toIterator _).andThen fun inner => (ofExcept _).andThen fun test => ?_
      have hsource : (Source.filtered inner.1 test).SendsFor P := trivial
      exact (hI.add hsource).andThen fun _ => .pure trivial
    next => exact .throw _
  | scan =>
    dsimp only
    split
    next =>
      refine (ofExcept _).andThen fun i => ?_
      have hsource : (Source.rows (i.rows.map Cursor.start)).SendsFor P := trivial
      exact (hI.add hsource).andThen fun _ => .pure trivial
    next => exact .throw _
  | get =>
    dsimp only
    split
    next => exact (ofExcept _).andThen fun _ => ofExcept _
    next => exact .throw _
  | listen =>
    dsimp only
    split
    next => exact (ofExcept _).andThen fun _ => hI.listenAt _ _ _
    next => exact .throw _
  | listenWhere =>
    dsimp only
    split
    next => exact (ofExcept _).andThen fun _ => hI.listenAt _ _ _
    next => exact .throw _

/-! ## Names and cells -/

theorem resolve (hI : Invariant P I) (name : String) (site : CallSite) :
    Keeps (I fs) (Eval.resolve name site) fun _ => True := by
  refine Keeps.read (g := id) Eval.exec_get fun m hm => ?_
  dsimp only [id]
  split
  next => exact .pure trivial
  next =>
    refine (ofExcept _).andThen fun v => ?_
    split
    next f =>
      have hnoted : ∀ calls, Keeps (I fs) (set { m with calls := calls } : Eval Unit) fun _ => True := by
        rintro calls m₁ r m' - ⟨⟩
        exact ⟨hI.note calls m.stamps m.rowPath hm, fun _ _ => trivial⟩
      split
      next =>
        split
        next => exact .pure trivial
        next => exact (hnoted _).andThen fun _ => .pure trivial
      next => exact .pure trivial
    next => exact .throw _

/-- A cell is read by something that gives a source back which subscribes for no others. -/
theorem readCell (hI : Invariant P I) {advance : Source → Eval (Option (Value × Source))}
    (h : ∀ source, source.SendsFor P → Keeps (I fs) (advance source) fun o => ∀ p ∈ o, p.2.SendsFor P)
    (n : Nat) : Keeps (I fs) (Eval.readCell advance n) fun _ => True := by
  refine Keeps.read (g := id) Eval.exec_get fun m hm => ?_
  dsimp only [id]
  split
  next => exact .pure trivial
  next => exact .throw _
  next source hcell =>
    refine (Keeps.update fun m hm => hI.setCell hm (by simp)).andThen fun _ =>
      (Keeps.outcome (h source (hI.cell hm hcell))).bind fun r hr => ?_
    have hfinish : Keeps (I fs) (Eval.readCell.finish n source) fun _ => True := by
      refine Keeps.update fun m hm => ?_
      split
      next => exact hI.setCell (hI.closeFrom _ _ hm) (by simp)
      next => exact hI.setCell hm (by simp)
    cases r with
    | ok o =>
      cases o with
      | some p =>
        have hp : p.2.SendsFor P := hr _ rfl p rfl
        refine (Keeps.update fun m hm => hI.setCell hm ?_).andThen fun _ => .pure trivial
        rintro source ⟨⟩
        exact hp
      | none => exact hfinish.andThen fun _ => .pure trivial
    | error e => exact hfinish.andThen fun _ => .throw e

end Machine.Invariant

/-! ## The evaluator -/

namespace Eval

/-- The invariant is kept by what the evaluator does with some fuel. -/
structure AllKeep (P : Subscriber → Prop) (I : List Frame → Machine → Prop) (fuel : Nat) : Prop where
  eval {f : Frame} {fs : List Frame} (e : Expr) : Keeps (I (f :: fs)) (eval fuel e) fun _ => True
  call {f : Frame} {fs : List Frame} (g : Function) (args : List Value) :
    Keeps (I (f :: fs)) (call fuel g args) fun _ => True
  next {f : Frame} {fs : List Frame} (h : Nat) : Keeps (I (f :: fs)) (next fuel h) fun _ => True
  advance {f : Frame} {fs : List Frame} (source : Source) (h : source.SendsFor P) :
    Keeps (I (f :: fs)) (advance fuel source) fun o => ∀ p ∈ o, p.2.SendsFor P
  seek {f : Frame} {fs : List Frame} (h : Nat) (test : Function) :
    Keeps (I (f :: fs)) (seek fuel h test) fun _ => True
  toJson {f : Frame} {fs : List Frame} (v : Value) : Keeps (I (f :: fs)) (toJson fuel v) fun _ => True
  drain {f : Frame} {fs : List Frame} (h : Nat) : Keeps (I (f :: fs)) (drain fuel h) fun _ => True

end Eval

namespace Machine.Invariant

variable {P : Subscriber → Prop} {I : List Frame → Machine → Prop} {f : Frame} {fs : List Frame} {fuel : Nat}

theorem all_zero : Eval.AllKeep P I 0 where
  eval _ := by rw [Eval.eval]; exact .outOfFuel
  call _ _ := by rw [Eval.call]; exact .outOfFuel
  next _ := by rw [Eval.next]; exact .outOfFuel
  advance _ _ := by rw [Eval.advance]; exact .outOfFuel
  seek _ _ := by rw [Eval.seek]; exact .outOfFuel
  toJson _ := by rw [Eval.toJson]; exact .outOfFuel
  drain _ := by rw [Eval.drain]; exact .outOfFuel

theorem eval_succ (hI : Invariant P I) (ih : Eval.AllKeep P I fuel) (e : Expr) :
    Keeps (I (f :: fs)) (Eval.eval (fuel + 1) e) fun _ => True := by
  cases e with
  | int | str | index | value => exact .pure trivial
  | var name => exact .read Eval.exec_scope fun _ _ => ofExcept _
  | lambda params result body => exact hI.freshStamp.andThen fun _ => .read Eval.exec_scope fun _ _ => .pure trivial
  | record fields =>
    exact .andThen (mapM (fun f => (ih.eval f.2).andThen fun _ => .pure trivial) fields) fun _ => .pure trivial
  | call name args site =>
    exact (hI.resolve name site).andThen fun g => .andThen (mapM ih.eval args) fun vs => ih.call g vs
  | member e name => exact (ih.eval e).andThen fun _ => ofExcept _
  | block bindings result =>
    refine .read Eval.exec_scope fun _ _ => .andThen (foldlM (fun s b => ?_) bindings _) fun inner => ?_
    · exact .andThen (hI.within s fun _ => ih.eval b.2) fun _ => .pure trivial
    · exact hI.within inner fun _ => ih.eval result

theorem call_succ (hI : Invariant P I) (ih : Eval.AllKeep P I fuel) (g : Function) (args : List Value) :
    Keeps (I (f :: fs)) (Eval.call (fuel + 1) g args) fun _ => True := by
  rw [Eval.call]
  by_cases harity : g.arity ≠ args.length
  · rw [if_pos harity]
    exact .throw _
  · rw [if_neg harity]
    refine .andThen hI.takeRowPath fun path => ?_
    cases g with
    | closure stamp params result body scope => exact hI.inFrame (ih.eval body)
    | builtin b =>
      exact (ofExcept _).andThen fun _ => (hI.inFrame (hI.apply b args)).andThen fun _ => ofExcept _

theorem advance_succ (hI : Invariant P I) (ih : Eval.AllKeep P I fuel) (source : Source) (h : source.SendsFor P) :
    Keeps (I (f :: fs)) (Eval.advance (fuel + 1) source) fun o => ∀ p ∈ o, p.2.SendsFor P := by
  cases source with
  | elements rest =>
    cases rest with
    | nil => exact .pure (by simp)
    | cons v rest => exact .pure (by rintro p ⟨⟩; trivial)
  | rows cursor =>
    cases cursor with
    | none => exact .pure (by simp)
    | some cursor =>
      simp only [Eval.advance]
      split
      next => exact .andThen (ofEncoding _) fun _ => .pure (by rintro p ⟨⟩; trivial)
      next => exact .pure (by simp)
  | mapped inner g =>
    refine (ih.next inner).andThen fun o => ?_
    cases o with
    | none => exact .pure (by simp)
    | some v => exact (ih.call g [v]).andThen fun _ => .pure (by rintro p ⟨⟩; trivial)
  | filtered inner test =>
    refine (ih.seek inner test).andThen fun o => ?_
    cases o with
    | none => exact .pure (by simp)
    | some v => exact .pure (by rintro p ⟨⟩; trivial)
  | watched inner point base subscriber =>
    refine (ih.next inner).andThen fun o => ?_
    cases o with
    | none => exact .pure (by simp)
    | some row =>
      refine (ofExcept _).andThen fun key => (ih.toJson key).andThen fun j => (ofEncoding _).andThen fun bytes =>
        (hI.subscribe (s := .record _ _ ⟨subscriber, none, _⟩) h).andThen fun _ => .andThen (.update fun m hm => ?_)
          fun _ => .pure (by rintro p ⟨⟩; exact h)
      exact hI.note m.calls m.stamps _ hm

theorem seek_succ (ih : Eval.AllKeep P I fuel) (h : Nat) (test : Function) :
    Keeps (I (f :: fs)) (Eval.seek (fuel + 1) h test) fun _ => True := by
  rw [Eval.seek]
  refine (ih.next h).andThen fun o => ?_
  cases o with
  | none => exact .pure trivial
  | some v =>
    refine (ih.call test [v]).andThen fun answer => ?_
    split
    next => exact .pure trivial
    next => exact ih.seek h test
    next => exact .throw _

theorem toJson_succ (ih : Eval.AllKeep P I fuel) (v : Value) :
    Keeps (I (f :: fs)) (Eval.toJson (fuel + 1) v) fun _ => True := by
  cases v with
  | int | bool | str => exact .pure trivial
  | function | index => exact .throw _
  | record fields =>
    exact .andThen (mapM (fun f => (ih.toJson f.2).andThen fun _ => .pure trivial) fields) fun _ => .pure trivial
  | array elements t => exact .andThen (mapM ih.toJson elements) fun _ => .pure trivial
  | iterator h t => exact (ih.drain h).andThen fun _ => .pure trivial

theorem drain_succ (ih : Eval.AllKeep P I fuel) (h : Nat) :
    Keeps (I (f :: fs)) (Eval.drain (fuel + 1) h) fun _ => True := by
  rw [Eval.drain]
  refine (ih.next h).andThen fun o => ?_
  cases o with
  | none => exact .pure trivial
  | some v => exact (ih.toJson v).andThen fun _ => (ih.drain h).andThen fun _ => .pure trivial

theorem all (hI : Invariant P I) (fuel : Nat) : Eval.AllKeep P I fuel := by
  induction fuel with
  | zero => exact all_zero
  | succ fuel ih =>
    exact {
      eval := hI.eval_succ ih
      call := hI.call_succ ih
      next := fun h => by
        rw [Eval.next]
        exact hI.readCell ih.advance h
      advance := hI.advance_succ ih
      seek := seek_succ ih
      toJson := toJson_succ ih
      drain := drain_succ ih }

/-- Reading an iterator to a list is reading it until it ends. -/
theorem collect (hI : Invariant P I) (fuel h : Nat) : Keeps (I (f :: fs)) (Eval.collect fuel h) fun _ => True := by
  induction fuel with
  | zero => exact .outOfFuel
  | succ fuel ih =>
    refine ((hI.all fuel).next h).andThen fun o => ?_
    cases o with
    | none => exact .pure trivial
    | some v => exact ih.andThen fun _ => .pure trivial

/-- An expression is loaded, evaluated and turned into data. -/
theorem render (hI : Invariant P I) {e : Expr} {m n : Machine} {r : Except EvalFault Json} (hm : I m.frames m)
    (hr : Eval.exec (do Eval.toJson fuel (← Eval.eval fuel (← Eval.load e))) m = some (r, n)) : I m.frames n := by
  have hact : Keeps (I (m.top :: m.callers)) (do Eval.toJson fuel (← Eval.eval fuel (← Eval.load e)))
      fun _ => True :=
    (hI.load e).andThen fun e => ((hI.all fuel).eval e).andThen fun v => (hI.all fuel).toJson v
  exact (hact m r n hm hr).1

end Machine.Invariant

end LiveQuery
