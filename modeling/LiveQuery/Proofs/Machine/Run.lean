import LiveQuery.Machine.Evaluate
import LiveQuery.Proofs.Encoding.Record
import LiveQuery.Proofs.Outcome

/-! # Running evaluations

`Eval.exec` runs an evaluation on a machine. Its equations take an evaluation apart into its steps, so
that later proofs do not look into the monad. What the functions on rows and numbers give is data.
-/
namespace LiveQuery

namespace Eval

variable {α β : Type}

/-- The outcome of an evaluation on a machine and the machine after it, `none` if the fuel ran out. -/
def exec (act : Eval α) (m : Machine) : Option (Except EvalFault α × Machine) := act.run.run m

/-- What follows the outcome of a first evaluation. -/
def next? (f : α → Eval β) : Except EvalFault α × Machine → Option (Except EvalFault β × Machine)
  | (.ok a, m) => (f a).exec m
  | (.error e, m) => some (.error e, m)

@[simp] theorem next?_ok (f : α → Eval β) (a : α) (m : Machine) :
    next? f (.ok a, m) = (f a).exec m := rfl

@[simp] theorem next?_error (f : α → Eval β) (e : EvalFault) (m : Machine) :
    next? f (.error e, m) = some (.error e, m) := rfl

@[simp] theorem exec_pure (a : α) (m : Machine) : exec (pure a : Eval α) m = some (.ok a, m) := rfl

@[simp] theorem exec_throw (e : EvalFault) (m : Machine) :
    exec (throw e : Eval α) m = some (.error e, m) := rfl

@[simp] theorem exec_outOfFuel (m : Machine) : exec (outOfFuel : Eval α) m = none := rfl

@[simp] theorem exec_get (m : Machine) : exec (get : Eval Machine) m = some (.ok m, m) := rfl

@[simp] theorem exec_set (m m' : Machine) : exec (set m' : Eval Unit) m = some (.ok (), m') := rfl

@[simp] theorem exec_modify (f : Machine → Machine) (m : Machine) :
    exec (modify f : Eval Unit) m = some (.ok (), f m) := rfl

theorem exec_bind (x : Eval α) (f : α → Eval β) (m : Machine) :
    exec (x >>= f) m = (exec x m).bind (next? f) := by
  show ((x.run.run m).bind fun p => _) = _
  simp only [exec]
  cases x.run.run m with
  | none => rfl
  | some p =>
    obtain ⟨r, m'⟩ := p
    cases r <;> rfl

@[simp] theorem exec_ofExcept (r : Except EvalFault α) (m : Machine) :
    exec (ofExcept r) m = some (r, m) := by
  cases r <;> rfl

@[simp] theorem exec_ofEncoding (r : Except EncodingFault α) (m : Machine) :
    exec (ofEncoding r) m = some (r.mapError .encoding, m) := by
  cases r <;> rfl

theorem exec_outcome (act : Eval α) (m : Machine) :
    exec (outcome act) m = (exec act m).map fun p => (.ok p.1, p.2) := by
  simp only [exec, outcome]
  show ((act.run.run m).bind fun p => _) = _
  cases act.run.run m <;> rfl

theorem exec_inFrame (f : Frame) (act : Eval α) (m : Machine) :
    exec (inFrame f act) m = (exec act (m.push f)).map fun p => (p.1, p.2.pop) := by
  simp only [exec, inFrame]
  show ((act.run.run (m.push f)).bind fun p => _) = _
  cases act.run.run (m.push f) <;> rfl

@[simp] theorem exec_scope (m : Machine) : exec scope m = some (.ok m.top.scope, m) := rfl

@[simp] theorem exec_path (m : Machine) : exec path m = some (.ok m.top.path, m) := rfl

@[simp] theorem exec_takeRowPath (m : Machine) :
    exec takeRowPath m = some (.ok (m.rowPath.getD m.top.path), { m with rowPath := none }) := by
  obtain ⟨top, callers, cells, calls, stamps, rowPath, live, sent⟩ := m
  cases rowPath <;> rfl

@[simp] theorem exec_allocate (source : Source) (m : Machine) :
    exec (allocate source) m = some (.ok m.cells.size, (m.allocate source).2) := rfl

@[simp] theorem exec_send (s : Subscription) (m : Machine) :
    exec (send s) m = some (.ok (), { m with sent := m.sent.push s }) := rfl

@[simp] theorem exec_freshStamp (m : Machine) :
    exec freshStamp m = some (.ok m.stamps, { m with stamps := m.stamps + 1 }) := rfl

@[simp] theorem exec_load (e : Expr) (m : Machine) :
    exec (load e) m = some (.ok (m.load e).1, (m.load e).2) := rfl

theorem exec_within (s : Scope) (act : Eval α) (m : Machine) :
    exec (within s act) m =
      (exec act (m.push { scope := s, path := m.top.path })).map fun p => (p.1, p.2.pop) := by
  simp only [within, exec_bind, exec_path, Option.bind_some, next?_ok, exec_inFrame]

end Eval

namespace Machine

@[simp] theorem pop_push (m : Machine) (f : Frame) : (m.push f).pop = m := rfl

@[simp] theorem frames_push (m : Machine) (f : Frame) : (m.push f).frames = f :: m.frames := rfl

@[simp] theorem push_top (m : Machine) (f : Frame) : (m.push f).top = f := rfl

/-- Taking off the frame that was put on top gives the frames from before. -/
theorem frames_pop {m : Machine} {f : Frame} {fs : List Frame} (h : m.frames = f :: fs) (hn : fs ≠ []) :
    m.pop.frames = fs := by
  obtain ⟨top, callers, cells, calls, stamps, rowPath, live, sent⟩ := m
  obtain ⟨rfl, rfl⟩ := List.cons.inj h
  cases callers with
  | nil => exact absurd rfl hn
  | cons g gs => rfl

/-- Closing iterators leaves the frames alone. -/
theorem frames_closeFrom (fuel h : Nat) (m : Machine) : (closeFrom fuel h m).frames = m.frames := by
  induction fuel generalizing h m with
  | zero => rfl
  | succ fuel ih =>
    simp only [closeFrom]
    split
    next source _ =>
      split
      next inner _ => exact ih inner _
      next => rfl
    next => rfl

@[simp] theorem top_eq_of_frames {m m' : Machine} (h : m.frames = m'.frames) : m.top = m'.top :=
  (List.cons.inj h).1

end Machine

/-! ## Data -/

/-- A row that was looked up is data. -/
theorem Index.isData_of_get {i : Index} {key v : Value} (h : i.get key = .ok v) :
    v.IsData := by
  unfold Index.get at h
  split at h
  next => cases h
  next =>
    split at h
    next => cases h
    next =>
      split at h
      next => cases h
      next =>
        split at h
        next row hrow => cases h; exact Value.isData_of_decode hrow
        next => cases h

/-- What is computed of whole numbers is data. -/
theorem Builtin.isData_of_checkedInt {operation : String} {n : Int} {v : Value} (h : checkedInt operation n = .ok v) :
    v.IsData := by
  unfold checkedInt at h
  split at h
  next => cases h; trivial
  next => cases h

end LiveQuery
