import LiveQuery.Proofs.Caching.Fresh
import LiveQuery.Proofs.Inlining.Linking
import LiveQuery.Proofs.Inlining.Meaning

/-! # Noting calls is not seen

The first look-up of a call that finds a built-in function under a free name is noted in the call table, and later
evaluations of the call take the function from there. A `Client` has expressions (`Job`), each with the names that
its base scopes bind. It takes one interpreter after another, over scopes that it makes of the values it has, and
evaluates the expressions as often as it likes; it calls functions, reads iterators and takes values as data, in any
order (`Client.ask`). It sees faults, the types and texts of values, data and subscriptions (`Answer`).

What it sees of expressions that have cells in the call table is what it sees of the expressions as they were written,
whose calls look their names up in the scope where they stand each time (`Client.talk_load`). The names of a job
matter: an expression that is evaluated under a binding of a name and also without one may find a note that belongs to
the other.
-/
namespace LiveQuery

/-- A new interpreter over `scope`, on the heap that the last one left. -/
def Machine.over (m : Machine) (scope : Scope) (live : Option Watch) : Machine where
  top := { scope, path := live.elim Path.root Watch.base }
  cells := m.cells
  calls := m.calls
  stamps := m.stamps
  live := live

/-- An expression, and the names that the links of its base scopes bind. -/
structure Job where
  expr : Expr
  names : List (List String)

/-- Gives the calls of all jobs cells of the call table. -/
def Machine.loadJobs (m : Machine) : List Job → List Job × Machine
  | [] => ([], m)
  | job :: jobs =>
    let (expr, m) := m.load job.expr
    let (jobs, m) := m.loadJobs jobs
    ({ job with expr } :: jobs, m)

/-- What a client may do next. Numbers are places among its values. -/
inductive Ask
  /-- It takes a new interpreter for a job, over a scope that binds the names of the job to values, with or without
  a watch. -/
  | interpreter (job : Nat) (links : List (List Nat)) (live : Option Watch)
  /-- It evaluates the expression of the job. -/
  | evaluate
  | call (function : Nat) (args : List Nat)
  | next (iterator : Nat)
  | toJson (value : Nat)

/-- What a client sees of an outcome. -/
inductive Seen
  | value (ty : Ty) (text : String)
  | data (json : Json)
  | nothing

/-- What a client sees after it asked, with all subscriptions that its interpreter has sent. -/
structure Answer where
  outcome : Except EvalFault Seen
  sent : Array Subscription

/-- The machine that a client works on, the expression of its interpreter and the values that it has. -/
structure Client where
  machine : Machine
  expr : Option Expr := none
  values : List Value := []

namespace Client

/-- The values at some places. -/
def pick (values : List Value) (is : List Nat) : Option (List Value) := is.mapM (values[·]?)

/-- The scope that binds the names of some links to values, a value for each name. -/
def scopeOf (values : List Value) : List (List String) → List (List Nat) → Option Scope
  | [], [] => some Scope.root
  | names :: links, is :: iss => do
    let vs ← pick values is
    let scope ← scopeOf values links iss
    if names.length = vs.length then return Links.child scope (names.zip vs) else none
  | _, _ => none

/-- The outcome of an evaluation: a value that is new to the client, if there is one. -/
def gets (c : Client) : Except EvalFault (Option Value) × Machine → Answer × Client
  | (.error e, n) => (⟨.error e, n.sent⟩, { c with machine := n })
  | (.ok none, n) => (⟨.ok .nothing, n.sent⟩, { c with machine := n })
  | (.ok (some v), n) => (⟨.ok (.value v.ty v.text), n.sent⟩, { c with machine := n, values := c.values ++ [v] })

/-- What a client sees when it asks, and the client then; there is none if it asks for what there is not. -/
def ask (fuel : Nat) (jobs : List Job) (c : Client) : Ask → Option (Answer × Client)
  | .interpreter i links live => do
    let job ← jobs[i]?
    let scope ← scopeOf c.values job.names links
    return (⟨.ok .nothing, #[]⟩, { c with machine := c.machine.over scope live, expr := some job.expr })
  | .evaluate => do
    let e ← c.expr
    return c.gets (← (some <$> Eval.eval fuel e).exec c.machine)
  | .call i is =>
    match c.values[i]? with
    | some (.function f) => do
      let args ← pick c.values is
      return c.gets (← (some <$> Eval.call fuel f args).exec c.machine)
    | _ => none
  | .next i =>
    match c.values[i]? with
    | some (.iterator h _) => do return c.gets (← (Eval.next fuel h).exec c.machine)
    | _ => none
  | .toJson i => do
    let v ← c.values[i]?
    let (r, n) ← (Eval.toJson fuel v).exec c.machine
    return (⟨r.map .data, n.sent⟩, { c with machine := n })

/-- What a client sees when it asks one thing after another. -/
def talk (fuel : Nat) (jobs : List Job) (c : Client) : List Ask → Option (List Answer × Client)
  | [] => some ([], c)
  | a :: asks => do
    let (answer, c) ← c.ask fuel jobs a
    let (answers, c) ← c.talk fuel jobs asks
    return (answer :: answers, c)

end Client

namespace Pairing

variable {p q : Pairing}

/-- Jobs that belong together. -/
def Jobs (p : Pairing) : List Job → List Job → Prop :=
  List.Forall₂ fun a b => a.names = b.names ∧ p.Exprs (.under a.names.flatten) a.expr b.expr

/-- Clients that belong together: their interpreters do, with the frames `f :: fs` and `f' :: fs'`, and their values. -/
structure Clients (p : Pairing) (f f' : Frame) (fs fs' : List Frame) (place : Place) (c c' : Client) : Prop where
  at_ : p.At place f f'
  expr : Option.Rel (p.Exprs place) c.expr c'.expr
  machines : p.Machines (f :: fs) (f' :: fs') c.machine c'.machine
  values : p.Elements c.values c'.values

/-- What the client `d` is after it saw `answer` belongs to what the other client is after it saw the same. -/
def Sees (p : Pairing) (answer : Answer) (d : Client) (x : Nat → Option (Answer × Client)) : Prop :=
  ∃ fuel d', (∀ k, fuel ≤ k → x k = some (answer, d')) ∧ ∃ f f' fs fs' place, p.Clients f f' fs fs' place d d'

/-! ## Clients side by side -/

theorem Machines.over {fs fs' : List Frame} {m m' : Machine} (h : p.Machines fs fs' m m') (s s' : Scope)
    (live : Option Watch) :
    p.Machines [{ scope := s, path := live.elim Path.root Watch.base }]
      [{ scope := s', path := live.elim Path.root Watch.base }] (m.over s live) (m'.over s' live) where
  frames := rfl
  frames' := rfl
  cells := h.cells
  calls := h.calls
  stamps := h.stamps
  rowPath := rfl
  live := rfl
  sent := rfl

theorem exists_of_rel {α β : Type} {R : α → β → Prop} {o : Option α} {o' : Option β} (h : Option.Rel R o o') {a : α}
    (ha : o = some a) : ∃ b, o' = some b ∧ R a b := by
  subst ha
  cases h with
  | some hab => exact ⟨_, rfl, hab⟩

namespace Elements

variable {us vs : List Value}

theorem getElem? {us vs : List Value} : p.Elements us vs → (i : Nat) → Option.Rel p.Values us[i]? vs[i]?
  | .nil, _ => .none
  | .cons head _, 0 => .some head
  | .cons _ tail, i + 1 => tail.getElem? i

theorem pick (h : p.Elements us vs) (is : List Nat) :
    Option.Rel p.Elements (Client.pick us is) (Client.pick vs is) := by
  unfold Client.pick
  induction is with
  | nil => exact .some .nil
  | cons i is ih =>
    rw [List.mapM_cons, List.mapM_cons]
    match us[i]?, vs[i]?, h.getElem? i with
    | _, _, .none => exact .none
    | _, _, .some hv =>
      match List.mapM (us[·]?) is, List.mapM (vs[·]?) is, ih with
      | _, _, .none => exact .none
      | _, _, .some hvs => exact .some (.cons hv hvs)

/-- The scopes that two clients make belong together, and bind the names that they are to bind. -/
theorem scopeOf (h : p.Elements us vs) (links : List (List String)) (iss : List (List Nat)) :
    Option.Rel (fun s s' => p.Scopes s s' ∧ (Place.under links.flatten).Fits Scope.root s ∧
        (Place.under links.flatten).Fits Scope.root s')
      (Client.scopeOf us links iss) (Client.scopeOf vs links iss) := by
  induction links generalizing iss with
  | nil =>
    cases iss with
    | nil =>
      have hroot : (Place.under []).Fits Scope.root Scope.root :=
        fun _ => ⟨fun hn => absurd hn List.not_mem_nil, fun _ => rfl⟩
      exact .some ⟨.nil, hroot, hroot⟩
    | cons is iss => exact .none
  | cons names links ih =>
    cases iss with
    | nil => exact .none
    | cons is iss =>
      simp only [Client.scopeOf]
      match Client.pick us is, Client.pick vs is, h.pick is with
      | _, _, .none => exact .none
      | some us', some vs', .some helements =>
        match Client.scopeOf us links iss, Client.scopeOf vs links iss, ih iss with
        | _, _, .none => exact .none
        | some s, some s', .some ⟨hscopes, hfits, hfits'⟩ =>
          simp only [Option.bind_eq_bind, Option.bind_some, helements.length]
          split
          next hlength =>
            have hkeys : ∀ ws : List Value, ws.length = vs'.length → Keyed.keys (names.zip ws) = names :=
              fun ws hws => List.map_fst_zip (Nat.le_of_eq (hlength.trans hws.symm))
            exact .some ⟨hscopes.child (helements.zip names), hfits.child (hkeys us' helements.length),
              hfits'.child (hkeys vs' rfl)⟩
          next => exact .none

theorem concat {us vs : List Value} {u v : Value} : p.Elements us vs → p.Values u v → p.Elements (us ++ [u]) (vs ++ [v])
  | .nil, h => .cons h .nil
  | .cons head tail, h => .cons head (tail.concat h)

end Elements

theorem Follows.some {α β : Type} {fs fs' : List Frame} {R : α → β → Prop} {x : Eval α} {y : Nat → Eval β}
    (h : p.Follows fs fs' R x y) : p.Follows fs fs' (Option.Rel R) (some <$> x) fun k => some <$> y k := by
  simp only [map_eq_pure_bind]
  exact h.bind fun _ _ hab => .pure (.some hab)

theorem Jobs.getElem? {jobs jobs' : List Job} (h : p.Jobs jobs jobs') (i : Nat) :
    Option.Rel (fun a b => a.names = b.names ∧ p.Exprs (.under a.names.flatten) a.expr b.expr) jobs[i]? jobs'[i]? := by
  induction h generalizing i with
  | nil => exact .none
  | cons hab _ ih =>
    cases i with
    | zero => exact .some hab
    | succ i => exact ih i

namespace Clients

variable {f f' : Frame} {fs fs' : List Frame} {place : Place} {c c' : Client} {jobs jobs' : List Job}

theorem gets (h : p.Clients f f' fs fs' place c c') {n n' : Machine} (hn : p.Machines (f :: fs) (f' :: fs') n n')
    {r r' : Except EvalFault (Option Value)} (hr : Outcomes (Option.Rel p.Values) r r') :
    (c.gets (r, n)).1 = (c'.gets (r', n')).1 ∧
      p.Clients f f' fs fs' place (c.gets (r, n)).2 (c'.gets (r', n')).2 := by
  match r, r', hr with
  | _, _, .error e => exact ⟨by simp only [Client.gets, hn.sent], h.at_, h.expr, hn, h.values⟩
  | _, _, .ok .none => exact ⟨by simp only [Client.gets, hn.sent], h.at_, h.expr, hn, h.values⟩
  | _, _, .ok (.some huv) =>
    exact ⟨by simp only [Client.gets, hn.sent, huv.ty, huv.text], h.at_, h.expr, hn, h.values.concat huv⟩

theorem symm (h : p.Clients f f' fs fs' place c c') : p.swap.Clients f' f fs' fs place c' c := by
  refine ⟨⟨h.at_.scopes.symm, h.at_.fits', h.at_.fits, h.at_.path.symm⟩, ?_, h.machines.symm, h.values.symm⟩
  match c.expr, c'.expr, h.expr with
  | _, _, .none => exact .none
  | _, _, .some he => exact .some he.symm

/-- Evaluations that follow each other are seen alike. -/
theorem sees_gets (h : p.Clients f f' fs fs' place c c') {x : Eval (Option Value)} {y : Nat → Eval (Option Value)}
    (hxy : p.Follows (f :: fs) (f' :: fs') (Option.Rel p.Values) x y) {answer : Answer} {d : Client}
    (hd : (x.exec c.machine >>= fun o => some (c.gets o)) = some (answer, d)) :
    p.Sees answer d fun k => (y k).exec c'.machine >>= fun o => some (c'.gets o) := by
  obtain ⟨⟨r, n⟩, hx, hgets⟩ := Option.bind_eq_some_iff.mp hd
  obtain ⟨r', n', ⟨fuel, hy⟩, hn, hr⟩ := hxy _ _ h.machines r n hx
  obtain ⟨hanswer, hclients⟩ := h.gets hn hr
  rw [Option.some.inj hgets] at hanswer hclients
  refine ⟨fuel, _, fun k hk => ?_, f, f', fs, fs', place, hclients⟩
  dsimp only at hanswer ⊢
  rw [hy k hk, hanswer]
  rfl

/-- What one client sees, the other sees when it asks the same. -/
theorem sees_ask (h : p.Clients f f' fs fs' place c c') (hjobs : p.Jobs jobs jobs') (hscope : p.scope = Scope.root)
    {a : Ask} {fuel : Nat} {answer : Answer} {d : Client} (hask : c.ask fuel jobs a = some (answer, d)) :
    p.Sees answer d fun k => c'.ask k jobs' a := by
  cases a with
  | interpreter i links live =>
    obtain ⟨job, hjob, hask⟩ := Option.bind_eq_some_iff.mp hask
    obtain ⟨s, hs, hask⟩ := Option.bind_eq_some_iff.mp hask
    cases hask
    obtain ⟨job', hjob', hnames, hexprs⟩ := exists_of_rel (hjobs.getElem? i) hjob
    obtain ⟨s', hs', hscopes, hfits, hfits'⟩ := exists_of_rel (h.values.scopeOf job.names links) hs
    have hat : p.At (.under job.names.flatten) { scope := s, path := live.elim Path.root Watch.base }
        { scope := s', path := live.elim Path.root Watch.base } :=
      ⟨hscopes, hscope ▸ hfits, hscope ▸ hfits', rfl⟩
    refine ⟨0, { c' with machine := c'.machine.over s' live, expr := some job'.expr }, fun k _ => ?_, _, _, [], [],
      _, hat, .some hexprs, h.machines.over s s' live, h.values⟩
    rw [hnames] at hs'
    simp only [Client.ask, hjob', hs', Option.bind_eq_bind, Option.bind_some, Option.pure_def]
  | evaluate =>
    obtain ⟨e, he, hask⟩ := Option.bind_eq_some_iff.mp hask
    obtain ⟨e', he', hexpr⟩ := exists_of_rel h.expr he
    simp only [Client.ask, he']
    exact h.sees_gets ((p.simulates fuel).eval fs fs' h.at_ hexpr).some hask
  | call i is =>
    simp only [Client.ask] at hask
    split at hask
    next g hg =>
      obtain ⟨args, hargs, hask⟩ := Option.bind_eq_some_iff.mp hask
      obtain ⟨v, hv, hfunction⟩ := exists_of_rel (h.values.getElem? i) hg
      obtain ⟨args', hargs', helements⟩ := exists_of_rel (h.values.pick is) hargs
      cases hfunction with
      | function hfunctions =>
        simp only [Client.ask, hv, hargs']
        exact h.sees_gets ((p.simulates fuel).call fs fs' h.at_.path hfunctions helements).some hask
    next => cases hask
  | next i =>
    simp only [Client.ask] at hask
    split at hask
    next n t hn =>
      obtain ⟨v, hv, hiterator⟩ := exists_of_rel (h.values.getElem? i) hn
      cases hiterator
      simp only [Client.ask, hv]
      exact h.sees_gets ((p.simulates fuel).next fs fs' h.at_.path n) hask
    next => cases hask
  | toJson i =>
    obtain ⟨u, hu, hask⟩ := Option.bind_eq_some_iff.mp hask
    obtain ⟨⟨r, n⟩, hx, hask⟩ := Option.bind_eq_some_iff.mp hask
    cases hask
    obtain ⟨v, hv, huv⟩ := exists_of_rel (h.values.getElem? i) hu
    obtain ⟨r', n', ⟨k₀, hy⟩, hn, hr⟩ := (p.simulates fuel).toJson fs fs' h.at_.path huv _ _ h.machines r n hx
    have hsame : r = r' := by
      cases hr with
      | ok hj => rw [hj]
      | error e => rfl
    refine ⟨k₀, { c' with machine := n' }, fun k hk => ?_, f, f', fs, fs', place, h.at_, h.expr, hn, h.values⟩
    simp only [Client.ask, hv, Option.bind_eq_bind, Option.bind_some, hy k hk, Option.pure_def]
    rw [hsame, hn.sent]

theorem sees_talk (h : p.Clients f f' fs fs' place c c') (hjobs : p.Jobs jobs jobs') (hscope : p.scope = Scope.root)
    {asks : List Ask} {fuel : Nat} {answers : List Answer} {d : Client}
    (htalk : c.talk fuel jobs asks = some (answers, d)) :
    ∃ fuel', ∀ k, fuel' ≤ k → ∃ d', c'.talk k jobs' asks = some (answers, d') := by
  induction asks generalizing f f' fs fs' place c c' answers with
  | nil =>
    cases htalk
    exact ⟨0, fun k _ => ⟨c', rfl⟩⟩
  | cons a asks ih =>
    obtain ⟨⟨answer, c₁⟩, hask, htalk⟩ := Option.bind_eq_some_iff.mp htalk
    obtain ⟨⟨answers, c₂⟩, hrest, htalk⟩ := Option.bind_eq_some_iff.mp htalk
    cases htalk
    obtain ⟨fuel₁, c₁', hask', _, _, _, _, _, h₁⟩ := h.sees_ask hjobs hscope hask
    obtain ⟨fuel₂, hrest'⟩ := ih h₁ hrest
    refine ⟨max fuel₁ fuel₂, fun k hk => ?_⟩
    obtain ⟨d', hd'⟩ := hrest' k (by omega)
    refine ⟨d', ?_⟩
    simp only [Client.talk, hask' k (by omega), hd', Option.bind_eq_bind, Option.bind_some, Option.pure_def]

end Clients

/-! ## Loading -/

theorem Jobs.symm {jobs jobs' : List Job} (h : p.Jobs jobs jobs') : p.swap.Jobs jobs' jobs := by
  refine (h.imp fun a b hab => ?_).flip
  exact ⟨hab.1.symm, hab.1 ▸ hab.2.symm⟩

theorem Grows.next_le (h : p.Grows q) : p.next ≤ q.next := by
  rw [Pairing.next, Pairing.next, h.size]
  exact Nat.add_le_add_left h.left.length_le _

/-- Jobs with cells of their own beside the jobs as they were. -/
theorem jobs_load : (jobs : List Job) → (∀ job ∈ jobs, job.expr.Fresh) → (m : Machine) → (p : Pairing) →
    p.next = m.calls.size → ∃ q k, p.Grows q ∧ q.Jobs (m.loadJobs jobs).1 jobs ∧
      (m.loadJobs jobs).2 = { m with calls := m.calls ++ Array.replicate k none }
  | [], _, m, p, hp => ⟨p, 0, .refl p, .nil, by rw [Machine.loadJobs, Array.replicate_zero, Array.append_empty]⟩
  | job :: jobs, h, m, p, hp => by
    obtain ⟨hjob, hjobs⟩ := List.forall_mem_cons.mp h
    obtain ⟨q, linked, hq, hlink, hexprs⟩ :=
      (Exprs.of_fresh (p := p) hjob (.under job.names.flatten)).link p (.refl p)
    have hload : m.load job.expr =
        (linked, { m with calls := m.calls ++ Array.replicate (q.next - m.calls.size) none }) := by
      rw [Machine.load, ← hp, hlink]
    have hnext : q.next = (m.load job.expr).2.calls.size := by
      have hle := hq.next_le
      rw [hload, Array.size_append, Array.size_replicate]
      omega
    obtain ⟨r, k, hr, hrest, hmachine⟩ := jobs_load jobs hjobs (m.load job.expr).2 q hnext
    refine ⟨r, (q.next - m.calls.size) + k, hq.trans hr, ?_, ?_⟩
    · rw [Machine.loadJobs, hload]
      rw [hload] at hrest
      exact .cons ⟨rfl, hexprs.mono hr.toExtends⟩ hrest
    · rw [Machine.loadJobs]
      dsimp only
      rw [hmachine, hload, Array.append_assoc, Array.replicate_append_replicate]

/-- A machine without calls that has given cells to some, beside itself. -/
theorem machines_replicate {m : Machine} (hm : m.linked = true) (hcalls : m.calls = #[]) (hsize : p.size = 0)
    (hright : p.right = []) (k : Nat) :
    p.Machines (m.top :: m.callers) (m.top :: m.callers) { m with calls := m.calls ++ Array.replicate k none } m where
  frames := rfl
  frames' := rfl
  cells := by
    refine List.forall₂_same.mpr fun c hc => .refl ?_
    rw [hsize]
    have hcells := (Bool.and_eq_true_iff.mp hm).2
    rw [hcalls] at hcells
    exact List.all_eq_true.mp hcells c hc
  calls := by
    refine ⟨fun i hi => ?_, ?_, ?_⟩
    · rw [hsize] at hi
      exact absurd hi (Nat.not_lt_zero i)
    · have hnotes := notes_append p.scope m.calls p.left k
      rw [hcalls] at hnotes ⊢
      rw [hsize]
      exact hnotes
    · rw [hright]
      intro i name hidden b hi
      cases hi
  stamps := rfl
  rowPath := rfl
  live := rfl
  sent := rfl

end Pairing

namespace Client

/-- Of expressions that were just written a client sees the same, whatever it asks, when their calls have cells in
the call table and when each of them looks its name up each time. It may start with any values and iterators in
which no call has a cell. -/
theorem talk_load {jobs : List Job} (hjobs : ∀ job ∈ jobs, job.expr.Authored) {m : Machine} (hm : m.linked = true)
    (hcalls : m.calls = #[]) {values : List Value} (hvalues : Value.elementsLinked 0 values = true) (asks : List Ask)
    (answers : List Answer) :
    (∃ k d, talk k (m.loadJobs jobs).1 { machine := (m.loadJobs jobs).2, values } asks = some (answers, d)) ↔
      ∃ k d, talk k jobs { machine := m, values } asks = some (answers, d) := by
  obtain ⟨q, n, hq, hpaired, hmachine⟩ := Pairing.jobs_load jobs (fun job hjob => (hjobs job hjob).fresh) m
    { scope := Scope.root, size := 0 } (by rw [hcalls]; rfl)
  have hscope : q.scope = Scope.root := hq.scope
  have hsize : q.size = 0 := hq.size
  have hlinks := (Bool.and_eq_true_iff.mp hm).1
  rw [hcalls] at hlinks
  have hclients : q.Clients m.top m.top m.callers m.callers .elsewhere
      { machine := (m.loadJobs jobs).2, values } { machine := m, values } := by
    refine ⟨⟨.refl _ (hsize ▸ hlinks), trivial, trivial, rfl⟩, .none, ?_, .refl _ (hsize ▸ hvalues)⟩
    rw [hmachine]
    exact Pairing.machines_replicate hm hcalls hsize hq.same n
  constructor
  · rintro ⟨k, d, htalk⟩
    obtain ⟨fuel, h⟩ := hclients.sees_talk hpaired hscope htalk
    exact ⟨fuel, h fuel (Nat.le_refl _)⟩
  · rintro ⟨k, d, htalk⟩
    obtain ⟨fuel, h⟩ := hclients.symm.sees_talk hpaired.symm hscope htalk
    exact ⟨fuel, h fuel (Nat.le_refl _)⟩

namespace Sample

def product : String := "fn(a: int, b: int): int => times(a, b)"

/-- Calls of `plus` inside a function and outside one. -/
def twice : String :=
  "do \x7b let twice = fn(f: fn(int): int, x: int): int => f(f(x)); " ++
    "plus(twice(fn(y: int): int => plus(y, 3), 10), 2) \x7d"

/-- The product is made once; then there is an interpreter that calls it `plus`, and another one. -/
def asks : List Ask :=
  [.interpreter 0 [] none, .evaluate, .interpreter 1 [[0]] none, .evaluate, .evaluate, .interpreter 1 [[0]] none,
    .evaluate]

/-- The text of the value that was seen. -/
def shown (a : Answer) : String :=
  match a.outcome with
  | .ok (.value _ text) => text
  | _ => ""

end Sample

open Client.Sample in
theorem talk_load_rebound : ∃ jobs answers, (∀ job ∈ jobs, job.expr.Authored) ∧
    answers.map shown = ["", "<<lambda>: fn(int, int): int>", "", "180", "180", "", "180"] ∧
    (let m := Machine.start Scope.root
     ∃ k d, talk k (m.loadJobs jobs).1 { machine := (m.loadJobs jobs).2 } asks = some (answers, d)) ∧
    ∃ k d, talk k jobs { machine := Machine.start Scope.root } asks = some (answers, d) := by
  have hrun : (Expr.read product).toOption.any (fun e => (Expr.read twice).toOption.any fun e' =>
      let jobs : List Job := [⟨e, []⟩, ⟨e', [["plus"]]⟩]
      let m := Machine.start Scope.root
      (talk 40 (m.loadJobs jobs).1 { machine := (m.loadJobs jobs).2 } asks).any fun x =>
        decide (x.1.map shown = ["", "<<lambda>: fn(int, int): int>", "", "180", "180", "", "180"])) = true := by
    decide +kernel
  obtain ⟨e, he, hrun⟩ := (Option.any_eq_true _ _).mp hrun
  obtain ⟨e', he', hrun⟩ := (Option.any_eq_true _ _).mp hrun
  obtain ⟨⟨answers, d⟩, htalk, hshown⟩ := (Option.any_eq_true _ _).mp hrun
  have hauthored : ∀ job ∈ [(⟨e, []⟩ : Job), ⟨e', [["plus"]]⟩], job.expr.Authored :=
    List.forall_mem_cons.mpr ⟨.read (Expr.read_ok_of_toOption he),
      List.forall_mem_singleton.mpr (.read (Expr.read_ok_of_toOption he'))⟩
  have hvalues : Value.elementsLinked 0 [] = true := rfl
  refine ⟨_, answers, hauthored, of_decide_eq_true hshown, ⟨40, d, htalk⟩, ?_⟩
  exact (talk_load hauthored (m := Machine.start Scope.root) rfl rfl hvalues asks answers).mp ⟨40, d, htalk⟩

end Client

end LiveQuery
