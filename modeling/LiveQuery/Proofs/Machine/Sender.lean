import LiveQuery.Database.Select
import LiveQuery.Proofs.Machine.Invariants

/-! # Whose subscriptions are sent

An evaluation sends subscriptions of the subscriber that it watches for, and of nobody else
(`select_sent`, `rerun_sent`). That holds of every expression and every store, whether it is typed or not: the
subscriber of a subscription comes from the watch of the machine or from a watched iterator, which has it from
the watch.
-/
namespace LiveQuery

/-- Whatever a machine has sent or may send belongs to subscribers in `P`. -/
structure Machine.SendsFor (P : Subscriber → Prop) (m : Machine) : Prop where
  cells : ∀ (h : Nat) (source : Source), m.cells[h]? = some (.ready source) → source.SendsFor P
  live : ∀ w, m.live = some w → P w.subscriber
  sent : ∀ s ∈ m.sent.toList, P s.listener.subscriber

namespace Machine.SendsFor

variable {P : Subscriber → Prop} {m : Machine}

theorem push (h : m.SendsFor P) (f : Frame) : (m.push f).SendsFor P := ⟨h.cells, h.live, h.sent⟩

theorem pop (h : m.SendsFor P) : m.pop.SendsFor P := by
  obtain ⟨top, callers, cells, calls, stamps, rowPath, live, sent⟩ := m
  cases callers with
  | nil => exact h
  | cons f rest => exact ⟨h.cells, h.live, h.sent⟩

theorem setCell (h : m.SendsFor P) (n : Nat) {c : Cell} (hc : ∀ source, c = .ready source → source.SendsFor P) :
    (m.setCell n c).SendsFor P := by
  refine ⟨fun k source hk => ?_, h.live, h.sent⟩
  simp only [Machine.setCell, Array.getElem?_setIfInBounds] at hk
  split at hk
  next heq =>
    split at hk
    next => exact hc source (Option.some.inj hk)
    next => cases hk
  next => exact h.cells k source hk

theorem cell (h : m.SendsFor P) {n : Nat} {source : Source} (hc : m.cell n = .ready source) :
    source.SendsFor P := by
  unfold Machine.cell at hc
  cases hn : m.cells[n]? with
  | none => rw [hn] at hc; cases hc
  | some c =>
    rw [hn] at hc
    exact h.cells n source (hc ▸ hn)

theorem allocate (h : m.SendsFor P) {source : Source} (hs : source.SendsFor P) :
    (m.allocate source).2.SendsFor P := by
  refine ⟨fun k source' hk => ?_, h.live, h.sent⟩
  simp only [Machine.allocate, Array.getElem?_push] at hk
  split at hk
  next => cases hk; exact hs
  next => exact h.cells k source' hk

theorem send (h : m.SendsFor P) {s : Subscription} (hs : P s.listener.subscriber) :
    Machine.SendsFor P { m with sent := m.sent.push s } := by
  refine ⟨h.cells, h.live, fun s' hs' => ?_⟩
  rw [Array.toList_push] at hs'
  rcases List.mem_append.mp hs' with hs' | hs'
  · exact h.sent s' hs'
  · rw [List.mem_singleton.mp hs']
    exact hs

/-- The steps of an evaluation keep whose subscriptions they are. -/
theorem invariant (P : Subscriber → Prop) : Machine.Invariant P fun _ m => m.SendsFor P where
  push f h := h.push f
  pop h := h.pop
  allocate h hs := h.allocate hs
  setCell h hc := h.setCell _ hc
  send h hs := h.send hs
  note _ _ _ h := ⟨h.cells, h.live, h.sent⟩
  cell h hc := h.cell hc
  live h hw := h.live _ hw

end Machine.SendsFor

/-! ## Queries -/

/-- What an evaluation to data sends. -/
theorem Evaluation.run_sent {P : Subscriber → Prop} {fuel : Nat} {m : Machine} {e : Expr} {r : Evaluation Json}
    (hm : m.SendsFor P) (hr : Evaluation.run fuel m e = some r) : ∀ x ∈ r.sent, P x.listener.subscriber := by
  unfold Evaluation.run at hr
  dsimp only at hr
  split at hr
  next => cases hr
  next r' m' hrun =>
    cases hr
    exact ((Machine.SendsFor.invariant P).render hm hrun).sent

section Queries

variable {fuel : Nat} {schema : Schema} {store : Store} {q : Query} {r : Evaluation Json}

/-- A query that is run sends subscriptions of its own subscriber only, and none if it is not live. -/
theorem select_sent {anchor : Option Anchor} (hr : select fuel schema store q anchor = some r) :
    ∀ x ∈ r.sent, ∃ a, anchor = some a ∧ x.listener.subscriber = a.subscriber := by
  unfold select at hr
  dsimp only at hr
  split at hr
  next => cases hr; simp [Evaluation.fail]
  next plan watch hplan =>
    split at hr
    next => cases hr; simp [Evaluation.fail]
    next =>
      obtain ⟨r', hrun, rfl⟩ := Option.map_eq_some_iff.mp hr
      suffices hm : (machineFor (Catalog.scope schema store) watch).SendsFor
          fun u => ∃ a, anchor = some a ∧ u = a.subscriber from
        show ∀ x ∈ r'.sent, _ from Evaluation.run_sent hm hrun
      cases anchor with
      | none =>
        obtain ⟨_, -, hpair⟩ := ok_of_bind hplan
        cases hpair
        exact ⟨by simp [machineFor, Machine.start], by simp [machineFor, Machine.start],
          by simp [machineFor, Machine.start]⟩
      | some a =>
        obtain ⟨_, -, hpair⟩ := ok_of_bind hplan
        cases hpair
        refine ⟨by simp [machineFor, Machine.startLive], ?_, by simp [machineFor, Machine.startLive]⟩
        rintro w ⟨⟩
        exact ⟨a, rfl, rfl⟩

/-- A query that is run again sends subscriptions of its listener's subscriber only. -/
theorem rerun_sent {l : Listener} {key : Literal} (hr : rerun fuel schema store l q key = some r) :
    ∀ x ∈ r.sent, x.listener.subscriber = l.subscriber := by
  unfold rerun at hr
  split at hr
  next => cases hr; simp [Evaluation.fail]
  next =>
    intro x hx
    obtain ⟨a, ha, hsubscriber⟩ := select_sent hr x hx
    cases ha
    exact hsubscriber

end Queries

end LiveQuery
