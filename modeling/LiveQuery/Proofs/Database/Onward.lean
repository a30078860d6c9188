import LiveQuery.Proofs.Database.Reachable

/-! # From one state to another

`Onward` are the moves that lead from one database to another, every state on the way passing a test. The
moves of a script (`Cue`) are such a sequence, so a run can be shown by playing it (`Onward.of_follow`).
-/
namespace LiveQuery

/-- The states that are reached from `s`, each of which satisfies `P`. -/
inductive Onward (texts : String → Prop) (P : Database → Prop) (s : Database) : Database → Prop
  | start (test : P s) : Onward texts P s s
  | move {t u : Database} (before : Onward texts P s t) (h : Move texts t u) (test : P u) :
      Onward texts P s u

namespace Onward

variable {texts : String → Prop} {P : Database → Prop} {s t : Database}

theorem test (h : Onward texts P s t) : P t := by
  cases h with
  | start test => exact test
  | move _ _ test => exact test

theorem mono {texts' : String → Prop} {P' : Database → Prop} (h : Onward texts P s t)
    (ht : ∀ text, texts text → texts' text) (hp : ∀ s, P s → P' s) : Onward texts' P' s t := by
  induction h with
  | start test => exact .start (hp _ test)
  | move _ h test ih => exact ih.move (h.mono ht) (hp _ test)

end Onward

/-- What was reached stays reachable. -/
theorem Reachable.onward {texts : String → Prop} {P : Database → Prop} {s t : Database} (hs : Reachable s)
    (h : Onward texts P s t) : Reachable t := by
  induction h with
  | start => exact hs
  | move _ h _ ih => exact ih.move (h.mono fun _ _ => trivial)

theorem Reachable.empty : Reachable {} := .opened Store.ordered_empty rfl

/-! ## Scripts -/

/-- One move, told in advance. -/
inductive Cue
  | connect
  | call (text : String)
  | run (connection : Nat) (text : String)
  | task (i : Nat)
  | actor (table : String)
  | closeChannel (subscriber : Subscriber)
  | disconnect (connection : Nat)
  | takeMessages (connection : Nat)

/-- Makes the move; a task gets the fuel, and goes through the actors in the order of their tables. -/
def Database.cue (fuel : Nat) (s : Database) : Cue → Option Database
  | .connect => some s.connect.2
  | .call text => some (s.call 0 text)
  | .run connection text => (s.run connection text).map Prod.snd
  | .task i => s.stepTask fuel default i
  | .actor table => s.stepActor table
  | .closeChannel u => some (s.closeChannel u)
  | .disconnect connection => some (s.disconnect connection)
  | .takeMessages connection => some (s.takeMessages connection).2

/-- Makes the moves of a script as long as the states pass the test. -/
def Database.follow (test : Database → Bool) (fuel : Nat) : List Cue → Database → Option Database
  | [], s => some s
  | c :: script, s =>
    match s.cue fuel c with
    | some t => if test t then t.follow test fuel script else none
    | none => none

/-- Whether the text of the move, if it has one, passes a test. -/
def Cue.reads (test : String → Bool) : Cue → Bool
  | .call text | .run _ text => test text
  | .connect | .task _ | .actor _ | .closeChannel _ | .disconnect _ | .takeMessages _ => true

theorem Move.of_cue {texts : String → Bool} {fuel : Nat} {s t : Database} {c : Cue} (hc : c.reads texts = true)
    (h : s.cue fuel c = some t) : Move (texts · = true) s t := by
  cases c with
  | connect => cases h; exact .connect s
  | call text => cases h; exact .call s 0 hc
  | run connection text =>
    obtain ⟨⟨channel, t'⟩, hrun, rfl⟩ := Option.map_eq_some_iff.mp h
    exact .run hc hrun
  | task i => exact .step (.task fuel default i h)
  | actor table => exact .step (.actor table h)
  | closeChannel u => cases h; exact .closeChannel s u
  | disconnect connection => cases h; exact .disconnect s connection
  | takeMessages connection => cases h; exact .takeMessages s connection

/-- A script that can be followed leads onward. -/
theorem Onward.of_follow {test : Database → Bool} {fuel : Nat} {script : List Cue} {s t u : Database}
    (h : Onward (fun _ => True) (test · = true) s t) (hf : t.follow test fuel script = some u) :
    Onward (fun _ => True) (test · = true) s u := by
  induction script generalizing t with
  | nil => cases hf; exact h
  | cons c script ih =>
    simp only [Database.follow] at hf
    split at hf
    next v hv =>
      split at hf
      next hok =>
        have hreads : c.reads (fun _ => true) = true := by cases c <;> rfl
        exact ih (h.move ((Move.of_cue hreads hv).mono fun _ _ => trivial) hok) hf
      next => cases hf
    next => cases hf

theorem Reachable.follow {fuel : Nat} {script : List Cue} {s t : Database} (hs : Reachable s)
    (hf : s.follow (fun _ => true) fuel script = some t) : Reachable t :=
  hs.onward (.of_follow (.start rfl) hf)

end LiveQuery
