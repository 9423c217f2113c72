import Pintos.Machines

/-!
Runs with the events that they show, and forward simulation between two machines with
the same events: where one simulates the other step by step, it shows whatever the
other shows.
-/
namespace Pintos.Simulations
open Pintos.Machines
universe u v w

variable {State : Type u} {Event : Type v} {Abstract : Type w}

/-- The states that a machine is in after showing a list of events. -/
inductive Shows (M : Machine State Event) : List Event → State → Prop
  | start {s : State} (initial : M.Initial s) : Shows M [] s
  | next {events : List Event} {s s' : State} {e : Event} (before : Shows M events s) (step : M.Step s e s') :
    Shows M (events ++ [e]) s'

variable {M : Machine State Event} {A : Machine Abstract Event} {events : List Event} {s : State}

/-- `R` holds between the states of the two machines at each moment. -/
structure Simulates (M : Machine State Event) (A : Machine Abstract Event) (R : State → Abstract → Prop) : Prop where
  initial : ∀ s, M.Initial s → ∃ a, A.Initial a ∧ R s a
  step : ∀ s e s' a, R s a → M.Step s e s' → ∃ a', A.Step a e a' ∧ R s' a'

variable {R : State → Abstract → Prop}

/-- The simulation rule. -/
theorem simulated_run (simulates : Simulates M A R) (ran : Shows M events s) : ∃ a, Shows A events a ∧ R s a := by
  induction ran with
  | start initial =>
    obtain ⟨a,begins,related⟩ := simulates.initial _ initial
    exact ⟨a,.start begins,related⟩
  | next _ step ih =>
    obtain ⟨a,ran,related⟩ := ih
    obtain ⟨a',follows,related'⟩ := simulates.step _ _ _ a related step
    exact ⟨a',.next ran follows,related'⟩

end Pintos.Simulations
