import Mathlib.Logic.Relation

/-!
Machines whose runs are judged step by step. A `Machine` says where a run may
start and what one event does; `Reaches Guard` collects the states of the runs
whose every step meets `Guard` in the state before it. With `Anything` as the
guard these are the reachable states.
-/
namespace Pintos.Machines
universe u v

/-- A labelled transition system. A step that fails an assertion of the modelled
    code has no successor. -/
structure Machine (State : Type u) (Event : Type v) where
  Initial : State → Prop
  Step : State → Event → State → Prop

variable {State : Type u} {Event : Type v}

/-- The guard that every step meets. -/
def Anything (_ : State) (_ : Event) : Prop := True

/-- The states of the runs of `M` whose steps all meet `Guard`. -/
inductive Reaches (M : Machine State Event) (Guard : State → Event → Prop) : State → Prop
  | start {s : State} (initial : M.Initial s) : Reaches M Guard s
  | next {s s' : State} {e : Event} (before : Reaches M Guard s) (meets : Guard s e) (step : M.Step s e s') :
      Reaches M Guard s'

/-- A run under a stronger guard is a run under a weaker one. -/
theorem reaches_mono {M : Machine State Event} {Guard Weaker : State → Event → Prop}
    (weaker : ∀ s e, Guard s e → Weaker s e) {s : State} (reached : Reaches M Guard s) : Reaches M Weaker s := by
  induction reached with
  | start initial => exact .start initial
  | next _ meets step ih => exact .next ih (weaker _ _ meets) step

/-- The invariant rule: what holds where runs start, and what a guarded step
    keeps, holds in every state of a guarded run. -/
theorem reaches_invariant {M : Machine State Event} {Guard : State → Event → Prop} (Inv : State → Prop)
    (initial : ∀ s, M.Initial s → Inv s)
    (kept : ∀ s e s', Inv s → Guard s e → M.Step s e s' → Inv s') {s : State} (reached : Reaches M Guard s) :
    Inv s := by
  induction reached with
  | start first => exact initial _ first
  | next _ meets step ih => exact kept _ _ _ ih meets step

/-- The machine of a partial step function from one start state. -/
def ofStep (start : State) (step : State → Event → Option State) : Machine State Event where
  Initial s := s = start
  Step s e s' := step s e = some s'

theorem ok_of_toOption {α β : Type} {x : Except α β} {y : β} (some : x.toOption = some y) : x = .ok y := by
  cases x with
  | error fault => cases some
  | ok z => exact congrArg Except.ok (Option.some.inj some)

/-- The state after a list of events, when every one of them succeeds. -/
def run (step : State → Event → Option State) : State → List Event → Option State
  | s, [] => some s
  | s, e :: rest => (step s e).bind (fun s' => run step s' rest)

theorem run_reaches {start : State} {step : State → Event → Option State} {s s' : State} (events : List Event)
    (before : Reaches (ofStep start step) Anything s) (ran : run step s events = some s') :
    Reaches (ofStep start step) Anything s' := by
  induction events generalizing s with
  | nil =>
    simp only [run,Option.some.injEq] at ran
    exact ran ▸ before
  | cons e rest ih =>
    obtain ⟨middle,first,later⟩ := Option.bind_eq_some_iff.mp ran
    exact ih (.next before trivial first) later

/-- What a list of events computes from the start state is reachable. -/
theorem run_reachable (start : State) (step : State → Event → Option State) (events : List Event) {s : State}
    (ran : run step start events = some s) : Reaches (ofStep start step) Anything s :=
  run_reaches events (.start rfl) ran

/-- As `run`, but only through steps that meet `Guard`. -/
def guardedRun (step : State → Event → Option State) (Guard : State → Event → Prop)
    [∀ s e, Decidable (Guard s e)] : State → List Event → Option State
  | s, [] => some s
  | s, e :: rest => if Guard s e then (step s e).bind (fun s' => guardedRun step Guard s' rest) else none

theorem guardedRun_reaches {start : State} {step : State → Event → Option State} {Guard : State → Event → Prop}
    [∀ s e, Decidable (Guard s e)] {s s' : State} (events : List Event)
    (before : Reaches (ofStep start step) Guard s) (ran : guardedRun step Guard s events = some s') :
    Reaches (ofStep start step) Guard s' := by
  induction events generalizing s with
  | nil =>
    simp only [guardedRun,Option.some.injEq] at ran
    exact ran ▸ before
  | cons e rest ih =>
    simp only [guardedRun] at ran
    split at ran
    · next meets =>
      obtain ⟨middle,first,later⟩ := Option.bind_eq_some_iff.mp ran
      exact ih (.next before meets first) later
    · cases ran

theorem guardedRun_reachable (start : State) (step : State → Event → Option State) (Guard : State → Event → Prop)
    [∀ s e, Decidable (Guard s e)] (events : List Event) {s : State}
    (ran : guardedRun step Guard start events = some s) : Reaches (ofStep start step) Guard s :=
  guardedRun_reaches events (.start rfl) ran

end Pintos.Machines
