import Mathlib.Data.List.Basic

/-!
Computations that log what they do. A `Traced` computation reads a state, logs
events and returns or stops. A `Discipline` says which events are allowed with
what was learnt from the events before them; a log obeys it when every one of
its events is allowed where it stands.
-/
namespace Pintos.Traces
universe u v w x

/-- A computation over a fixed state, with its log. -/
def Traced (State : Type u) (Event : Type v) (Stop : Type w) (α : Type x) := State → List Event × Except Stop α

variable {State : Type u} {Event : Type v} {Stop : Type w} {α β : Type x}

def Traced.pure (a : α) : Traced State Event Stop α := fun _ => ([],.ok a)
def Traced.bind (first : Traced State Event Stop α) (next : α → Traced State Event Stop β) : Traced State Event Stop β := fun s =>
  match first s with
  | (log,.error stop) => (log,.error stop)
  | (log,.ok a) => (log ++ (next a s).1,(next a s).2)

instance : Monad (Traced State Event Stop) where
  pure := Traced.pure
  bind := Traced.bind

/-- The computation that only stops. -/
def halt (stop : Stop) : Traced State Event Stop α := fun _ => ([],.error stop)

@[simp] theorem run_pure (a : α) (s : State) : (Pure.pure a : Traced State Event Stop α) s = ([],.ok a) := rfl

theorem run_bind (first : Traced State Event Stop α) (next : α → Traced State Event Stop β) (s : State) :
    (first >>= next) s = match first s with
      | (log,.error stop) => (log,.error stop)
      | (log,.ok a) => (log ++ (next a s).1,(next a s).2) := rfl

theorem run_bind_ok {first : Traced State Event Stop α} {next : α → Traced State Event Stop β} {s : State}
    {log : List Event} {a : α}
    (ran : first s = (log,.ok a)) : (first >>= next) s = (log ++ (next a s).1,(next a s).2) := by
  rw [run_bind,ran]

theorem run_bind_error {first : Traced State Event Stop α} {next : α → Traced State Event Stop β} {s : State} {log : List Event}
    {stop : Stop} (ran : first s = (log,.error stop)) : (first >>= next) s = (log,.error stop) := by
  rw [run_bind,ran]

/-! ### Disciplines -/

/-- What is learnt from an event, and which events what was learnt allows. -/
structure Discipline (Event : Type v) (Known : Type w) where
  learn : Known → Event → Known
  Allowed : Known → Event → Prop

variable {Known : Type w} {D : Discipline Event Known} {known : Known} {e : Event} {log more : List Event}

def Discipline.after (D : Discipline Event Known) (known : Known) (log : List Event) : Known := log.foldl D.learn known

def Discipline.Obeys (D : Discipline Event Known) : Known → List Event → Prop
  | _, [] => True
  | known, e :: rest => D.Allowed known e ∧ D.Obeys (D.learn known e) rest

@[simp] theorem after_nil : D.after known [] = known := rfl
@[simp] theorem after_cons : D.after known (e :: log) = D.after (D.learn known e) log := rfl
theorem after_append : D.after known (log ++ more) = D.after (D.after known log) more := List.foldl_append
@[simp] theorem obeys_nil : D.Obeys known [] := trivial
@[simp] theorem obeys_cons : D.Obeys known (e :: log) ↔ D.Allowed known e ∧ D.Obeys (D.learn known e) log := Iff.rfl

theorem obeys_append : D.Obeys known (log ++ more) ↔ D.Obeys known log ∧ D.Obeys (D.after known log) more := by
  induction log generalizing known with
  | nil => simp
  | cons e rest ih => simp [ih,and_assoc]

/-- A log obeys when each of its events is allowed by the events before it. -/
theorem obeys_iff : D.Obeys known log ↔ ∀ before e rest, log = before ++ e :: rest → D.Allowed (D.after known before) e := by
  constructor
  · rintro obeys before e rest rfl
    exact (obeys_append.mp obeys).2.1
  · intro allowed
    induction log generalizing known with
    | nil => trivial
    | cons e rest ih =>
      refine ⟨allowed [] e rest rfl,ih fun before e' rest' split => ?_⟩
      exact allowed (e :: before) e' rest' (by rw [split]; rfl)

/-- The rule for a sequence: the first part obeys, and where it returns, so does the
    second with what was learnt. -/
theorem obeys_bind {first : Traced State Event Stop α} {next : α → Traced State Event Stop β} {s : State} :
    D.Obeys known ((first >>= next) s).1 ↔
      D.Obeys known (first s).1 ∧ ∀ a, (first s).2 = .ok a → D.Obeys (D.after known (first s).1) (next a s).1 := by
  rw [run_bind]
  obtain ⟨log,result⟩ := first s
  cases result with
  | error stop => simp
  | ok a =>
    constructor
    · intro obeys
      refine ⟨(obeys_append.mp obeys).1,fun b same => ?_⟩
      cases same
      exact (obeys_append.mp obeys).2
    · rintro ⟨obeys,later⟩
      exact obeys_append.mpr ⟨obeys,later a rfl⟩

end Pintos.Traces
