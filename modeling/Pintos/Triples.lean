/-!
Computations with a state that may stop for a reason. `Runs Allowed x s Q`: from `s`
on, `x` stops for an allowed reason only, and otherwise gives a result and a state
of which `Q` is true.
-/
namespace Pintos.Triples
universe u v

variable {ε : Type v} {σ α β : Type u}

def Runs (Allowed : ε → Prop) (x : StateT σ (Except ε) α) (s : σ) (Q : α → σ → Prop) : Prop :=
  match x s with
  | .ok (a,s') => Q a s'
  | .error e => Allowed e

variable {Allowed : ε → Prop} {x : StateT σ (Except ε) α} {f : α → StateT σ (Except ε) β} {s s' : σ} {Q Q' : α → σ → Prop}
  {R : β → σ → Prop} {a : α} {e : ε}

theorem runs_ok (ran : x s = .ok (a,s')) (holds : Q a s') : Runs Allowed x s Q := by
  rw [Runs,ran]
  exact holds

theorem runs_error (stopped : x s = .error e) (allowed : Allowed e) : Runs Allowed x s Q := by
  rw [Runs,stopped]
  exact allowed

theorem runs_pure (holds : Q a s) : Runs Allowed (pure a) s Q := holds

/-- The rule of sequence. -/
theorem runs_bind (first : Runs Allowed x s Q) (later : ∀ a s', Q a s' → Runs Allowed (f a) s' R) :
    Runs Allowed (x >>= f) s R := by
  have unfolded : (x >>= f) s = (x s >>= fun r => f r.1 r.2) := rfl
  rw [Runs] at first
  rw [Runs,unfolded]
  cases ran : x s with
  | error e =>
    rw [ran] at first
    exact first
  | ok r =>
    rw [ran] at first
    exact later r.1 r.2 first

theorem runs_get {f : σ → StateT σ (Except ε) β} (later : Runs Allowed (f s) s R) : Runs Allowed (get >>= f) s R := later
theorem runs_set {f : PUnit → StateT σ (Except ε) β} (later : Runs Allowed (f ⟨⟩) s' R) : Runs Allowed (set s' >>= f) s R := later
theorem runs_modify {g : σ → σ} {f : PUnit → StateT σ (Except ε) β} (later : Runs Allowed (f ⟨⟩) (g s) R) :
    Runs Allowed (modify g >>= f) s R := later

/-- The rule of consequence. -/
theorem runs_mono (before : Runs Allowed x s Q) (weaker : ∀ a s', Q a s' → Q' a s') : Runs Allowed x s Q' := by
  rw [Runs] at before ⊢
  cases ran : x s with
  | error e =>
    rw [ran] at before
    exact before
  | ok r =>
    rw [ran] at before
    exact weaker r.1 r.2 before

/-- What is true of a result. -/
theorem runs_result (runs : Runs Allowed x s Q) (ran : x s = .ok (a,s')) : Q a s' := by
  rw [Runs,ran] at runs
  exact runs

theorem runs_stop (runs : Runs Allowed x s Q) (stopped : x s = .error e) : Allowed e := by
  rw [Runs,stopped] at runs
  exact runs

end Pintos.Triples
